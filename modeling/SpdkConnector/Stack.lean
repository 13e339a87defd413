import SpdkConnector.Connector.BatchCalls
import SpdkConnector.Context.Linearization

/-!
# The connector over its context

The operations of the connector (`Connector`) and the context they submit their batches to (`Context`) as one
system. A thread runs its operation one command at a time; at a call of `submit_batch_and_wait` it enters the context
and waits in it, while the reactors, SPDK and the device serve its batch beside the batches of the other threads.

| here | there |
| --- | --- |
| `Place` | where a thread of the connector is: in its operation, or in `submit_batch_and_wait` |
| `Step.submit`, `Step.refused`, `Step.returns` | the call (spdk_bdev_context.cpp:677-724), its exception (:686), its return (:744-749) |
| `Step.context` | every other step of the context: callers, reactors, SPDK, the device, the owner |

The device is the context's; nothing here reads the `dev` of `shared`.
-/

namespace SpdkConnector
namespace Stack

open Interleaving SpdkBdevContext

/-- Where a thread is. `rest` is what follows the call it waits in. -/
inductive Place where
  | running (prog : P Ret)
  | waiting (b : Nat) (bufs : List Bytes) (rest : Except Exn (List IoResult × List Bytes) → P Ret)

structure Worker where
  job : Call
  place : Place

structure State where
  shared : Shared
  workers : Nat → Option Worker
  /-- The operations that have returned, in their order. -/
  done : List (Nat × Call × Outcome)
  context : Sys

/-- After the constructors: the context has yet to be initialised. -/
def State.init (a : PageExtentAllocator) (device : Nat → UInt8) : State :=
  ⟨Shared.init a device, fun _ => none, [], Sys.init device⟩

def State.put (S : State) (t : Nat) (w : Option Worker) : State :=
  { S with workers := Function.update S.workers t w }

/-- The commands a batch is made of: here the context does what they stand for. -/
def transfers : Cmd → Bool
  | .enqueue | .pick _ | .writeSegment _ _ | .readSegment _ => true
  | _ => false

/-- The caller's buffers with the bytes of his memory. -/
def refill (bufs : List Bytes) (memory : Nat → Nat → UInt8) : List Bytes :=
  bufs.mapIdx fun k buf => buf.mapIdx fun j _ => memory k j

inductive Step (e : Env) : State → State → Prop
  | start {S : State} (t : Nat) (j : Call) (hidle : S.workers t = none) (hnew : ∀ d ∈ S.done, d.1 ≠ t) :
      Step e S (S.put t (some ⟨j, .running (body e.geometry j)⟩))
  | command {S : State} {t : Nat} {j : Call} {c : Cmd} {k : Answer c → P Ret} {ch : Choice} {r : Answer c} {s : Shared}
      (ht : S.workers t = some ⟨j, .running (.call c k)⟩) (hc : transfers c = false)
      (he : exec e.geometry t c ch S.shared = some (r, s)) :
      Step e S ({ S with shared := s }.put t (some ⟨j, .running (k r)⟩))
  | submit {S : State} {t : Nat} {j : Call} {p : P Ret} {op : Operation} {items : List IoBatchItem} {bufs : List Bytes}
      {rest : Except Exn (List IoResult × List Bytes) → P Ret} {memory : Nat → Nat → UInt8} {context : Sys}
      (ht : S.workers t = some ⟨j, .running p⟩) (hat : AtBatch e.geometry p op items bufs rest)
      (hmemory : Backs bufs memory) (hs : step e S.context (.submit op items memory) = some context)
      (hadmitted : context.batches ≠ S.context.batches) :
      Step e S ({ S with context }.put t (some ⟨j, .waiting S.context.batches bufs rest⟩))
  | refused {S : State} {t : Nat} {j : Call} {p : P Ret} {op : Operation} {items : List IoBatchItem} {bufs : List Bytes}
      {rest : Except Exn (List IoResult × List Bytes) → P Ret} {memory : Nat → Nat → UInt8} {context : Sys}
      (ht : S.workers t = some ⟨j, .running p⟩) (hat : AtBatch e.geometry p op items bufs rest)
      (hs : step e S.context (.submit op items memory) = some context)
      (hrefused : context.batches = S.context.batches) :
      Step e S ({ S with context }.put t
        (some ⟨j, .running (rest (.error ⟨.runtimeError, notAvailable S.context.ctx⟩))⟩))
  | context {S : State} {a : Action} {context : Sys} (hs : step e S.context a = some context)
      (hsubmit : ∀ op items memory, a ≠ .submit op items memory) (hreturn : ∀ b, ¬ Returns S.context b a) :
      Step e S { S with context }
  | returns {S : State} {t : Nat} {j : Call} {b : Nat} {bufs : List Bytes}
      {rest : Except Exn (List IoResult × List Bytes) → P Ret} {context : Sys}
      (ht : S.workers t = some ⟨j, .waiting b bufs rest⟩) (hb : (S.context.batch b).caller = .returning)
      (hs : step e S.context (.caller b .next) = some context) :
      Step e S ({ S with context }.put t
        (some ⟨j, .running (rest (.ok ((S.context.batch b).results, refill bufs (S.context.batch b).memory)))⟩))
  | finish {S : State} {t : Nat} {j : Call} {p : P Ret} {o : Outcome} (ht : S.workers t = some ⟨j, .running p⟩)
      (ho : p.result? = some o) : Step e S ({ S with done := S.done ++ [(t, j, o)] }.put t none)

/-- A run of the system: any number of threads, any operations, any order of steps. -/
def Reaches (e : Env) (a : PageExtentAllocator) (device : Nat → UInt8) (S : State) : Prop :=
  Relation.ReflTransGen (Step e) (State.init a device) S

/-- Thread `t` waits for batch `b`. -/
def State.Waits (S : State) (t b : Nat) : Prop :=
  ∃ j bufs rest, S.workers t = some ⟨j, .waiting b bufs rest⟩

end Stack
end SpdkConnector
