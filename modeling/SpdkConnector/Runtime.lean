import SpdkConnector.Context
import Mathlib.Data.Finset.Basic

/-!
# `SpdkRuntime` and its contexts (spdk/spdk_runtime.cpp)

One process-wide runtime with the bdevs claimed on it, and any number of `SpdkBdevContext` objects: each is
constructed on a thread of its own (spdk_bdev_context.cpp:147-203), lives as the machine of `Context`, and
gives its claim back at the end of `close()`. A context's index is its address; it is not used again.

| here | there |
| --- | --- |
| `claimBdev`, `releaseBdev` | `SpdkRuntime::ClaimBdev`, `ReleaseBdev` (:202-213), the critical sections |
| `Phase` | where the thread that constructs or closes a context is |
| `World` | `claimed_bdevs_`, `is_available()`, and the contexts |

Fields marked *observed* are read by no code.
-/

namespace SpdkConnector
namespace SpdkRuntime

open SpdkBdevContext

/-- `ClaimBdev` (:202). -/
def claimBdev (claimed : Finset String) (bdevName : String) : Except String (Finset String) :=
  if bdevName ∈ claimed then
    .error ("SPDK bdev '" ++ bdevName ++ "' is already owned by another L2 adapter")
  else .ok (insert bdevName claimed)

/-- `ReleaseBdev` (:210). -/
def releaseBdev (claimed : Finset String) (bdevName : String) : Finset String := claimed.erase bdevName

inductive Phase where
  | absent
  /-- `Acquire` has returned the runtime (:178). -/
  | claiming
  /-- `bdev_claimed_` is set; about to post `OpenCallback` (:181). -/
  | sending
  /-- The catch block of a context that has its claim (:183). -/
  | abandoning (error : String)
  /-- The constructor has thrown before the wait. -/
  | failed (error : String)
  /-- The object is there; `releasing`: `close()` is about to call `ReleaseBdev` (:284). -/
  | live (s : Sys) (releasing : Bool)

structure Context where
  env : Env := ⟨⟨0, 0, 0, 0, 0, 0, 0, 0, 0, 0⟩, 0, "", fun _ => ""⟩
  phase : Phase := .absent
  /-- *observed*: the claims it has acquired. -/
  claims : Nat := 0
  /-- *observed*: its calls of `ReleaseBdev`. -/
  releases : Nat := 0

structure World where
  claimedBdevs : Finset String := ∅
  available : Bool := true
  context : Nat → Context := fun _ => {}

def World.setContext (w : World) (i : Nat) (x : Context) : World :=
  { w with context := Function.update w.context i x }

inductive WorldAction where
  /-- The constructor of a new context: `none` throws before it has the runtime (:150-177). -/
  | construct (i : Nat) (env : Env) (error : Option String)
  | claim (i : Nat)
  /-- `spdk_thread_send_msg` of `OpenCallback` returns `rc`; what the device holds. -/
  | send (i : Nat) (rc : Int) (device : Nat → UInt8)
  | abandon (i : Nat)
  /-- A step of the machine of context `i`. -/
  | context (i : Nat) (a : Action)
  /-- `ReleaseBdev` at the end of `close()`. -/
  | release (i : Nat)
  | runtimeStops

/-- A step of a live context. The runtime is not its own, and its owner is not in `ReleaseBdev`. -/
def liveStep (e : Env) (s : Sys) (releasing : Bool) : Action → Option (Sys × Bool)
  | .runtimeStops => none
  | .owner c =>
    if releasing then none
    else
      -- the second critical section of `close()` moves the runtime and the claim out
      (ownerStep e s c).map fun s' => (s', s.owner == .releasing && s.ctx.bdevClaimed && s.ctx.runtime)
  | a => (step e s a).map fun s' => (s', releasing)

def worldStep (w : World) : WorldAction → Option World
  | .construct i env error =>
    match (w.context i).phase with
    | .absent => some (w.setContext i { env, phase := error.elim .claiming .failed })
    | _ => none
  | .claim i =>
    let x := w.context i
    match x.phase with
    | .claiming =>
      match claimBdev w.claimedBdevs x.env.bdevName with
      | .error error => some (w.setContext i { x with phase := .failed error })
      | .ok claimedBdevs =>
        let w := w.setContext i { x with phase := .sending, claims := x.claims + 1 }
        some { w with claimedBdevs }
    | _ => none
  | .send i rc device =>
    let x := w.context i
    match x.phase with
    | .sending =>
      let phase :=
        if !w.available then .abandoning "SPDK runtime is unavailable"
        else if rc ≠ 0 then .abandoning (x.env.spdkError "posting SPDK message" rc)
        else .live (Sys.init device) false
      some (w.setContext i { x with phase })
    | _ => none
  | .abandon i =>
    let x := w.context i
    match x.phase with
    | .abandoning error =>
      let w := w.setContext i { x with phase := .failed error, releases := x.releases + 1 }
      some { w with claimedBdevs := releaseBdev w.claimedBdevs x.env.bdevName }
    | _ => none
  | .context i a =>
    let x := w.context i
    match x.phase with
    | .live s releasing =>
      (liveStep x.env s releasing a).map fun p => w.setContext i { x with phase := .live p.1 p.2 }
    | _ => none
  | .release i =>
    let x := w.context i
    match x.phase with
    | .live s true =>
      let w := w.setContext i { x with phase := .live s false, releases := x.releases + 1 }
      some { w with claimedBdevs := releaseBdev w.claimedBdevs x.env.bdevName }
    | _ => none
  | .runtimeStops =>
    some { w with
      available := false
      context := fun i =>
        let x := w.context i
        match x.phase with
        | .live s releasing => { x with phase := .live { s with runtimeAvailable := false } releasing }
        | _ => x }

/-- The descriptor of the context's bdev is open. -/
def Context.descriptorOpen (x : Context) : Bool :=
  match x.phase with
  | .live s _ => s.ctx.bdevDescriptor
  | _ => false

/-- The constructor has thrown, or `close()` has returned. -/
def Context.finished (x : Context) : Bool :=
  match x.phase with
  | .failed _ => true
  | .live s releasing => s.owner == .closed && !releasing
  | _ => false

end SpdkRuntime
end SpdkConnector
