import SpdkConnector.Codec.Sha256
import SpdkConnector.Interleaving.Machine
import Mathlib.Logic.Function.Basic

/-!
# `SpdkNvmeKvConnector` (src/nvme-kv/csrc/native_kv_connector.cpp)

The workers of the native NVMe-KV connector over one KV namespace. A worker runs one `do_single_*` call
at a time on its own `KvConnection`; the qpair keeps a submitted command until
`spdk_nvme_qpair_process_completions` on it delivers the completion. The `CommandResult` of a call lies
on the worker's stack, its staging buffer in the DMA heap.

| here | there |
|---|---|
| `deriveKey`, `ensureValueSize`, `complete` | `derive_key`, `ensure_value_size`, `complete` (:307, :349, :300) |
| `enter`, `submit`, `settle` | the `do_single_*` bodies (:170-243) |
| `test`, `processed`, `clock` | the loop of `wait_for_completion` (:329) |
| `allocate`, `leave` | `DmaBuffer` and its destructor (:22) |

The device runs an outstanding command at any moment before its completion is delivered, and may fail it.
Trace events carry no state and are left out.
-/
namespace SpdkConnector
namespace SpdkNvmeKvConnector

open Codec

inductive Operation where
  | retrieve
  | store
  | exist
  | delete
  deriving DecidableEq, Repr

/-- The name `wait_for_completion` puts into its errors. -/
def Operation.name : Operation → String
  | .retrieve => "retrieve"
  | .store => "store"
  | .exist => "exist"
  | .delete => "delete"

/-- `CommandResult` (native_kv_connector.h:64). -/
structure CommandResult where
  done : Bool
  success : Bool
  deriving DecidableEq, Repr

/-- What a completion reports; `error` is any failure but an absent key. -/
inductive Status where
  | success
  | keyNotFound
  | error
  deriving DecidableEq, Repr

/-- A command the qpair holds. `ticket` numbers the submissions of the connection, `context` is the
address of the caller's `CommandResult`. -/
structure Command where
  ticket : Nat
  operation : Operation
  deviceKey : Bytes
  staging : Option Nat
  len : Nat
  context : Nat
  /-- Set once the device has run the command. -/
  status : Option Status
  deriving DecidableEq, Repr

inductive Call where
  | get (key : Bytes) (len : Nat)
  | set (key buf : Bytes)
  | exists (key : Bytes)
  | delete (key : Bytes)
  deriving DecidableEq, Repr

def Call.key : Call → Bytes
  | .get key _ | .set key _ | .exists key | .delete key => key

/-- The first command of a call; `do_single_delete` starts with `do_single_exists`. -/
def Call.operation : Call → Operation
  | .get _ _ => .retrieve
  | .set _ _ => .store
  | .exists _ | .delete _ => .exist

/-- The length of the staging buffer, for the commands that have one. -/
def Call.stagingLen : Call → Option Nat
  | .get _ len => some len
  | .set _ buf => some buf.length
  | .exists _ | .delete _ => none

inductive Pc where
  /-- Nothing of the command is prepared yet. -/
  | entry
  /-- The staging buffer and the `CommandResult` are there. -/
  | submitting
  /-- At `while (!result->done)`. -/
  | testing
  /-- Inside `spdk_nvme_qpair_process_completions`. -/
  | polling
  /-- It has returned without an error. -/
  | polled
  deriving DecidableEq, Repr

/-- The call a worker is in. -/
structure Activation where
  call : Call
  /-- The command it is at. -/
  operation : Operation
  pc : Pc
  staging : Option Nat
  /-- The address of its `CommandResult`. -/
  result : Nat
  ticket : Nat
  deriving DecidableEq, Repr

inductive Outcome where
  /-- `do_single_get` has filled its buffer. -/
  | filled (buf : Bytes)
  | stored
  | answer (value : Bool)
  /-- `std::runtime_error`. -/
  | raised (what : String)
  deriving DecidableEq, Repr

inductive Event where
  /-- The qpair ran the `complete` callback of a command while the worker was in this activation. -/
  | completed (command : Command) (active : Option Activation)
  /-- `spdk_dma_free` with these commands outstanding. -/
  | freed (staging : Nat) (outstanding : List Command)
  | returned (call : Call) (outcome : Outcome)
  deriving DecidableEq, Repr

structure KvConnection where
  outstanding : List Command
  /-- The worker's stack, at the addresses of `CommandResult`s. -/
  memory : Nat → CommandResult
  active : Option Activation
  /-- Submissions so far. -/
  submitted : Nat
  log : List Event

structure Sys where
  /-- The KV namespace. -/
  records : Bytes → Option Bytes
  /-- The DMA heap. -/
  dma : Nat → Option Bytes
  connection : Nat → KvConnection

def Sys.init (records : Bytes → Option Bytes) : Sys where
  records
  dma := fun _ => none
  connection := fun _ => ⟨[], fun _ => ⟨false, false⟩, none, 0, []⟩

def Sys.setConnection (s : Sys) (w : Nat) (c : KvConnection) : Sys :=
  { s with connection := Function.update s.connection w c }

/-- `"lmcache-spdk-nvme-kv/native-l2/v1\0"` without the terminator of the literal (:16). -/
def keyDomain : Bytes := "lmcache-spdk-nvme-kv/native-l2/v1".toUTF8.toList ++ [0]

/-- `derive_key` (:307). -/
def deriveKey (key : Bytes) : Bytes :=
  (sha256 (keyDomain ++ key)).take 16

/-- `ensure_value_size` (:349) lets this length pass. -/
def ensureValueSize (maxValueBytes len : Nat) : Bool :=
  len != 0 && len ≤ maxValueBytes

/-- The end of a call: `~DmaBuffer` runs, then the caller has the outcome. -/
def leave (s : Sys) (w : Nat) (a : Activation) (outcome : Outcome) : Sys :=
  let c := s.connection w
  match a.staging with
  | none => s.setConnection w { c with active := none, log := c.log ++ [Event.returned a.call outcome] }
  | some d =>
    Sys.setConnection { s with dma := Function.update s.dma d none } w
      { c with active := none, log := c.log ++ [Event.freed d c.outstanding, Event.returned a.call outcome] }

def Sys.goto (s : Sys) (w : Nat) (a : Activation) : Sys :=
  s.setConnection w { s.connection w with active := some a }

/-- The prologue of a `do_single_*` body: the size check, the staging buffer at `buffer` (`none` when
the allocation fails), and a `CommandResult` at `address`. -/
def enter (maxValueBytes : Nat) (s : Sys) (w : Nat) (a : Activation) (address : Nat) (buffer : Option Nat) :
    Option Sys :=
  let c := s.connection w
  let fresh : KvConnection := { c with
    memory := Function.update c.memory address ⟨false, false⟩
    active := some { a with pc := .submitting, result := address } }
  match a.call.stagingLen with
  | none => some (s.setConnection w fresh)
  | some len =>
    if !ensureValueSize maxValueBytes len then
      some (leave s w a (.raised "LMCache object length exceeds NVMe-KV value limit"))
    else
      match buffer with
      | none => some (leave s w a (.raised "SPDK DMA allocation failed"))
      | some d =>
        match s.dma d with
        | some _ => none
        | none =>
          let bytes := match a.call with
            | .set _ buf => buf
            | _ => List.replicate len 0
          some (Sys.setConnection { s with dma := Function.update s.dma d (some bytes) } w
            { fresh with active := some { a with pc := .submitting, result := address, staging := some d } })

/-- The `spdk_nvme_kv_*` call; the result code is nonzero when it is not `accepted`. -/
def submit (s : Sys) (w : Nat) (a : Activation) (accepted : Bool) : Sys :=
  let c := s.connection w
  if accepted then
    s.setConnection w { c with
      outstanding := c.outstanding ++ [{
        ticket := c.submitted, operation := a.operation, deviceKey := deriveKey a.call.key,
        staging := a.staging, len := a.call.stagingLen.getD 0, context := a.result, status := none }]
      active := some { a with pc := .testing, ticket := c.submitted }
      submitted := c.submitted + 1 }
  else
    leave s w a (.raised ("NVMe-KV " ++ a.operation.name ++ " submission failed"))

/-- What follows the loop of `wait_for_completion` (:344) and the rest of the body. -/
def settle (s : Sys) (w : Nat) (a : Activation) : Sys :=
  let success := ((s.connection w).memory a.result).success
  if a.operation != .exist && !success then
    leave s w a (.raised ("NVMe-KV " ++ a.operation.name ++ " failed"))
  else
    match a.call with
    | .get _ len => leave s w a (.filled (((a.staging.bind s.dma).getD []).take len))
    | .set _ _ => leave s w a .stored
    | .exists _ => leave s w a (.answer success)
    | .delete _ =>
      if a.operation == .exist && success then
        s.goto w { a with operation := .delete, pc := .entry }
      else
        leave s w a (.answer (a.operation == .delete))

/-- `complete` (:300). -/
def complete (c : KvConnection) (context : Nat) (success : Bool) : KvConnection :=
  { c with memory := Function.update c.memory context ⟨true, success⟩ }

theorem command_only {cmd c : Command} {k : Nat} (h : [cmd][k]? = some c) : k = 0 ∧ cmd = c := by
  cases k with
  | zero => exact ⟨rfl, Option.some.inj h⟩
  | succ k => cases h

/-- The device runs command `k` of connection `w`; with `fault` it fails and changes nothing. -/
def execute (s : Sys) (w k : Nat) (fault : Bool) : Option Sys :=
  match (s.connection w).outstanding[k]? with
  | none => none
  | some cmd =>
    if cmd.status.isSome then none
    else
      let finish (s' : Sys) (status : Status) : Sys :=
        let c := s'.connection w
        s'.setConnection w { c with outstanding := c.outstanding.set k { cmd with status := some status } }
      if fault then some (finish s .error)
      else
        match cmd.operation, s.records cmd.deviceKey with
        | .store, _ =>
          let value := ((cmd.staging.bind s.dma).getD []).take cmd.len
          some (finish { s with records := Function.update s.records cmd.deviceKey (some value) } .success)
        | _, none => some (finish s .keyNotFound)
        | .exist, some _ => some (finish s .success)
        | .delete, some _ =>
          some (finish { s with records := Function.update s.records cmd.deviceKey none } .success)
        | .retrieve, some value =>
          -- the device writes to the address it was given, whoever owns the bytes there now
          let write (d : Nat) : Option Bytes :=
            (s.dma d).map fun bytes =>
              let n := min value.length (min cmd.len bytes.length)
              value.take n ++ bytes.drop n
          some (finish { s with dma := match cmd.staging with
            | none => s.dma
            | some d => Function.update s.dma d (write d) } .success)

inductive Action where
  | call (call : Call)
  | enter (address : Nat) (buffer : Option Nat)
  | submit (accepted : Bool)
  | test
  /-- The qpair delivers the completion of outstanding command `k`. -/
  | deliver (k : Nat)
  /-- `spdk_nvme_qpair_process_completions` returns, a negative number if not `ok`. -/
  | processed (ok : Bool)
  /-- The clock is read: past the deadline or not. -/
  | clock (expired : Bool)
  /-- The device runs outstanding command `k`. -/
  | execute (k : Nat) (fault : Bool)
  deriving DecidableEq, Repr

/-- The action of connection `w`. -/
def step (maxValueBytes : Nat) (s : Sys) : Nat × Action → Option Sys
  | (w, .execute k fault) => execute s w k fault
  | (w, .call call) =>
    match (s.connection w).active with
    | some _ => none
    | none => some (s.goto w ⟨call, call.operation, .entry, none, 0, 0⟩)
  | (w, act) =>
    let c := s.connection w
    match c.active with
    | none => none
    | some a =>
      match a.pc, act with
      | .entry, .enter address buffer => enter maxValueBytes s w a address buffer
      | .submitting, .submit accepted => some (submit s w a accepted)
      | .testing, .test =>
        if (c.memory a.result).done then some (settle s w a) else some (s.goto w { a with pc := .polling })
      | .polling, .deliver k =>
        match c.outstanding[k]? with
        | none => none
        | some cmd =>
          match cmd.status with
          | none => none
          | some status =>
            some (s.setConnection w { complete c cmd.context (status == .success) with
              outstanding := c.outstanding.eraseIdx k
              log := c.log ++ [Event.completed cmd (some a)] })
      | .polling, .processed ok =>
        if ok then some (s.goto w { a with pc := .polled })
        else some (leave s w a (.raised ("NVMe-KV " ++ a.operation.name ++ " completion polling failed")))
      | .polled, .clock expired =>
        if expired then some (leave s w a (.raised ("NVMe-KV " ++ a.operation.name ++ " timed out")))
        else some (s.goto w { a with pc := .testing })
      | _, _ => none

/-- The callback wrote the `CommandResult` of a call that waits for this command; the freed buffer is
used by no outstanding command. -/
def Event.Matched : Event → Prop
  | .completed cmd active => ∃ a, active = some a ∧ a.pc = .polling ∧ a.ticket = cmd.ticket ∧ a.result = cmd.context
  | .freed d outstanding => ∀ cmd ∈ outstanding, cmd.staging ≠ some d
  | .returned _ _ => True

/-- A wait that gives up, by a polling error or at its deadline, has no command outstanding. -/
def WaitsOut (s : Sys) : Nat × Action → Prop
  | (w, .processed false) | (w, .clock true) =>
    ∀ a, (s.connection w).active = some a → ∀ cmd ∈ (s.connection w).outstanding, cmd.ticket ≠ a.ticket
  | _ => True

end SpdkNvmeKvConnector
end SpdkConnector
