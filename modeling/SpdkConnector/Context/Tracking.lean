import SpdkConnector.Context.Executed
import SpdkConnector.Interleaving.Ledger
import Mathlib.Data.List.Perm.Basic

/-!
# Where the code keeps its requests

Every request that is held, queued, in flight, called back or closing is in exactly one of the places the
code has for it: its caller's dispatches, or on its own worker a message, a frame of the running callback,
`pending_io`, a command, an `io_wait` entry. `Tracks` says that a state of the context shows each request
of an abstract state in its place, once. The lemmas are the ways a step of one reactor moves entries.
-/

namespace SpdkConnector
namespace SpdkBdevContext

open Interleaving

inductive Place where
  | worker (w : Nat)
  | caller (b : Nat)
deriving DecidableEq

/-- The place a request in a stage is kept. -/
def Stage.home (worker : Nat) (r : Ref) : Stage → Option Place
  | .absent | .completed => none
  | .held => some (.caller r.1)
  | .queued | .inFlight _ | .reported _ | .closing _ => some (.worker worker)

def IoFrame.entries : IoFrame → List (Ref × Stage)
  | .executeWorkerBatch rs => rs.map (·, .queued)
  | .executeIo r => [(r, .queued)]
  | .freeIo r success => [(r, .reported success)]
  | .completeIo r success => [(r, .reported success)]
  | .completeRequest r success _ => [(r, .closing success)]
  | .notifyOne _ | .drainPendingIo _ | .drainLoop _ => []

def Frame.entries : Frame → List (Ref × Stage)
  | .io f => f.entries
  | .life _ => []

def Msg.entries (m : Msg) : List (Ref × Stage) := m.frame.entries

/-- The requests on a reactor. -/
def Reactor.entries (x : Reactor) : List (Ref × Stage) :=
  x.queue.flatMap Msg.entries ++ (x.stack.flatMap Frame.entries ++ (x.pendingIo.map (·, .queued) ++
    (x.inFlight.map (fun c => (c.request, .inFlight c)) ++ x.ioWait.map (·, .queued))))

/-- The dispatches a caller has not posted. -/
def CallerPc.dispatches : CallerPc → List IoWorkerDispatch
  | .posting todo => todo
  | .sending d todo => d :: todo
  | .failing _ _ todo => todo
  | .notifying _ _ todo => todo
  | .absent | .waiting | .sleeping | .returning | .returned => []

/-- The requests in a caller's hands. -/
def CallerPc.refs : CallerPc → List Ref
  | .posting todo => todo.flatMap IoWorkerDispatch.requests
  | .sending d todo => d.requests ++ todo.flatMap IoWorkerDispatch.requests
  | .failing rest _ todo => rest ++ todo.flatMap IoWorkerDispatch.requests
  | .notifying rest _ todo => rest ++ todo.flatMap IoWorkerDispatch.requests
  | .absent | .waiting | .sleeping | .returning | .returned => []

def shown (s : Sys) : Place → List (Ref × Stage)
  | .worker w => (s.reactor w).entries
  | .caller b => (s.batch b).caller.refs.map (·, .held)

/-- A frame that names a worker runs on it. -/
def Frame.Local (w : Nat) : Frame → Prop
  | .io (.drainPendingIo v) | .io (.drainLoop v) => v = w
  | _ => True

/-- What a reactor looks like between two steps. -/
structure TidyReactor (w : Nat) (x : Reactor) : Prop where
  pool : x.pool.WF
  buffers : x.pool.buffers.Nodup
  frames : ∀ f ∈ x.stack, f.Local w
  posted : ∀ d, .executeWorkerBatch d ∈ x.queue → d.requests ≠ []

structure Tidy (s : Sys) : Prop where
  reactor : ∀ w, TidyReactor w (s.reactor w)
  dispatches : ∀ b, ∀ d ∈ (s.batch b).caller.dispatches,
    d.requests ≠ [] ∧ ∀ r ∈ d.requests, (s.request r).worker = d.worker
  fresh : ∀ b, s.batches ≤ b → (s.batch b).caller = .absent

abbrev homeOf (request : Ref → IoRequest) (r : Ref) (st : Stage) : Option Place :=
  st.home (request r).worker r

structure Tracks (s : Sys) (κ : Core) : Prop where
  request : κ.request = s.request
  batch : κ.batch = s.batch
  pool : κ.pool = fun w => (s.reactor w).pool
  dma : κ.dma = fun w => (s.reactor w).dma
  device : κ.device = s.device
  ledger : Ledger (homeOf s.request) (shown s) κ.stage
  tidy : Tidy s

/-! ## Entries -/

theorem count_entries (y : Ref × Stage) (x : Reactor) : x.entries.count y =
    (x.queue.flatMap Msg.entries).count y + (x.stack.flatMap Frame.entries).count y +
    (x.pendingIo.map (·, Stage.queued)).count y +
    (x.inFlight.map fun c => (c.request, Stage.inFlight c)).count y +
    (x.ioWait.map (·, Stage.queued)).count y := by
  simp only [Reactor.entries, List.count_append]
  omega

variable {s s' : Sys} {κ κ' : Core} {w : Nat} {x : Reactor} {e : Env}

theorem entries_frame {f : Frame} (hf : f ∈ x.stack) {y : Ref × Stage} (hy : y ∈ f.entries) : y ∈ x.entries :=
  List.mem_append_right _ (List.mem_append_left _ (List.mem_flatMap.2 ⟨f, hf, hy⟩))

theorem entries_message {m : Msg} (hm : m ∈ x.queue) {y : Ref × Stage} (hy : y ∈ m.entries) : y ∈ x.entries :=
  List.mem_append_left _ (List.mem_flatMap.2 ⟨m, hm, hy⟩)

theorem entries_pending {r : Ref} (hr : r ∈ x.pendingIo) : (r, .queued) ∈ x.entries := by
  simp only [Reactor.entries, List.mem_append, List.mem_map]
  exact .inr (.inr (.inl ⟨r, hr, rfl⟩))

theorem entries_command {c : Command} (hc : c ∈ x.inFlight) : (c.request, .inFlight c) ∈ x.entries := by
  simp only [Reactor.entries, List.mem_append, List.mem_map]
  exact .inr (.inr (.inr (.inl ⟨c, hc, rfl⟩)))

theorem entries_waiting {r : Ref} (hr : r ∈ x.ioWait) : (r, .queued) ∈ x.entries := by
  simp only [Reactor.entries, List.mem_append, List.mem_map]
  exact .inr (.inr (.inr (.inr ⟨r, hr, rfl⟩)))

/-- An entry of a reactor is in its stage, and on its own worker. -/
theorem Tracks.entry (h : Tracks s κ) {y : Ref × Stage} (hy : y ∈ (s.reactor w).entries) :
    κ.stage y.1 = y.2 ∧ (s.request y.1).worker = w := by
  obtain ⟨h1, h2⟩ := h.ledger.sound (.worker w) y hy
  refine ⟨h1, ?_⟩
  revert h2
  cases y.2 <;> simp [homeOf, Stage.home]

/-- A request in a caller's hands is held, and belongs to its batch. -/
theorem Tracks.held (h : Tracks s κ) {b : Nat} {r : Ref} (hr : r ∈ (s.batch b).caller.refs) :
    κ.stage r = .held ∧ r.1 = b := by
  have hm : (r, Stage.held) ∈ shown s (.caller b) := List.mem_map.2 ⟨r, hr, rfl⟩
  obtain ⟨h1, h2⟩ := h.ledger.sound _ _ hm
  exact ⟨h1, by simpa [homeOf, Stage.home] using h2⟩

/-! ## Steps of one reactor -/

/-- Only reactor `w` changed, and no caller moved. -/
structure OneReactor (s s' : Sys) (w : Nat) (x : Reactor) : Prop where
  reactor : s'.reactor = Function.update s.reactor w x
  caller : ∀ b, (s'.batch b).caller = (s.batch b).caller
  worker : ∀ r, (s'.request r).worker = (s.request r).worker
  batches : s'.batches = s.batches

theorem OneReactor.shown_self (h : OneReactor s s' w x) : shown s' (.worker w) = x.entries := by
  simp [shown, h.reactor]

theorem OneReactor.shown_other (h : OneReactor s s' w x) {p : Place} (hp : p ≠ .worker w) :
    shown s' p = shown s p := by
  cases p with
  | worker v =>
    have hv : v ≠ w := fun e => hp (e ▸ rfl)
    simp [shown, h.reactor, hv]
  | caller b => simp [shown, h.caller]

theorem OneReactor.home (h : OneReactor s s' w x) : homeOf s'.request = homeOf s.request := by
  funext r st
  simp [homeOf, h.worker]

theorem OneReactor.tidy (h : OneReactor s s' w x) (ht : Tidy s) (hx : TidyReactor w x) : Tidy s' where
  reactor v := by
    rcases eq_or_ne v w with rfl | hv
    · simpa [h.reactor] using hx
    · simpa [h.reactor, hv] using ht.reactor v
  dispatches b d hd := by
    rw [h.caller] at hd
    obtain ⟨h1, h2⟩ := ht.dispatches b d hd
    exact ⟨h1, fun r hr => (h.worker r).trans (h2 r hr)⟩
  fresh b hb := by
    rw [h.caller]
    exact ht.fresh b (h.batches ▸ hb)

/-- Entries reordered. -/
theorem OneReactor.shuffle (h : OneReactor s s' w x) (hl : Ledger (homeOf s.request) (shown s) κ.stage)
    (hp : x.entries.Perm (s.reactor w).entries) : Ledger (homeOf s'.request) (shown s') κ.stage := by
  rw [h.home]
  refine hl.shuffle fun p => ?_
  by_cases hpw : p = .worker w
  · subst hpw
    rw [h.shown_self]
    exact hp
  · rw [h.shown_other hpw]

/-- One request turns to another stage of its worker. -/
theorem OneReactor.turn (h : OneReactor s s' w x) (hl : Ledger (homeOf s.request) (shown s) κ.stage)
    {r : Ref} {a b : Stage} {rest : List (Ref × Stage)}
    (hold : (s.reactor w).entries.Perm ((r, a) :: rest)) (hnew : x.entries.Perm ((r, b) :: rest))
    (hb : b.home w r = some (.worker w)) :
    Ledger (homeOf s'.request) (shown s') (Function.update κ.stage r b) := by
  rw [h.home]
  have hmem : (r, a) ∈ shown s (.worker w) := hold.mem_iff.2 (by simp)
  obtain ⟨h1, h2⟩ := hl.sound _ _ hmem
  have hw : (s.request r).worker = w := by
    revert h2
    cases a <;> simp [homeOf, Stage.home]
  refine hl.turn (p := .worker w) hold (h.shown_self ▸ hnew) (fun q hq => ?_) ?_
  · rw [h.shown_other hq]
  · simpa [homeOf, hw] using hb

/-- One request is completed. -/
theorem OneReactor.drop (h : OneReactor s s' w x) (hl : Ledger (homeOf s.request) (shown s) κ.stage)
    {r : Ref} {a : Stage} {rest : List (Ref × Stage)}
    (hold : (s.reactor w).entries.Perm ((r, a) :: rest)) (hnew : x.entries.Perm rest) :
    Ledger (homeOf s'.request) (shown s') (Function.update κ.stage r .completed) := by
  rw [h.home]
  refine hl.drop (p := .worker w) _ hold (h.shown_self ▸ hnew) (fun q hq => ?_) rfl
  rw [h.shown_other hq]

end SpdkBdevContext
end SpdkConnector
