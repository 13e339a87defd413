import SpdkConnector.Context.Completion
import SpdkConnector.Context.Lifecycle
import Mathlib.Algebra.BigOperators.Group.Finset.Basic

/-!
# The teardown is counted down

`begin_shutdown_on_app_thread` counts the workers and each worker acknowledges once, by a message or, where
it cannot be told, by a direct call. `Opened` accounts for it: until the teardown has begun a call that
begins it is pending, and then the count is the number of acknowledgements still to come. So a caller of
`close()` never waits for nothing (`close_progresses`), unless an acknowledgement cannot be posted, or
`close()` finds the runtime gone and no shutdown requested: then nothing will ever set
`shutdown_complete_` (`close_stuck`).
-/

namespace SpdkConnector
namespace SpdkBdevContext

open Interleaving

variable {e : Env} {s s' : Sys} {κ κ' : Cycle} {w : Nat} {f : LifeFrame} {rest : List LifeFrame} {x : Effect}

/-! ## Weights -/

/-- Reactors the context has work on have smaller numbers. -/
def Env.reactors (e : Env) : Nat := max 1 e.ioThreadCount

/-- The calls still to be made, weighed. -/
def Cycle.total (e : Env) (weight : LifeFrame → Nat) (κ : Cycle) : Nat :=
  ∑ v ∈ Finset.range e.reactors, ((κ.agenda v).map weight).sum

def Effect.weight (x : Effect) (weight : LifeFrame → Nat) : Nat :=
  (x.calls.map weight).sum + x.post.elim 0 fun p => weight p.2

/-- The same where a call weighs differently on different reactors. -/
def Cycle.weigh (e : Env) (weight : Nat → LifeFrame → Nat) (κ : Cycle) : Nat :=
  ∑ v ∈ Finset.range e.reactors, ((κ.agenda v).map (weight v)).sum

def Effect.weigh (x : Effect) (w : Nat) (weight : Nat → LifeFrame → Nat) : Nat :=
  (x.calls.map (weight w)).sum + x.post.elim 0 fun p => weight p.1 p.2

theorem weigh_put (hw : w < e.reactors) (weight : Nat → LifeFrame → Nat) (a : List LifeFrame) :
    (κ.put w a).weigh e weight + ((κ.agenda w).map (weight w)).sum =
      κ.weigh e weight + (a.map (weight w)).sum := by
  have hmem := Finset.mem_range.2 hw
  have hothers : ∑ v ∈ (Finset.range e.reactors).erase w, (((κ.put w a).agenda v).map (weight v)).sum =
      ∑ v ∈ (Finset.range e.reactors).erase w, ((κ.agenda v).map (weight v)).sum := by
    refine Finset.sum_congr rfl fun v hv => ?_
    simp [Cycle.put, Finset.ne_of_mem_erase hv]
  simp only [Cycle.weigh, ← Finset.add_sum_erase _ _ hmem, hothers]
  simp only [Cycle.put, Function.update_self]
  omega

/-- A call is taken off, and its calls and its message come on. -/
theorem weigh_run (h : κ.agenda w = f :: rest) (hw : w < e.reactors)
    (hpost : ∀ u g, x.post = some (u, g) → u < e.reactors) (weight : Nat → LifeFrame → Nat) :
    (κ.run w rest x).weigh e weight + weight w f = κ.weigh e weight + x.weigh w weight := by
  have hput := weigh_put (κ := κ) hw weight (x.calls ++ rest)
  rw [h] at hput
  simp only [List.map_append, List.sum_append, List.map_cons, List.sum_cons] at hput
  have hweigh : (κ.run w rest x).weigh e weight = ((κ.put w (x.calls ++ rest)).post x.post).weigh e weight := rfl
  rw [hweigh]
  cases hx : x.post with
  | none =>
    simp only [Cycle.post, Effect.weigh, hx, Option.elim_none]
    omega
  | some p =>
    have hposted := weigh_put (κ := κ.put w (x.calls ++ rest)) (hpost p.1 p.2 (by rw [hx])) weight
      ((κ.put w (x.calls ++ rest)).agenda p.1 ++ [p.2])
    simp only [List.map_append, List.sum_append, List.map_cons, List.map_nil, List.sum_cons, List.sum_nil] at hposted
    simp only [Cycle.post, Effect.weigh, hx, Option.elim_some]
    omega

theorem total_put (hw : w < e.reactors) (weight : LifeFrame → Nat) (a : List LifeFrame) :
    (κ.put w a).total e weight + ((κ.agenda w).map weight).sum =
      κ.total e weight + (a.map weight).sum :=
  weigh_put hw (fun _ => weight) a

theorem total_run (h : κ.agenda w = f :: rest) (hw : w < e.reactors)
    (hpost : ∀ u g, x.post = some (u, g) → u < e.reactors) (weight : LifeFrame → Nat) :
    (κ.run w rest x).total e weight + weight f = κ.total e weight + x.weight weight :=
  weigh_run h hw hpost fun _ => weight

/-- A call that weighs nothing is put first. -/
theorem weigh_first (hw : w < e.reactors) (weight : Nat → LifeFrame → Nat) (h : weight w f = 0) :
    (κ.put w (f :: κ.agenda w)).weigh e weight = κ.weigh e weight := by
  have hput := weigh_put (κ := κ) hw weight (f :: κ.agenda w)
  rw [List.map_cons, List.sum_cons, h] at hput
  omega

/-- What weighs something is somewhere. -/
theorem exists_of_total (weight : LifeFrame → Nat) (h : 0 < κ.total e weight) :
    ∃ v, ∃ g ∈ κ.agenda v, 0 < weight g := by
  by_contra hno
  simp only [not_exists, not_and, Nat.not_lt, Nat.le_zero] at hno
  refine absurd h (Nat.not_lt.2 (Nat.le_zero.2 ?_))
  refine Finset.sum_eq_zero fun v _ => ?_
  exact List.sum_eq_zero fun n hn => by
    obtain ⟨g, hg, rfl⟩ := List.mem_map.1 hn
    exact hno v g hg

/-- A call on the way to the first step of the teardown. -/
def LifeFrame.begins : LifeFrame → Nat
  | .postBeginShutdown | .beginShutdown => 1
  | _ => 0

/-- The acknowledgements a call leads to, of `n` workers. -/
def LifeFrame.acks (n : Nat) : LifeFrame → Nat
  | .postShutdown i => n - i + 1
  | .shutdownIoWorker | .releaseIoWorker | .postFinish | .onIoWorkerShutdown => 1
  | _ => 0

/-- A call of `finish_shutdown_on_app_thread`. -/
def LifeFrame.finishes : LifeFrame → Nat
  | .releaseDescriptor | .finishShutdown => 1
  | _ => 0

/-- A call of `on_runtime_ready` before it posts. -/
def LifeFrame.Early : LifeFrame → Prop
  | .onRuntimeReady | .configure => True
  | _ => False

/-! ## The two phases -/

/-- The bdev is being opened, and nothing else is going on. -/
structure Opening (κ : Cycle) : Prop where
  agenda : ∃ f, κ.agenda = Function.update (fun _ => []) 0 [f] ∧
    (f = .onRuntimeReady ∧ κ.ctx.bdevDescriptor = false ∨ f = .configure ∧ κ.ctx.bdevDescriptor = true)
  owner : κ.owner = .constructing ∨ κ.owner = .sleepingInitialization
  initialization : κ.ctx.initializationComplete = false
  requested : κ.ctx.shutdownRequested = false
  started : κ.ctx.shutdownStarted = false
  complete : κ.ctx.shutdownComplete = false
  closed : κ.ctx.closed = false
  workers : κ.ctx.ioWorkers = 0
  held : κ.ctx.runtime = true ∧ κ.ctx.bdevClaimed = true

/-- Where `close()` is past its first critical section. -/
def OwnerPc.Closing : OwnerPc → Prop
  | .requesting | .postingShutdown | .closeWaiting | .sleepingShutdown | .releasing | .closed => True
  | _ => False

/-- The countdown: what the members say, and the calls still to be made. -/
structure Tally (c : Members) (posting : Prop) (begins acks finishes : Nat) : Prop where
  notBegun : c.shutdownStarted = false → acks = 0 ∧ finishes = 0
  requested : c.shutdownRequested = true → c.shutdownStarted = false → c.shutdownComplete = false →
    0 < begins ∨ posting
  counted : c.shutdownStarted = true → c.workersShuttingDown = acks
  last : c.shutdownStarted = true → c.workersShuttingDown = 0 → c.shutdownComplete = false → 0 < finishes

/-- The bdev has been opened, or not, and the calls left are on the context's reactors. -/
structure Opened (e : Env) (κ : Cycle) : Prop where
  confined : ∀ v, ∀ g ∈ κ.agenda v, v < e.reactors ∧ ¬ g.Early
  workers : κ.ctx.ioWorkers ≤ e.ioThreadCount
  closing : κ.owner.Closing → κ.ctx.closed = true
  held : κ.ctx.runtime = false ∨ κ.ctx.bdevClaimed = false →
    κ.owner = .closed ∨ κ.owner = .closing ∧ κ.ctx.closed = true

def Cycle.tally (e : Env) (κ : Cycle) : Prop :=
  Tally κ.ctx (κ.owner = .postingShutdown) (κ.total e LifeFrame.begins)
    (κ.total e (LifeFrame.acks κ.ctx.ioWorkers)) (κ.total e LifeFrame.finishes)

/-- `close()` has asked for the teardown. -/
def OwnerPc.Asked (pc : OwnerPc) : Prop :=
  pc = .closeWaiting ∨ pc = .sleepingShutdown ∨ pc = .postingShutdown

/-- The countdown while `close()` waits for it. -/
structure Counting (e : Env) (κ : Cycle) : Prop where
  tally : κ.tally e
  asked : κ.owner.Asked → κ.ctx.shutdownComplete = true ∨ κ.ctx.shutdownRequested = true

/-! ## One call -/

theorem mem_run {v : Nat} {g : LifeFrame} (h : κ.agenda w = f :: rest) (hg : g ∈ (κ.run w rest x).agenda v) :
    g ∈ κ.agenda v ∨ v = w ∧ g ∈ x.calls ∨ x.post = some (v, g) := by
  have hput : g ∈ (κ.put w (x.calls ++ rest)).agenda v → g ∈ κ.agenda v ∨ v = w ∧ g ∈ x.calls := by
    intro hg
    rcases eq_or_ne v w with rfl | hv
    · simp only [Cycle.put, Function.update_self, List.mem_append] at hg
      rcases hg with hg | hg
      · exact .inr ⟨rfl, hg⟩
      · exact .inl (h ▸ List.mem_cons_of_mem _ hg)
    · simp only [Cycle.put, ne_eq, hv, not_false_eq_true, Function.update_of_ne] at hg
      exact .inl hg
  simp only [Cycle.run] at hg
  cases hx : x.post with
  | none =>
    rw [hx] at hg
    exact (hput hg).imp_right .inl
  | some p =>
    rw [hx] at hg
    rcases eq_or_ne v p.1 with rfl | hv
    · simp only [Cycle.post, Cycle.put, Function.update_self, List.mem_append, List.mem_singleton] at hg
      rcases hg with hg | rfl
      · exact (hput (by simpa [Cycle.put] using hg)).imp_right .inl
      · exact .inr (.inr rfl)
    · simp only [Cycle.post, Cycle.put, ne_eq, hv, not_false_eq_true, Function.update_of_ne] at hg
      exact (hput (by simpa [Cycle.put] using hg)).imp_right .inl

section
variable {c : Members} {ch : Choice} {available : Bool}

/-- A call past the opening leads to others past it, on the context's reactors. -/
theorem lived_confined (hl : Lived e available c w f ch x) (hf : ¬ f.Early) (hc : c.ioWorkers ≤ e.ioThreadCount) :
    (∀ g ∈ x.calls, ¬ g.Early) ∧ ∀ u g, x.post = some (u, g) → u < e.reactors ∧ ¬ g.Early := by
  have hzero : 0 < e.reactors := by unfold Env.reactors; omega
  have hworker : ∀ i, i < c.ioWorkers → i < e.reactors := fun i hi => by unfold Env.reactors; omega
  cases hl with
  | openFailed | opened | rejected | configured => exact absurd trivial hf
  | initializedLast error lastError hlast =>
    refine ⟨?_, by simp⟩
    cases lastError == "" <;> simp [LifeFrame.Early]
  | requested rc error lastError code start hstart =>
    refine ⟨?_, by simp⟩
    cases start <;> simp [LifeFrame.Early]
  | begun hs =>
    refine ⟨?_, by simp⟩
    dsimp only
    split <;> simp [LifeFrame.Early]
  | released =>
    refine ⟨?_, by simp⟩
    dsimp only
    split <;> simp [LifeFrame.Early]
  | acknowledged =>
    refine ⟨?_, by simp⟩
    dsimp only
    split <;> simp [LifeFrame.Early]
  | setUpPosted i hi =>
    refine ⟨by simp [LifeFrame.Early], fun u g hg => ?_⟩
    cases hg
    exact ⟨hworker i hi, id⟩
  | shutdownPosted i hi =>
    refine ⟨by simp [LifeFrame.Early], fun u g hg => ?_⟩
    cases hg
    exact ⟨hworker i hi, id⟩
  | beginPosted | finishPosted =>
    refine ⟨by simp [LifeFrame.Early], fun u g hg => ?_⟩
    cases hg
    exact ⟨hzero, id⟩
  | _ => exact ⟨by simp [LifeFrame.Early], by simp⟩

/-- The members no call past the opening changes. -/
theorem lived_same (hl : Lived e available c w f ch x) (hf : ¬ f.Early) :
    x.ctx.ioWorkers = c.ioWorkers ∧ x.ctx.closed = c.closed ∧ x.ctx.runtime = c.runtime ∧
    x.ctx.bdevClaimed = c.bdevClaimed := by
  cases hl with
  | openFailed | opened | rejected | configured => exact absurd trivial hf
  | _ => exact ⟨rfl, rfl, rfl, rfl⟩

end

theorem woken_cases (pc : OwnerPc) : pc.woken = pc ∨ pc = .sleepingInitialization ∧ pc.woken = .constructing ∨
    pc = .sleepingShutdown ∧ pc.woken = .closeWaiting := by
  cases pc <;> simp [OwnerPc.woken]

section
variable {c : Members} {ch : Choice} {available : Bool} {posting : Prop} {begins acks finishes : Nat}
  {begins' acks' finishes' : Nat}

/-- One call keeps the tally, as long as acknowledgements are posted. -/
theorem Tally.run (h : Tally c posting begins acks finishes) (hl : Lived e available c w f ch x) (hf : ¬ f.Early)
    (hack : f = .postFinish → ch = .code 0)
    (hB : begins' + f.begins = begins + x.weight LifeFrame.begins)
    (hA : acks' + f.acks c.ioWorkers = acks + x.weight (LifeFrame.acks c.ioWorkers))
    (hF : finishes' + f.finishes = finishes + x.weight LifeFrame.finishes) :
    Tally x.ctx posting begins' acks' finishes' := by
  obtain ⟨h1, h2, h3, h4⟩ := h
  cases hl with
  | openFailed | opened | rejected | configured => exact absurd trivial hf
  | initializedLast error lastError hlast =>
    have hlight : ∀ weight : LifeFrame → Nat, weight .notifyAll = 0 → weight (.requestShutdown einval "") = 0 →
        ((.notifyAll :: if lastError == "" then [] else [.requestShutdown einval ""] :
          List LifeFrame).map weight).sum = 0 := by
      intro weight h1 h2
      cases lastError == "" <;> simp [h1, h2]
    simp only [Effect.weight, Option.elim_none, hlight LifeFrame.begins rfl rfl, hlight (LifeFrame.acks _) rfl rfl,
      hlight LifeFrame.finishes rfl rfl, LifeFrame.begins, LifeFrame.acks, LifeFrame.finishes] at hB hA hF
    obtain ⟨rfl, rfl, rfl⟩ : begins' = begins ∧ acks' = acks ∧ finishes' = finishes := ⟨hB, hA, hF⟩
    exact ⟨h1, h2, h3, h4⟩
  | requested rc error lastError code start hstart =>
    cases start with
    | false =>
      simp only [Effect.weight, LifeFrame.begins, LifeFrame.acks, LifeFrame.finishes, Bool.false_eq_true, if_false,
        List.map_nil, List.sum_nil, Option.elim_none, Nat.add_zero] at hB hA hF
      obtain ⟨rfl, rfl, rfl⟩ : begins' = begins ∧ acks' = acks ∧ finishes' = finishes := ⟨hB, hA, hF⟩
      exact ⟨h1, fun hr => h2 (by simpa using hr), h3, h4⟩
    | true =>
      -- the post that begins the teardown is pending
      simp only [Effect.weight, LifeFrame.begins, LifeFrame.acks, LifeFrame.finishes, if_true, List.map_cons,
        List.map_nil, List.sum_cons, List.sum_nil, Option.elim_none, Nat.add_zero] at hB hA hF
      obtain ⟨rfl, rfl⟩ : acks' = acks ∧ finishes' = finishes := ⟨hA, hF⟩
      exact ⟨h1, fun _ _ _ => .inl (by omega), h3, h4⟩
  | beginFailed rc lastError hno =>
    -- the waiter is let go
    simp only [Effect.weight, LifeFrame.acks, LifeFrame.finishes, List.map_nil, List.sum_nil, Option.elim_none,
      Nat.add_zero] at hA hF
    obtain ⟨rfl, rfl⟩ : acks' = acks ∧ finishes' = finishes := ⟨hA, hF⟩
    exact ⟨h1, fun _ _ hc => absurd hc nofun, h3, fun _ _ hc => absurd hc nofun⟩
  | begunAlready hs =>
    simp only [Effect.weight, LifeFrame.acks, LifeFrame.finishes, List.map_nil, List.sum_nil, Option.elim_none,
      Nat.add_zero] at hA hF
    obtain ⟨rfl, rfl⟩ : acks' = acks ∧ finishes' = finishes := ⟨hA, hF⟩
    exact ⟨h1, fun _ hs' => absurd (hs.symm.trans hs') nofun, h3, h4⟩
  | begun hs =>
    -- the workers are counted, and the first of the posts has all their acknowledgements before it
    obtain ⟨rfl, rfl⟩ := h1 hs
    refine ⟨fun hs' => absurd hs' nofun, fun _ hs' => absurd hs' nofun, fun _ => ?_, fun _ hz _ => ?_⟩
    · show c.ioWorkers = acks'
      by_cases hzero : c.ioWorkers = 0
      · simp only [Effect.weight, LifeFrame.acks, if_pos hzero, List.map_cons, List.map_nil, List.sum_cons,
          List.sum_nil, Option.elim_none] at hA
        omega
      · simp only [Effect.weight, LifeFrame.acks, if_neg hzero, List.map_cons, List.map_nil, List.sum_cons,
          List.sum_nil, Option.elim_none] at hA
        omega
    · have hzero : c.ioWorkers = 0 := hz
      simp only [Effect.weight, LifeFrame.finishes, if_pos hzero, List.map_cons, List.map_nil, List.sum_cons,
        List.sum_nil, Option.elim_none] at hF
      omega
  | released =>
    have hone : ∀ weight : LifeFrame → Nat, weight .onIoWorkerShutdown = weight .postFinish →
        ((if w = 0 then [.onIoWorkerShutdown] else [.postFinish] : List LifeFrame).map weight).sum =
          weight .postFinish := by
      intro weight hweight
      split <;> simp [hweight]
    simp only [Effect.weight, Option.elim_none, hone LifeFrame.begins rfl, hone (LifeFrame.acks _) rfl,
      hone LifeFrame.finishes rfl, LifeFrame.begins, LifeFrame.acks, LifeFrame.finishes] at hB hA hF
    obtain ⟨rfl, rfl, rfl⟩ : begins' = begins ∧ acks' = acks ∧ finishes' = finishes := ⟨hB, by omega, hF⟩
    exact ⟨h1, h2, h3, h4⟩
  | finishFailed rc hrc => exact absurd (Choice.code.inj (hack rfl)) hrc
  | acknowledged =>
    -- one acknowledgement less, and the last one finishes
    have hstarted : c.shutdownStarted = true := by
      by_contra hs
      obtain ⟨rfl, -⟩ := h1 (by simpa using hs)
      simp only [Effect.weight, LifeFrame.acks, Option.elim_none] at hA
      split at hA
      · simp only [List.map_cons, List.map_nil, List.sum_cons, List.sum_nil, LifeFrame.acks] at hA
        omega
      · simp only [List.map_nil, List.sum_nil] at hA
        omega
    have hcount := h3 hstarted
    refine ⟨fun hs => absurd (hstarted.symm.trans hs) nofun, fun _ hs => absurd (hstarted.symm.trans hs) nofun,
      fun _ => ?_, fun _ hz hc => ?_⟩
    · show c.workersShuttingDown - 1 = acks'
      by_cases hlast : c.workersShuttingDown - 1 = 0
      · simp only [Effect.weight, LifeFrame.acks, if_pos hlast, List.map_cons, List.map_nil, List.sum_cons,
          List.sum_nil, Option.elim_none] at hA
        omega
      · simp only [Effect.weight, LifeFrame.acks, if_neg hlast, List.map_nil, List.sum_nil, Option.elim_none] at hA
        omega
    · have hlast : c.workersShuttingDown - 1 = 0 := hz
      simp only [Effect.weight, LifeFrame.finishes, if_pos hlast, List.map_cons, List.map_nil, List.sum_cons,
        List.sum_nil, Option.elim_none] at hF
      omega
  | finished =>
    simp only [Effect.weight, LifeFrame.acks, LifeFrame.finishes, List.map_cons, List.map_nil, List.sum_cons,
      List.sum_nil, Option.elim_none, Nat.add_zero] at hA hF
    obtain rfl : acks' = acks := hA
    refine ⟨fun hs => ?_, fun _ _ hc => absurd hc nofun, h3, fun _ _ hc => absurd hc nofun⟩
    have := (h1 hs).2
    omega
  | _ =>
    simp only [Effect.weight, LifeFrame.begins, LifeFrame.acks, LifeFrame.finishes, List.map_cons, List.map_nil,
      List.sum_cons, List.sum_nil, Option.elim_none, Option.elim_some] at hB hA hF
    obtain ⟨rfl, rfl, rfl⟩ : begins' = begins ∧ acks' = acks ∧ finishes' = finishes := by omega
    exact ⟨h1, h2, h3, h4⟩

end

/-! ## One turn -/

theorem zero_reactors (e : Env) : 0 < e.reactors := by
  unfold Env.reactors
  omega

/-- While the bdev is being opened nothing weighs anything. -/
theorem Opening.total (h : Opening κ) (weight : LifeFrame → Nat) (hopen : weight .onRuntimeReady = 0)
    (hconf : weight .configure = 0) : κ.total e weight = 0 := by
  obtain ⟨f, hag, hf⟩ := h.agenda
  refine Finset.sum_eq_zero fun v _ => List.sum_eq_zero fun n hn => ?_
  rw [hag] at hn
  obtain ⟨g, hg, rfl⟩ := List.mem_map.1 hn
  rcases eq_or_ne v 0 with rfl | hv
  · simp only [Function.update_self, List.mem_singleton] at hg
    rcases hf with ⟨rfl, -⟩ | ⟨rfl, -⟩
    · exact hg ▸ hopen
    · exact hg ▸ hconf
  · simp [hv] at hg

theorem Opening.tally (h : Opening κ) : κ.tally e := by
  refine ⟨fun _ => ⟨h.total _ rfl rfl, h.total _ rfl rfl⟩, fun hr => ?_, fun hs => ?_, fun hs => ?_⟩
  · rw [h.requested] at hr
    cases hr
  · rw [h.started] at hs
    cases hs
  · rw [h.started] at hs
    cases hs

/-- The call of the opening returns, and nothing of the teardown is pending. -/
theorem Opening.counting (h : Opening κ) (hag : κ.agenda 0 = f :: rest) (hpost : x.post = none)
    (hnotify : x.notify = false) (hr : x.ctx.shutdownRequested = κ.ctx.shutdownRequested)
    (hs : x.ctx.shutdownStarted = κ.ctx.shutdownStarted)
    (hcalls : ∀ g ∈ x.calls, g.acks x.ctx.ioWorkers = 0 ∧ g.finishes = 0) : Counting e (κ.run 0 rest x) := by
  have hzero : ∀ weight : LifeFrame → Nat, weight .onRuntimeReady = 0 → weight .configure = 0 →
      (∀ g ∈ x.calls, weight g = 0) → (κ.run 0 rest x).total e weight = 0 := by
    intro weight hopen hconf hlight
    have hrun := total_run hag (zero_reactors e) (by rw [hpost]; nofun) weight
    have hcalls : (x.calls.map weight).sum = 0 := List.sum_eq_zero fun n hn => by
      obtain ⟨g, hg, rfl⟩ := List.mem_map.1 hn
      exact hlight g hg
    simp only [h.total weight hopen hconf, Effect.weight, hpost, hcalls, Option.elim_none] at hrun
    omega
  refine ⟨⟨fun _ => ⟨hzero _ rfl rfl fun g hg => (hcalls g hg).1, hzero _ rfl rfl fun g hg => (hcalls g hg).2⟩,
    fun hr' => ?_, fun hs' => ?_, fun hs' => ?_⟩, fun hpc => ?_⟩
  · exact absurd ((hr.trans h.requested).symm.trans hr') nofun
  · exact absurd ((hs.trans h.started).symm.trans hs') nofun
  · exact absurd ((hs.trans h.started).symm.trans hs') nofun
  · rcases h.owner with ho | ho <;> simp [Cycle.run, hnotify, ho, OwnerPc.Asked] at hpc

/-- A turn while the bdev is being opened: it goes on, or its call returns and leaves nothing early. -/
theorem Opening.turn {a : Action} (h : Opening s.cycle) (ht : Turn e s a κ') :
    Opening κ' ∨ Opened e κ' ∧ Counting e κ' := by
  obtain ⟨f, hag, hf⟩ := h.agenda
  have hgo : ∀ c : Members, c.initializationComplete = s.ctx.initializationComplete →
      c.shutdownRequested = s.ctx.shutdownRequested → c.shutdownStarted = s.ctx.shutdownStarted →
      c.shutdownComplete = s.ctx.shutdownComplete → c.closed = s.ctx.closed → c.ioWorkers = s.ctx.ioWorkers →
      c.runtime = s.ctx.runtime → c.bdevClaimed = s.ctx.bdevClaimed → c.bdevDescriptor = s.ctx.bdevDescriptor →
      Opening { s.cycle with ctx := c } := by
    intro c h1 h2 h3 h4 h5 h6 h7 h8 h9
    refine ⟨⟨f, hag, h9 ▸ hf⟩, h.owner, h1.trans h.initialization, h2.trans h.requested, h3.trans h.started,
      h4.trans h.complete, h5.trans h.closed, h6.trans h.workers, h7.trans h.held.1, h8.trans h.held.2⟩
  have howner : ∀ pc : OwnerPc, pc = .constructing ∨ pc = .sleepingInitialization →
      Opening { s.cycle with owner := pc } := by
    intro pc hpc
    exact ⟨⟨f, hag, hf⟩, hpc, h.initialization, h.requested, h.started, h.complete, h.closed, h.workers, h.held⟩
  cases ht with
  | idle => exact .inl h
  | counted operation items memory n => exact .inl (hgo _ rfl rfl rfl rfl rfl rfl rfl rfl rfl)
  | run w c g stack rest x hst hg hl =>
    have hw : w = 0 := by
      by_contra hw
      rw [hag, Function.update_of_ne hw] at hg
      cases hg
    subst hw
    have hfirst := hg
    rw [hag, Function.update_self, List.cons.injEq] at hg
    obtain ⟨rfl, rfl⟩ := hg
    have hagenda : ∀ fs, Function.update s.cycle.agenda 0 (fs ++ []) = Function.update (fun _ => []) 0 fs := by
      intro fs
      rw [hag, Function.update_idem, List.append_nil]
    have hconfined : ∀ fs : List LifeFrame, (∀ g ∈ fs, ¬ g.Early) → ∀ v,
        ∀ g ∈ Function.update s.cycle.agenda 0 (fs ++ []) v, v < e.reactors ∧ ¬ g.Early := by
      intro fs hfs v g hg
      rw [hagenda] at hg
      rcases eq_or_ne v 0 with rfl | hv
      · exact ⟨zero_reactors e, hfs g (by simpa using hg)⟩
      · simp [hv] at hg
    have hnot : ¬ s.owner.Closing := by
      have := h.owner
      simp only [Sys.cycle] at this
      rcases this with ho | ho <;> simp [ho, OwnerPc.Closing]
    have hopened : ∀ x : Effect, x.post = none → x.notify = false → x.ctx.ioWorkers ≤ e.ioThreadCount →
        x.ctx.runtime = s.ctx.runtime → x.ctx.bdevClaimed = s.ctx.bdevClaimed → (∀ g ∈ x.calls, ¬ g.Early) →
        Opened e (s.cycle.run 0 [] x) := by
      intro x hpost hnotify hworkers hruntime hclaimed hcalls
      refine ⟨fun v g hg => hconfined x.calls hcalls v g ?_, hworkers, fun hc => absurd ?_ hnot, fun hheld => ?_⟩
      · simpa [Cycle.run, hpost, Cycle.post, Cycle.put] using hg
      · simpa [Cycle.run, hnotify, Sys.cycle] using hc
      · simp only [Cycle.run, hruntime, hclaimed] at hheld
        have hr := h.held
        simp only [Sys.cycle] at hr
        simp [hr.1, hr.2] at hheld
    rcases hf with ⟨rfl, hd⟩ | ⟨rfl, hd⟩
    · cases hl with
      | openFailed rc hrc message =>
        refine .inr ⟨hopened _ rfl rfl ?_ rfl rfl (by simp [LifeFrame.Early]),
          h.counting hfirst rfl rfl rfl rfl (by simp [LifeFrame.acks, LifeFrame.finishes])⟩
        exact (h.workers : s.ctx.ioWorkers = 0) ▸ Nat.zero_le _
      | opened =>
        refine .inl ⟨⟨.configure, hagenda [.configure], .inr ⟨rfl, rfl⟩⟩, ?_, h.initialization, h.requested, h.started,
          h.complete, h.closed, h.workers, h.held⟩
        exact h.owner
    · cases hl with
      | rejected created error hlt =>
        exact .inr ⟨hopened _ rfl rfl (Nat.le_of_lt hlt) rfl rfl (by simp [LifeFrame.Early]),
          h.counting hfirst rfl rfl rfl rfl (by simp [LifeFrame.acks, LifeFrame.finishes])⟩
      | configured =>
        exact .inr ⟨hopened _ rfl rfl (Nat.le_refl _) rfl rfl (by simp [LifeFrame.Early]),
          h.counting hfirst rfl rfl rfl rfl (by simp [LifeFrame.acks, LifeFrame.finishes])⟩
  | event c rc error hd hposted =>
    have hpf : f.Posted := hposted f (by rw [hag, Function.update_self]; exact List.mem_singleton_self f)
    rcases hf with ⟨rfl, hd'⟩ | ⟨rfl, hd'⟩
    · exact absurd (hd.symm.trans hd') (by simp)
    · exact hpf.elim
  | owner c κ ho =>
    refine .inl ?_
    have hpc := h.owner
    cases ho with
    | checked hpc' => exact howner _ (by rw [h.initialization]; simp)
    | wokenInitialization hpc' => exact howner _ (.inl rfl)
    | close hpc' => rcases hpc with hpc | hpc <;> rw [hpc] at hpc' <;> simp at hpc'
    | wokenShutdown hpc' | closedAlready hpc' | marked hpc' | nothingOpen hpc' | requested hpc'
    | beginPosted hpc' | beginFailed hpc' | waited hpc' | claimReleased hpc' =>
      rcases hpc with hpc | hpc <;> rw [hpc] at hpc' <;> cases hpc'
  | stops =>
    exact .inl ⟨⟨f, hag, hf⟩, h.owner, h.initialization, h.requested, h.started, h.complete, h.closed, h.workers,
      h.held⟩

/-- The owner's place when its condition variable is notified. -/
theorem woken_closing (pc : OwnerPc) : pc.woken.Closing ↔ pc.Closing := by
  cases pc <;> simp [OwnerPc.woken, OwnerPc.Closing]

theorem Opened.turn {a : Action} (h : Opened e s.cycle) (ht : Turn e s a κ') : Opened e κ' := by
  -- a step of the owner that leaves the agendas, or posts the teardown
  have howner : ∀ (c : Members) (pc : OwnerPc), c.ioWorkers = s.ctx.ioWorkers → (pc.Closing → c.closed = true) →
      (c.runtime = false ∨ c.bdevClaimed = false → pc = .closed ∨ pc = .closing ∧ c.closed = true) →
      Opened e { s.cycle with ctx := c, owner := pc } := by
    intro c pc h1 h2 h3
    exact ⟨h.confined, h1 ▸ h.workers, h2, h3⟩
  have hclosed : s.owner.Closing → s.ctx.closed = true := h.closing
  have hheld : s.ctx.runtime = false ∨ s.ctx.bdevClaimed = false →
      s.owner = .closed ∨ s.owner = .closing ∧ s.ctx.closed = true := h.held
  cases ht with
  | idle => exact h
  | counted operation items memory n => exact howner _ _ rfl h.closing h.held
  | run w c f stack rest x hst hag hl =>
    obtain ⟨hw, hf⟩ := h.confined w f (by rw [hag]; exact List.mem_cons_self)
    obtain ⟨hcalls, hpost⟩ := lived_confined hl hf h.workers
    obtain ⟨h1, h2, h3, h4⟩ := lived_same hl hf
    refine ⟨fun v g hg => ?_, h1 ▸ h.workers, fun hc => ?_, fun hh => ?_⟩
    · rcases mem_run hag hg with hg' | ⟨hv, hg'⟩ | hg'
      · exact h.confined v g hg'
      · exact ⟨hv ▸ hw, hcalls g hg'⟩
      · exact hpost v g hg'
    · refine h2.trans (hclosed ?_)
      simp only [Cycle.run] at hc
      split at hc
      · exact (woken_closing _).1 hc
      · exact hc
    · have hpc := hheld (by rwa [← h3, ← h4])
      simp only [Cycle.run, Sys.cycle, h2]
      rcases hpc with hpc | ⟨hpc, hcl⟩
      · exact .inl (by simp [hpc, OwnerPc.woken])
      · exact .inr ⟨by simp [hpc, OwnerPc.woken], hcl⟩
  | event c rc error hd hposted =>
    refine ⟨fun v g hg => ?_, h.workers, h.closing, h.held⟩
    rcases eq_or_ne v 0 with rfl | hv
    · simp only [Cycle.put, Function.update_self, List.mem_cons] at hg
      rcases hg with rfl | hg
      · exact ⟨zero_reactors e, id⟩
      · exact h.confined 0 g hg
    · simp only [Cycle.put, ne_eq, hv, not_false_eq_true, Function.update_of_ne] at hg
      exact h.confined v g hg
  | owner c κ ho =>
    cases ho with
    | checked hpc =>
      refine howner s.ctx _ rfl (fun hc => ?_) (fun hh => ?_)
      · cases hi : s.ctx.initializationComplete <;> cases hs : s.ctx.initializationSucceeded <;>
          simp [Sys.cycle, hi, hs, OwnerPc.Closing] at hc
      · rcases hheld hh with ho | ⟨ho, -⟩ <;> rw [show s.owner = .constructing from hpc] at ho <;> cases ho
    | wokenInitialization hpc =>
      refine howner s.ctx _ rfl (fun hc => hc.elim) fun hh => ?_
      rcases hheld hh with ho | ⟨ho, -⟩ <;> rw [show s.owner = .sleepingInitialization from hpc] at ho <;> cases ho
    | wokenShutdown hpc =>
      refine howner s.ctx _ rfl (fun _ => hclosed ?_) fun hh => ?_
      · rw [show s.owner = .sleepingShutdown from hpc]
        trivial
      · rcases hheld hh with ho | ⟨ho, -⟩ <;> rw [show s.owner = .sleepingShutdown from hpc] at ho <;> cases ho
    | close hpc =>
      refine howner s.ctx _ rfl (fun hc => hc.elim) fun hh => .inr ⟨rfl, ?_⟩
      rcases hpc with hpc | hpc
      · rcases hheld hh with ho | ⟨ho, -⟩ <;> rw [show s.owner = .running from hpc] at ho <;> cases ho
      · refine hclosed ?_
        rw [show s.owner = .closed from hpc]
        trivial
    | closedAlready hpc hc => exact howner s.ctx _ rfl (fun _ => hc) fun _ => .inl rfl
    | marked hpc hc hr =>
      refine howner _ _ rfl (fun _ => rfl) fun hh => ?_
      rcases hheld hh with ho | ⟨-, ho⟩
      · rw [show s.owner = .closing from hpc] at ho
        cases ho
      · rw [show s.ctx.closed = false from hc] at ho
        cases ho
    | nothingOpen hpc hc hd hw =>
      refine howner _ _ rfl (fun _ => rfl) fun hh => ?_
      rcases hheld hh with ho | ⟨-, ho⟩
      · rw [show s.owner = .closing from hpc] at ho
        cases ho
      · rw [show s.ctx.closed = false from hc] at ho
        cases ho
    | requested hpc lastError code start hs =>
      refine howner _ _ rfl (fun _ => hclosed ?_) fun hh => ?_
      · rw [show s.owner = .requesting from hpc]
        trivial
      · rcases hheld hh with ho | ⟨ho, -⟩ <;> rw [show s.owner = .requesting from hpc] at ho <;> cases ho
    | beginPosted hpc ha =>
      refine ⟨fun v g hg => ?_, h.workers, fun _ => hclosed ?_, fun hh => ?_⟩
      · rcases eq_or_ne v 0 with rfl | hv
        · simp only [Cycle.put, Function.update_self, List.mem_append, List.mem_singleton] at hg
          rcases hg with hg | rfl
          · exact h.confined 0 g hg
          · exact ⟨zero_reactors e, id⟩
        · simp only [Cycle.put, ne_eq, hv, not_false_eq_true, Function.update_of_ne] at hg
          exact h.confined v g hg
      · rw [show s.owner = .postingShutdown from hpc]
        trivial
      · rcases hheld hh with ho | ⟨ho, -⟩ <;> rw [show s.owner = .postingShutdown from hpc] at ho <;> cases ho
    | beginFailed hpc rc lastError ha =>
      refine howner _ _ rfl (fun _ => hclosed ?_) fun hh => ?_
      · rw [show s.owner = .postingShutdown from hpc]
        trivial
      · rcases hheld hh with ho | ⟨ho, -⟩ <;> rw [show s.owner = .postingShutdown from hpc] at ho <;> cases ho
    | waited hpc =>
      have hc : s.ctx.closed = true := hclosed (by rw [show s.owner = .closeWaiting from hpc]; trivial)
      refine howner s.ctx _ rfl (fun _ => hc) fun hh => ?_
      rcases hheld hh with ho | ⟨ho, -⟩ <;> rw [show s.owner = .closeWaiting from hpc] at ho <;> cases ho
    | claimReleased hpc =>
      have hc : s.ctx.closed = true := hclosed (by rw [show s.owner = .releasing from hpc]; trivial)
      exact howner _ _ rfl (fun _ => hc) fun _ => .inl rfl
  | stops => exact ⟨h.confined, h.workers, h.closing, h.held⟩

/-! ## The countdown over a run -/

/-- A step of a teardown that is posted: no worker fails to post its acknowledgement, and `close()` finds
the runtime available, or a shutdown already requested. -/
def TeardownPosted (s : Sys) : Action → Prop
  | .reactor w (.code rc) => (s.reactor w).stack.head? = some (.life .postFinish) → rc = 0
  | .owner _ => s.owner = .requesting → s.ctx.shutdownRequested = true ∨ s.runtimeAvailable = true
  | _ => True

instance (s : Sys) : ∀ a, Decidable (TeardownPosted s a)
  | .reactor _ (.code _) => inferInstanceAs (Decidable (_ → _))
  | .owner _ => inferInstanceAs (Decidable (_ → _))
  | .reactor _ .next | .reactor _ (.submit ..) | .reactor _ (.fire _) | .reactor _ (.reject ..)
  | .reactor _ (.setUp ..) | .reactor _ .message | .reactor _ (.completion ..) | .reactor _ (.ioWait _)
  | .reactor _ .resize | .reactor _ .remove | .caller .. | .submit .. | .transfer .. | .disturb ..
  | .runtimeStops => isTrue trivial

theorem Tally.mono {c : Members} {p p' : Prop} {begins acks finishes : Nat} (h : Tally c p begins acks finishes)
    (hp : p → p') : Tally c p' begins acks finishes :=
  ⟨h.notBegun, fun hr hs hc => (h.requested hr hs hc).imp_right hp, h.counted, h.last⟩

/-- Other members do not count. -/
theorem Tally.congr {c c' : Members} {p : Prop} {begins acks finishes : Nat} (h : Tally c p begins acks finishes)
    (h1 : c'.shutdownStarted = c.shutdownStarted) (h2 : c'.shutdownRequested = c.shutdownRequested)
    (h3 : c'.shutdownComplete = c.shutdownComplete) (h4 : c'.workersShuttingDown = c.workersShuttingDown) :
    Tally c' p begins acks finishes :=
  ⟨by rw [h1]; exact h.notBegun, by rw [h1, h2, h3]; exact h.requested, by rw [h1, h4]; exact h.counted,
    by rw [h1, h3, h4]; exact h.last⟩

/-- Once `shutdown_complete_` is set nothing needs to be pending. -/
theorem Tally.completed {c : Members} {p p' : Prop} {begins acks finishes : Nat} {lastError : String} {closed : Bool}
    (h : Tally c p begins acks finishes) :
    Tally { c with lastError, closed, shutdownComplete := true } p' begins acks finishes :=
  ⟨h.notBegun, fun _ _ hc => absurd hc nofun, h.counted, fun _ _ hc => absurd hc nofun⟩

theorem lived_monotone {c : Members} {ch : Choice} {available : Bool} (hl : Lived e available c w f ch x) :
    (c.shutdownRequested = true → x.ctx.shutdownRequested = true) ∧
    (c.shutdownComplete = true → x.ctx.shutdownComplete = true) ∧
    (c.shutdownStarted = true → x.ctx.shutdownStarted = true) ∧
    (c.initializationComplete = true → x.ctx.initializationComplete = true) := by
  cases hl with
  | requested rc error lastError code start hstart => exact ⟨fun h => by simp [h], id, id, id⟩
  | initializedLast | published => exact ⟨id, id, id, fun _ => rfl⟩
  | beginFailed | finished => exact ⟨id, fun _ => rfl, id, id⟩
  | begun => exact ⟨id, id, fun _ => rfl, id⟩
  | _ => exact ⟨id, id, id, id⟩

theorem woken_asked (pc : OwnerPc) : pc.woken.Asked ↔ pc.Asked := by
  cases pc <;> simp [OwnerPc.woken, OwnerPc.Asked]

theorem run_owner_asked : (κ.run w rest x).owner.Asked ↔ κ.owner.Asked := by
  simp only [Cycle.run]
  split
  · exact woken_asked _
  · exact Iff.rfl

/-- The acknowledgement of a callback that is about to post one. -/
theorem acknowledgement_posted {c : Choice} {stack : List Frame} {available : Bool} {m : Members}
    (hg : TeardownPosted s (.reactor w c)) (hst : (s.reactor w).stack = .life f :: stack)
    (hl : Lived e available m w f c x) (hf : f = .postFinish) : c = .code 0 := by
  subst hf
  cases hl with
  | finishPosted => rfl
  | finishFailed rc hrc => exact absurd (hg (by rw [hst]; rfl)) hrc

theorem Counting.turn {a : Action} (ho : Opened e s.cycle) (h : Counting e s.cycle) (hg : TeardownPosted s a)
    (ht : Turn e s a κ') : Counting e κ' := by
  have htally : Tally s.ctx (s.owner = .postingShutdown) (s.cycle.total e LifeFrame.begins)
      (s.cycle.total e (LifeFrame.acks s.ctx.ioWorkers)) (s.cycle.total e LifeFrame.finishes) := h.tally
  have hasked : s.owner.Asked → s.ctx.shutdownComplete = true ∨ s.ctx.shutdownRequested = true := h.asked
  cases ht with
  | idle => exact h
  | counted operation items memory n => exact ⟨htally.congr rfl rfl rfl rfl, hasked⟩
  | run w c f stack rest x hst hag hl =>
    obtain ⟨hw, hf⟩ := ho.confined w f (by rw [hag]; exact List.mem_cons_self)
    have hpost := fun u g hx => ((lived_confined hl hf ho.workers).2 u g hx).1
    obtain ⟨hworkers, -⟩ := lived_same hl hf
    obtain ⟨h1, h2, -⟩ := lived_monotone hl
    refine ⟨?_, fun hpc => ?_⟩
    · have hrun := htally.run hl hf (acknowledgement_posted hg hst hl) (total_run hag hw hpost _)
        (total_run hag hw hpost _) (total_run hag hw hpost _)
      unfold Cycle.tally
      rw [show (s.cycle.run w rest x).ctx = x.ctx from rfl, hworkers]
      refine hrun.mono fun hpc => ?_
      simp only [Cycle.run, show s.cycle.owner = .postingShutdown from hpc, OwnerPc.woken]
      split <;> rfl
    · exact (hasked (run_owner_asked.1 hpc)).imp h2 h1
  | event c rc error hd hposted =>
    refine ⟨?_, hasked⟩
    have hlight : ∀ weight : LifeFrame → Nat, weight (.requestShutdown rc error) = 0 →
        (s.cycle.put 0 (.requestShutdown rc error :: s.cycle.agenda 0)).total e weight = s.cycle.total e weight :=
      fun weight hweight => weigh_first (zero_reactors e) (fun _ => weight) hweight
    unfold Cycle.tally
    rw [hlight _ rfl, hlight _ rfl, hlight _ rfl]
    exact htally
  | owner c κ hown =>
    -- a step of the owner that posts nothing, from a place where it is not posting
    have hmove : ∀ (m : Members) (pc : OwnerPc), Tally m (pc = .postingShutdown) (s.cycle.total e LifeFrame.begins)
        (s.cycle.total e (LifeFrame.acks m.ioWorkers)) (s.cycle.total e LifeFrame.finishes) →
        (pc.Asked → m.shutdownComplete = true ∨ m.shutdownRequested = true) →
        Counting e { s.cycle with ctx := m, owner := pc } := fun m pc h1 h2 => ⟨h1, h2⟩
    have hsame : ∀ pc pc' : OwnerPc, s.owner = pc' → pc' ≠ .postingShutdown → (pc.Asked → pc'.Asked) →
        Counting e { s.cycle with owner := pc } := by
      intro pc pc' hpc hne hpc'
      refine hmove s.ctx pc (htally.mono fun hp => absurd (hpc.symm.trans hp) hne) fun hp => hasked ?_
      rw [hpc]
      exact hpc' hp
    cases hown with
    | checked hpc =>
      refine hsame _ _ hpc (by simp) fun hp => ?_
      cases hi : s.ctx.initializationComplete <;> cases hs : s.ctx.initializationSucceeded <;>
        simp [Sys.cycle, hi, hs, OwnerPc.Asked] at hp
    | wokenInitialization hpc => exact hsame _ _ hpc (by simp) fun hp => by simp [OwnerPc.Asked] at hp
    | wokenShutdown hpc => exact hsame _ _ hpc (by simp) fun _ => .inr (.inl rfl)
    | close hpc =>
      rcases hpc with hpc | hpc <;> exact hsame _ _ hpc (by simp) fun hp => by simp [OwnerPc.Asked] at hp
    | closedAlready hpc => exact hsame _ _ hpc (by simp) fun hp => by simp [OwnerPc.Asked] at hp
    | marked hpc =>
      refine hmove _ _ ?_ fun hp => by simp [OwnerPc.Asked] at hp
      exact (htally.mono fun hp => absurd (hpc.symm.trans hp) (by simp)).congr rfl rfl rfl rfl
    | nothingOpen => exact hmove _ _ htally.completed fun _ => .inl rfl
    | requested hpc lastError code start hs =>
      have hruntime : s.ctx.runtime = true := by
        by_contra hno
        rcases ho.held (.inl (by simpa [Sys.cycle] using hno)) with hpc' | ⟨hpc', -⟩ <;> rw [hpc'] at hpc <;> cases hpc
      have hstart : (s.ctx.shutdownRequested || start) = true := by
        rcases hg hpc with hr | ha
        · simp [hr]
        · simp [hs, Sys.cycle, hruntime, ha]
      refine hmove _ _ ⟨htally.notBegun, fun hr hs' hc => ?_, htally.counted, htally.last⟩ fun _ => .inr hstart
      cases start with
      | true => exact .inr rfl
      | false =>
        refine .inl ((htally.requested ?_ hs' hc).resolve_right fun hp => ?_)
        · simpa [Sys.cycle] using hr
        · exact absurd ((show s.owner = .requesting from hpc).symm.trans hp) (by simp)
    | beginPosted hpc ha =>
      -- the posted call is one more that begins the teardown
      have hput : ∀ weight : LifeFrame → Nat,
          (s.cycle.put 0 (s.cycle.agenda 0 ++ [.beginShutdown])).total e weight =
            s.cycle.total e weight + weight .beginShutdown := by
        intro weight
        have hput := total_put (κ := s.cycle) (zero_reactors e) weight (s.cycle.agenda 0 ++ [.beginShutdown])
        simp only [List.map_append, List.sum_append, List.map_cons, List.map_nil, List.sum_cons, List.sum_nil] at hput
        omega
      have hposted : Tally s.ctx (OwnerPc.closeWaiting = .postingShutdown)
          (s.cycle.total e LifeFrame.begins + 1) (s.cycle.total e (LifeFrame.acks s.ctx.ioWorkers))
          (s.cycle.total e LifeFrame.finishes) :=
        ⟨htally.notBegun, fun _ _ _ => .inl (Nat.succ_pos _), htally.counted, htally.last⟩
      refine ⟨?_, fun _ => hasked (.inr (.inr hpc))⟩
      have hB := hput LifeFrame.begins
      have hA := hput (LifeFrame.acks s.ctx.ioWorkers)
      have hF := hput LifeFrame.finishes
      rw [← show _ = s.cycle.total e LifeFrame.begins + 1 from hB,
        ← show _ = s.cycle.total e (LifeFrame.acks s.ctx.ioWorkers) from hA,
        ← show _ = s.cycle.total e LifeFrame.finishes from hF] at hposted
      exact hposted
    | beginFailed hpc rc lastError ha => exact hmove _ _ htally.completed fun _ => .inl rfl
    | waited hpc =>
      refine hsame _ _ hpc (by simp) fun _ => .inl rfl
    | claimReleased hpc =>
      refine hmove _ _ ?_ fun hp => by simp [OwnerPc.Asked] at hp
      exact (htally.mono fun hp => absurd (hpc.symm.trans hp) (by simp)).congr rfl rfl rfl rfl
  | stops => exact ⟨htally, hasked⟩

/-! ## Over a run -/

theorem init_opening (device : Nat → UInt8) : Opening (Sys.init device).cycle := by
  refine ⟨⟨.onRuntimeReady, funext fun v => ?_, .inl ⟨rfl, rfl⟩⟩, .inl rfl, rfl, rfl, rfl, rfl, rfl, rfl, rfl, rfl⟩
  rcases eq_or_ne v 0 with rfl | hv
  · rfl
  · simp [Sys.cycle, Sys.init, Reactor.agenda, hv]

theorem counting_step {a : Action} (h : Opening s.cycle ∨ Opened e s.cycle ∧ Counting e s.cycle)
    (hg : TeardownPosted s a) (hs : step e s a = some s') :
    Opening s'.cycle ∨ Opened e s'.cycle ∧ Counting e s'.cycle := by
  have hturn := step_turn hs
  rcases h with h | ⟨h1, h2⟩
  · exact h.turn hturn
  · exact .inr ⟨h1.turn hturn, h2.turn h1 hg hturn⟩

/-- A step is pending or running that leads to `shutdown_complete_`: one that begins the teardown, as many
acknowledgements as the teardown still counts, or the finish. -/
inductive Underway (s : Sys) : Prop
  | begins (hs : s.ctx.shutdownStarted = false) (w : Nat) (f : LifeFrame) (h : f ∈ (s.reactor w).agenda)
      (hf : f = .postBeginShutdown ∨ f = .beginShutdown)
  | acknowledges (hs : s.ctx.shutdownStarted = true) (n : Nat) (hn : 0 < s.ctx.workersShuttingDown)
      (h : ∑ w ∈ Finset.range n, ((s.reactor w).agenda.map (LifeFrame.acks s.ctx.ioWorkers)).sum =
        s.ctx.workersShuttingDown)
  | finishes (hs : s.ctx.shutdownStarted = true) (w : Nat) (f : LifeFrame) (h : f ∈ (s.reactor w).agenda)
      (hf : f = .releaseDescriptor ∨ f = .finishShutdown)

/-- **A caller of `close()` never waits for nothing**: in every run in which each worker's acknowledgement is
posted and `close()` finds the runtime available or a shutdown requested, a wait for `shutdown_complete_`
has a step pending that leads to it. -/
theorem close_progresses {device : Nat → UInt8} {as : List Action}
    (hg : Guarded (step e) TeardownPosted (Sys.init device) as)
    (h : runFrom (step e) (Sys.init device) as = some s)
    (hw : s.owner = .closeWaiting ∨ s.owner = .sleepingShutdown) (hc : s.ctx.shutdownComplete = false) :
    Underway s := by
  have hinv := run_invariant (I := fun s => Opening s.cycle ∨ Opened e s.cycle ∧ Counting e s.cycle)
    (fun s a s' hi ha hs => counting_step hi ha hs) (.inl (init_opening device)) hg h
  rcases hinv with ho | ⟨-, hcount⟩
  · have hpc := ho.owner
    simp only [Sys.cycle] at hpc
    rcases hpc with hpc | hpc <;> rcases hw with hw | hw <;> rw [hpc] at hw <;> cases hw
  · have hasked : s.ctx.shutdownComplete = true ∨ s.ctx.shutdownRequested = true :=
      hcount.asked (hw.imp_right .inl)
    have hrequested := hasked.resolve_left (by simp [hc])
    have htally := hcount.tally
    cases hs : s.ctx.shutdownStarted with
    | false =>
      have hposting : ¬ s.cycle.owner = .postingShutdown := by
        intro hp
        rcases hw with hw | hw <;> exact absurd (hw.symm.trans hp) (by simp)
      obtain ⟨w, f, hf, hweight⟩ := exists_of_total _ ((htally.requested hrequested hs hc).resolve_right hposting)
      refine .begins hs w f hf ?_
      cases f <;> simp_all [LifeFrame.begins]
    | true =>
      rcases Nat.eq_zero_or_pos s.ctx.workersShuttingDown with hz | hn
      · obtain ⟨w, f, hf, hweight⟩ := exists_of_total _ (htally.last hs hz hc)
        refine .finishes hs w f hf ?_
        cases f <;> simp_all [LifeFrame.finishes]
      · exact .acknowledges hs e.reactors hn (htally.counted hs).symm

/-- A bdev opened with one worker is closed, and the caller waits for the teardown. -/
def closeRun : List Action :=
  openRun ++ [.owner .next, .owner .next, .owner .next, .owner (.code 0), .owner .next]

theorem close_progresses_open : ∃ s, runFrom (step smallEnv) (Sys.init Nat.toUInt8) closeRun = some s ∧
    s.owner = .sleepingShutdown ∧ s.ctx.shutdownComplete = false ∧ Underway s := by
  have hrun : runFrom (step smallEnv) (Sys.init Nat.toUInt8) closeRun = some _ := rfl
  refine ⟨_, hrun, rfl, rfl, close_progresses ?_ hrun (.inr rfl) rfl⟩
  decide +kernel

/-- The runtime has stopped when `close()` asks for the shutdown: nobody begins it, and `close()` waits with
every reactor idle. -/
def stuckRun : List Action :=
  openRun ++ [.runtimeStops, .owner .next, .owner .next, .owner .next, .owner .next]

theorem close_stuck : ∃ s, runFrom (step smallEnv) (Sys.init Nat.toUInt8) stuckRun = some s ∧
    s.owner = .sleepingShutdown ∧ s.ctx.shutdownComplete = false ∧ s.ctx.shutdownStarted = false ∧
    (∀ w, (s.reactor w).stack = [] ∧ (s.reactor w).queue = []) ∧ ¬ Underway s := by
  have hidle : ∃ s, runFrom (step smallEnv) (Sys.init Nat.toUInt8) stuckRun = some s ∧
      s.owner = .sleepingShutdown ∧ s.ctx.shutdownComplete = false ∧ s.ctx.shutdownStarted = false ∧
      ∀ w, (s.reactor w).stack = [] ∧ (s.reactor w).queue = [] :=
    ⟨_, rfl, rfl, rfl, rfl, fun w => by cases w <;> exact ⟨rfl, rfl⟩⟩
  obtain ⟨s, hrun, howner, hcomplete, hstarted, hidle⟩ := hidle
  refine ⟨s, hrun, howner, hcomplete, hstarted, hidle, fun hu => ?_⟩
  have hnone : ∀ w, (s.reactor w).agenda = [] := fun w => by simp [Reactor.agenda, hidle w]
  cases hu with
  | begins hs w f h => simp [hnone w] at h
  | acknowledges hs => rw [hstarted] at hs; cases hs
  | finishes hs w f h => simp [hnone w] at h

end SpdkBdevContext
end SpdkConnector
