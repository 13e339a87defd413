import SpdkConnector.Context.Phases
import SpdkConnector.Context.PoolRelease

/-!
# What the workers report

A construction seen from outside (`milestones`): which worker sets itself up, for which worker
`on_io_worker_initialized` is called and with what, and which worker is torn down. The texts that go with it:
`last_error_` is never cleared once it is set, each failure comes with a text, and so does each event of the
bdev. Before the teardown a worker that has reported success has its channel and its pool (`ready_step`).
-/

namespace SpdkConnector
namespace SpdkBdevContext

open Interleaving

variable {e : Env} {s s' s1 : Sys} {κ : Core} {w v : Nat} {f g : LifeFrame} {x : Effect} {y : Reactor}

inductive Milestone where
  /-- `on_runtime_ready` gives up before it starts a worker. -/
  | aborts
  /-- Worker `w` runs `initialize_io_worker`. -/
  | initializes (w : Nat)
  /-- `on_io_worker_initialized` is called for worker `w`, with an error text where it failed. -/
  | reports (w : Nat) (failed : Bool)
  /-- Worker `w` runs `shutdown_io_worker`. -/
  | shutsDown (w : Nat)
deriving DecidableEq, Repr

/-- What a life cycle call on SPDK thread `w` shows. -/
def LifeFrame.milestones (e : Env) (s : Sys) (w : Nat) : LifeFrame → Choice → List Milestone
  | .onRuntimeReady, .code rc => if rc ≠ 0 then [.aborts] else []
  | .configure, .reject _ _ => [.aborts]
  | .postSetUp i, .code rc => if rc ≠ 0 then [.reports i true] else []
  | .initializeIoWorker, .setUp onReactor channel obtained =>
    [.initializes w, .reports w ((SpdkBdevContext.initializeIoWorker e s w onReactor channel obtained).2 != "")]
  | .shutdownIoWorker, .next => [.shutsDown w]
  | _, _ => []

def milestones (e : Env) (s : Sys) : Action → List Milestone
  | .reactor w c =>
    match (s.reactor w).stack with
    | .life f :: _ => f.milestones e s w c
    | _ => []
  | _ => []

/-- The workers `on_io_worker_initialized` has been called for. -/
def reported (es : List Milestone) : List Nat :=
  es.filterMap fun
    | .reports w _ => some w
    | _ => none

@[simp] theorem reported_append (es es' : List Milestone) : reported (es ++ es') = reported es ++ reported es' := by
  simp [reported]

theorem mem_reported {es : List Milestone} : v ∈ reported es ↔ ∃ failed, .reports v failed ∈ es := by
  unfold reported
  rw [List.mem_filterMap]
  constructor
  · rintro ⟨m, hm, hv⟩
    cases m <;> simp only [reduceCtorEq, Option.some.injEq] at hv
    exact ⟨_, hv ▸ hm⟩
  · rintro ⟨failed, hm⟩
    exact ⟨_, hm, rfl⟩

/-! ## One call -/

/-- A step of a reactor that runs a life cycle call. -/
theorem step_life {c : Choice} {stack : List Frame} (hst : (s.reactor w).stack = .life f :: stack)
    (hs : step e s (.reactor w c) = some s') : ∃ s1 fs,
    runLife e (s.setReactor w { s.reactor w with stack := stack }) w f c = some (s1, fs) ∧
    s' = s1.setReactor w { s1.reactor w with stack := fs ++ stack } := by
  simp only [step] at hs
  split at hs
  · unfold reactorStep at hs
    rw [hst] at hs
    obtain ⟨⟨s1, fs⟩, hrun, rfl⟩ := Option.map_eq_some_iff.1 hs
    exact ⟨s1, fs, hrun, rfl⟩
  · cases hs

/-- A step that runs no life cycle call, as the life cycle sees it. -/
inductive Aside (e : Env) (s : Sys) : Cycle → Prop
  | idle : Aside e s s.cycle
  | counted (n : Nat) : Aside e s { s.cycle with ctx := { s.ctx with nextIoWorker := n } }
  | event (rc : Int) (error : String) (herror : error ≠ "") (hd : s.ctx.bdevDescriptor = true)
      (h : ∀ f ∈ s.cycle.agenda 0, f.Posted) :
      Aside e s (s.cycle.put 0 (.requestShutdown rc error :: s.cycle.agenda 0))
  | owner (c : Choice) (κ : Cycle) (h : Owned e s.cycle c κ) : Aside e s κ
  | stops : Aside e s { s.cycle with runtimeAvailable := false }

/-- **A step runs a life cycle call, or shows nothing.** -/
theorem step_milestones {a : Action} (hs : step e s a = some s') :
    (∃ w c f stack rest x, a = .reactor w c ∧ (s.reactor w).stack = .life f :: stack ∧
      s.cycle.agenda w = f :: rest ∧ Lived e s.runtimeAvailable s.ctx w f c x ∧ s'.cycle = s.cycle.run w rest x ∧
      milestones e s a = f.milestones e s w c) ∨
    milestones e s a = [] ∧ Aside e s s'.cycle := by
  cases a with
  | reactor w c =>
    have hstep : reactorStep e s w c = some s' := by
      simp only [step] at hs
      split at hs
      · exact hs
      · cases hs
    rcases hst : (s.reactor w).stack with _ | ⟨_ | f, stack⟩
    · refine .inr ⟨by simp [milestones, hst], ?_⟩
      rw [reactorStep, hst] at hstep
      rcases pickUp_cycle hst hstep with hcycle | ⟨rc, error, rfl, herror, hd, hposted, hcycle⟩
      · exact hcycle ▸ .idle
      · exact hcycle ▸ .event rc error herror hd hposted
    · refine .inr ⟨by simp [milestones, hst], ?_⟩
      exact ioStep_cycle hst hstep ▸ .idle
    · obtain ⟨rest, x, hag, hlived, hcycle⟩ := lifeStep_cycle hst hstep
      exact .inl ⟨w, c, f, stack, rest, x, rfl, hst, hag, hlived, hcycle, by simp [milestones, hst]⟩
  | caller b c => exact .inr ⟨rfl, (callerStep_undisturbed hs).cycle ▸ .idle⟩
  | submit operation items memory =>
    refine .inr ⟨rfl, ?_⟩
    simp only [step] at hs
    split at hs
    · cases hs
      obtain ⟨n, m, heq⟩ | ⟨-, -, -, -, -, n, m, heq⟩ := submitBatch_cases e s operation items memory
      · rw [heq]
        exact .counted n
      · rw [heq]
        exact .counted n
    · cases hs
  | owner c => exact .inr ⟨rfl, .owner c _ (ownerStep_owned hs)⟩
  | transfer w k n => exact .inr ⟨rfl, (transfer_undisturbed hs).cycle ▸ .idle⟩
  | disturb w k noise => exact .inr ⟨rfl, (disturb_undisturbed hs).cycle ▸ .idle⟩
  | runtimeStops =>
    cases hs
    exact .inr ⟨rfl, .stops⟩

/-- What a call past the opening may show. -/
theorem mem_milestones {c : Choice} {m : Milestone} (h : m ∈ f.milestones e s w c) (hf : ¬ f.Early) :
    (∃ i rc, f = .postSetUp i ∧ c = .code rc ∧ rc ≠ 0 ∧ m = .reports i true) ∨
    (∃ onReactor channel obtained, f = .initializeIoWorker ∧ c = .setUp onReactor channel obtained ∧
      (m = .initializes w ∨ m = .reports w ((initializeIoWorker e s w onReactor channel obtained).2 != ""))) ∨
    f = .shutdownIoWorker ∧ m = .shutsDown w := by
  unfold LifeFrame.milestones at h
  split at h
  · exact absurd trivial hf
  · exact absurd trivial hf
  · rename_i i rc
    split at h
    · rename_i hrc
      exact .inl ⟨i, rc, rfl, rfl, hrc, List.mem_singleton.1 h⟩
    · cases h
  · right
    left
    rcases List.mem_cons.1 h with rfl | h
    · exact ⟨_, _, _, rfl, rfl, .inl rfl⟩
    · exact ⟨_, _, _, rfl, rfl, .inr (List.mem_singleton.1 h)⟩
  · exact .inr (.inr ⟨rfl, List.mem_singleton.1 h⟩)
  · cases h

/-- The outcome of `initialize_io_worker` does not depend on what else is on the stack. -/
theorem initializeIoWorker_popped (s : Sys) (w : Nat) (stack : List Frame) (onReactor channel : Bool) (obtained : Nat) :
    (initializeIoWorker e (s.setReactor w { s.reactor w with stack := stack }) w onReactor channel obtained).2 =
      (initializeIoWorker e s w onReactor channel obtained).2 := by
  unfold initializeIoWorker
  simp only [Sys.setReactor, Function.update_self]
  split
  · rfl
  · split
    · rfl
    · split <;> rfl

/-! ## The texts -/

theorem append_ne_empty (a b : String) (h : a ≠ "" ∨ b ≠ "") : a ++ b ≠ "" := by
  rw [Ne, String.append_eq_empty_iff]
  rintro ⟨rfl, rfl⟩
  simp at h

theorem spdkError_ne (operation : String) (rc : Int) : e.spdkError operation rc ≠ "" :=
  append_ne_empty _ _ (.inr (by decide))

/-- `initialize` throws with a text. -/
theorem initializePool_what {p : SpdkBufferPool} {size alignment count : Nat} {zmalloc : Nat → Option Nat} {error : Exn}
    (h : (p.initializePool size alignment count zmalloc).1 = .error error) : error.what ≠ "" := by
  unfold SpdkBufferPool.initializePool at h
  have htext : ∀ {kind : ExnKind} {text : String}, text ≠ "" →
      Except.error (ε := Exn) (α := Unit) ⟨kind, text⟩ = .error error → error.what ≠ "" := by
    rintro kind text htext ⟨⟩
    exact htext
  split at h
  · exact htext (by decide) h
  split at h
  · exact htext (by decide) h
  split at h
  · exact htext (by decide) h
  split at h
  · exact htext (by decide) h
  split at h
  · exact htext (by decide) h
  split at h
  · exact htext (by decide) h
  split at h
  · exact htext (append_ne_empty _ _ (.inr (by decide))) h
  · cases h

/-- A worker that does not fail has its channel and its pool, and one that fails says why. -/
theorem initializeIoWorker_ready (hwf : (s.reactor w).pool.WF) (onReactor channel : Bool) (obtained : Nat)
    (h : (initializeIoWorker e s w onReactor channel obtained).2 = "") :
    ((initializeIoWorker e s w onReactor channel obtained).1.reactor w).ioChannel = true ∧
    ((initializeIoWorker e s w onReactor channel obtained).1.reactor w).pool.initialized = true := by
  revert h
  unfold initializeIoWorker
  dsimp only
  split
  · exact fun h => absurd h (append_ne_empty _ _ (.inr (by decide)))
  split
  · exact fun h => absurd h (append_ne_empty _ _ (.inr (by decide)))
  · split
    · rename_i error pool hpool
      exact fun h => absurd h (initializePool_what (congrArg Prod.fst hpool))
    · rename_i pool hpool
      intro _
      simp only [Sys.setReactor, Function.update_self, true_and]
      obtain ⟨x, hx⟩ | ⟨buffers, -, -, -, hx⟩ := SpdkBufferPool.initializePool_cases hwf e.geometry.ioSegmentSize
        e.geometry.bufferAlignment e.geometry.spdkBufferCount (fun i => if i < obtained then some i else none)
      · cases hx.symm.trans hpool
      · exact congrArg SpdkBufferPool.initialized (Prod.mk.inj (hx.symm.trans hpool)).2 ▸ rfl

/-- The text `on_io_worker_initialized` and `request_shutdown` leave in `last_error_`. -/
def LifeFrame.lastError (old : String) : LifeFrame → String
  | .onIoWorkerInitialized error => if error ≠ "" ∧ old = "" then error else old
  | .requestShutdown _ error => if error ≠ "" then error else old
  | _ => old

theorem requestShutdown_lastError (s : Sys) (rc : Int) (error : String) :
    (requestShutdown s rc error).1.ctx.lastError = if error ≠ "" then error else s.ctx.lastError := by
  unfold requestShutdown
  dsimp only
  split <;> split <;> split <;> rfl

theorem onIoWorkerInitialized_lastError (s : Sys) (error : String) :
    (onIoWorkerInitialized s error).1.ctx.lastError =
      if error ≠ "" ∧ s.ctx.lastError = "" then error else s.ctx.lastError := by
  unfold onIoWorkerInitialized
  dsimp only
  split <;> split <;> rfl

theorem LifeFrame.lastError_empty {old : String} (h : f.lastError old = "") : old = "" := by
  by_contra hold
  unfold LifeFrame.lastError at h
  split at h
  · rw [if_neg fun hc => hold hc.2] at h
    exact hold h
  · split at h
    · contradiction
    · exact hold h
  · exact hold h

/-- A call but that of `publish_initialization_failure` leaves no text only where there was none and it has
none to leave. -/
theorem runLife_lastError {c : Choice} {fs : List Frame} (h : runLife e s w f c = some (s1, fs))
    (hpublish : ∀ message, f ≠ .publishInitializationFailure message) (hempty : s1.ctx.lastError = "") :
    f.lastError s.ctx.lastError = "" := by
  unfold runLife at h
  split at h
  · split at h <;> cases h <;> exact hempty
  · split at h <;> cases h
    exact hempty
  · cases h
    exact hempty
  · -- an initialisation is posted
    split at h
    · split at h <;> cases h <;> exact hempty
    · cases h
  · split at h <;> cases h
    exact hempty
  · -- a worker sets itself up
    rename_i onReactor channel obtained
    have hctx := (initializeIoWorker_life (e := e) s w onReactor channel obtained).2.1
    cases h
    exact (congrArg Members.lastError hctx).symm.trans hempty
  · rename_i error
    cases h
    exact (onIoWorkerInitialized_lastError s error).symm.trans hempty
  · exact absurd rfl (hpublish _)
  · cases h
    exact hempty
  · rename_i rc error
    cases h
    exact (requestShutdown_lastError s rc error).symm.trans hempty
  · -- the teardown is posted, or it is noted that it cannot be
    cases h
    unfold postBeginShutdown at hempty
    split at hempty
    · exact hempty
    · simp only [Sys.notifyAll] at hempty
      split at hempty
      · assumption
      · exact hempty
  · split at h <;> cases h <;> exact hempty
  · -- a worker's shutdown is posted, or it is noted that it cannot be
    split at h
    · split at h
      · cases h
        exact hempty
      · cases h
        simp only [Sys.setReactor, (releasePool_spec _ _).2.1] at hempty
        split at hempty
        · assumption
        · exact hempty
    · cases h
  · split at h <;> cases h
    exact hempty
  · dsimp only at h
    split at h <;> cases h <;> exact hempty
  · cases h
    simp only [Sys.setReactor, (releasePool_spec _ _).2.1] at hempty
    exact hempty
  · cases h
    split at hempty <;> exact hempty
  · cases h
    exact hempty
  · cases h
    exact hempty
  · cases h
    exact hempty
  · cases h
    exact hempty
  · cases h

/-- A report of a failure comes with its text, which is about to be counted. -/
theorem failed_reports {c : Choice} {stack : List Frame} (hst : (s.reactor w).stack = .life f :: stack)
    (hs : step e s (.reactor w c) = some s') (hm : .reports v true ∈ f.milestones e s w c) (hf : ¬ f.Early) :
    ∃ error, error ≠ "" ∧ .onIoWorkerInitialized error ∈ s'.cycle.agenda w := by
  obtain ⟨s1, fs, hrun, rfl⟩ := step_life hst hs
  have hcalled : ∀ {error : String}, .life (.onIoWorkerInitialized error) ∈ fs → .onIoWorkerInitialized error ∈
      (s1.setReactor w { s1.reactor w with stack := fs ++ stack }).cycle.agenda w := by
    intro error h
    apply stack_agenda
    simp [Sys.setReactor, h]
  rcases mem_milestones hm hf with ⟨i, rc, rfl, rfl, hrc, -⟩ | ⟨onReactor, channel, obtained, rfl, rfl, hm | hm⟩ |
    ⟨-, hm⟩
  · simp only [runLife, hrc, if_false] at hrun
    split at hrun
    · cases hrun
      exact ⟨_, spdkError_ne _ rc, hcalled List.mem_cons_self⟩
    · cases hrun
  · cases hm
  · have herror := (Milestone.reports.inj hm).2.symm
    rw [← initializeIoWorker_popped s w stack, bne_iff_ne] at herror
    obtain ⟨rfl, rfl⟩ := Prod.mk.inj (Option.some.inj hrun)
    exact ⟨_, herror, hcalled List.mem_cons_self⟩
  · cases hm

/-- A worker that reports success has its channel and its pool. -/
theorem ready_reports {c : Choice} {stack : List Frame} (hwf : (s.reactor w).pool.WF)
    (hst : (s.reactor w).stack = .life f :: stack) (hs : step e s (.reactor w c) = some s')
    (hm : .reports v false ∈ f.milestones e s w c) (hf : ¬ f.Early) :
    v = w ∧ (s'.reactor w).ioChannel = true ∧ (s'.reactor w).pool.initialized = true := by
  obtain ⟨s1, fs, hrun, rfl⟩ := step_life hst hs
  rcases mem_milestones hm hf with ⟨i, rc, rfl, rfl, hrc, hm⟩ | ⟨onReactor, channel, obtained, rfl, rfl, hm | hm⟩ |
    ⟨-, hm⟩
  · cases hm
  · cases hm
  · obtain ⟨rfl, herror⟩ := Milestone.reports.inj hm
    rw [← initializeIoWorker_popped s v stack, eq_comm, bne_eq_false_iff_eq] at herror
    have hready := initializeIoWorker_ready (e := e) (s := s.setReactor v { s.reactor v with stack := stack })
      (by simpa [Sys.setReactor] using hwf) onReactor channel obtained herror
    have hs1 : (initializeIoWorker e (s.setReactor v { s.reactor v with stack := stack }) v onReactor channel
        obtained).1 = s1 := (Prod.mk.inj (Option.some.inj hrun)).1
    rw [hs1] at hready
    simpa [Sys.setReactor] using hready
  · cases hm

/-- A worker keeps its channel and its pool as long as nothing is torn down and it is not set up again. -/
theorem acted_ready {a : Action} (hacted : Acted s v a y) (hcalm : s.Calm)
    (hset : .life .initializeIoWorker ∉ (s.reactor v).stack)
    (h : (s.reactor v).ioChannel = true ∧ (s.reactor v).pool.initialized = true) :
    y.ioChannel = true ∧ y.pool.initialized = true := by
  cases hacted with
  | io c f rest y fs hst hdone =>
    cases hdone with
    | parked r dma y fs hp => cases hp <;> exact h
    | released r success success' error k => exact ⟨h.1, (poolAfterRelease_initialized _ _).trans h.2⟩
    | _ => exact h
  | life c f rest y fs hst ht =>
    have hmem : .life f ∈ (s.reactor v).stack := hst ▸ List.mem_cons_self
    cases ht with
    | setUp => exact absurd hmem hset
    | cut | released => exact absurd trivial (hcalm v _ hmem)
    | _ => exact h
  | reached u c f rest y hu hst hr =>
    have hmem : .life f ∈ (s.reactor u).stack := hst ▸ List.mem_cons_self
    cases hr with
    | cut => exact absurd trivial (hcalm u _ hmem)
    | _ => exact h
  | _ => exact h

end SpdkBdevContext
end SpdkConnector
