import SpdkConnector.Context.Gauges
import SpdkConnector.Context.Handshake

/-!
# Pools are empty when the teardown finishes

A teardown that is requested once every worker has reported finds each pool set up or never to be: no worker
sets up a pool after it (`Course`). It goes by each worker once, with a message or without, and the last
acknowledgement comes after every worker has released its pool (`Course.pending`), also where some of the
messages are lost: then it does not come.
-/

namespace SpdkConnector
namespace SpdkBdevContext

open Interleaving

variable {e : Env} {s s' : Sys} {ζ : Core} {κ κ' : Cycle} {w v i : Nat} {f g : LifeFrame} {rest : List LifeFrame} {x : Effect}
  {c : Members} {ch : Choice} {available : Bool}

/-- A shutdown is requested when every worker has reported its initialisation. -/
def OnceReported (e : Env) (s : Sys) (a : Action) : Prop :=
  s.ctx.shutdownRequested = false → ((step e s a).elim false fun s' => s'.ctx.shutdownRequested) = true →
    s.ctx.workersInitializing = 0

instance (e : Env) (s : Sys) (a : Action) : Decidable (OnceReported e s a) := by
  unfold OnceReported
  infer_instance

theorem OnceReported.zero {a : Action} (h : OnceReported e s a) (hs : step e s a = some s')
    (hno : s.ctx.shutdownRequested = false) (hr : s'.ctx.shutdownRequested = true) : s.ctx.workersInitializing = 0 :=
  h hno (by rw [hs]; exact hr)

/-- A call that sets up worker `v` is one of its own reactor, or leads to it. -/
def LifeFrame.SetsUp : LifeFrame → Prop
  | .initializeIoWorker | .postSetUp _ => True
  | _ => False

/-- The way from the last report to the last acknowledgement. -/
structure Course (e : Env) (κ : Cycle) : Prop where
  awaited : κ.total e (LifeFrame.due κ.ctx.ioWorkers) + κ.total e LifeFrame.counts ≤ κ.ctx.workersInitializing
  unasked : κ.ctx.shutdownRequested = false → κ.ctx.shutdownStarted = false ∧ κ.owner ≠ .postingShutdown ∧
    ∀ v, ∀ g ∈ κ.agenda v, g.begins = 0
  before : κ.ctx.shutdownStarted = false → κ.total e (LifeFrame.acks κ.ctx.ioWorkers) = 0
  counted : κ.ctx.shutdownStarted = true → κ.total e (LifeFrame.acks κ.ctx.ioWorkers) ≤ κ.ctx.workersShuttingDown
  last : ∀ v, .releaseDescriptor ∈ κ.agenda v →
    κ.ctx.shutdownStarted = true ∧ κ.total e (LifeFrame.acks κ.ctx.ioWorkers) = 0
  hosted : ∀ v, ∀ g ∈ κ.agenda v, g.SetsUp → v < κ.ctx.ioWorkers
  zero : ∀ v i, .postShutdown i ∈ κ.agenda v → v = 0

/-! ## One call -/

/-- A call acknowledges at most what it takes off the count, or the teardown begins with it. -/
theorem lived_acks (hl : Lived e available c w f ch x) (hf : ¬ f.Early) :
    x.ctx.shutdownStarted = c.shutdownStarted ∧ x.ctx.workersShuttingDown ≤ c.workersShuttingDown ∧
      x.weight (LifeFrame.acks c.ioWorkers) + (c.workersShuttingDown - x.ctx.workersShuttingDown) ≤ f.acks c.ioWorkers ∨
    c.shutdownStarted = false ∧ f = .beginShutdown ∧ x.ctx.shutdownStarted = true ∧
      x.weight (LifeFrame.acks c.ioWorkers) ≤ x.ctx.workersShuttingDown := by
  cases hl with
  | openFailed | opened | rejected | configured => exact absurd trivial hf
  | begun hs =>
    refine .inr ⟨hs, rfl, rfl, ?_⟩
    simp only [Effect.weight]
    split
    · simp [LifeFrame.acks]
    · simp only [LifeFrame.acks, List.map_cons, List.map_nil, List.sum_cons, List.sum_nil, Option.elim_none]
      omega
  | initializedLast error lastError =>
    left
    cases lastError == "" <;> simp [Effect.weight, LifeFrame.acks]
  | requested rc error lastError code start =>
    left
    cases start <;> simp [Effect.weight, LifeFrame.acks]
  | released =>
    left
    simp only [Effect.weight]
    split <;> simp [LifeFrame.acks]
  | acknowledged =>
    left
    simp only [Effect.weight]
    split <;> simp [LifeFrame.acks] <;> omega
  | shutdownPosted i hi | shutdownFailed i rc hi =>
    left
    simp [Effect.weight, LifeFrame.acks]
    omega
  | _ => simp [Effect.weight, LifeFrame.acks]

/-- `finish_shutdown_on_app_thread` is called by the last acknowledgement, or where there is no worker. -/
theorem lived_last (hl : Lived e available c w f ch x) :
    (.releaseDescriptor ∈ x.calls → x.weight (LifeFrame.acks c.ioWorkers) = 0 ∧
      (f = .onIoWorkerShutdown ∧ c.workersShuttingDown ≤ 1 ∨ f = .beginShutdown ∧ c.shutdownStarted = false)) ∧
    ∀ u, x.post ≠ some (u, .releaseDescriptor) := by
  cases hl with
  | initializedLast error lastError => cases lastError == "" <;> simp
  | requested rc error lastError code start => cases start <;> simp
  | begun hs =>
    refine ⟨fun hg => ⟨?_, .inr ⟨rfl, hs⟩⟩, by simp⟩
    dsimp only at hg
    split at hg
    · simp [Effect.weight, LifeFrame.acks, *]
    · simp at hg
  | released =>
    refine ⟨fun hg => ?_, by simp⟩
    dsimp only at hg
    split at hg <;> simp at hg
  | acknowledged =>
    refine ⟨fun hg => ?_, by simp⟩
    dsimp only at hg
    split at hg
    · rename_i hzero
      exact ⟨by simp [Effect.weight, hzero, LifeFrame.acks], .inl ⟨rfl, by omega⟩⟩
    · simp at hg
  | _ => simp

/-- The teardown starts with its loop over the workers. -/
theorem lived_started (hl : Lived e available c w f ch x) (hs : x.ctx.shutdownStarted = true) :
    c.shutdownStarted = true ∨ f = .beginShutdown ∧ (c.ioWorkers ≠ 0 → .postShutdown 1 ∈ x.calls) := by
  cases hl with
  | begun => exact .inr ⟨rfl, fun hne => by simp [hne]⟩
  | _ => exact .inl hs

/-- Calls that set a worker up stay on the workers' reactors, those of the loop that stops them on the first. -/
theorem lived_hosted (hl : Lived e available c w f ch x) (hf : ¬ f.Early) :
    (∀ g ∈ x.calls, g.SetsUp → f.SetsUp) ∧ (∀ u g, x.post = some (u, g) → g.SetsUp → u < c.ioWorkers) ∧
    (∀ i, .postShutdown i ∈ x.calls → f = .beginShutdown ∨ ∃ j, f = .postShutdown j) ∧
    ∀ u i, x.post ≠ some (u, .postShutdown i) := by
  cases hl with
  | openFailed | opened | rejected | configured => exact absurd trivial hf
  | initializedLast error lastError => cases lastError == "" <;> simp [LifeFrame.SetsUp]
  | requested rc error lastError code start => cases start <;> simp [LifeFrame.SetsUp]
  | begun | released | acknowledged =>
    dsimp only
    split <;> simp [LifeFrame.SetsUp]
  | setUpPosted i hi =>
    refine ⟨by simp [LifeFrame.SetsUp], fun u g hg _ => ?_, by simp, by simp⟩
    cases hg
    exact hi
  | _ => simp +contextual [LifeFrame.SetsUp, eq_comm]

/-! ## One step -/

/-- A step that runs no call adds none that weighs anything. -/
theorem aside_total (ha : Aside e s κ') (weight : LifeFrame → Nat) (h1 : weight .beginShutdown = 0)
    (h2 : ∀ rc error, weight (.requestShutdown rc error) = 0) : κ'.total e weight = s.cycle.total e weight := by
  cases ha with
  | idle | counted | stops => rfl
  | event rc error => exact weigh_first (zero_reactors e) (fun _ => weight) (h2 rc error)
  | owner c κ ho =>
    cases ho with
    | beginPosted =>
      have hput := total_put (κ := s.cycle) (zero_reactors e) weight (s.cycle.agenda 0 ++ [.beginShutdown])
      rw [List.map_append, List.sum_append, List.map_singleton, List.sum_singleton, h1] at hput
      exact Nat.add_right_cancel hput
    | _ => rfl

theorem Aside.members (ha : Aside e s κ') : κ'.ctx.shutdownStarted = s.ctx.shutdownStarted ∧
    κ'.ctx.workersShuttingDown = s.ctx.workersShuttingDown := by
  cases ha with
  | owner c κ ho => cases ho <;> exact ⟨rfl, rfl⟩
  | _ => exact ⟨rfl, rfl⟩

theorem Course.aside (h : Course e s.cycle) (ha : Aside e s κ') : Course e κ' := by
  obtain ⟨-, -, hworkers, hinitializing, -, hnew⟩ := ha.beside
  have hdue : κ'.total e (LifeFrame.due κ'.ctx.ioWorkers) = s.cycle.total e (LifeFrame.due s.ctx.ioWorkers) := by
    rw [hworkers]
    exact aside_total ha _ rfl fun _ _ => rfl
  have hacks : κ'.total e (LifeFrame.acks κ'.ctx.ioWorkers) = s.cycle.total e (LifeFrame.acks s.ctx.ioWorkers) := by
    rw [hworkers]
    exact aside_total ha _ rfl fun _ _ => rfl
  have hcounts : κ'.total e LifeFrame.counts = s.cycle.total e LifeFrame.counts :=
    aside_total ha _ rfl fun _ _ => rfl
  have hmembers := ha.members
  have hunasked : κ'.ctx.shutdownRequested = false → κ'.ctx.shutdownStarted = false ∧ κ'.owner ≠ .postingShutdown ∧
      ∀ v, ∀ g ∈ κ'.agenda v, g.begins = 0 := by
    intro hr
    cases ha with
    | idle | counted | stops => exact h.unasked hr
    | event rc error =>
      obtain ⟨h1, h2, h3⟩ := h.unasked hr
      refine ⟨h1, h2, fun v g hg => ?_⟩
      rcases mem_first.1 hg with ⟨-, rfl⟩ | hg
      · rfl
      · exact h3 v g hg
    | owner c κ ho =>
      cases ho with
      | requested hpc lastError code start hs =>
        have hr : s.cycle.ctx.shutdownRequested = false ∧ start = false := by simpa using hr
        obtain ⟨h1, -, h3⟩ := h.unasked hr.1
        exact ⟨h1, by simp [hr.2], h3⟩
      | beginPosted hpc => exact absurd hpc (h.unasked hr).2.1
      | checked =>
        obtain ⟨h1, -, h3⟩ := h.unasked hr
        refine ⟨h1, ?_, h3⟩
        dsimp only
        split
        · split <;> nofun
        · nofun
      | waited =>
        obtain ⟨h1, -, h3⟩ := h.unasked hr
        refine ⟨h1, ?_, h3⟩
        dsimp only
        split <;> nofun
      | _ =>
        obtain ⟨h1, -, h3⟩ := h.unasked hr
        exact ⟨h1, nofun, h3⟩
  refine ⟨?_, hunasked, fun hs => ?_, fun hs => ?_, fun v hg => ?_, fun v g hg hset => ?_, fun v i hg => ?_⟩
  · rw [hdue, hcounts, hinitializing]
    exact h.awaited
  · rw [hacks]
    exact h.before (hmembers.1.symm.trans hs)
  · rw [hacks, hmembers.2]
    exact h.counted (hmembers.1.symm.trans hs)
  · rw [hacks, hmembers.1]
    rcases hnew v _ hg with hold | hg | ⟨rc, error, hg⟩
    · exact h.last v hold
    · cases hg
    · cases hg
  · rw [hworkers]
    rcases hnew v g hg with hold | rfl | ⟨rc, error, rfl⟩
    · exact h.hosted v g hold hset
    · exact hset.elim
    · exact hset.elim
  · rcases hnew v _ hg with hold | hg | ⟨rc, error, hg⟩
    · exact h.zero v i hold
    · cases hg
    · cases hg

theorem Course.run (h : Course e κ) (ho : Opened e κ) (hord : Ordered κ) (hag : κ.agenda w = f :: rest)
    (hl : Lived e available κ.ctx w f ch x) : Course e (κ.run w rest x) := by
  have hmem : f ∈ κ.agenda w := hag ▸ List.mem_cons_self
  obtain ⟨hw, hf⟩ := ho.confined w f hmem
  have hpost := fun u g hx => ((lived_confined hl hf ho.workers).2 u g hx).1
  obtain ⟨hworkers, -⟩ := lived_same hl hf
  obtain ⟨hhosted, hposted, hzero, hnone⟩ := lived_hosted hl hf
  obtain ⟨hlast, hnotPosted⟩ := lived_last hl
  have hdue := total_run hag hw hpost (LifeFrame.due κ.ctx.ioWorkers)
  have hcounts := total_run hag hw hpost LifeFrame.counts
  have hacks := total_run hag hw hpost (LifeFrame.acks κ.ctx.ioWorkers)
  have hd := lived_due (s := (Sys.init fun _ => 0)) hl hf
  obtain ⟨hc, hinitializing⟩ := lived_counts (s := (Sys.init fun _ => 0)) hl hf
  have ha := lived_acks hl hf
  have hawaited := h.awaited
  have hctx : (κ.run w rest x).ctx = x.ctx := rfl
  refine ⟨?_, fun hr => ?_, fun hs => ?_, fun hs => ?_, fun v hg => ?_, fun v g hg hset => ?_, fun v i hg => ?_⟩
  · rw [hctx, hworkers, hinitializing]
    omega
  · -- nothing of the teardown is asked for
    have hold : κ.ctx.shutdownRequested = false := by
      by_contra hold
      exact absurd (hr.symm.trans ((lived_monotone hl).1 (by simpa using hold))) (by simp)
    obtain ⟨h1, h2, h3⟩ := h.unasked hold
    obtain ⟨-, hstarted, hcalls, hposts⟩ := lived_begins hl (h3 w f hmem) hr
    refine ⟨hstarted.trans h1, ?_, fun v g hg => ?_⟩
    · simp only [Cycle.run]
      split
      · intro hpc
        rcases woken_cases κ.owner with heq | ⟨-, heq⟩ | ⟨-, heq⟩ <;> rw [heq] at hpc
        · exact h2 hpc
        · cases hpc
        · cases hpc
      · exact h2
    · rcases mem_run hag hg with hg | ⟨-, hg⟩ | hg
      · exact h3 v g hg
      · exact hcalls g hg
      · exact hposts v g hg
  · rw [hctx, hworkers]
    rcases ha with ⟨hsame, -, hle⟩ | ⟨-, -, hstarted, -⟩
    · have := h.before (hsame.symm.trans hs)
      omega
    · exact absurd (hstarted.symm.trans hs) (by simp)
  · rw [hctx, hworkers]
    rcases ha with ⟨hsame, hdown, hle⟩ | ⟨hnot, rfl, -, hle⟩
    · have := h.counted (hsame.symm.trans hs)
      omega
    · have := h.before hnot
      have hown : LifeFrame.acks κ.ctx.ioWorkers .beginShutdown = 0 := rfl
      omega
  · rw [hctx, hworkers]
    rcases mem_run hag hg with hold | ⟨-, hcall⟩ | hg
    · obtain ⟨hstarted, hnoacks⟩ := h.last v hold
      refine ⟨(lived_monotone hl).2.2.1 hstarted, ?_⟩
      rcases ha with ⟨-, -, hle⟩ | ⟨hnot, -⟩
      · omega
      · exact absurd (hstarted.symm.trans hnot) (by simp)
    · obtain ⟨hnoacks, ⟨rfl, hone⟩ | ⟨rfl, hnot⟩⟩ := hlast hcall
      · -- the call itself is an acknowledgement, so the teardown has started and it is the last
        have hown : LifeFrame.acks κ.ctx.ioWorkers .onIoWorkerShutdown = 1 := rfl
        have hstarted : κ.ctx.shutdownStarted = true := by
          by_contra hno
          have := h.before (by simpa using hno)
          omega
        have := h.counted hstarted
        exact ⟨(lived_monotone hl).2.2.1 hstarted, by omega⟩
      · have hown : LifeFrame.acks κ.ctx.ioWorkers .beginShutdown = 0 := rfl
        have := h.before hnot
        refine ⟨?_, by omega⟩
        rcases ha with ⟨hsame, -⟩ | ⟨-, -, hstarted, -⟩
        · cases hl with
          | begunAlready hs => exact absurd (hs.symm.trans hnot) (by simp)
          | begun => rfl
        · exact hstarted
    · exact absurd hg (hnotPosted v)
  · rw [hctx, hworkers]
    rcases mem_run hag hg with hold | ⟨rfl, hcall⟩ | hg
    · exact h.hosted v g hold hset
    · exact h.hosted v f hmem (hhosted g hcall hset)
    · exact hposted v g hg hset
  · rcases mem_run hag hg with hold | ⟨rfl, hcall⟩ | hg
    · exact h.zero v i hold
    · rcases hzero i hcall with rfl | ⟨j, rfl⟩
      · exact hord.zero v _ hmem (.inr rfl)
      · exact h.zero v j hmem
    · exact absurd hg (hnone v i)

/-- The first calls after the opening, on the application thread alone. -/
theorem course_single {fs : List LifeFrame} (hag : κ.agenda = Function.update (fun _ => []) 0 fs)
    (hs : κ.ctx.shutdownStarted = false) (hpc : κ.owner ≠ .postingShutdown)
    (hfs : ∀ g ∈ fs, g.begins = 0 ∧ g.acks κ.ctx.ioWorkers = 0 ∧ g ≠ .releaseDescriptor ∧
      (g.SetsUp → 0 < κ.ctx.ioWorkers))
    (hdue : (fs.map (LifeFrame.due κ.ctx.ioWorkers)).sum + (fs.map LifeFrame.counts).sum ≤ κ.ctx.workersInitializing) :
    Course e κ := by
  have hmem : ∀ v, ∀ g ∈ κ.agenda v, v = 0 ∧ g ∈ fs := by
    intro v g hg
    rw [hag, Function.update_apply] at hg
    split at hg
    · exact ⟨‹v = 0›, hg⟩
    · cases hg
  have htotal : ∀ weight : LifeFrame → Nat, κ.total e weight = (fs.map weight).sum := fun weight =>
    weigh_single hag fun _ => weight
  have hacks : κ.total e (LifeFrame.acks κ.ctx.ioWorkers) = 0 := by
    rw [htotal]
    refine List.sum_eq_zero fun n hn => ?_
    obtain ⟨g, hg, rfl⟩ := List.mem_map.1 hn
    exact (hfs g hg).2.1
  refine ⟨?_, fun _ => ⟨hs, hpc, fun v g hg => (hfs g (hmem v g hg).2).1⟩,
    fun _ => hacks, fun hs' => (nomatch hs.symm.trans hs'), fun v hg => ?_, fun v g hg hset => ?_, fun v i hg => ?_⟩
  · rw [htotal, htotal]
    exact hdue
  · exact absurd rfl (hfs _ (hmem v _ hg).2).2.2.1
  · rw [(hmem v g hg).1]
    exact (hfs g (hmem v g hg).2).2.2.2 hset
  · exact (hmem v _ hg).1

/-- Until the outcome of the opening its own call is the only one. -/
theorem Opening.early (h : Opening κ) (hg : g ∈ κ.agenda v) : v = 0 ∧ g.Early := by
  obtain ⟨f, hag, hf⟩ := h.agenda
  rw [hag, Function.update_apply] at hg
  split at hg
  · rename_i hv
    obtain rfl := List.mem_singleton.1 hg
    rcases hf with ⟨rfl, -⟩ | ⟨rfl, -⟩
    · exact ⟨hv, trivial⟩
    · exact ⟨hv, trivial⟩
  · cases hg

/-- Before the outcome of the opening, and after it. -/
inductive Path (e : Env) (κ : Cycle) : Prop
  | opening (h : Opening κ)
  | opened (ho : Opened e κ) (h : Course e κ)

/-- A call of `on_runtime_ready`. -/
theorem Opening.path (h : Opening s.cycle) (hn : 0 < e.ioThreadCount) {c : Choice} (hag : s.cycle.agenda w = f :: rest)
    (hl : Lived e s.runtimeAvailable s.ctx w f c x) (hcycle : s'.cycle = s.cycle.run w rest x)
    (hturn : Opening s'.cycle ∨ Opened e s'.cycle ∧ Counting e s'.cycle) : Path e s'.cycle := by
  obtain ⟨f', hagenda, hf⟩ := h.agenda
  obtain ⟨rfl, hfs⟩ := single_head hagenda hag
  obtain ⟨rfl, rfl⟩ := List.cons.inj hfs
  have hrun : x.post = none → s'.cycle.agenda = Function.update (fun _ => []) 0 x.calls := by
    intro hpost
    rw [hcycle]
    exact run_single hagenda hpost (List.append_nil _)
  have hctx : s'.cycle.ctx = x.ctx := congrArg Cycle.ctx hcycle
  have howner : x.notify = false → s'.cycle.owner ≠ .postingShutdown := by
    intro hnotify hpc
    rw [hcycle] at hpc
    simp only [Cycle.run, hnotify] at hpc
    rcases h.owner with hold | hold <;> exact absurd (hold.symm.trans hpc) (by simp)
  rcases hturn with hopen | ⟨hopen, -⟩
  · exact .opening hopen
  · refine .opened hopen ?_
    rcases hf with ⟨rfl, hd⟩ | ⟨rfl, hd⟩
    · cases hl with
      | openFailed rc hrc message =>
        refine course_single (hrun rfl) ?_ (howner rfl) ?_ ?_
        · rw [hctx]
          exact h.started
        · simp [LifeFrame.begins, LifeFrame.acks, LifeFrame.SetsUp]
        · simp [LifeFrame.due, LifeFrame.counts]
      | opened => exact absurd trivial (hopen.confined 0 .configure (by rw [hrun rfl]; simp)).2
    · cases hl with
      | rejected created error =>
        refine course_single (hrun rfl) ?_ (howner rfl) ?_ ?_
        · rw [hctx]
          exact h.started
        · simp [LifeFrame.begins, LifeFrame.acks, LifeFrame.SetsUp]
        · simp [LifeFrame.due, LifeFrame.counts]
      | configured =>
        refine course_single (hrun rfl) ?_ (howner rfl) ?_ ?_
        · rw [hctx]
          exact h.started
        · rw [hctx]
          simp [LifeFrame.begins, LifeFrame.acks, hn]
        · rw [hctx]
          simp [LifeFrame.due, LifeFrame.counts]
          omega

/-- **One step of the way.** -/
theorem path_step (hn : 0 < e.ioThreadCount) (h : Path e s.cycle) (hord : Ordered s.cycle) {a : Action}
    (hs : step e s a = some s') : Path e s'.cycle := by
  have hturn := step_turn hs
  cases h with
  | opening h =>
    rcases step_milestones hs with ⟨w, c, f, stack, rest, x, rfl, hst, hag, hl, hcycle, -⟩ | ⟨-, ha⟩
    · exact h.path hn hag hl hcycle (h.turn hturn)
    · exact .opening (h.aside ha (h.turn hturn))
  | opened ho h =>
    refine .opened (ho.turn hturn) ?_
    rcases step_milestones hs with ⟨w, c, f, stack, rest, x, rfl, hst, hag, hl, hcycle, -⟩ | ⟨-, ha⟩
    · rw [hcycle]
      exact h.run ho hord hag hl
    · exact h.aside ha

/-- No worker has still to report. -/
def Cycle.Settled (e : Env) (κ : Cycle) : Prop :=
  κ.ctx.shutdownRequested = true → κ.total e (LifeFrame.due κ.ctx.ioWorkers) = 0

/-- No report becomes due after a shutdown that is requested with none due. -/
theorem Path.settled (h : Path e s.cycle) (hset : s.cycle.Settled e) {a : Action} (hg : OnceReported e s a)
    (hs : step e s a = some s') : s'.cycle.Settled e := by
  intro hr
  have hturn := step_turn hs
  cases h with
  | opening h =>
    rcases h.turn (e := e) hturn with ho | ⟨ho, -⟩
    · exact nomatch ho.requested.symm.trans hr
    · rcases step_milestones hs with ⟨w, c, f, stack, rest, x, rfl, hst, hag, hl, hcycle, -⟩ | ⟨-, ha⟩
      · obtain ⟨f', hagenda, hf⟩ := h.agenda
        obtain ⟨rfl, hfs⟩ := single_head hagenda hag
        obtain ⟨rfl, rfl⟩ := List.cons.inj hfs
        have hsame : x.ctx.shutdownRequested = s.ctx.shutdownRequested := by
          rcases hf with ⟨rfl, -⟩ | ⟨rfl, -⟩
          · cases hl <;> rfl
          · cases hl <;> rfl
        rw [hcycle] at hr
        exact nomatch h.requested.symm.trans (hsame.symm.trans hr)
      · exact nomatch (h.aside ha (h.turn hturn)).requested.symm.trans hr
  | opened ho h =>
    have hawaited := h.awaited
    have hbefore : s.cycle.total e (LifeFrame.due s.ctx.ioWorkers) = 0 := by
      by_cases hold : s.ctx.shutdownRequested = true
      · exact hset hold
      · have hzero : s.cycle.ctx.workersInitializing = 0 := hg.zero hs (by simpa using hold) hr
        have hawaited : s.cycle.total e (LifeFrame.due s.ctx.ioWorkers) + _ ≤ _ := hawaited
        omega
    have hworkers : s'.cycle.ctx.ioWorkers = s.ctx.ioWorkers := ho.turn_workers hturn
    rw [hworkers]
    rcases step_milestones hs with ⟨w, c, f, stack, rest, x, rfl, hst, hag, hl, hcycle, -⟩ | ⟨-, ha⟩
    · obtain ⟨hw, hf⟩ := ho.confined w f (hag ▸ List.mem_cons_self)
      have hpost := fun u g hx => ((lived_confined hl hf ho.workers).2 u g hx).1
      have htotal := total_run hag hw hpost (LifeFrame.due s.ctx.ioWorkers)
      have hdue := lived_due (s := s) hl hf
      rw [hcycle]
      omega
    · exact (aside_total ha _ rfl fun _ _ => rfl).trans hbefore

/-! ## The pools -/

/-- Worker `i`'s pool is still to be released. -/
inductive Pending (κ : Cycle) (i : Nat) : Prop
  | posting (j : Nat) (hj : i = 0 ∨ j ≤ i) (h : .postShutdown j ∈ κ.agenda 0)
  | flushing (h : .shutdownIoWorker ∈ κ.agenda i)
  | releasing (h : .releaseIoWorker ∈ κ.agenda i)

theorem Pending.mono (h : Pending κ i) (hstays : ∀ v, ∀ g ∈ κ.agenda v, g ∈ κ'.agenda v) : Pending κ' i := by
  cases h with
  | posting j hj h => exact .posting j hj (hstays 0 _ h)
  | flushing h => exact .flushing (hstays i _ h)
  | releasing h => exact .releasing (hstays i _ h)

/-- A call leaves a pool that is still to be released so, or releases it. -/
theorem Pending.run (h : Pending κ i) (hzero : ∀ v j, .postShutdown j ∈ κ.agenda v → v = 0)
    (hag : κ.agenda w = f :: rest) (hl : Lived e available κ.ctx w f ch x) (hi : i < κ.ctx.ioWorkers) :
    Pending (κ.run w rest x) i ∨ f = .releaseIoWorker ∧ ch = .next ∧ w = i ∨
      ∃ rc, rc ≠ 0 ∧ f = .postShutdown i ∧ ch = .code rc := by
  have hf : f ∈ κ.agenda w := hag ▸ List.mem_cons_self
  cases h with
  | posting j hj h =>
    by_cases heq : f = .postShutdown j
    · subst heq
      obtain rfl := hzero w j hf
      cases hl with
      | shutdownPosted j hjn =>
        by_cases hij : i = j
        · subst hij
          exact .inl (.flushing (run_posts rfl))
        · exact .inl (.posting (j + 1) (by omega) (run_calls List.mem_cons_self))
      | shutdownFailed j rc hjn hrc lastError =>
        by_cases hij : i = j
        · subst hij
          exact .inr (.inr ⟨rc, hrc, rfl, rfl⟩)
        · exact .inl (.posting (j + 1) (by omega) (run_calls (List.mem_cons_of_mem _ List.mem_cons_self)))
      | shutdownOwn j hjn =>
        have hi0 : i = 0 := by omega
        subst hi0
        exact .inl (.flushing (run_calls List.mem_cons_self))
    · exact .inl (.posting j hj (run_stays hag h (.inl (Ne.symm heq))))
  | flushing h =>
    by_cases heq : f = .shutdownIoWorker ∧ i = w
    · obtain ⟨rfl, rfl⟩ := heq
      cases hl with
      | flushed => exact .inl (.flushing (run_calls List.mem_cons_self))
      | flushedAll => exact .inl (.releasing (run_calls List.mem_cons_self))
    · refine .inl (.flushing (run_stays hag h ?_))
      rcases not_and_or.1 heq with hne | hne
      · exact .inl (Ne.symm hne)
      · exact .inr hne
  | releasing h =>
    by_cases heq : f = .releaseIoWorker ∧ i = w
    · obtain ⟨rfl, rfl⟩ := heq
      cases hl with
      | released => exact .inr (.inl ⟨rfl, rfl, rfl⟩)
    · refine .inl (.releasing (run_stays hag h ?_))
      rcases not_and_or.1 heq with hne | hne
      · exact .inl (Ne.symm hne)
      · exact .inr hne

/-- A worker's pool exists. -/
def Sys.Pooled (s : Sys) (i : Nat) : Prop := (s.reactor i).pool.initialized = true

/-- A pool that exists is one that did, or one that its worker sets up. -/
theorem dealt_pooled {a : Action} {uses gets : List (Nat × GaugeOp)} (h : Dealt e s a uses gets (stock s'))
    (hi : s'.Pooled i) : s.Pooled i ∨ ∃ rest onReactor channel obtained,
      a = .reactor i (.setUp onReactor channel obtained) ∧ (s.reactor i).stack = .life .initializeIoWorker :: rest := by
  have hi : ((stock s').pool i).initialized = true := hi
  have hupdate : ∀ (w : Nat) (p : SpdkBufferPool), (i = w → p.initialized = true → s.Pooled i) →
      ((Function.update (stock s).pool w p) i).initialized = true → s.Pooled i := by
    intro w p hw hp
    rcases eq_or_ne i w with rfl | hne
    · rw [Function.update_self] at hp
      exact hw rfl hp
    · rwa [Function.update_of_ne hne] at hp
  generalize ht : stock s' = t at h hi
  cases h with
  | quiet => exact .inl hi
  | leased w c k free hini => exact .inl (hupdate w _ (fun h hp => h ▸ hini) hi)
  | bounced w c pool hini => exact .inl (hupdate w _ (fun h hp => h ▸ hini) (by simpa [Stock.giveBack, Stock.lease] using hi))
  | returned w c k =>
    refine .inl (hupdate w _ (fun h hp => ?_) hi)
    subst h
    exact hp
  | filled w obtained onReactor channel rest hst =>
    rcases eq_or_ne i w with rfl | hne
    · exact .inr ⟨rest, onReactor, channel, obtained, rfl, hst⟩
    · exact .inl (hupdate w _ (fun h => absurd h hne) hi)
  | dropped w v =>
    refine .inl (hupdate v _ (fun _ hp => ?_) hi)
    cases hp
  | cleared => exact .inl hi

/-- The pools on the way: each is on a worker's reactor, and once the teardown has started is to be released. -/
structure Winding (e : Env) (s : Sys) : Prop where
  path : Path e s.cycle
  settled : s.cycle.Settled e
  ordered : Ordered s.cycle
  hosted : ∀ i, s.Pooled i → i < s.ctx.ioWorkers
  pending : s.ctx.shutdownStarted = true → ∀ i, s.Pooled i → Pending s.cycle i

/-- No worker is set up once a shutdown is requested. -/
theorem Path.unfilled (h : Path e κ) (hset : κ.Settled e) (hf : .initializeIoWorker ∈ κ.agenda v) :
    κ.ctx.shutdownRequested = false := by
  cases h with
  | opening h => exact h.requested
  | opened ho h =>
    by_contra hr
    have hzero := hset (by simpa using hr)
    have hle := weight_le_weigh (e := e) (fun _ => LifeFrame.due κ.ctx.ioWorkers) (ho.confined v _ hf).1 hf
    have hle : 1 ≤ κ.total e (LifeFrame.due κ.ctx.ioWorkers) := hle
    omega

theorem Path.started (h : Path e κ) (hs : κ.ctx.shutdownStarted = true) : κ.ctx.shutdownRequested = true := by
  cases h with
  | opening h => exact nomatch h.started.symm.trans hs
  | opened ho h =>
    by_contra hr
    exact nomatch hs.symm.trans (h.unasked (by simpa using hr)).1

/-- When `finish_shutdown_on_app_thread` is called, no acknowledgement is still to come. -/
theorem Winding.released (h : Winding e s) (hf : .releaseDescriptor ∈ s.cycle.agenda v) :
    s.ctx.shutdownStarted = true ∧ s.cycle.total e (LifeFrame.acks s.ctx.ioWorkers) = 0 := by
  cases h.path with
  | opening h => exact (h.early hf).2.elim
  | opened ho h => exact h.last v hf

/-- **Every pool has been released** when no acknowledgement is still to come. -/
theorem Winding.unpooled (h : Winding e s) (hs : s.ctx.shutdownStarted = true)
    (hacks : s.cycle.total e (LifeFrame.acks s.ctx.ioWorkers) = 0) : ¬ s.Pooled i := by
  intro hi
  have hnone : ∀ v, ∀ g ∈ s.cycle.agenda v, g.acks s.ctx.ioWorkers = 0 := by
    intro v g hg
    cases h.path with
    | opening h => exact nomatch h.started.symm.trans hs
    | opened ho _ =>
      have hle := weight_le_weigh (e := e) (fun _ => LifeFrame.acks s.ctx.ioWorkers) (ho.confined v g hg).1 hg
      have hle : g.acks s.ctx.ioWorkers ≤ s.cycle.total e (LifeFrame.acks s.ctx.ioWorkers) := hle
      omega
  cases h.pending hs i hi with
  | posting j hj hp => exact nomatch hnone 0 _ hp
  | flushing hp => exact nomatch hnone i _ hp
  | releasing hp => exact nomatch hnone i _ hp

/-- The last acknowledgement stays the last. -/
theorem Path.over (h : Path e s.cycle) (hst : s.ctx.shutdownStarted = true)
    (hacks : s.cycle.total e (LifeFrame.acks s.ctx.ioWorkers) = 0) {a : Action} (hs : step e s a = some s') :
    s'.ctx.shutdownStarted = true ∧ s'.cycle.total e (LifeFrame.acks s'.ctx.ioWorkers) = 0 := by
  cases h with
  | opening h => exact nomatch h.started.symm.trans hst
  | opened ho h =>
    have hworkers : s'.ctx.ioWorkers = s.ctx.ioWorkers := ho.turn_workers (step_turn hs)
    rw [hworkers]
    rcases step_milestones hs with ⟨w, c, f, stack, rest, x, rfl, -, hag, hl, hcycle, -⟩ | ⟨-, ha⟩
    · obtain ⟨hw, hf⟩ := ho.confined w f (hag ▸ List.mem_cons_self)
      have hpost := fun u g hx => ((lived_confined hl hf ho.workers).2 u g hx).1
      have htotal := total_run hag hw hpost (LifeFrame.acks s.ctx.ioWorkers)
      have hstarted : s'.ctx.shutdownStarted = x.ctx.shutdownStarted :=
        congrArg (fun κ => κ.ctx.shutdownStarted) hcycle
      refine ⟨hstarted.trans ((lived_monotone hl).2.2.1 hst), ?_⟩
      rw [hcycle]
      rcases lived_acks hl hf with ⟨-, -, hle⟩ | ⟨hnot, -⟩
      · omega
      · exact nomatch hst.symm.trans hnot
    · exact ⟨ha.members.1.trans hst, (aside_total ha _ rfl fun _ _ => rfl).trans hacks⟩

/-- A worker's pool is on the reactor of a worker. -/
theorem Path.hosted (h : Path e s.cycle) (hhosted : ∀ i, s.Pooled i → i < s.ctx.ioWorkers) (ht : Tracks s ζ)
    (hc : Consistent e ζ) {a : Action} (hs : step e s a = some s') : ∀ i, s'.Pooled i → i < s'.ctx.ioWorkers := by
  intro i hi
  rcases dealt_pooled (step_dealt ht hc hs) hi with hi | ⟨rest, onReactor, channel, obtained, -, hst⟩
  · have hlt := hhosted i hi
    cases h with
    | opening h =>
      rw [show s.ctx.ioWorkers = 0 from h.workers] at hlt
      exact absurd hlt (Nat.not_lt_zero i)
    | opened ho h => exact hlt.trans_eq (ho.turn_workers (step_turn hs)).symm
  · have hmem : .initializeIoWorker ∈ s.cycle.agenda i := stack_agenda (hst ▸ List.mem_cons_self)
    cases h with
    | opening h => exact (h.early hmem).2.elim
    | opened ho h => exact (h.hosted i _ hmem trivial).trans_eq (ho.turn_workers (step_turn hs)).symm

theorem winding_step (hn : 0 < e.ioThreadCount) (h : Winding e s) (ht : Tracks s ζ) (hc : Consistent e ζ) {a : Action}
    (hg : OnceReported e s a) (hs : step e s a = some s') : Winding e s' := by
  have hturn := step_turn hs
  have hpath := path_step hn h.path h.ordered hs
  have hsettled := h.path.settled h.settled hg hs
  have hhosted := h.path.hosted h.hosted ht hc hs
  have hold := fun i (hi : s'.Pooled i) => dealt_pooled (step_dealt ht hc hs) hi
  have hmember : ∀ {i rest}, (s.reactor i).stack = .life .initializeIoWorker :: rest →
      .initializeIoWorker ∈ s.cycle.agenda i := fun hst => stack_agenda (by rw [hst]; exact List.mem_cons_self)
  cases hp : h.path with
  | opening hopen =>
    -- no worker is there to have a pool
    refine ⟨hpath, hsettled, h.ordered.turn hturn, hhosted, fun _ i hi => ?_⟩
    rcases hold i hi with hi | ⟨rest, onReactor, channel, obtained, -, hst⟩
    · have hlt := h.hosted i hi
      rw [show s.ctx.ioWorkers = 0 from hopen.workers] at hlt
      exact absurd hlt (Nat.not_lt_zero i)
    · exact (hopen.early (hmember hst)).2.elim
  | opened ho hcourse =>
    refine ⟨hpath, hsettled, h.ordered.turn hturn, hhosted, fun hstarted i hi => ?_⟩
    -- the pool was there before, or the teardown has not started
    have hbefore : s.Pooled i ∨ s.ctx.shutdownRequested = false :=
      (hold i hi).imp_right fun ⟨rest, _, _, _, _, hst⟩ => h.path.unfilled h.settled (hmember hst)
    rcases step_milestones hs with ⟨w, c, f, stack, rest, x, rfl, hst, hag, hl, hcycle, -⟩ | ⟨-, ha⟩
    · have hmem : f ∈ s.cycle.agenda w := hag ▸ List.mem_cons_self
      have hx : x.ctx.shutdownStarted = true :=
        (congrArg (fun κ => κ.ctx.shutdownStarted) hcycle).symm.trans hstarted
      have hpooled : s.Pooled i := by
        refine hbefore.resolve_right fun hr => ?_
        obtain ⟨h1, -, h3⟩ := hcourse.unasked hr
        rcases lived_started hl hx with hs' | ⟨rfl, -⟩
        · exact nomatch h1.symm.trans hs'
        · exact nomatch h3 w _ hmem
      have hgone : stock s' = (stock s).drop i → False := by
        intro heq
        have hi : ((stock s').pool i).initialized = true := hi
        rw [heq] at hi
        simp [Stock.drop] at hi
      rw [hcycle]
      rcases lived_started hl hx with hs' | ⟨rfl, hcalls⟩
      · rcases (h.pending hs' i hpooled).run hcourse.zero hag hl (h.hosted i hpooled) with hp |
          ⟨rfl, rfl, rfl⟩ | ⟨rc, hrc, rfl, rfl⟩
        · exact hp
        · obtain ⟨s1, fs, hrun, rfl⟩ := step_life hst hs
          refine (hgone ?_).elim
          rw [stock_pop, stock_releaseIoWorker hrun, stock_pop]
        · obtain ⟨s1, fs, hrun, rfl⟩ := step_life hst hs
          refine (hgone ?_).elim
          rw [stock_pop, stock_postShutdown hrc hrun, stock_pop]
      · obtain rfl := h.ordered.zero w _ hmem (.inr rfl)
        have hlt := h.hosted i hpooled
        exact .posting 1 (by omega) (run_calls (hcalls (by omega)))
    · have hs' : s.ctx.shutdownStarted = true := ha.members.1.symm.trans hstarted
      exact (h.pending hs' i (hbefore.resolve_right fun hr =>
        nomatch hr.symm.trans (h.path.started hs'))).mono ha.beside.stays

end SpdkBdevContext
end SpdkConnector
