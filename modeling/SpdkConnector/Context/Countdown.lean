import SpdkConnector.Context.Reports
import Mathlib.Algebra.Order.BigOperators.Group.Finset
import Mathlib.Algebra.Order.BigOperators.Group.List

/-!
# The countdown of the initialisations

`workers_initializing_` starts at the number of workers and each report takes one off. `Countdown` accounts
for it while the constructor waits: what is left is the number of reports still to be made or still to be
counted, and each worker has reported once or is still to. A teardown may have begun meanwhile; then a worker
that has not reported has its own shutdown still before it, so that the last report comes before the last
acknowledgement (`Countdown.run`). From the last report on nobody reports (`Reported`).
-/

namespace SpdkConnector
namespace SpdkBdevContext

open Interleaving

variable {e : Env} {s : Sys} {κ κ' : Cycle} {w v : Nat} {f g : LifeFrame} {rest : List LifeFrame} {x : Effect}
  {es : List Milestone}

/-- The reports a call leads to, of `n` workers. -/
def LifeFrame.due (n : Nat) : LifeFrame → Nat
  | .postSetUp i => n - i + 1
  | .initializeIoWorker => 1
  | _ => 0

/-- Those of worker `v`, where the call is one of reactor `u`. -/
def LifeFrame.owes (v u : Nat) : LifeFrame → Nat
  | .postSetUp i => if v = 0 ∨ i ≤ v then 1 else 0
  | .initializeIoWorker => if u = v then 1 else 0
  | _ => 0

/-- A report that is still to be counted. -/
def LifeFrame.counts : LifeFrame → Nat
  | .onIoWorkerInitialized _ => 1
  | _ => 0

/-- A call that leads to a report, or counts one. -/
def LifeFrame.Reporting : LifeFrame → Prop
  | .postSetUp _ | .initializeIoWorker | .onIoWorkerInitialized _ => True
  | _ => False

structure Countdown (e : Env) (es : List Milestone) (κ : Cycle) : Prop where
  workers : κ.ctx.ioWorkers = e.ioThreadCount
  incomplete : κ.ctx.initializationComplete = false
  owner : κ.owner = .constructing ∨ κ.owner = .sleepingInitialization
  unfinished : κ.ctx.shutdownComplete = false
  unclosed : κ.ctx.closed = false
  finishes : κ.total e LifeFrame.finishes = 0
  left : κ.ctx.workersInitializing ≠ 0
  initializing : κ.ctx.workersInitializing =
    κ.total e (LifeFrame.due e.ioThreadCount) + κ.total e LifeFrame.counts
  length : (reported es).length + κ.total e (LifeFrame.due e.ioThreadCount) = e.ioThreadCount
  each : ∀ v < e.ioThreadCount, (reported es).count v + κ.weigh e (LifeFrame.owes v) = 1
  within : ∀ v ∈ reported es, v < e.ioThreadCount
  late : ∀ v, (κ.agenda v).Pairwise fun f g => f.Ending → ∀ error, g ≠ .onIoWorkerInitialized error
  awaited : κ.ctx.shutdownStarted = true → ∀ v, ∀ g ∈ κ.agenda v, g.Reporting →
    (∃ u i, i ≤ v ∧ .postShutdown i ∈ κ.agenda u) ∨ .shutdownIoWorker ∈ κ.agenda v
  unasked : κ.ctx.shutdownRequested = false → κ.ctx.shutdownStarted = false ∧ ∀ v, ∀ g ∈ κ.agenda v, g.begins = 0
  unpublished : ∀ v message, .publishInitializationFailure message ∉ κ.agenda v
  unaborted : .aborts ∉ es
  torn : ∀ v < e.ioThreadCount, .shutsDown v ∈ es → v ∈ reported es
  order : es.Pairwise fun a b => ∀ v, a = .shutsDown v → b ≠ .initializes v

/-- The post a call makes succeeds, where it is one of the shutdown. -/
def LifeFrame.delivers (available : Bool) : LifeFrame → Choice → Bool
  | .postBeginShutdown, .code rc => available && rc == 0
  | .postShutdown _, .code rc | .postFinish, .code rc => rc == 0
  | _, _ => true

/-! ## One call -/

section
variable {c : Members} {ch : Choice} {available : Bool}

/-- A call past the opening keeps its worker's account: the reports it makes are those it owed, less those
it leaves to others. -/
theorem lived_due (hl : Lived e available c w f ch x) (hf : ¬ f.Early) :
    x.weight (LifeFrame.due c.ioWorkers) + (reported (f.milestones e s w ch)).length = f.due c.ioWorkers := by
  cases hl with
  | openFailed | opened | rejected | configured => exact absurd trivial hf
  | initializedLast error lastError => cases lastError == "" <;> rfl
  | requested rc error lastError code start => cases start <;> rfl
  | begun =>
    simp only [Effect.weight, LifeFrame.milestones]
    split <;> rfl
  | released | acknowledged =>
    simp only [Effect.weight, LifeFrame.milestones]
    split <;> rfl
  | setUpPosted i hi =>
    simp [Effect.weight, LifeFrame.due, LifeFrame.milestones, reported]
    omega
  | setUpFailed i rc hi hrc =>
    simp [Effect.weight, LifeFrame.due, LifeFrame.milestones, reported, hrc]
    omega
  | setUpOwn i hi =>
    simp [Effect.weight, LifeFrame.due, LifeFrame.milestones, reported]
    omega
  | _ => simp [Effect.weight, LifeFrame.due, LifeFrame.milestones, reported]

/-- Each report is counted once. -/
theorem lived_counts (hl : Lived e available c w f ch x) (hf : ¬ f.Early) :
    x.weight LifeFrame.counts = (reported (f.milestones e s w ch)).length ∧
    x.ctx.workersInitializing = c.workersInitializing - f.counts := by
  cases hl with
  | openFailed | opened | rejected | configured => exact absurd trivial hf
  | initializedLast error lastError => cases lastError == "" <;> exact ⟨rfl, rfl⟩
  | requested rc error lastError code start => cases start <;> exact ⟨rfl, rfl⟩
  | begun =>
    simp only [Effect.weight, LifeFrame.milestones]
    split <;> exact ⟨rfl, rfl⟩
  | released | acknowledged =>
    simp only [Effect.weight, LifeFrame.milestones]
    split <;> exact ⟨rfl, rfl⟩
  | setUpFailed i rc hi hrc => simp [Effect.weight, LifeFrame.counts, LifeFrame.milestones, reported, hrc]
  | _ => simp [Effect.weight, LifeFrame.counts, LifeFrame.milestones, reported]

/-- The same for each of the workers. -/
theorem lived_owes (hl : Lived e available c w f ch x) (hf : ¬ f.Early) (hv : v < c.ioWorkers)
    (hpost : ∀ i, f = .postSetUp i → 1 ≤ i ∧ w = 0) :
    x.weigh w (LifeFrame.owes v) + (reported (f.milestones e s w ch)).count v = f.owes v w := by
  cases hl with
  | openFailed | opened | rejected | configured => exact absurd trivial hf
  | initializedLast error lastError => cases lastError == "" <;> rfl
  | requested rc error lastError code start => cases start <;> rfl
  | begun =>
    simp only [Effect.weigh, LifeFrame.milestones]
    split <;> rfl
  | released | acknowledged =>
    simp only [Effect.weigh, LifeFrame.milestones]
    split <;> rfl
  | setUpPosted i hi =>
    obtain ⟨h1, -⟩ := hpost i rfl
    simp only [Effect.weigh, LifeFrame.owes, LifeFrame.milestones, reported, List.map_cons, List.map_nil,
      List.sum_cons, List.sum_nil, Option.elim_some, ne_eq, not_true_eq_false, if_false, List.filterMap_nil,
      List.count_nil]
    split <;> split <;> split <;> omega
  | setUpFailed i rc hi hrc =>
    obtain ⟨h1, -⟩ := hpost i rfl
    simp only [Effect.weigh, LifeFrame.owes, LifeFrame.milestones, reported, List.map_cons, List.map_nil,
      List.sum_cons, List.sum_nil, Option.elim_none, ne_eq, hrc, not_false_eq_true, if_true, List.filterMap_cons,
      List.filterMap_nil, List.count_singleton, beq_iff_eq]
    split <;> split <;> split <;> omega
  | setUpOwn i hi =>
    obtain ⟨-, rfl⟩ := hpost i rfl
    simp only [Effect.weigh, LifeFrame.owes, LifeFrame.milestones, reported, List.map_cons, List.map_nil,
      List.sum_cons, List.sum_nil, Option.elim_none, List.filterMap_nil, List.count_nil]
    split <;> split <;> omega
  | setUp => simp [Effect.weigh, LifeFrame.owes, LifeFrame.milestones, reported, List.count_singleton]
  | _ => simp [Effect.weigh, LifeFrame.owes, LifeFrame.milestones, reported]

/-- A call that may lead to the end of the teardown. -/
theorem lived_finishes (hl : Lived e available c w f ch x) (hf : ¬ f.Early) (hn : c.ioWorkers ≠ 0)
    (hfinishes : f.finishes = 0) (hlast : f = .onIoWorkerShutdown → c.workersShuttingDown - 1 ≠ 0) :
    x.weight LifeFrame.finishes = 0 := by
  cases hl with
  | openFailed | opened | rejected | configured => exact absurd trivial hf
  | descriptorReleased | finished => cases hfinishes
  | initializedLast error lastError => cases lastError == "" <;> rfl
  | requested rc error lastError code start => cases start <;> rfl
  | begun => simp [Effect.weight, hn, LifeFrame.finishes]
  | released =>
    simp only [Effect.weight]
    split <;> rfl
  | acknowledged => simp [Effect.weight, hlast rfl]
  | _ => rfl

/-- A call that reports, or leads to a report, was called by one. -/
theorem lived_reporting (hl : Lived e available c w f ch x) (hf : ¬ f.Early) :
    (∀ g ∈ x.calls, g.Reporting → f.SettingUp) ∧ (∀ u g, x.post = some (u, g) → g.Reporting → f.SettingUp) ∧
    (∀ u g error, x.post = some (u, g) → g ≠ .onIoWorkerInitialized error) ∧
    ∀ message, .publishInitializationFailure message ∉ x.calls ∧
      ∀ u, x.post ≠ some (u, .publishInitializationFailure message) := by
  cases hl with
  | openFailed | opened | rejected | configured => exact absurd trivial hf
  | initializedLast error lastError =>
    cases lastError == "" <;> simp [LifeFrame.Reporting]
  | requested rc error lastError code start => cases start <;> simp [LifeFrame.Reporting]
  | begun | released | acknowledged =>
    dsimp only
    split <;> simp [LifeFrame.Reporting]
  | _ => simp +contextual [LifeFrame.Reporting, LifeFrame.SettingUp, LifeFrame.Spreading, eq_comm]

/-- The calls on the way to the first step of the teardown. -/
theorem lived_begins (hl : Lived e available c w f ch x) (hbegins : f.begins = 0)
    (hr : x.ctx.shutdownRequested = false) :
    c.shutdownRequested = false ∧ x.ctx.shutdownStarted = c.shutdownStarted ∧ (∀ g ∈ x.calls, g.begins = 0) ∧
    ∀ u g, x.post = some (u, g) → g.begins = 0 := by
  cases hl with
  | beginPosted | beginFailed | begunAlready | begun => cases hbegins
  | initializedLast error lastError => cases lastError == "" <;> simp [LifeFrame.begins] <;> exact hr
  | requested rc error lastError code start hstart =>
    have hnot : c.shutdownRequested = false ∧ start = false := by simpa using hr
    simp [hnot]
  | released | acknowledged =>
    refine ⟨hr, rfl, ?_, by simp⟩
    dsimp only
    split <;> simp [LifeFrame.begins]
  | _ => exact ⟨hr, rfl, by simp [LifeFrame.begins], by simp +contextual [LifeFrame.begins, eq_comm]⟩

end

/-! ## Agendas -/

theorem run_stays (hag : κ.agenda w = f :: rest) (hg : g ∈ κ.agenda v) (hne : g ≠ f ∨ v ≠ w) :
    g ∈ (κ.run w rest x).agenda v := by
  rw [run_agenda]
  refine List.mem_append_left _ ?_
  split
  · rename_i hv
    subst hv
    rw [hag] at hg
    exact List.mem_append_right _ ((List.mem_cons.1 hg).resolve_left (hne.resolve_right fun h => h rfl))
  · exact hg

theorem run_calls (hg : g ∈ x.calls) : g ∈ (κ.run w rest x).agenda w := by
  rw [run_agenda, if_pos rfl]
  exact List.mem_append_left _ (List.mem_append_left _ hg)

theorem run_posts (hg : x.post = some (v, g)) : g ∈ (κ.run w rest x).agenda v := by
  rw [run_agenda, hg]
  exact List.mem_append_right _ (by simp)

/-- A call weighs no more than all. -/
theorem weight_le_weigh (weight : Nat → LifeFrame → Nat) (hv : v < e.reactors) (hg : g ∈ κ.agenda v) :
    weight v g ≤ κ.weigh e weight :=
  calc weight v g ≤ ((κ.agenda v).map (weight v)).sum := List.single_le_sum (by simp) _ (List.mem_map_of_mem hg)
    _ ≤ κ.weigh e weight :=
      Finset.single_le_sum (f := fun v => ((κ.agenda v).map (weight v)).sum) (fun _ _ => Nat.zero_le _)
        (Finset.mem_range.2 hv)

theorem LifeFrame.SettingUp.not_ending (h : f.SettingUp) : ¬ f.Ending := by
  rcases h with h | rfl
  · exact h.not_ending
  · simp [LifeFrame.Ending, LifeFrame.Tearing]

theorem LifeFrame.Reporting.settingUp (h : f.Reporting) (hcount : ∀ error, f ≠ .onIoWorkerInitialized error) :
    f.SettingUp := by
  cases f with
  | postSetUp | initializeIoWorker => simp [LifeFrame.SettingUp, LifeFrame.Spreading]
  | onIoWorkerInitialized error => exact absurd rfl (hcount error)
  | _ => exact h.elim

/-! ## The countdown after one call -/

section
variable {c : Choice} {available : Bool}

/-- A report is counted before the teardown of its worker. -/
theorem late_run (h : ∀ v, (κ.agenda v).Pairwise fun f g => f.Ending → ∀ error, g ≠ .onIoWorkerInitialized error)
    (hag : κ.agenda w = f :: rest) (hl : Lived e available κ.ctx w f c x) (hf : ¬ f.Early) (v : Nat) :
    ((κ.run w rest x).agenda v).Pairwise fun f g => f.Ending → ∀ error, g ≠ .onIoWorkerInitialized error := by
  obtain ⟨hphase, -, -⟩ := lived_phase hl
  obtain ⟨hcalls, -, hpost, -⟩ := lived_reporting hl hf
  have hpair := h w
  rw [hag, List.pairwise_cons] at hpair
  rw [run_agenda]
  refine List.pairwise_append.2 ⟨?_, ?_, fun a _ b hb _ error => ?_⟩
  · split
    · refine List.pairwise_append.2 ⟨?_, hpair.2, fun a ha b hb hend => hpair.1 b hb ((hphase a ha).2.1 hend)⟩
      refine List.pairwise_of_forall_mem_list fun a ha b hb hend error => ?_
      rintro rfl
      exact (hcalls _ hb trivial).not_ending ((hphase a ha).2.1 hend)
    · exact h v
  · cases x.post with
    | none => exact List.Pairwise.nil
    | some p =>
      rw [Option.elim_some]
      split
      · exact List.pairwise_singleton _ _
      · exact List.Pairwise.nil
  · cases hx : x.post with
    | none =>
      rw [hx] at hb
      cases hb
    | some p =>
      rw [hx, Option.elim_some] at hb
      split at hb
      · rw [List.mem_singleton.1 hb]
        exact hpost p.1 p.2 error hx
      · cases hb

theorem unasked_run (h : κ.ctx.shutdownRequested = false →
      κ.ctx.shutdownStarted = false ∧ ∀ v, ∀ g ∈ κ.agenda v, g.begins = 0)
    (hag : κ.agenda w = f :: rest) (hl : Lived e available κ.ctx w f c x)
    (hr : x.ctx.shutdownRequested = false) :
    x.ctx.shutdownStarted = false ∧ ∀ v, ∀ g ∈ (κ.run w rest x).agenda v, g.begins = 0 := by
  have hold : κ.ctx.shutdownRequested = false := by
    by_contra hno
    exact nomatch hr.symm.trans ((lived_monotone hl).1 (by simpa using hno))
  obtain ⟨hstarted, hbegins⟩ := h hold
  obtain ⟨-, hsame, hcalls, hpost⟩ := lived_begins hl (hbegins w f (hag ▸ List.mem_cons_self)) hr
  refine ⟨hsame.trans hstarted, fun v g hg => ?_⟩
  rcases mem_run hag hg with hg | ⟨-, hg⟩ | hg
  · exact hbegins v g hg
  · exact hcalls g hg
  · exact hpost v g hg

/-- A worker that has not reported has its shutdown still before it. -/
theorem Countdown.awaited_run (h : Countdown e es κ) (ho : Opened e κ) (hord : Ordered κ) (hn : 0 < e.ioThreadCount)
    (hag : κ.agenda w = f :: rest) (hl : Lived e available κ.ctx w f c x) (hf : ¬ f.Early)
    (hposts : f.delivers available c = true) (hs : x.ctx.shutdownStarted = true) (hg : g ∈ (κ.run w rest x).agenda v)
    (hrep : g.Reporting) :
    (∃ u i, i ≤ v ∧ .postShutdown i ∈ (κ.run w rest x).agenda u) ∨
      .shutdownIoWorker ∈ (κ.run w rest x).agenda v := by
  obtain ⟨hcalls, hpost, hcount, -⟩ := lived_reporting hl hf
  have hmem : f ∈ κ.agenda w := hag ▸ List.mem_cons_self
  -- nothing reports behind a call of the teardown
  have hbehind : f.Ending → ∀ g ∈ κ.agenda w, g.Reporting → False := by
    intro hend g hg hrep
    have hlate := h.late w
    have horder := hord.order w
    rw [hag, List.pairwise_cons] at hlate horder
    rw [hag] at hg
    rcases List.mem_cons.1 hg with rfl | hg
    · rcases hend with hend | rfl
      · cases g <;> simp_all [LifeFrame.Reporting, LifeFrame.Tearing]
      · exact hrep
    · exact horder.1 g hg hend (hrep.settingUp (hlate.1 g hg hend))
  by_cases hstarted : κ.ctx.shutdownStarted = true
  · -- the one that has still to report was there before the call
    obtain ⟨g', hg', hrep'⟩ : ∃ g' ∈ κ.agenda v, g'.Reporting := by
      rcases mem_run hag hg with hold | ⟨rfl, hcall⟩ | hposted
      · exact ⟨g, hold, hrep⟩
      · refine ⟨f, hmem, ?_⟩
        rcases hcalls g hcall hrep with hspread | rfl
        · exact absurd hspread (hord.started hstarted _ _ hmem)
        · trivial
      · have hset := hpost v g hposted hrep
        obtain ⟨h1, -, h3⟩ := (lived_phase hl).2.2 v g hposted
        have hspread : f.Spreading := by
          rw [h3 ((hrep.settingUp fun error => hcount v g error hposted).resolve_left h1)]
          trivial
        exact absurd hspread (hord.started hstarted _ _ hmem)
    rcases h.awaited hstarted v g' hg' hrep' with ⟨u, i, hi, hdue⟩ | hdue
    · by_cases hfi : f = .postShutdown i
      · subst hfi
        cases hl with
        | shutdownPosted i hlt =>
          rcases Nat.eq_or_lt_of_le hi with rfl | hi
          · exact .inr (run_posts rfl)
          · exact .inl ⟨w, i + 1, hi, run_calls (by simp)⟩
        | shutdownFailed i rc hlt hrc => exact absurd (eq_of_beq hposts) hrc
        | shutdownOwn i hge =>
          have hv := (ho.confined v g' hg').1
          have hworkers := h.workers
          unfold Env.reactors at hv
          omega
      · exact .inl ⟨u, i, hi, run_stays hag hdue (.inl (Ne.symm hfi))⟩
    · by_cases hfw : f = .shutdownIoWorker ∧ v = w
      · obtain ⟨rfl, rfl⟩ := hfw
        exact (hbehind (.inl trivial) g' hg' hrep').elim
      · refine .inr (run_stays hag hdue ?_)
        by_cases hv : v = w
        · exact .inl fun hf' => hfw ⟨hf'.symm, hv⟩
        · exact .inr hv
  · -- the teardown begins in this call
    have hbegin : f = .beginShutdown := by
      cases hl with
      | begun => rfl
      | _ => exact absurd hs hstarted
    subst hbegin
    obtain rfl := hord.zero w _ hmem (.inr rfl)
    rcases Nat.eq_zero_or_pos v with rfl | hv
    · rcases mem_run hag hg with hold | ⟨-, hcall⟩ | hposted
      · exact (hbehind (.inr rfl) g hold hrep).elim
      · exact absurd (hcalls g hcall hrep) fun hset => hset.not_ending (.inr rfl)
      · exact absurd (hpost _ g hposted hrep) fun hset => hset.not_ending (.inr rfl)
    · refine .inl ⟨0, 1, hv, run_calls ?_⟩
      cases hl with
      | begun =>
        rw [if_neg (by rw [h.workers]; omega)]
        exact List.mem_singleton_self _
      | begunAlready hs' => exact absurd hs' hstarted

/-- A worker that has still to set itself up has not reported. -/
theorem Countdown.unreported (h : Countdown e es κ) (ho : Opened e κ) (hg : .initializeIoWorker ∈ κ.agenda w) :
    w < e.ioThreadCount ∧ w ∉ reported es := by
  obtain ⟨hw, -⟩ := ho.confined w _ hg
  have hlt : w < e.ioThreadCount := by
    have := h.length
    have hdue := weight_le_weigh (e := e) (fun _ => LifeFrame.due e.ioThreadCount) hw hg
    have hdue : 1 ≤ κ.total e (LifeFrame.due e.ioThreadCount) := hdue
    unfold Env.reactors at hw
    omega
  refine ⟨hlt, fun hmem => ?_⟩
  have howes := weight_le_weigh (e := e) (LifeFrame.owes w) hw hg
  rw [show LifeFrame.owes w w .initializeIoWorker = 1 from if_pos rfl] at howes
  have hcount := List.count_pos_iff.2 hmem
  have := h.each w hlt
  omega

/-- The accounts after one call. -/
theorem Countdown.accounts (h : Countdown e es κ) (ho : Opened e κ) (hord : Ordered κ) (hag : κ.agenda w = f :: rest)
    (hl : Lived e available κ.ctx w f c x) (s : Sys) :
    x.ctx.workersInitializing = (κ.run w rest x).total e (LifeFrame.due e.ioThreadCount) +
      (κ.run w rest x).total e LifeFrame.counts ∧
    (reported (es ++ f.milestones e s w c)).length + (κ.run w rest x).total e (LifeFrame.due e.ioThreadCount) =
      e.ioThreadCount ∧
    (∀ v < e.ioThreadCount,
      (reported (es ++ f.milestones e s w c)).count v + (κ.run w rest x).weigh e (LifeFrame.owes v) = 1) ∧
    ∀ v ∈ reported (es ++ f.milestones e s w c), v < e.ioThreadCount := by
  have hmem : f ∈ κ.agenda w := hag ▸ List.mem_cons_self
  obtain ⟨hw, hf⟩ := ho.confined w f hmem
  have hpost := fun u g hx => ((lived_confined hl hf ho.workers).2 u g hx).1
  have hworkers := h.workers
  have hdue := lived_due (s := s) hl hf
  rw [hworkers] at hdue
  obtain ⟨hcounts, hinitializing⟩ := lived_counts (s := s) hl hf
  have hD := total_run hag hw hpost (LifeFrame.due e.ioThreadCount)
  have hC := total_run hag hw hpost LifeFrame.counts
  refine ⟨?_, ?_, fun v hv => ?_, fun v hv => ?_⟩
  · have := h.initializing
    omega
  · have := h.length
    rw [reported_append, List.length_append]
    omega
  · have howes := lived_owes (s := s) hl hf (hworkers ▸ hv) fun i hi =>
      ⟨hord.index w i (hi ▸ hmem), hord.zero w f hmem (.inl (hi ▸ trivial))⟩
    have hO := weigh_run hag hw hpost (LifeFrame.owes v)
    have := h.each v hv
    rw [reported_append, List.count_append]
    omega
  · rw [reported_append, List.mem_append] at hv
    rcases hv with hv | hv
    · exact h.within v hv
    · obtain ⟨failed, hv⟩ := mem_reported.1 hv
      rcases mem_milestones hv hf with ⟨i, rc, rfl, rfl, hrc, hi⟩ | ⟨_, _, _, rfl, -, hi | hi⟩ | ⟨-, hi⟩
      · obtain rfl := (Milestone.reports.inj hi).1
        cases hl with
        | setUpPosted => exact absurd rfl hrc
        | setUpFailed i rc hlt => exact hworkers ▸ hlt
      · cases hi
      · obtain rfl := (Milestone.reports.inj hi).1
        exact (h.unreported ho hmem).1
      · cases hi

/-- A worker that has a call of its teardown to make has reported. -/
theorem Countdown.reported_torn (h : Countdown e es κ) (hord : Ordered κ)
    (hag : κ.agenda w = .shutdownIoWorker :: rest) (hw : w < e.ioThreadCount) : w ∈ reported es := by
  have hstarted : κ.ctx.shutdownStarted = true := by
    by_contra hno
    exact hord.calm (by simpa using hno) w .shutdownIoWorker (hag ▸ List.mem_cons_self) trivial
  have hnone : κ.weigh e (LifeFrame.owes w) = 0 := by
    refine Finset.sum_eq_zero fun u _ => List.sum_eq_zero fun n hn => ?_
    obtain ⟨g, hg, rfl⟩ := List.mem_map.1 hn
    cases g with
    | postSetUp i => exact absurd trivial (hord.started hstarted u _ hg)
    | initializeIoWorker =>
      refine if_neg ?_
      rintro rfl
      have hpair := hord.order u
      rw [hag, List.pairwise_cons] at hpair
      rw [hag] at hg
      exact hpair.1 _ ((List.mem_cons.1 hg).resolve_left nofun) (.inl trivial) (.inr rfl)
    | _ => rfl
  have := h.each w hw
  exact List.count_pos_iff.1 (by omega)

/-- While a worker has still to report its acknowledgement is not the last. -/
theorem Countdown.not_last (h : Countdown e es κ) (ho : Opened e κ) (hc : Counting e κ)
    (hag : κ.agenda w = .onIoWorkerShutdown :: rest) : κ.ctx.workersShuttingDown - 1 ≠ 0 := by
  intro hlast
  have hw := (ho.confined w .onIoWorkerShutdown (hag ▸ List.mem_cons_self)).1
  -- this one is taken off
  have hrun := total_run (x := { ctx := κ.ctx }) hag hw (by simp) (LifeFrame.acks κ.ctx.ioWorkers)
  have hthis : (LifeFrame.acks κ.ctx.ioWorkers) .onIoWorkerShutdown = 1 := rfl
  have hnothing : ({ ctx := κ.ctx } : Effect).weight (LifeFrame.acks κ.ctx.ioWorkers) = 0 := rfl
  have hstarted : κ.ctx.shutdownStarted = true := by
    by_contra hno
    have := (hc.tally.notBegun (by simpa using hno)).1
    omega
  have hcounted := hc.tally.counted hstarted
  -- and one that has still to report has its own before it
  obtain ⟨v, g, hg, hrep⟩ : ∃ v, ∃ g ∈ κ.agenda v, g.Reporting := by
    have hleft := h.left
    rw [h.initializing] at hleft
    rcases Nat.eq_zero_or_pos (κ.total e (LifeFrame.due e.ioThreadCount)) with hz | hpos
    · obtain ⟨v, g, hg, hweight⟩ := exists_of_total (e := e) (κ := κ) LifeFrame.counts (by omega)
      refine ⟨v, g, hg, ?_⟩
      cases g <;> trivial
    · obtain ⟨v, g, hg, hweight⟩ := exists_of_total _ hpos
      refine ⟨v, g, hg, ?_⟩
      cases g <;> trivial
  have hother : ∀ u g, g ∈ κ.agenda u → g ≠ .onIoWorkerShutdown → 0 < g.acks κ.ctx.ioWorkers → False := by
    intro u g hg hne hweight
    have hle := weight_le_weigh (e := e) (fun _ => LifeFrame.acks κ.ctx.ioWorkers) (ho.confined u g hg).1
      (run_stays (x := { ctx := κ.ctx }) hag hg (.inl hne))
    have hle : g.acks κ.ctx.ioWorkers ≤ (κ.run w rest { ctx := κ.ctx }).total e (LifeFrame.acks κ.ctx.ioWorkers) := hle
    omega
  rcases h.awaited hstarted v g hg hrep with ⟨u, i, -, hdue⟩ | hdue
  · exact hother u _ hdue nofun (Nat.succ_pos _)
  · exact hother v _ hdue nofun Nat.one_pos

/-- What has been seen keeps to the order: each worker's teardown comes after its report. -/
theorem Countdown.seen (h : Countdown e es κ) (ho : Opened e κ) (hord : Ordered κ) (hag : κ.agenda w = f :: rest)
    (s : Sys) (c : Choice) :
    .aborts ∉ es ++ f.milestones e s w c ∧
    (∀ v < e.ioThreadCount, .shutsDown v ∈ es ++ f.milestones e s w c →
      v ∈ reported (es ++ f.milestones e s w c)) ∧
    (es ++ f.milestones e s w c).Pairwise fun a b => ∀ v, a = .shutsDown v → b ≠ .initializes v := by
  have hmem : f ∈ κ.agenda w := hag ▸ List.mem_cons_self
  obtain ⟨hw, hf⟩ := ho.confined w f hmem
  refine ⟨fun hab => ?_, fun v hv hshut => ?_, ?_⟩
  · rcases List.mem_append.1 hab with hab | hab
    · exact h.unaborted hab
    · rcases mem_milestones hab hf with ⟨_, _, _, _, _, hm⟩ | ⟨_, _, _, -, -, hm | hm⟩ | ⟨-, hm⟩ <;> cases hm
  · rw [reported_append, List.mem_append]
    left
    rcases List.mem_append.1 hshut with hshut | hshut
    · exact h.torn v hv hshut
    · rcases mem_milestones hshut hf with ⟨_, _, _, _, _, hm⟩ | ⟨_, _, _, -, -, hm | hm⟩ | ⟨rfl, hm⟩
      · cases hm
      · cases hm
      · cases hm
      · obtain rfl := Milestone.shutsDown.inj hm
        exact h.reported_torn hord hag hv
  · refine List.pairwise_append.2 ⟨h.order, ?_, fun a ha b hb v hav hbv => ?_⟩
    · refine List.pairwise_of_forall_mem_list fun a ha b hb v hav hbv => ?_
      subst hav hbv
      rcases mem_milestones ha hf with ⟨_, _, _, _, _, hm⟩ | ⟨_, _, _, -, -, hm | hm⟩ | ⟨rfl, -⟩
      · cases hm
      · cases hm
      · cases hm
      · rcases mem_milestones hb hf with ⟨_, _, hf', _⟩ | ⟨_, _, _, hf', _⟩ | ⟨-, hm⟩
        · cases hf'
        · cases hf'
        · cases hm
    · -- a worker that sets itself up has not reported
      subst hav hbv
      rcases mem_milestones hb hf with ⟨_, _, _, _, _, hm⟩ | ⟨_, _, _, rfl, -, hm | hm⟩ | ⟨-, hm⟩
      · cases hm
      · obtain rfl := Milestone.initializes.inj hm
        obtain ⟨hlt, hnot⟩ := h.unreported ho hmem
        exact hnot (h.torn v hlt ha)
      · cases hm
      · cases hm

/-- One call while the workers report. -/
theorem Countdown.run (h : Countdown e es κ) (ho : Opened e κ) (hc : Counting e κ) (hord : Ordered κ)
    (hn : 0 < e.ioThreadCount) (hag : κ.agenda w = f :: rest) (hl : Lived e available κ.ctx w f c x)
    (hposts : f.delivers available c = true) (s : Sys) (hx : x.ctx.initializationComplete = false) :
    Countdown e (es ++ f.milestones e s w c) (κ.run w rest x) := by
  have hmem : f ∈ κ.agenda w := hag ▸ List.mem_cons_self
  obtain ⟨hw, hf⟩ := ho.confined w f hmem
  have hpost := fun u g hx => ((lived_confined hl hf ho.workers).2 u g hx).1
  obtain ⟨hworkers, hclosed, -⟩ := lived_same hl hf
  obtain ⟨hinitializing, hlength, heach, hwithin⟩ := h.accounts ho hord hag hl s
  obtain ⟨hunaborted, htorn, horder⟩ := h.seen ho hord hag s c
  have hfinishes := total_run hag hw hpost LifeFrame.finishes
  rw [h.finishes] at hfinishes
  have hnone : f.finishes = 0 := by
    have hle := weight_le_weigh (e := e) (fun _ => LifeFrame.finishes) hw hmem
    exact Nat.le_zero.1 (h.finishes ▸ hle)
  refine ⟨hworkers.trans h.workers, hx, ?_, ?_, hclosed.trans h.unclosed, ?_, ?_, hinitializing, hlength, heach, hwithin,
    late_run h.late hag hl hf, fun hs v g hg hrep => h.awaited_run ho hord hn hag hl hf hposts hs hg hrep,
    unasked_run h.unasked hag hl, fun v message hg => ?_, hunaborted, htorn, horder⟩
  · simp only [Cycle.run]
    split
    · rcases h.owner with hpc | hpc <;> simp [hpc, OwnerPc.woken]
    · exact h.owner
  · -- nothing of the end of the teardown is pending, and its messages are posted
    have hfalse := h.unfinished
    show x.ctx.shutdownComplete = false
    cases hl with
    | beginFailed rc lastError hno => exact absurd (by simpa [LifeFrame.delivers] using hposts) hno
    | finished => cases hnone
    | _ => exact hfalse
  · have hzero := lived_finishes hl hf (by rw [h.workers]; omega) hnone fun hlast => by
      subst hlast
      exact h.not_last ho hc hag
    omega
  · have hleft := h.left
    show x.ctx.workersInitializing ≠ 0
    cases hl with
    | openFailed | opened | rejected | configured => exact absurd trivial hf
    | initialized error lastError hne => exact hne
    | initializedLast => cases hx
    | _ => exact hleft
  · obtain ⟨-, -, -, hpublish⟩ := lived_reporting hl hf
    rcases mem_run hag hg with hold | ⟨-, hcall⟩ | hposted
    · exact h.unpublished v message hold
    · exact (hpublish message).1 hcall
    · exact (hpublish message).2 v hposted

end

/-- A step that runs no call. -/
theorem Countdown.aside (h : Countdown e es s.cycle) (ha : Aside e s κ') : Countdown e es κ' := by
  have hmove : ∀ (n : Nat) (pc : OwnerPc) (available : Bool), pc = .constructing ∨ pc = .sleepingInitialization →
      Countdown e es ⟨{ s.ctx with nextIoWorker := n }, pc, available, s.cycle.agenda⟩ := fun n pc available hpc =>
    ⟨h.workers, h.incomplete, hpc, h.unfinished, h.unclosed, h.finishes, h.left, h.initializing, h.length, h.each,
      h.within, h.late, h.awaited, h.unasked, h.unpublished, h.unaborted, h.torn, h.order⟩
  cases ha with
  | idle => exact h
  | counted n => exact hmove n _ _ h.owner
  | stops => exact hmove s.ctx.nextIoWorker _ false h.owner
  | owner c κ ho =>
    have hpc := h.owner
    cases ho with
    | checked =>
      rw [h.incomplete]
      exact hmove s.ctx.nextIoWorker _ _ (.inr rfl)
    | wokenInitialization => exact hmove s.ctx.nextIoWorker _ _ (.inl rfl)
    | close hpc' => rcases hpc with hpc | hpc <;> rw [hpc] at hpc' <;> simp at hpc'
    | wokenShutdown hpc' | closedAlready hpc' | marked hpc' | nothingOpen hpc' | requested hpc'
    | beginPosted hpc' | beginFailed hpc' | waited hpc' | claimReleased hpc' =>
      rcases hpc with hpc | hpc <;> rw [hpc] at hpc' <;> cases hpc'
  | event rc error herror hd hposted =>
    have hlight : ∀ weight : Nat → LifeFrame → Nat, weight 0 (.requestShutdown rc error) = 0 →
        (s.cycle.put 0 (.requestShutdown rc error :: s.cycle.agenda 0)).weigh e weight = s.cycle.weigh e weight :=
      fun weight hweight => weigh_first (zero_reactors e) weight hweight
    have hmem : ∀ v, ∀ g ∈ (s.cycle.put 0 (.requestShutdown rc error :: s.cycle.agenda 0)).agenda v,
        g = .requestShutdown rc error ∨ g ∈ s.cycle.agenda v :=
      fun v g hg => (mem_first.1 hg).imp_left And.right
    refine ⟨h.workers, h.incomplete, h.owner, h.unfinished, h.unclosed, (hlight _ rfl).trans h.finishes, h.left, ?_, ?_,
      fun v hv => ?_, h.within, fun v => ?_, fun hs v g hg hrep => ?_, fun hr => ?_, fun v message hg => ?_, h.unaborted,
      h.torn, h.order⟩
    · exact h.initializing.trans (congrArg₂ (· + ·) (hlight _ rfl).symm (hlight _ rfl).symm)
    · exact (congrArg _ (hlight _ rfl)).trans h.length
    · exact (congrArg _ (hlight _ rfl)).trans (h.each v hv)
    · rw [put_agenda, Function.update_apply]
      split
      · refine List.pairwise_cons.2 ⟨fun g _ hend => ?_, h.late 0⟩
        simp [LifeFrame.Ending, LifeFrame.Tearing] at hend
      · exact h.late v
    · rcases hmem v g hg with rfl | hold
      · exact hrep.elim
      · refine (h.awaited hs v g hold hrep).imp ?_ fun hdue => mem_first.2 (.inr hdue)
        rintro ⟨u, i, hi, hdue⟩
        exact ⟨u, i, hi, mem_first.2 (.inr hdue)⟩
    · refine ⟨(h.unasked hr).1, fun v g hg => ?_⟩
      rcases hmem v g hg with rfl | hold
      · rfl
      · exact (h.unasked hr).2 v g hold
    · rcases hmem v _ hg with hg | hold
      · cases hg
      · exact h.unpublished v message hold

end SpdkBdevContext
end SpdkConnector
