import SpdkConnector.Context.Countdown
import SpdkConnector.Context.Workers

/-!
# The initialisation handshake

| `on_runtime_ready` | phase |
|---|---|
| opens the bdev | `Opening` |
| has given up, and is about to say so | `Failing` |
| has posted the initialisations | `Countdown` |
| the outcome is known | `Decided` |

Whatever fails, and whatever the bdev says meanwhile, the outcome is known after the last report or after the
opening has failed, and construction succeeds only with every worker ready (`construction_handshake`).
-/

namespace SpdkConnector
namespace SpdkBdevContext

open Interleaving

variable {e : Env} {s s' : Sys} {κ κ' : Cycle} {ζ : Core} {w v : Nat} {f g : LifeFrame} {rest : List LifeFrame}
  {x : Effect} {es : List Milestone}

/-- Posting the shutdown messages succeeds. -/
def shutdownPosted (s : Sys) : Action → Bool
  | .reactor w c =>
    match (s.reactor w).stack with
    | .life f :: _ => f.delivers s.runtimeAvailable c
    | _ => true
  | _ => true

/-! ## The outcome -/

/-- A failed construction is about to ask for a shutdown. -/
structure Asking (κ : Cycle) : Prop where
  pending : ∃ w, .requestShutdown einval "" ∈ κ.agenda w
  runtime : κ.ctx.runtime = true
  workers : κ.ctx.ioWorkers ≠ 0
  owner : (κ.owner = .constructing ∨ κ.owner = .sleepingInitialization ∨ κ.owner = .closing) ∧ κ.ctx.closed = false ∨
    κ.owner = .requesting

/-- It has asked, or is about to, unless the runtime has stopped. -/
def Cycle.Asked (κ : Cycle) : Prop :=
  κ.ctx.shutdownRequested = true ∨ κ.runtimeAvailable = false ∨ Asking κ

/-- The outcome of the construction is known, and nobody reports any more. -/
structure Decided (e : Env) (es : List Milestone) (κ : Cycle) : Prop where
  complete : κ.ctx.initializationComplete = true
  quiet : ∀ v, ∀ g ∈ κ.agenda v, ¬ g.Reporting ∧ ∀ message, g ≠ .publishInitializationFailure message
  outcome : .aborts ∈ es ∧ reported es = [] ∧ (∀ v, .initializes v ∉ es) ∨
    .aborts ∉ es ∧ κ.ctx.ioWorkers = e.ioThreadCount ∧ κ.ctx.workersInitializing = 0 ∧
      (reported es).Perm (List.range e.ioThreadCount)
  order : es.Pairwise fun a b => ∀ v, a = .shutsDown v → b ≠ .initializes v
  failed : ∀ v, .reports v true ∈ es → κ.ctx.initializationSucceeded = false ∧ κ.Asked

/-- A step that runs no call leaves the calls there are, and the outcome. -/
structure Beside (κ κ' : Cycle) : Prop where
  complete : κ'.ctx.initializationComplete = κ.ctx.initializationComplete
  succeeded : κ'.ctx.initializationSucceeded = κ.ctx.initializationSucceeded
  workers : κ'.ctx.ioWorkers = κ.ctx.ioWorkers
  initializing : κ'.ctx.workersInitializing = κ.ctx.workersInitializing
  stays : ∀ v, ∀ g ∈ κ.agenda v, g ∈ κ'.agenda v
  new : ∀ v, ∀ g ∈ κ'.agenda v, g ∈ κ.agenda v ∨ g = .beginShutdown ∨ ∃ rc error, g = .requestShutdown rc error

theorem Aside.beside (h : Aside e s κ') : Beside s.cycle κ' := by
  have hsame : ∀ κ : Cycle, κ.ctx.initializationComplete = s.ctx.initializationComplete →
      κ.ctx.initializationSucceeded = s.ctx.initializationSucceeded → κ.ctx.ioWorkers = s.ctx.ioWorkers →
      κ.ctx.workersInitializing = s.ctx.workersInitializing → κ.agenda = s.cycle.agenda → Beside s.cycle κ :=
    fun κ h1 h2 h3 h4 hag => ⟨h1, h2, h3, h4, fun v g hg => hag ▸ hg, fun v g hg => .inl (hag ▸ hg)⟩
  cases h with
  | idle => exact hsame _ rfl rfl rfl rfl rfl
  | counted => exact hsame _ rfl rfl rfl rfl rfl
  | stops => exact hsame _ rfl rfl rfl rfl rfl
  | event rc error =>
    refine ⟨rfl, rfl, rfl, rfl, fun v g hg => mem_first.2 (.inr hg), fun v g hg => ?_⟩
    rcases mem_first.1 hg with ⟨-, rfl⟩ | hg
    · exact .inr (.inr ⟨rc, error, rfl⟩)
    · exact .inl hg
  | owner c κ ho =>
    cases ho with
    | beginPosted =>
      refine ⟨rfl, rfl, rfl, rfl, fun v g hg => ?_, fun v g hg => ?_⟩
      · show g ∈ (s.cycle.put 0 (s.cycle.agenda 0 ++ [.beginShutdown])).agenda v
        rcases eq_or_ne v 0 with rfl | hv
        · simp [Cycle.put, hg]
        · simpa [Cycle.put, hv] using hg
      · have hg : g ∈ (s.cycle.put 0 (s.cycle.agenda 0 ++ [.beginShutdown])).agenda v := hg
        rcases eq_or_ne v 0 with rfl | hv
        · simp only [Cycle.put, Function.update_self, List.mem_append, List.mem_singleton] at hg
          exact hg.imp_right .inl
        · exact .inl (by simpa [Cycle.put, hv] using hg)
    | _ => exact hsame _ rfl rfl rfl rfl rfl

/-- The owner of a failed construction goes on to close the context, and asks for the shutdown itself. -/
theorem asked_aside (h : s.cycle.Asked) (hfailed : s.ctx.initializationSucceeded = false)
    (hcomplete : s.ctx.initializationComplete = true) (ha : Aside e s κ') : κ'.Asked := by
  have hbeside := ha.beside
  have hkeep : ∀ κ : Cycle, (s.ctx.shutdownRequested = true → κ.ctx.shutdownRequested = true) →
      (s.runtimeAvailable = false → κ.runtimeAvailable = false) → (Asking s.cycle → κ.Asked) → κ.Asked := by
    intro κ h1 h2 h3
    rcases h with h | h | h
    · exact .inl (h1 h)
    · exact .inr (.inl (h2 h))
    · exact h3 h
  cases ha with
  | idle => exact h
  | counted n => exact hkeep _ id id fun h => .inr (.inr ⟨h.pending, h.runtime, h.workers, h.owner⟩)
  | stops => exact .inr (.inl rfl)
  | event rc error =>
    refine hkeep _ id id fun h => .inr (.inr ⟨?_, h.runtime, h.workers, h.owner⟩)
    obtain ⟨w, hw⟩ := h.pending
    exact ⟨w, hbeside.stays w _ hw⟩
  | owner c κ ho =>
    have hmove : ∀ pc : OwnerPc, pc = .constructing ∨ pc = .sleepingInitialization ∨ pc = .closing →
        Asking s.cycle → s.ctx.closed = false → Cycle.Asked { s.cycle with owner := pc } := fun pc hpc h hclosed =>
      .inr (.inr ⟨h.pending, h.runtime, h.workers, .inl ⟨hpc, hclosed⟩⟩)
    have hplace : ∀ {pc : OwnerPc}, s.cycle.owner = pc → Asking s.cycle →
        (pc = .constructing ∨ pc = .sleepingInitialization ∨ pc = .closing) ∧ s.ctx.closed = false ∨ pc = .requesting :=
      fun hpc h => hpc ▸ h.owner
    cases ho with
    | checked hpc =>
      refine hkeep _ id id fun h => ?_
      refine hmove _ ?_ h ((hplace hpc h).resolve_right nofun).2
      rw [show s.cycle.ctx.initializationComplete = true from hcomplete,
        show s.cycle.ctx.initializationSucceeded = false from hfailed]
      exact .inr (.inr rfl)
    | wokenInitialization hpc => exact hkeep _ id id fun h => hmove _ (.inl rfl) h ((hplace hpc h).resolve_right nofun).2
    | close hpc =>
      refine hkeep _ id id fun h => ?_
      rcases hpc with hpc | hpc <;> rcases hplace hpc h with ⟨hpc', -⟩ | hpc' <;> simp at hpc'
    | closedAlready hpc hclosed =>
      exact hkeep _ id id fun h => nomatch hclosed.symm.trans ((hplace hpc h).resolve_right nofun).2
    | marked hpc => exact hkeep _ id id fun h => .inr (.inr ⟨h.pending, h.runtime, h.workers, .inr rfl⟩)
    | nothingOpen hpc hc hd hworkers => exact hkeep _ id id fun h => absurd hworkers h.workers
    | requested hpc lastError code start hs =>
      refine hkeep _ (fun hr => by simp [Sys.cycle, hr]) id fun h => ?_
      have hruntime := h.runtime
      cases havailable : s.runtimeAvailable with
      | false => exact .inr (.inl havailable)
      | true =>
        left
        show (s.cycle.ctx.shutdownRequested || start) = true
        rw [hs, hruntime, show s.cycle.runtimeAvailable = true from havailable]
        cases s.cycle.ctx.shutdownRequested <;> rfl
    | wokenShutdown hpc | beginPosted hpc | beginFailed hpc | waited hpc | claimReleased hpc =>
      refine hkeep _ id id fun h => ?_
      rcases hplace hpc h with ⟨hpc', -⟩ | hpc' <;> simp at hpc'

theorem Decided.aside (h : Decided e es s.cycle) (ha : Aside e s κ') : Decided e es κ' := by
  obtain ⟨h1, h2, h3, h4, -, hnew⟩ := ha.beside
  refine ⟨h1.trans h.complete, fun v g hg => ?_, ?_, h.order, fun v hv => ?_⟩
  · rcases hnew v g hg with hold | rfl | ⟨rc, error, rfl⟩
    · exact h.quiet v g hold
    · exact ⟨id, nofun⟩
    · exact ⟨id, nofun⟩
  · rw [h3, h4]
    exact h.outcome
  · obtain ⟨hfailed, hasked⟩ := h.failed v hv
    exact ⟨h2.trans hfailed, asked_aside hasked hfailed h.complete ha⟩

section
variable {c : Choice} {available : Bool}

/-- The call that asks for the shutdown does so. -/
theorem asked_run (h : κ.Asked) (hf : ¬ f.Early) (hag : κ.agenda w = f :: rest)
    (hl : Lived e κ.runtimeAvailable κ.ctx w f c x) : (κ.run w rest x).Asked := by
  have havailable : (κ.run w rest x).runtimeAvailable = κ.runtimeAvailable := by
    simp only [Cycle.run]
    cases x.post <;> rfl
  rcases h with h | h | h
  · exact .inl ((lived_monotone hl).1 h)
  · exact .inr (.inl (havailable.trans h))
  · obtain ⟨hworkers, hclosed, hruntime, -⟩ := lived_same hl hf
    obtain ⟨u, hu⟩ := h.pending
    by_cases hthis : f = .requestShutdown einval ""
    · subst hthis
      cases hl with
      | requested rc error lastError code start hstart =>
        cases hav : κ.runtimeAvailable with
        | false => exact .inr (.inl (havailable.trans hav))
        | true =>
          left
          show (κ.ctx.shutdownRequested || start) = true
          rw [hstart, h.runtime, hav]
          cases κ.ctx.shutdownRequested <;> rfl
    · refine .inr (.inr ⟨⟨u, run_stays hag hu (.inl (Ne.symm hthis))⟩, hruntime.trans h.runtime, ?_, ?_⟩)
      · show x.ctx.ioWorkers ≠ 0
        rw [hworkers]
        exact h.workers
      · simp only [Cycle.run, hclosed]
        split
        · rcases h.owner with ⟨hpc, hopen⟩ | hpc
          · refine .inl ⟨?_, hopen⟩
            rcases hpc with hpc | hpc | hpc <;> simp [hpc, OwnerPc.woken]
          · exact .inr (by simp [hpc, OwnerPc.woken])
        · exact h.owner

theorem Decided.run (h : Decided e es κ) (ho : Opened e κ) (hag : κ.agenda w = f :: rest)
    (hl : Lived e κ.runtimeAvailable κ.ctx w f c x) (s : Sys) :
    Decided e (es ++ f.milestones e s w c) (κ.run w rest x) ∧
    x.ctx.initializationSucceeded = κ.ctx.initializationSucceeded := by
  have hmem : f ∈ κ.agenda w := hag ▸ List.mem_cons_self
  obtain ⟨-, hf⟩ := ho.confined w f hmem
  obtain ⟨hquiet, hpublish⟩ := h.quiet w f hmem
  obtain ⟨hworkers, -⟩ := lived_same hl hf
  obtain ⟨hcalls, hpost, -, hpublished⟩ := lived_reporting hl hf
  have hset : ¬ f.SettingUp := by
    rintro (hspread | rfl)
    · cases f <;> simp_all [LifeFrame.Spreading, LifeFrame.Early, LifeFrame.Reporting]
    · exact hquiet trivial
  have hsucceeded : x.ctx.initializationSucceeded = κ.ctx.initializationSucceeded := by
    cases hl with
    | initialized | initializedLast => exact absurd trivial hquiet
    | published message => exact absurd rfl (hpublish message)
    | _ => rfl
  -- only a teardown may show
  have hshow : ∀ m ∈ f.milestones e s w c, m = .shutsDown w := by
    intro m hm
    rcases mem_milestones hm hf with ⟨i, rc, rfl, -⟩ | ⟨_, _, _, rfl, -⟩ | ⟨-, hm⟩
    · exact absurd trivial hquiet
    · exact absurd trivial hquiet
    · exact hm
  have hreported : reported (es ++ f.milestones e s w c) = reported es := by
    rw [reported_append, List.append_right_eq_self, List.eq_nil_iff_forall_not_mem]
    intro v hv
    obtain ⟨failed, hv⟩ := mem_reported.1 hv
    cases hshow _ hv
  have hold : ∀ m, (∀ v, m ≠ .shutsDown v) → m ∈ es ++ f.milestones e s w c → m ∈ es := by
    intro m hm hmem
    exact (List.mem_append.1 hmem).resolve_right fun hm' => hm w (hshow m hm')
  refine ⟨⟨(lived_monotone hl).2.2.2 h.complete, fun v g hg => ?_, ?_, ?_, fun v hv => ?_⟩, hsucceeded⟩
  · rcases mem_run hag hg with hold | ⟨-, hcall⟩ | hposted
    · exact h.quiet v g hold
    · exact ⟨fun hrep => hset (hcalls g hcall hrep), fun message hg => (hpublished message).1 (hg ▸ hcall)⟩
    · exact ⟨fun hrep => hset (hpost v g hposted hrep), fun message hg => (hpublished message).2 v (hg ▸ hposted)⟩
  · rw [hreported]
    rcases h.outcome with ⟨h1, h2, h3⟩ | ⟨h1, h2, h3, h4⟩
    · exact .inl ⟨List.mem_append_left _ h1, h2, fun v hv => h3 v (hold _ (by simp) hv)⟩
    · refine .inr ⟨fun hab => h1 (hold _ (by simp) hab), hworkers.trans h2, ?_, h4⟩
      have hinitializing := (lived_counts (s := s) hl hf).2
      show x.ctx.workersInitializing = 0
      omega
  · refine List.pairwise_append.2 ⟨h.order, ?_, fun a _ b hb v _ hbv => ?_⟩
    · refine List.pairwise_of_forall_mem_list fun a _ b hb v _ hbv => ?_
      exact absurd (hbv.symm.trans (hshow b hb)) (by simp)
    · exact absurd (hbv.symm.trans (hshow b hb)) (by simp)
  · obtain ⟨hfailed, hasked⟩ := h.failed v (hold _ (by simp) hv)
    exact ⟨hsucceeded.trans hfailed, asked_run hasked hf hag hl⟩

end

/-! ## A failed opening -/

/-- `on_runtime_ready` has given up: it says so, and asks for the shutdown. -/
structure Failing (es : List Milestone) (κ : Cycle) : Prop where
  agenda : ∃ message rc, κ.agenda = Function.update (fun _ => []) 0
    [.publishInitializationFailure message, .requestShutdown rc ""]
  incomplete : κ.ctx.initializationComplete = false
  owner : κ.owner = .constructing ∨ κ.owner = .sleepingInitialization
  unfinished : κ.ctx.shutdownComplete = false
  seen : es = [.aborts]

theorem Failing.aside (h : Failing es s.cycle) (ha : Aside e s κ') : Failing es κ' := by
  have hmove : ∀ (n : Nat) (pc : OwnerPc) (available : Bool), pc = .constructing ∨ pc = .sleepingInitialization →
      Failing es ⟨{ s.ctx with nextIoWorker := n }, pc, available, s.cycle.agenda⟩ := fun n pc available hpc =>
    ⟨h.agenda, h.incomplete, hpc, h.unfinished, h.seen⟩
  cases ha with
  | idle => exact h
  | counted n => exact hmove n _ _ h.owner
  | stops => exact hmove s.ctx.nextIoWorker _ false h.owner
  | event rc error herror hd hposted =>
    -- no event while a callback runs
    obtain ⟨message, rc, hag⟩ := h.agenda
    exact (hposted (.publishInitializationFailure message) (by rw [hag]; simp)).elim
  | owner c κ ho =>
    have hpc := h.owner
    cases ho with
    | checked =>
      rw [h.incomplete]
      exact hmove s.ctx.nextIoWorker _ _ (.inr rfl)
    | wokenInitialization => exact hmove s.ctx.nextIoWorker _ _ (.inl rfl)
    | close hpc' => rcases hpc with hpc | hpc <;> rw [hpc] at hpc' <;> simp at hpc'
    | wokenShutdown hpc' | closedAlready hpc' | marked hpc' | nothingOpen hpc' | requested hpc'
    | beginPosted hpc' | beginFailed hpc' | waited hpc' | claimReleased hpc' =>
      rcases hpc with hpc | hpc <;> rw [hpc] at hpc' <;> cases hpc'

/-- The agenda of a machine with calls on the application thread only. -/
theorem run_single {fs : List LifeFrame} (hag : κ.agenda = Function.update (fun _ => []) 0 (f :: rest))
    (hpost : x.post = none) (hfs : x.calls ++ rest = fs) :
    (κ.run 0 rest x).agenda = Function.update (fun _ => []) 0 fs := by
  funext v
  rw [run_agenda, hpost, hfs, hag]
  rcases eq_or_ne v 0 with rfl | hv
  · simp
  · simp [hv]

theorem single_head {v : Nat} {fs : List LifeFrame} (hag : κ.agenda = Function.update (fun _ => []) 0 fs)
    (h : κ.agenda v = f :: rest) : v = 0 ∧ fs = f :: rest := by
  rw [hag, Function.update_apply] at h
  split at h
  · exact ⟨‹v = 0›, h⟩
  · cases h

/-- It says so. -/
theorem Failing.run {c : Choice} {available : Bool} (h : Failing es κ) (hag : κ.agenda w = f :: rest)
    (hl : Lived e available κ.ctx w f c x) (s : Sys) :
    Decided e (es ++ f.milestones e s w c) (κ.run w rest x) ∧ x.ctx.initializationSucceeded = false := by
  obtain ⟨message, rc, hagenda⟩ := h.agenda
  obtain ⟨rfl, hfs⟩ := single_head hagenda hag
  obtain ⟨rfl, rfl⟩ := List.cons.inj hfs
  cases hl with
  | published =>
    have hrun : ∀ m : Members, (κ.run 0 [.requestShutdown rc ""] { ctx := m, calls := [.notifyAll] }).agenda =
        Function.update (fun _ => []) 0 [.notifyAll, .requestShutdown rc ""] := fun m => run_single hagenda rfl rfl
    have hes : es ++ LifeFrame.milestones e s 0 (.publishInitializationFailure message) .next = [.aborts] := by
      rw [h.seen]
      rfl
    rw [hes]
    refine ⟨⟨rfl, fun v g hg => ?_, .inl ⟨by simp, rfl, by simp⟩, by simp, by simp⟩, rfl⟩
    rw [hrun, Function.update_apply] at hg
    split at hg
    · simp only [List.mem_cons, List.not_mem_nil, or_false] at hg
      rcases hg with rfl | rfl <;> exact ⟨id, nofun⟩
    · cases hg

/-! ## The texts and the workers while they report -/

structure Stated (es : List Milestone) (s : Sys) : Prop where
  asked : s.ctx.initializationComplete = false → ∀ v rc error, .requestShutdown rc error ∈ s.cycle.agenda v → error ≠ ""
  requested : s.ctx.lastError = "" → s.ctx.shutdownRequested = false
  failed : s.ctx.lastError = "" → ∀ v, .reports v true ∈ es →
    ∃ u error, error ≠ "" ∧ .onIoWorkerInitialized error ∈ s.cycle.agenda u
  ready : s.ctx.shutdownStarted = false → ∀ v, .reports v false ∈ es →
    (s.reactor v).ioChannel = true ∧ (s.reactor v).pool.initialized = true

/-- The last report is the only one that asks for a shutdown. -/
theorem lived_asks {c : Choice} {m : Members} {available : Bool} (hl : Lived e available m w f c x) (hf : ¬ f.Early)
    (rc : Int) (error : String) :
    (.requestShutdown rc error ∈ x.calls → x.ctx.initializationComplete = true) ∧
      ∀ u, x.post ≠ some (u, .requestShutdown rc error) := by
  cases hl with
  | openFailed | opened | rejected | configured => exact absurd trivial hf
  | initializedLast => exact ⟨fun _ => rfl, by simp⟩
  | requested rc error lastError code start => cases start <;> simp
  | begun | released | acknowledged =>
    dsimp only
    split <;> simp
  | _ => simp

/-- Before the teardown a worker that has reported success keeps what it reported. -/
theorem Stated.kept (h : Stated es s) (hcount : Countdown e es s.cycle) (ho : Opened e s.cycle) (hord : Ordered s.cycle)
    (ht : Tracks s ζ) (hc : Consistent e ζ) {a : Action} (hs : step e s a = some s')
    (hstarted : s'.ctx.shutdownStarted = false) (hv : .reports v false ∈ es) :
    (s'.reactor v).ioChannel = true ∧ (s'.reactor v).pool.initialized = true := by
  have hbefore : s.ctx.shutdownStarted = false := (turn_calm hord.calm (step_turn hs)).1 hstarted
  refine acted_ready (step_acted ht hc hs v) (fun w f hf => hord.calm hbefore w f (stack_agenda hf)) (fun hset => ?_)
    (h.ready hbefore v hv)
  exact (hcount.unreported ho (stack_agenda hset)).2 (mem_reported.2 ⟨_, hv⟩)

theorem Stated.run (h : Stated es s) (hcount : Countdown e es s.cycle) (ho : Opened e s.cycle) (hord : Ordered s.cycle)
    (ht : Tracks s ζ) (hc : Consistent e ζ) {c : Choice} {stack : List Frame}
    (hst : (s.reactor w).stack = .life f :: stack) (hag : s.cycle.agenda w = f :: rest)
    (hl : Lived e s.runtimeAvailable s.ctx w f c x) (hs : step e s (.reactor w c) = some s')
    (hcycle : s'.cycle = s.cycle.run w rest x) : Stated (es ++ f.milestones e s w c) s' := by
  have hmem : f ∈ s.cycle.agenda w := hag ▸ List.mem_cons_self
  obtain ⟨-, hf⟩ := ho.confined w f hmem
  have hctx : s'.ctx = x.ctx := congrArg Cycle.ctx hcycle
  have htext : s'.ctx.lastError = "" → f.lastError s.ctx.lastError = "" := by
    intro hempty
    obtain ⟨s1, fs, hrun, rfl⟩ := step_life hst hs
    have hlast := runLife_lastError hrun (fun message hf' => hcount.unpublished w message (hf' ▸ hmem)) hempty
    exact hlast
  refine ⟨fun hincomplete v rc error hg => ?_, fun hempty => ?_, fun hempty v hv => ?_, fun hstarted v hv => ?_⟩
  · obtain ⟨hcalls, hpost⟩ := lived_asks hl hf rc error
    rw [hcycle] at hg
    rcases mem_run hag hg with hold | ⟨-, hcall⟩ | hposted
    · exact h.asked hcount.incomplete v rc error hold
    · exact nomatch (hctx ▸ hincomplete).symm.trans (hcalls hcall)
    · exact absurd hposted (hpost v)
  · -- a shutdown that is requested meanwhile leaves a text
    have hlast := htext hempty
    have hold := h.requested (LifeFrame.lastError_empty hlast)
    rw [hctx]
    cases hl with
    | requested rc error lastError code start =>
      have herror := h.asked hcount.incomplete w rc error hmem
      exact absurd ((if_pos herror).symm.trans hlast) herror
    | _ => exact hold
  · have hlast := htext hempty
    have hbefore := LifeFrame.lastError_empty hlast
    rcases List.mem_append.1 hv with hv | hv
    · obtain ⟨u, error, herror, hg⟩ := h.failed hbefore v hv
      refine ⟨u, error, herror, ?_⟩
      rw [hcycle]
      refine run_stays hag hg (.inl ?_)
      rintro rfl
      exact absurd ((if_pos ⟨herror, hbefore⟩).symm.trans hlast) herror
    · obtain ⟨error, herror, hg⟩ := failed_reports hst hs hv hf
      exact ⟨w, error, herror, hg⟩
  · rcases List.mem_append.1 hv with hv | hv
    · exact h.kept hcount ho hord ht hc hs hstarted hv
    · obtain ⟨rfl, hready⟩ := ready_reports (ht.tidy.reactor w).pool hst hs hv hf
      exact hready

/-- A step that runs no call leaves no text, and requests nothing. -/
theorem Aside.texts (ha : Aside e s κ') (howner : s.owner = .constructing ∨ s.owner = .sleepingInitialization) :
    κ'.ctx.lastError = s.ctx.lastError ∧ κ'.ctx.shutdownRequested = s.ctx.shutdownRequested ∧
    ∀ v rc error, .requestShutdown rc error ∈ κ'.agenda v → .requestShutdown rc error ∈ s.cycle.agenda v ∨ error ≠ "" := by
  cases ha with
  | idle | counted | stops => exact ⟨rfl, rfl, fun v rc error hg => .inl hg⟩
  | event rc error herror =>
    refine ⟨rfl, rfl, fun v rc' error' hg => ?_⟩
    rcases mem_first.1 hg with ⟨-, heq⟩ | hg
    · cases heq
      exact .inr herror
    · exact .inl hg
  | owner c κ ho =>
    cases ho with
    | checked | wokenInitialization => exact ⟨rfl, rfl, fun v rc error hg => .inl hg⟩
    | close hpc => rcases howner with hpc' | hpc' <;> simp [Sys.cycle, hpc'] at hpc
    | wokenShutdown hpc | closedAlready hpc | marked hpc | nothingOpen hpc | requested hpc | beginPosted hpc
    | beginFailed hpc | waited hpc | claimReleased hpc =>
      rcases howner with hpc' | hpc' <;> simp [Sys.cycle, hpc'] at hpc

theorem Stated.aside (h : Stated es s) (hcount : Countdown e es s.cycle) (ho : Opened e s.cycle) (hord : Ordered s.cycle)
    (ht : Tracks s ζ) (hc : Consistent e ζ) {a : Action} (hs : step e s a = some s') (ha : Aside e s s'.cycle) :
    Stated es s' := by
  obtain ⟨htext, hrequested, hasked⟩ := ha.texts hcount.owner
  have htext : s'.ctx.lastError = s.ctx.lastError := htext
  have hrequested : s'.ctx.shutdownRequested = s.ctx.shutdownRequested := hrequested
  refine ⟨fun _ v rc error hg => ?_, ?_, fun hempty v hv => ?_, fun hstarted v hv => ?_⟩
  · exact (hasked v rc error hg).elim (h.asked hcount.incomplete v rc error) id
  · rw [htext, hrequested]
    exact h.requested
  · obtain ⟨u, error, herror, hg⟩ := h.failed (htext ▸ hempty) v hv
    exact ⟨u, error, herror, ha.beside.stays u _ hg⟩
  · exact h.kept hcount ho hord ht hc hs hstarted hv

/-- A worker is ready for I/O. -/
def Sys.Ready (s : Sys) (v : Nat) : Prop := (s.reactor v).ioChannel = true ∧ (s.reactor v).pool.initialized = true

/-- The last report decides: it is a success only where every worker has reported one. -/
theorem Countdown.decide (hn : 0 < e.ioThreadCount) (h : Countdown e es s.cycle) (hstated : Stated es s) (ho : Opened e s.cycle)
    (hord : Ordered s.cycle) (ht : Tracks s ζ) (hc : Consistent e ζ) {c : Choice} {stack : List Frame}
    (hst : (s.reactor w).stack = .life f :: stack) (hag : s.cycle.agenda w = f :: rest)
    (hl : Lived e s.runtimeAvailable s.ctx w f c x) (hs : step e s (.reactor w c) = some s')
    (hcycle : s'.cycle = s.cycle.run w rest x) (ho' : Opened e s'.cycle)
    (hx : x.ctx.initializationComplete = true) :
    Decided e (es ++ f.milestones e s w c) s'.cycle ∧
    (s'.ctx.initializationSucceeded = true → ∀ v < s'.ctx.ioWorkers, s'.Ready v) := by
  have hmem : f ∈ s.cycle.agenda w := hag ▸ List.mem_cons_self
  have hincomplete : s.ctx.initializationComplete = false := h.incomplete
  obtain ⟨hinitializing, -, heach, hwithin⟩ := h.accounts ho hord hag hl s
  obtain ⟨hunaborted, -, horder⟩ := h.seen ho hord hag s c
  have hstated' := hstated.run h ho hord ht hc hst hag hl hs hcycle
  have hunasked := unasked_run h.unasked hag hl
  have hpublish := (lived_reporting hl (ho.confined w f hmem).2).2.2.2
  have hctx : s'.ctx = x.ctx := congrArg Cycle.ctx hcycle
  have hworkers : s'.ctx.ioWorkers = e.ioThreadCount := (ho.turn_workers (step_turn hs)).trans h.workers
  have hclaim : s.ctx.runtime = true := by
    by_contra hno
    rcases ho.held (.inl (by simpa [Sys.cycle] using hno)) with hpc | ⟨hpc, -⟩ <;>
      rcases h.owner with hpc' | hpc' <;> exact absurd (hpc.symm.trans hpc') (by simp)
  have hclosed : x.ctx.closed = false := (lived_same hl (ho.confined w f hmem).2).2.1.trans h.unclosed
  have hpc : s'.owner = .constructing ∨ s'.owner = .sleepingInitialization := by
    have howner : s'.owner = if x.notify then s.owner.woken else s.owner := congrArg Cycle.owner hcycle
    rw [howner]
    rcases h.owner with hpc | hpc <;> simp only [Sys.cycle] at hpc <;> rw [hpc] <;> cases x.notify <;>
      simp [OwnerPc.woken]
  cases hl with
  | initializedLast error lastError hlast =>
    rw [← hcycle] at hinitializing heach
    have hzero : s'.cycle.total e (LifeFrame.due e.ioThreadCount) + s'.cycle.total e LifeFrame.counts = 0 :=
      hinitializing.symm.trans hlast
    have hquiet : ∀ v, ∀ g ∈ s'.cycle.agenda v, ¬ g.Reporting := by
      intro v g hg hrep
      have hv := (ho'.confined v g hg).1
      have hdue := weight_le_weigh (e := e) (fun _ => LifeFrame.due e.ioThreadCount) hv hg
      have hcounts := weight_le_weigh (e := e) (fun _ => LifeFrame.counts) hv hg
      have hdue : g.due e.ioThreadCount ≤ s'.cycle.total e (LifeFrame.due e.ioThreadCount) := hdue
      have hcounts : g.counts ≤ s'.cycle.total e LifeFrame.counts := hcounts
      cases g <;> simp only [LifeFrame.Reporting, LifeFrame.due, LifeFrame.counts] at hrep hdue hcounts <;> omega
    have hperm : (reported (es ++ LifeFrame.milestones e s w (.onIoWorkerInitialized error) .next)).Perm
        (List.range e.ioThreadCount) := by
      rw [List.perm_iff_count]
      intro v
      by_cases hv : v < e.ioThreadCount
      · have howes : s'.cycle.weigh e (LifeFrame.owes v) = 0 := by
          refine Finset.sum_eq_zero fun u _ => List.sum_eq_zero fun n hn => ?_
          obtain ⟨g, hg, rfl⟩ := List.mem_map.1 hn
          have hnot := hquiet u g hg
          cases g <;> first | rfl | exact absurd trivial hnot
        rw [List.count_eq_one_of_mem List.nodup_range (List.mem_range.2 hv)]
        have := heach v hv
        omega
      · rw [List.count_eq_zero.2 fun hmem => hv (hwithin v hmem), List.count_eq_zero.2 (by simpa using hv)]
    have hfailed : s'.ctx.lastError = "" → ∀ v,
        .reports v true ∉ es ++ LifeFrame.milestones e s w (.onIoWorkerInitialized error) .next := by
      intro hempty v hv
      obtain ⟨u, error', -, hg⟩ := hstated'.failed hempty v hv
      exact hquiet u _ hg trivial
    have htext : s'.ctx.lastError = lastError := by rw [hctx]
    have hsucceeded : s'.ctx.initializationSucceeded = (lastError == "") := by rw [hctx]
    refine ⟨⟨?_, fun v g hg => ⟨hquiet v g hg, fun message hg' => ?_⟩, .inr ⟨hunaborted, hworkers, ?_, hperm⟩, horder,
      fun v hv => ?_⟩, fun hok v hv => ?_⟩
    · exact congrArg Members.initializationComplete hctx
    · subst hg'
      rw [hcycle] at hg
      rcases mem_run hag hg with hold | ⟨-, hcall⟩ | hposted
      · exact h.unpublished v message hold
      · exact (hpublish message).1 hcall
      · exact (hpublish message).2 v hposted
    · show s'.ctx.workersInitializing = 0
      rw [hctx]
      exact hlast
    · have hne : lastError ≠ "" := fun hempty => hfailed (htext.trans hempty) v hv
      have hfalse : (lastError == "") = false := beq_eq_false_iff_ne.2 hne
      refine ⟨hsucceeded.trans hfalse, .inr (.inr ⟨⟨w, ?_⟩, ?_, ?_, .inl ⟨?_, ?_⟩⟩)⟩
      · rw [hcycle]
        exact run_calls (by simp [hfalse])
      · show s'.ctx.runtime = true
        rw [hctx]
        exact hclaim
      · show s'.ctx.ioWorkers ≠ 0
        rw [hworkers]
        exact Nat.ne_of_gt hn
      · rcases hpc with hpc | hpc
        · exact .inl hpc
        · exact .inr (.inl hpc)
      · show s'.ctx.closed = false
        rw [hctx]
        exact hclosed
    · have hempty : s'.ctx.lastError = "" := htext.trans (eq_of_beq (hsucceeded.symm.trans hok))
      have hrequested := hstated'.requested hempty
      rw [hctx] at hrequested
      have hstarted : s'.ctx.shutdownStarted = false := by
        rw [hctx]
        exact (hunasked hrequested).1
      have hv : v ∈ reported (es ++ LifeFrame.milestones e s w (.onIoWorkerInitialized error) .next) :=
        hperm.mem_iff.2 (List.mem_range.2 (hworkers ▸ hv))
      obtain ⟨failed, hv⟩ := mem_reported.1 hv
      cases failed with
      | true => exact absurd hv (hfailed hempty v)
      | false => exact hstated'.ready hstarted v hv
  | published message => exact absurd hmem (h.unpublished w message)
  | _ => exact absurd (hincomplete.symm.trans hx) (by simp)

/-! ## The phases -/

inductive Handshake (e : Env) (es : List Milestone) (s : Sys) : Prop
  | opening (h : Opening s.cycle) (hes : es = []) (hcount : s.ctx.workersInitializing = 0)
  | failing (ho : Opened e s.cycle) (h : Failing es s.cycle)
  | reporting (ho : Opened e s.cycle) (hc : Counting e s.cycle) (h : Countdown e es s.cycle) (hstated : Stated es s)
  | decided (ho : Opened e s.cycle) (h : Decided e es s.cycle)

/-- The calls of the application thread are all there are. -/
theorem weigh_single {fs : List LifeFrame} (hag : κ.agenda = Function.update (fun _ => []) 0 fs)
    (weight : Nat → LifeFrame → Nat) : κ.weigh e weight = (fs.map (weight 0)).sum := by
  unfold Cycle.weigh
  rw [hag, Finset.sum_eq_single_of_mem 0 (Finset.mem_range.2 (zero_reactors e)) fun v _ hv => by simp [hv]]
  simp

/-- The initialisations are about to be posted: each worker has still to report. -/
theorem Opening.countdown (h : Opening κ) (hn : 0 < e.ioThreadCount) {m : Members}
    (hm : m = { κ.ctx with ioWorkers := e.ioThreadCount, workersInitializing := e.ioThreadCount }) {κ' : Cycle}
    (hctx : κ'.ctx = m) (howner : κ'.owner = κ.owner)
    (hag : κ'.agenda = Function.update (fun _ => []) 0 [.postSetUp 1]) : Countdown e [] κ' := by
  have hone : ∀ v, ∀ g ∈ κ'.agenda v, v = 0 ∧ g = .postSetUp 1 := by
    intro v g hg
    rw [hag, Function.update_apply] at hg
    split at hg
    · exact ⟨‹v = 0›, List.mem_singleton.1 hg⟩
    · cases hg
  have htotal : ∀ weight : LifeFrame → Nat, κ'.total e weight = weight (.postSetUp 1) :=
    fun weight => (weigh_single hag fun _ => weight).trans (by simp)
  have hdue : LifeFrame.due e.ioThreadCount (.postSetUp 1) = e.ioThreadCount := by
    simp only [LifeFrame.due]
    omega
  subst hm
  refine ⟨by rw [hctx], by rw [hctx]; exact h.initialization, howner ▸ h.owner, by rw [hctx]; exact h.complete,
    by rw [hctx]; exact h.closed, htotal _, by rw [hctx]; exact Nat.ne_of_gt hn, ?_, ?_, fun v _ => ?_, by simp [reported],
    fun v => ?_, fun hs => ?_, fun _ => ⟨?_, fun v g hg => ?_⟩, fun v message hg => ?_, by simp, by simp,
    List.Pairwise.nil⟩
  · rw [htotal, htotal, hdue, hctx]
    rfl
  · rw [htotal, hdue]
    exact Nat.zero_add _
  · rw [weigh_single hag]
    simp only [reported, List.filterMap_nil, List.count_nil, List.map_cons, List.map_nil, List.sum_cons, List.sum_nil,
      LifeFrame.owes]
    split <;> omega
  · rw [hag, Function.update_apply]
    split
    · exact List.pairwise_singleton _ _
    · exact List.Pairwise.nil
  · rw [hctx] at hs
    exact absurd (h.started.symm.trans hs) (by simp)
  · rw [hctx]
    exact h.started
  · rw [(hone v g hg).2]
    rfl
  · exact absurd ((hone v _ hg).2) (by simp)

/-- The call of the opening is still there after a step that runs none. -/
theorem Opening.aside (h : Opening s.cycle) (ha : Aside e s κ') (hturn : Opening κ' ∨ Opened e κ' ∧ Counting e κ') :
    Opening κ' := by
  refine hturn.resolve_right fun ho => ?_
  obtain ⟨f, hag, hf⟩ := h.agenda
  have hmem := ha.beside.stays 0 f (by rw [hag]; simp)
  refine (ho.1.confined 0 f hmem).2 ?_
  rcases hf with ⟨rfl, -⟩ | ⟨rfl, -⟩ <;> trivial

/-- A call of `on_runtime_ready`. -/
theorem Opening.handshake (h : Opening s.cycle) (hcount : s.ctx.workersInitializing = 0) (hn : 0 < e.ioThreadCount)
    {c : Choice} (hag : s.cycle.agenda w = f :: rest) (hl : Lived e s.runtimeAvailable s.ctx w f c x)
    (hcycle : s'.cycle = s.cycle.run w rest x) (hturn : Opening s'.cycle ∨ Opened e s'.cycle ∧ Counting e s'.cycle) :
    Handshake e (f.milestones e s w c) s' := by
  obtain ⟨f', hagenda, hf⟩ := h.agenda
  obtain ⟨rfl, hfs⟩ := single_head hagenda hag
  obtain ⟨rfl, rfl⟩ := List.cons.inj hfs
  have hrun : x.post = none → s'.cycle.agenda = Function.update (fun _ => []) 0 x.calls := by
    intro hpost
    rw [hcycle]
    exact run_single hagenda hpost (List.append_nil _)
  have hctx : s'.cycle.ctx = x.ctx := congrArg Cycle.ctx hcycle
  have howner : x.notify = false → s'.cycle.owner = s.cycle.owner := by
    intro hnotify
    rw [hcycle]
    simp only [Cycle.run, hnotify]
    rfl
  -- once it has left its first calls it is past the opening
  have hopened : ∀ {g fs}, s'.cycle.agenda = Function.update (fun _ => []) 0 (g :: fs) → ¬ g.Early →
      Opened e s'.cycle ∧ Counting e s'.cycle := by
    intro g fs hfs hg
    refine hturn.resolve_left fun ho => ?_
    obtain ⟨f', hag', hf'⟩ := ho.agenda
    rw [hfs] at hag'
    have heq := congrFun hag' 0
    simp only [Function.update_self, List.cons.injEq] at heq
    obtain ⟨rfl, -⟩ := heq
    rcases hf' with ⟨rfl, -⟩ | ⟨rfl, -⟩ <;> exact hg trivial
  rcases hf with ⟨rfl, hd⟩ | ⟨rfl, hd⟩
  · cases hl with
    | openFailed rc hrc message =>
      have hfs := hrun rfl
      have hes : LifeFrame.milestones e s 0 .onRuntimeReady (.code rc) = [.aborts] := if_pos hrc
      refine .failing (hopened hfs id).1 ⟨⟨message, rc, hfs⟩, ?_, ?_, ?_, hes⟩
      · rw [hctx]
        exact h.initialization
      · rw [howner rfl]
        exact h.owner
      · rw [hctx]
        exact h.complete
    | opened =>
      refine .opening (hturn.resolve_right fun ho => ?_) rfl ?_
      · exact (ho.1.confined 0 .configure (by rw [hrun rfl]; simp)).2 trivial
      · exact (congrArg Members.workersInitializing hctx).trans hcount
  · cases hl with
    | rejected created error =>
      have hfs := hrun rfl
      refine .failing (hopened hfs id).1 ⟨⟨error, einval, hfs⟩, ?_, ?_, ?_, rfl⟩
      · rw [hctx]
        exact h.initialization
      · rw [howner rfl]
        exact h.owner
      · rw [hctx]
        exact h.complete
    | configured =>
      have hfs := hrun rfl
      obtain ⟨ho, hc⟩ := hopened hfs id
      refine .reporting ho hc (h.countdown hn rfl hctx (howner rfl) hfs)
        ⟨fun _ v rc error hg => ?_, fun _ => ?_, fun _ _ => (by rintro ⟨⟩), fun _ _ => (by rintro ⟨⟩)⟩
      · rw [hfs, Function.update_apply] at hg
        split at hg
        · cases List.mem_singleton.1 hg
        · cases hg
      · exact (congrArg Members.shutdownRequested hctx).trans h.requested

/-- The guard on the messages, in the words of the countdown of the teardown. -/
theorem teardownPosted_of_shutdownPosted {a : Action} (h : shutdownPosted s a = true)
    (howner : s.owner ≠ .requesting) : TeardownPosted s a := by
  cases a with
  | reactor w c =>
    cases c with
    | code rc =>
      intro hhead
      obtain ⟨stack, hst⟩ : ∃ stack, (s.reactor w).stack = .life .postFinish :: stack := by
        cases hst : (s.reactor w).stack with
        | nil => simp [hst] at hhead
        | cons g stack => exact ⟨stack, by simpa [hst] using hhead⟩
      simp only [shutdownPosted, hst, LifeFrame.delivers] at h
      exact eq_of_beq h
    | _ => trivial
  | owner c => exact fun hpc => absurd hpc howner
  | _ => trivial

/-- **One step of the handshake**, and it succeeds only with every worker ready. -/
theorem handshake_step (hn : 0 < e.ioThreadCount) (h : Handshake e es s) (hord : Ordered s.cycle) (ht : Tracks s ζ)
    (hc : Consistent e ζ) {a : Action} (hok : shutdownPosted s a = true) (hs : step e s a = some s') :
    Handshake e (es ++ milestones e s a) s' ∧
    (s.ctx.initializationSucceeded = false → s'.ctx.initializationSucceeded = true →
      ∀ v < s'.ctx.ioWorkers, s'.Ready v) := by
  have hturn := step_turn hs
  have hstill : ∀ {b b' : Bool}, b' = b → b = false → b' = true → ∀ v < s'.ctx.ioWorkers, s'.Ready v :=
    fun h h1 h2 => nomatch h2.symm.trans (h.trans h1)
  cases h with
  | opening h hes hcount =>
    subst hes
    have hsucceeded := h.turn_succeeded hturn
    refine ⟨?_, hstill hsucceeded⟩
    have hopen := h.turn hturn
    rcases step_milestones hs with ⟨w, c, f, stack, rest, x, rfl, hst, hag, hl, hcycle, hm⟩ | ⟨hm, ha⟩
    · rw [hm]
      exact h.handshake hcount hn hag hl hcycle hopen
    · rw [hm]
      exact .opening (h.aside ha hopen) rfl (ha.beside.initializing.trans hcount)
  | failing ho h =>
    rcases step_milestones hs with ⟨w, c, f, stack, rest, x, rfl, hst, hag, hl, hcycle, hm⟩ | ⟨hm, ha⟩
    · obtain ⟨hdecided, hfailed⟩ := h.run (e := e) hag hl s
      rw [hm]
      refine ⟨.decided (ho.turn hturn) (hcycle ▸ hdecided), fun _ hok => ?_⟩
      exact nomatch hok.symm.trans ((congrArg (fun κ => κ.ctx.initializationSucceeded) hcycle).trans hfailed)
    · rw [hm, List.append_nil]
      exact ⟨.failing (ho.turn hturn) (h.aside ha), hstill ha.beside.succeeded⟩
  | reporting ho hcounting h hstated =>
    have hpc : s.owner ≠ .requesting := by
      intro hpc
      rcases h.owner with hpc' | hpc' <;> exact nomatch hpc.symm.trans hpc'
    have hcounting' := hcounting.turn ho (teardownPosted_of_shutdownPosted hok hpc) hturn
    rcases step_milestones hs with ⟨w, c, f, stack, rest, x, rfl, hst, hag, hl, hcycle, hm⟩ | ⟨hm, ha⟩
    · rw [hm]
      have hdelivers : f.delivers s.runtimeAvailable c = true := by
        simpa only [shutdownPosted, hst] using hok
      cases hx : x.ctx.initializationComplete with
      | true =>
        obtain ⟨hdecided, hready⟩ :=
          h.decide hn hstated ho hord ht hc hst hag hl hs hcycle (ho.turn hturn) hx
        exact ⟨.decided (ho.turn hturn) hdecided, fun _ => hready⟩
      | false =>
        have hrun := h.run ho hcounting hord hn hag hl hdelivers s hx
        rw [← hcycle] at hrun
        refine ⟨.reporting (ho.turn hturn) hcounting' hrun (hstated.run h ho hord ht hc hst hag hl hs hcycle),
          hstill ?_⟩
        have hctx : s'.ctx = x.ctx := congrArg Cycle.ctx hcycle
        rw [hctx]
        cases hl with
        | initializedLast => cases hx
        | published => cases hx
        | _ => rfl
    · rw [hm, List.append_nil]
      exact ⟨.reporting (ho.turn hturn) hcounting' (h.aside ha) (hstated.aside h ho hord ht hc hs ha),
        hstill ha.beside.succeeded⟩
  | decided ho h =>
    rcases step_milestones hs with ⟨w, c, f, stack, rest, x, rfl, hst, hag, hl, hcycle, hm⟩ | ⟨hm, ha⟩
    · obtain ⟨hdecided, hsame⟩ := h.run ho hag hl s
      rw [hm]
      refine ⟨.decided (ho.turn hturn) (hcycle ▸ hdecided), hstill ?_⟩
      exact (congrArg (fun κ => κ.ctx.initializationSucceeded) hcycle).trans hsame
    · rw [hm, List.append_nil]
      exact ⟨.decided (ho.turn hturn) (h.aside ha), hstill ha.beside.succeeded⟩

/-! ## Over a run -/

/-- What holds of a construction at any time, where `es` has been seen of it. -/
structure Handshaken (e : Env) (es : List Milestone) (s : Sys) : Prop where
  /-- No worker reports twice. -/
  once : (reported es).Nodup ∧ ∀ v ∈ reported es, v < s.ctx.ioWorkers
  /-- Each report is taken off once: those still to come are what is left, but for the calls that have not come
  to their critical section. -/
  counted : .aborts ∉ es →
    s.ctx.workersInitializing + (reported es).length = s.ctx.ioWorkers + s.cycle.total e LifeFrame.counts
  /-- Where the opening failed no worker is started. -/
  aborted : .aborts ∈ es → reported es = [] ∧ ∀ v, .initializes v ∉ es
  /-- The outcome is known after the last report, or the opening has failed. -/
  complete : s.ctx.initializationComplete = true →
    .aborts ∈ es ∨ s.ctx.workersInitializing = 0 ∧ (reported es).Perm (List.range s.ctx.ioWorkers)
  /-- It is known before the shutdown is complete. -/
  first : s.ctx.shutdownComplete = true → s.ctx.initializationComplete = true
  /-- Where a worker failed a shutdown has been requested, or the call that requests it is on a stack. -/
  failed : s.ctx.initializationComplete = true → ∀ v, .reports v true ∈ es →
    s.ctx.initializationSucceeded = false ∧ (s.ctx.shutdownRequested = true ∨ s.runtimeAvailable = false ∨
      ∃ w, .life (.requestShutdown einval "") ∈ (s.reactor w).stack)
  /-- A worker that is torn down has reported. -/
  torn : ∀ v < s.ctx.ioWorkers, .shutsDown v ∈ es → .aborts ∈ es ∨ v ∈ reported es
  /-- No worker sets itself up after it has been torn down. -/
  order : es.Pairwise fun a b => ∀ v, a = .shutsDown v → b ≠ .initializes v

/-- A message does not ask for a shutdown, a running callback does. -/
theorem asking_stack {rc : Int} {error : String} (h : .requestShutdown rc error ∈ s.cycle.agenda w) :
    .life (.requestShutdown rc error) ∈ (s.reactor w).stack := by
  rcases List.mem_append.1 h with h | h
  · obtain ⟨f, hf, heq⟩ := List.mem_filterMap.1 h
    cases f with
    | io => cases heq
    | life f => exact Option.some.inj heq ▸ hf
  · obtain ⟨m, -, heq⟩ := List.mem_filterMap.1 h
    cases m <;> simp [Msg.frame, Frame.life?] at heq

theorem Handshake.handshaken (h : Handshake e es s) : Handshaken e es s := by
  cases h with
  | opening h hes hcount =>
    subst hes
    have hcomplete : s.ctx.initializationComplete = false := h.initialization
    have hworkers : s.ctx.ioWorkers = 0 := h.workers
    have hfinished : s.ctx.shutdownComplete = false := h.complete
    refine ⟨by simp [reported], fun _ => ?_, nofun, fun hc => (nomatch hcomplete.symm.trans hc),
      fun hf => (nomatch hfinished.symm.trans hf), fun _ _ => nofun, fun _ _ => nofun, List.Pairwise.nil⟩
    rw [hcount, hworkers, h.total LifeFrame.counts rfl rfl]
    rfl
  | failing ho h =>
    have hcomplete : s.ctx.initializationComplete = false := h.incomplete
    have hfinished : s.ctx.shutdownComplete = false := h.unfinished
    rw [h.seen]
    exact ⟨by simp [reported], by simp, fun _ => ⟨rfl, by simp⟩, fun _ => .inl (by simp),
      fun hf => (nomatch hfinished.symm.trans hf), fun hc => (nomatch hcomplete.symm.trans hc), fun _ _ _ => .inl (by simp),
      by simp⟩
  | reporting ho hc h hstated =>
    have hcomplete : s.ctx.initializationComplete = false := h.incomplete
    have hfinished : s.ctx.shutdownComplete = false := h.unfinished
    have hworkers : s.ctx.ioWorkers = e.ioThreadCount := h.workers
    refine ⟨⟨List.nodup_iff_count_le_one.2 fun v => ?_, fun v hv => hworkers ▸ h.within v hv⟩, fun _ => ?_,
      fun hab => absurd hab h.unaborted, fun hc => (nomatch hcomplete.symm.trans hc),
      fun hf => (nomatch hfinished.symm.trans hf), fun hc => (nomatch hcomplete.symm.trans hc),
      fun v hv hshut => .inr (h.torn v (hworkers ▸ hv) hshut), h.order⟩
    · by_cases hv : v < e.ioThreadCount
      · have := h.each v hv
        omega
      · rw [List.count_eq_zero.2 fun hmem => hv (h.within v hmem)]
        exact Nat.zero_le 1
    · have hinitializing := h.initializing
      have hlength := h.length
      simp only [Sys.cycle] at hinitializing hlength ⊢
      omega
  | decided ho h =>
    have hnone : s.cycle.total e LifeFrame.counts = 0 := by
      refine Finset.sum_eq_zero fun u _ => List.sum_eq_zero fun n hn => ?_
      obtain ⟨g, hg, rfl⟩ := List.mem_map.1 hn
      have hnot := (h.quiet u g hg).1
      cases g <;> first | rfl | exact absurd trivial hnot
    have hfailed : ∀ v, .reports v true ∈ es → s.ctx.initializationSucceeded = false ∧
        (s.ctx.shutdownRequested = true ∨ s.runtimeAvailable = false ∨
          ∃ w, .life (.requestShutdown einval "") ∈ (s.reactor w).stack) := by
      intro v hv
      obtain ⟨hno, hasked⟩ := h.failed v hv
      refine ⟨hno, hasked.imp_right (Or.imp_right fun hasking => ?_)⟩
      obtain ⟨w, hw⟩ := hasking.pending
      exact ⟨w, asking_stack hw⟩
    rcases h.outcome with ⟨h1, h2, h3⟩ | ⟨h1, h2, h3, h4⟩
    · exact ⟨by simp [h2], fun hno => absurd h1 hno, fun _ => ⟨h2, h3⟩, fun _ => .inl h1, fun _ => h.complete,
        fun _ => hfailed, fun _ _ _ => .inl h1, h.order⟩
    · have hworkers : s.ctx.ioWorkers = e.ioThreadCount := h2
      have hzero : s.ctx.workersInitializing = 0 := h3
      refine ⟨⟨h4.nodup_iff.2 List.nodup_range, fun v hv => ?_⟩, fun _ => ?_, fun hab => absurd hab h1,
        fun _ => .inr ⟨hzero, hworkers ▸ h4⟩, fun _ => h.complete, fun _ => hfailed, fun v hv _ => .inr ?_, h.order⟩
      · exact hworkers ▸ List.mem_range.1 (h4.mem_iff.1 hv)
      · rw [hzero, hnone, hworkers, h4.length_eq, List.length_range]
        omega
      · exact h4.mem_iff.2 (List.mem_range.2 (hworkers ▸ hv))

/-- **The initialisation handshake**: in every run in which the shutdown messages are posted, whichever workers
fail to set themselves up or to be told to, in whichever order they report, and whatever the bdev says
meanwhile. -/
theorem construction_handshake {device : Nat → UInt8} {as : List Action} (hn : 0 < e.ioThreadCount)
    (hok : Guarded (step e) (fun s a => shutdownPosted s a = true) (Sys.init device) as)
    (h : runFrom (step e) (Sys.init device) as = some s) :
    Handshaken e (observed (step e) (milestones e) (Sys.init device) as) s ∧
    ∀ a s', shutdownPosted s a = true → step e s a = some s' → s.ctx.initializationSucceeded = false →
      s'.ctx.initializationSucceeded = true → ∀ v < s'.ctx.ioWorkers, s'.Ready v := by
  have hrun := run_observed (milestones e) [] (I := fun es s => (∃ ζ, Tracks s ζ ∧ Consistent e ζ) ∧
    Ordered s.cycle ∧ Handshake e es s) ?_
    ⟨⟨_, init_tracks device, init_consistent e device⟩, init_ordered device, .opening (init_opening device) rfl rfl⟩
    hok h
  · rw [List.nil_append] at hrun
    obtain ⟨⟨ζ, ht, hc⟩, hord, hphase⟩ := hrun
    exact ⟨hphase.handshaken, fun a s' hoka hs => (handshake_step hn hphase hord ht hc hoka hs).2⟩
  · rintro es s1 a s2 ⟨⟨ζ, ht, hc⟩, hord, hphase⟩ hoka hs
    obtain ⟨ζ', hm, ht', -⟩ := step_follows ht hc hs
    exact ⟨⟨ζ', ht', moves_consistent hc hm⟩, hord.turn (step_turn hs),
      (handshake_step hn hphase hord ht hc hoka hs).1⟩

/-- Two workers. -/
def pairEnv : Env := { smallEnv with ioThreadCount := 2 }

/-- The bdev is removed after the first worker has reported, and the second gets no channel. -/
def withdrawnRun : List Action :=
  [.reactor 0 .message, .reactor 0 (.code 0), .reactor 0 .next, .reactor 0 (.code 0), .reactor 0 .next,
    .reactor 0 (.setUp true true 1), .reactor 0 .next, .reactor 0 .remove, .reactor 0 .next, .reactor 0 (.code 0),
    .reactor 0 .message, .reactor 0 .next, .reactor 1 .message, .reactor 1 (.setUp true false 0), .reactor 1 .next]

theorem construction_handshake_withdrawn : ∃ s, runFrom (step pairEnv) (Sys.init Nat.toUInt8) withdrawnRun = some s ∧
    s.ctx.initializationComplete = true ∧ s.ctx.initializationSucceeded = false ∧
    Handshaken pairEnv (observed (step pairEnv) (milestones pairEnv) (Sys.init Nat.toUInt8) withdrawnRun) s ∧
    ∀ a s', shutdownPosted s a = true → step pairEnv s a = some s' → s.ctx.initializationSucceeded = false →
      s'.ctx.initializationSucceeded = true → ∀ v < s'.ctx.ioWorkers, s'.Ready v := by
  have hend : (runFrom (step pairEnv) (Sys.init Nat.toUInt8) withdrawnRun).any (fun s =>
      decide (s.ctx.initializationComplete = true ∧ s.ctx.initializationSucceeded = false)) = true := by decide +kernel
  obtain ⟨s, hrun, hs⟩ := (Option.any_eq_true _ _).1 hend
  have hok : Guarded (step pairEnv) (fun s a => shutdownPosted s a = true) (Sys.init Nat.toUInt8) withdrawnRun := by
    decide +kernel
  obtain ⟨hcomplete, hfailed⟩ := of_decide_eq_true hs
  exact ⟨s, hrun, hcomplete, hfailed, construction_handshake (by decide) hok hrun⟩

end SpdkBdevContext
end SpdkConnector
