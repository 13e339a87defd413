import SpdkConnector.Context.Phases
import SpdkConnector.Context.PoolRelease
import SpdkConnector.Context.Starts
import SpdkConnector.Context.Waking
import SpdkConnector.Context.Workers

/-!
# Requests across a shutdown

`shutdown_io_worker` completes the requests in `pending_io`; those in a message or with the device complete
when it is delivered. A request that waits for SPDK is forgotten: its `io_wait` entry goes with the channel.
As long as no worker gives its channel back over such an entry, every posted request is completed once the
workers have shut down and everything is delivered (`none_lost`); `waiter_lost` shows the rest.
-/

namespace SpdkConnector
namespace SpdkBdevContext

open Interleaving

variable {e : Env} {s s' : Sys} {κ : Core} {w v : Nat} {x y : Reactor} {rest : List Frame}

/-- No request waits for SPDK where a worker gives its channel back. -/
def NoneWaiting (s : Sys) : Action → Prop
  | .reactor w _ => (s.reactor w).stack.head? = some (.life .releaseIoWorker) → (s.reactor w).ioWait = []
  | _ => True

instance (s : Sys) : ∀ a, Decidable (NoneWaiting s a)
  | .reactor _ _ => inferInstanceAs (Decidable (_ → _))
  | .caller .. | .submit .. | .owner _ | .transfer .. | .disturb .. | .runtimeStops => isTrue trivial

/-- A worker that has shut down keeps no request. -/
structure Flushed (x : Reactor) : Prop where
  releasing : .life .releaseIoWorker ∈ x.stack → x.pendingIo = []
  shut : x.shutDown = true → x.pool.initialized = false ∧ x.pendingIo = [] ∧ x.ioWait = []

/-- A change of what the invariant does not mention. -/
theorem Flushed.congr (h : Flushed x) (h1 : y.stack = x.stack) (h2 : y.pendingIo = x.pendingIo)
    (h3 : y.ioWait = x.ioWait) (h4 : y.pool.initialized = x.pool.initialized) (h5 : y.shutDown = x.shutDown) :
    Flushed y := by
  refine ⟨?_, ?_⟩
  · rw [h1, h2]
    exact h.releasing
  · rw [h2, h3, h4, h5]
    exact h.shut

theorem done_flushed {f : IoFrame} {fs : List IoFrame} (h : Flushed x) (hwf : x.pool.WF) (hparted : Parted x)
    (hst : x.stack = .io f :: rest) (hdone : Done w { x with stack := rest } f y fs) :
    Flushed { y with stack := fs.map .io ++ rest } := by
  have hmem : ∀ g, .life g ∈ fs.map Frame.io ++ rest → .life g ∈ rest := by
    intro g hg
    rcases List.mem_append.1 hg with hg | hg
    · simp at hg
    · exact hg
  rcases done_parted hparted hst hdone with hnone | ⟨rfl, -, -⟩
  · refine ⟨fun hg => absurd (hmem _ hg) (hnone _), ?_⟩
    -- without a pool a request that is executed fails
    cases hdone with
    | parked r dma y fs hp =>
      cases hp with
      | starved hini => exact fun hs => nomatch hini.symm.trans (h.shut hs).1
      | waiting hfree =>
        intro hs
        refine absurd ?_ hfree
        rw [show x.pool = {} from hwf.emptied (h.shut hs).1]
      | _ => exact h.shut
    | accepted r k free dma c hini => exact fun hs => nomatch hini.symm.trans (h.shut hs).1
    | fired r success k r' hk =>
      intro hs
      rw [show x.ioWait = [] from (h.shut hs).2.2] at hk
      cases hk
    | released r success success' error k =>
      intro hs
      obtain ⟨h1, h2⟩ := h.shut hs
      exact ⟨(poolAfterRelease_initialized _ _).trans h1, h2⟩
    | popped r tail hp =>
      intro hs
      rw [show x.pendingIo = [] from (h.shut hs).2.1] at hp
      cases hp
    | _ => exact h.shut
  · exact ⟨fun hg => h.releasing (hst ▸ List.mem_cons_of_mem _ (hmem _ hg)), h.shut⟩

theorem tended_flushed {f : LifeFrame} {c : Choice} {fs : List Frame} (h : Flushed x)
    (hst : x.stack = .life f :: rest) (ht : Tended w { x with stack := rest } f c y fs)
    (hset : f = .initializeIoWorker → x.shutDown = false) (hnone : f = .releaseIoWorker → x.ioWait = []) :
    Flushed { y with stack := fs ++ rest } := by
  have hquiet : ∀ fs : List LifeFrame, (∀ g ∈ fs, ¬ g.Flushes) →
      .life .releaseIoWorker ∈ fs.map Frame.life ++ rest → x.pendingIo = [] := by
    intro fs hfs hg
    rcases List.mem_append.1 hg with hg | hg
    · obtain ⟨g', hg', heq⟩ := List.mem_map.1 hg
      cases heq
      exact (hfs _ hg' trivial).elim
    · exact h.releasing (hst ▸ List.mem_cons_of_mem _ hg)
  have hrest : .life .releaseIoWorker ∈ rest → x.pendingIo = [] := by
    intro hg
    exact h.releasing (hst ▸ List.mem_cons_of_mem _ hg)
  cases ht with
  | quiet f fs hfs => exact ⟨hquiet fs hfs, h.shut⟩
  | posted f fs hfs m g hm => exact ⟨hquiet fs hfs, h.shut⟩
  | setUp pool dma bytes ioChannel channelHeld error hpool =>
    refine ⟨hquiet [.onIoWorkerInitialized error] (by simp [LifeFrame.Flushes]), fun hs => ?_⟩
    exact absurd ((hset rfl).symm.trans hs) (by simp)
  | own i =>
    refine ⟨fun hg => hrest ?_, h.shut⟩
    exact (List.mem_cons.1 hg).resolve_left (by simp)
  | cut rc hrc =>
    refine ⟨hquiet [.onIoWorkerShutdown, .postShutdown (w + 1)] (by simp [LifeFrame.Flushes]), fun hs => ?_⟩
    exact ⟨rfl, (h.shut hs).2⟩
  | flushed r tail error hp =>
    refine ⟨fun hg => ?_, fun hs => ?_⟩
    · have hg' : .life .releaseIoWorker ∈ rest := by simpa using hg
      exact absurd ((hrest hg').symm.trans hp) (by simp)
    · exact absurd ((h.shut hs).2.1.symm.trans hp) (by simp)
  | flushedAll hp => exact ⟨fun _ => hp, h.shut⟩
  | released fs hfs =>
    refine ⟨hquiet fs hfs, fun _ => ⟨rfl, ?_, hnone rfl⟩⟩
    exact h.releasing (hst ▸ List.mem_cons_self)

theorem acted_flushed {a : Action} (h : Flushed (s.reactor v)) (hwf : (s.reactor v).pool.WF)
    (hparted : Parted (s.reactor v)) (hok : NoneWaiting s a)
    (hset : .life .initializeIoWorker ∈ (s.reactor v).stack → (s.reactor v).shutDown = false)
    (hacted : Acted s v a y) : Flushed y := by
  have hsingle : ∀ (z : Reactor) (f : Frame), z.stack = [f] → f ≠ .life .releaseIoWorker →
      (z.shutDown = true → z.pool.initialized = false ∧ z.pendingIo = [] ∧ z.ioWait = []) → Flushed z := by
    intro z f hz hf hs
    refine ⟨fun hg => ?_, hs⟩
    rw [hz, List.mem_singleton] at hg
    exact absurd hg.symm hf
  cases hacted with
  | same => exact h
  | dispatch => exact h.congr rfl rfl rfl rfl rfl
  | posted => exact h.congr rfl rfl rfl rfl rfl
  | message m tail hidle hq =>
    refine hsingle _ _ rfl ?_ h.shut
    cases m <;> simp [Msg.frame]
  | completion k success c => exact hsingle _ _ rfl (by simp) h.shut
  | ioWait k r hidle hk hheld =>
    refine hsingle _ _ rfl (by simp) fun hs => ?_
    rw [(h.shut hs).2.2] at hk
    cases hk
  | event => exact hsingle _ _ rfl (by simp) h.shut
  | io c f rest y fs hst hdone => exact done_flushed h hwf hparted hst hdone
  | life c f rest y fs hst ht =>
    refine tended_flushed h hst ht ?_ ?_
    · rintro rfl
      exact hset (hst ▸ List.mem_cons_self)
    · rintro rfl
      exact hok (by rw [hst]; rfl)
  | reached u c f rest y hu hst hr =>
    cases hr with
    | same => exact h
    | posted => exact h.congr rfl rfl rfl rfl rfl
    | cut rc hrc => exact ⟨h.releasing, fun hs => ⟨rfl, (h.shut hs).2⟩⟩
  | moved => exact h.congr rfl rfl rfl rfl rfl

/-! ## Reactors without a worker -/

/-- Nothing is queued or running, and nothing is with the device or waits for it. -/
structure Reactor.Idle (x : Reactor) : Prop where
  queue : x.queue = []
  stack : x.stack = []
  inFlight : x.inFlight = []
  ioWait : x.ioWait = []

/-- The life cycle calls are on the context's reactors. -/
theorem Manned.confined (h : Manned e s) : ∀ v, ∀ g ∈ s.cycle.agenda v, v < e.reactors := by
  intro v g hg
  cases h with
  | opening ho =>
    obtain ⟨f, hag, -⟩ := ho.agenda
    rw [hag, Function.update_apply] at hg
    split at hg
    · rename_i hv
      rw [hv]
      exact zero_reactors e
    · cases hg
  | opened ho => exact (ho.confined v g hg).1

theorem Manned.workers (h : Manned e s) : s.ctx.ioWorkers ≤ e.reactors := by
  cases h with
  | opening ho =>
    rw [show s.ctx.ioWorkers = 0 from ho.workers]
    exact Nat.zero_le _
  | opened ho => exact (ho.workers : s.ctx.ioWorkers ≤ _).trans (Nat.le_max_right _ _)

/-- A reactor the context has no work on stays idle. -/
theorem idle_step (ht : Tracks s κ) (hc : Consistent e κ) (h : Manned e s) {a : Action} (hs : step e s a = some s')
    (hv : e.reactors ≤ v) (hidle : (s.reactor v).Idle) : (s'.reactor v).Idle := by
  have hconfined := (manned_step ht hc h hs).confined v
  have hnone : s'.cycle.agenda v = [] := by
    rw [List.eq_nil_iff_forall_not_mem]
    exact fun g hg => Nat.not_lt.2 hv (hconfined g hg)
  simp only [Sys.cycle, Reactor.agenda, List.append_eq_nil_iff, List.filterMap_eq_nil_iff] at hnone
  obtain ⟨h1, h2, h3, h4⟩ := hidle
  have hacted := step_acted ht hc hs v
  generalize s'.reactor v = y at hacted hnone
  cases hacted with
  | same => exact ⟨h1, h2, h3, h4⟩
  | dispatch b c d todo hpc hd =>
    have hplaced := sending_placed ht hc h.placed hpc
    rw [hd] at hplaced
    exact absurd (hplaced.trans_le h.workers) (Nat.not_lt.2 hv)
  | posted a m g hm =>
    have hpost := hnone.2 m (by simp)
    rw [hm] at hpost
    cases hpost
  | message m tail _ hq => exact absurd (h1.symm.trans hq) (by simp)
  | completion k success c _ hk =>
    rw [h3] at hk
    cases hk
  | ioWait k r _ hk =>
    rw [h4] at hk
    cases hk
  | event c rc error => cases hnone.1 (.life (.requestShutdown rc error)) (List.mem_singleton_self _)
  | io c f rest y fs hst => exact absurd (h2.symm.trans hst) (by simp)
  | life c f rest y fs hst => exact absurd (h2.symm.trans hst) (by simp)
  | reached u c f rest y hu hst hr =>
    cases hr with
    | same => exact ⟨h1, h2, h3, h4⟩
    | posted f m g hm =>
      have hpost := hnone.2 m (by simp)
      rw [hm] at hpost
      cases hpost
    | cut => exact ⟨h1, h2, h3, h4⟩
  | moved a k c c' dma hk =>
    rw [h3] at hk
    cases hk

/-! ## Over a run -/

/-- What a run keeps that gives no channel back over a waiting request. -/
structure Accounted (e : Env) (s : Sys) : Prop where
  requests : ∃ κ, Tracks s κ ∧ Consistent e κ
  ordered : Ordered s.cycle
  retired : Retired s
  manned : Manned e s
  idle : ∀ v, e.reactors ≤ v → (s.reactor v).Idle
  waking : Waking s
  parted : ∀ v, Parted (s.reactor v)
  flushed : ∀ v, Flushed (s.reactor v)

theorem init_accounted (device : Nat → UInt8) : Accounted e (Sys.init device) := by
  refine ⟨⟨_, init_tracks device, init_consistent e device⟩, init_ordered device, fun v hv => ?_, init_manned device,
    fun v hv => ?_, init_waking device, init_parted device, fun v => ?_⟩
  · rcases eq_or_ne v 0 with rfl | hne
    · cases hv
    · simp [Sys.init, hne] at hv
  · have hne : v ≠ 0 := Nat.ne_of_gt ((zero_reactors e).trans_le hv)
    exact ⟨by simp [Sys.init, hne], by simp [Sys.init, hne], by simp [Sys.init, hne], by simp [Sys.init, hne]⟩
  · rcases eq_or_ne v 0 with rfl | hne
    · exact ⟨by rintro ⟨⟩, by rintro ⟨⟩⟩
    · refine ⟨fun hg => ?_, fun hs => ?_⟩
      · simp [Sys.init, hne] at hg
      · simp [Sys.init, hne] at hs

theorem accounted_step {a : Action} (h : Accounted e s) (hok : NoneWaiting s a) (hs : step e s a = some s') :
    Accounted e s' := by
  obtain ⟨⟨κ, ht, hc⟩, hordered, hretired, hmanned, hidle, hwaking, hparted, hflushed⟩ := h
  obtain ⟨κ', hm, ht', -⟩ := step_follows ht hc hs
  have hacted := step_acted ht hc hs
  refine ⟨⟨κ', ht', moves_consistent hc hm⟩, hordered.turn (step_turn hs), retired_step ht hc hordered hretired hs,
    manned_step ht hc hmanned hs, fun v hv => idle_step ht hc hmanned hs hv (hidle v hv),
    waking_step ht hc hs hwaking, fun v => acted_parted (hparted v) (hacted v), fun v => ?_⟩
  refine acted_flushed (hflushed v) (ht.tidy.reactor v).pool (hparted v) hok (fun hset => ?_) (hacted v)
  -- a worker is not set up again
  by_contra hshut
  exact (hretired v (by simpa using hshut)).2 _ (stack_agenda hset) (.inr rfl)

/-- **No request is lost by a shutdown**: in every run in which no worker gives its channel back over a request
that waits for SPDK, once every worker has run `shutdown_io_worker` and every message and command has been
delivered, each request of each batch is completed or still in its caller's hands, and no caller is left
sleeping: one that waits finds its batch complete. -/
theorem none_lost {device : Nat → UInt8} {as : List Action}
    (hok : Guarded (step e) NoneWaiting (Sys.init device) as) (h : runFrom (step e) (Sys.init device) as = some s)
    (hshut : ∀ w < s.ctx.ioWorkers, (s.reactor w).shutDown = true)
    (hdelivered : ∀ w < e.reactors,
      (s.reactor w).queue = [] ∧ (s.reactor w).stack = [] ∧ (s.reactor w).inFlight = []) (b : Nat) :
    (∀ i < (s.batch b).items.length,
      (s.request (b, i)).completed = true ∨ (b, i) ∈ (s.batch b).caller.refs) ∧
    (s.batch b).caller ≠ .sleeping ∧ ((s.batch b).caller = .waiting → (s.batch b).remaining = 0) := by
  obtain ⟨⟨κ, ht, hc⟩, -, -, hmanned, hidle, hwaking, -, hflushed⟩ :=
    run_invariant (I := Accounted e) (fun s a s' hi ha hs => accounted_step hi ha hs) (init_accounted device) hok h
  have hdone : ∀ i < (s.batch b).items.length,
      (s.request (b, i)).completed = true ∨ (b, i) ∈ (s.batch b).caller.refs := by
    intro i hi
    have hbuilt : κ.stage (b, i) ≠ .absent := by
      rw [Ne, hc.absent_iff, ht.batch]
      exact Nat.not_le.2 hi
    by_cases hcompleted : κ.stage (b, i) = .completed
    · left
      rw [← ht.request]
      exact (completed_iff hc (by rw [ht.batch]; exact hi)).2 hcompleted
    by_cases hunposted : (κ.stage (b, i)).Unposted
    · -- it has not left its caller
      have hheld : κ.stage (b, i) = .held := by
        revert hbuilt hunposted
        cases κ.stage (b, i) <;> simp [Stage.Unposted]
      have hshown := ht.ledger.complete (b, i) (.caller b) (by simp [hheld, homeOf, Stage.home])
      obtain ⟨r, hr, heq⟩ := List.mem_map.1 hshown
      obtain rfl : r = (b, i) := congrArg Prod.fst heq
      exact .inr hr
    · -- or its worker would have it somewhere
      have hentry := stage_entry ht hunposted hcompleted
      have hworker := hmanned.placed b i hi
      obtain ⟨h1, h2, h3⟩ := hdelivered _ (hworker.trans_le hmanned.workers)
      obtain ⟨-, h4, h5⟩ := (hflushed (s.request (b, i)).worker).shut (hshut _ hworker)
      simp [Reactor.entries, h1, h2, h3, h4, h5] at hentry
  have hzero : (s.batch b).caller.refs = [] → (s.batch b).remaining = 0 := by
    intro hrefs
    rw [uncompleted_eq ht hc b, Sys.uncompleted, List.countP_eq_zero]
    intro i hi
    rcases hdone i (List.mem_range.1 hi) with hcompleted | hmem
    · simp [hcompleted]
    · rw [hrefs] at hmem
      cases hmem
  refine ⟨hdone, fun hsleep => ?_, fun hwait => hzero (by rw [hwait]; rfl)⟩
  obtain ⟨w, hw⟩ := hwaking b hsleep (hzero (by rw [hsleep]; rfl))
  rcases Nat.lt_or_ge w e.reactors with hlt | hge
  · rw [(hdelivered w hlt).2.1] at hw
    cases hw
  · rw [(hidle w hge).stack] at hw
    cases hw

/-- The bdev is removed with one page of a batch in flight and the other starved, and the first called back
after the shutdown. -/
def shutRun : List Action :=
  openRun ++ submitRun 0 .read [⟨some ⟨0, 0⟩, 2, 0, 2⟩, ⟨some ⟨0, 2⟩, 2, 2, 2⟩] ++
  [.reactor 0 .message, .reactor 0 .next, .reactor 0 (.submit 0 0 0), .reactor 0 .next, .reactor 0 (.submit 0 0 0),
    .reactor 0 .next, .reactor 0 .remove, .reactor 0 .next, .reactor 0 (.code 0), .reactor 0 .message,
    .reactor 0 .next, .reactor 0 .next, .reactor 0 .next, .reactor 0 .next, .reactor 0 .next, .reactor 0 .next,
    .reactor 0 .next, .reactor 0 .next, .reactor 0 .next, .reactor 0 .next, .reactor 0 (.completion 0 false),
    .reactor 0 .next, .reactor 0 .next, .reactor 0 .next, .reactor 0 .next, .reactor 0 .next, .reactor 0 .next]

theorem none_lost_shut : ∃ s, runFrom (step smallEnv) (Sys.init Nat.toUInt8) shutRun = some s ∧
    s.ctx.shutdownComplete = true ∧ (s.batch 0).caller = .waiting ∧ (s.batch 0).remaining = 0 := by
  have hend : (runFrom (step smallEnv) (Sys.init Nat.toUInt8) shutRun).any (fun s =>
      decide ((∀ w < s.ctx.ioWorkers, (s.reactor w).shutDown = true) ∧ (∀ w < smallEnv.reactors,
        (s.reactor w).queue = [] ∧ (s.reactor w).stack = [] ∧ (s.reactor w).inFlight = []) ∧
        s.ctx.shutdownComplete = true ∧ (s.batch 0).caller = .waiting)) = true := by decide +kernel
  obtain ⟨s, hrun, hs⟩ := (Option.any_eq_true _ _).1 hend
  have hok : Guarded (step smallEnv) NoneWaiting (Sys.init Nat.toUInt8) shutRun := by decide +kernel
  obtain ⟨hshut, hdelivered, hcomplete, hwaiting⟩ := of_decide_eq_true hs
  exact ⟨s, hrun, hcomplete, hwaiting, (none_lost hok hrun hshut hdelivered 0).2.2 hwaiting⟩

/-- The bdev is removed while a read waits for SPDK to have room. -/
def waiterRun : List Action :=
  openRun ++ submitRun 0 .read [⟨some ⟨0, 0⟩, 1, 2, 2⟩] ++ [.reactor 0 .message, .reactor 0 .next,
    .reactor 0 (.submit enomem 0 0), .reactor 0 .next, .reactor 0 .remove, .reactor 0 .next, .reactor 0 (.code 0),
    .reactor 0 .message, .reactor 0 .next, .reactor 0 .next, .reactor 0 .next, .reactor 0 .next, .reactor 0 .next,
    .reactor 0 .next, .reactor 0 .next, .reactor 0 .next]

/-- The worker has shut down and nothing is left to deliver; the request is not completed, its caller sleeps, and
the entry cannot fire. -/
theorem waiter_lost : ∃ s, runFrom (step smallEnv) (Sys.init Nat.toUInt8) waiterRun = some s ∧
    s.ctx.shutdownComplete = true ∧ (∀ w < s.ctx.ioWorkers, (s.reactor w).shutDown = true) ∧
    (∀ w < smallEnv.reactors,
      (s.reactor w).queue = [] ∧ (s.reactor w).stack = [] ∧ (s.reactor w).inFlight = []) ∧
    (s.request (0, 0)).completed = false ∧ (s.batch 0).caller = .sleeping ∧
    (s.reactor 0).ioWait = [(0, 0)] ∧ (step smallEnv s (.reactor 0 (.ioWait 0))).isNone = true := by
  have hend : (runFrom (step smallEnv) (Sys.init Nat.toUInt8) waiterRun).any (fun s =>
      decide (s.ctx.shutdownComplete = true ∧ (∀ w < s.ctx.ioWorkers, (s.reactor w).shutDown = true) ∧
        (∀ w < smallEnv.reactors,
          (s.reactor w).queue = [] ∧ (s.reactor w).stack = [] ∧ (s.reactor w).inFlight = []) ∧
        (s.request (0, 0)).completed = false ∧ (s.batch 0).caller = .sleeping ∧
        (s.reactor 0).ioWait = [(0, 0)] ∧ (step smallEnv s (.reactor 0 (.ioWait 0))).isNone = true)) = true := by
    decide +kernel
  obtain ⟨s, hrun, hs⟩ := (Option.any_eq_true _ _).1 hend
  exact ⟨s, hrun, of_decide_eq_true hs⟩

end SpdkBdevContext
end SpdkConnector
