import SpdkConnector.Context.Completion
import SpdkConnector.Context.Reactors

/-!
# Releasing the pools

`shutdown_io_worker` flushes `pending_io` and releases the pool, whatever the device still has of the worker.
As long as no teardown of a worker starts over its commands, `release_all` runs on a pool none of whose
buffers a command in flight uses (`staging_outlives`); a bdev removed under a read shows the rest
(`staging_freed`).
-/

namespace SpdkConnector
namespace SpdkBdevContext

open Interleaving

variable {e : Env} {s s' : Sys} {κ : Core} {w v : Nat} {x y : Reactor} {rest : List Frame}

/-- The worker on whose pool the step may run `release_all`. -/
def poolReleased (e : Env) (s : Sys) : Action → Option Nat
  | .reactor w c =>
    match (s.reactor w).stack, c with
    | .life .releaseIoWorker :: _, .next => some w
    | .life (.postShutdown v) :: _, .code rc => if v < s.ctx.ioWorkers ∧ rc ≠ 0 then some v else none
    -- `initialize` gives back what it has got
    | .life .initializeIoWorker :: _, .setUp true true obtained =>
      if !(s.reactor w).pool.initialized && decide (obtained < e.geometry.spdkBufferCount) then some w else none
    | _, _ => none
  | _ => none

/-- The worker whose teardown the step starts: by a call of `shutdown_io_worker`, or in its place where the
message cannot be posted. -/
def tornDown (s : Sys) : Action → Option Nat
  | .reactor w c =>
    match (s.reactor w).stack, (s.reactor w).queue, c with
    | [], .shutdownIoWorker :: _, .message => some w
    | .life (.postShutdown _) :: _, _, .next => some w
    | .life (.postShutdown v) :: _, _, .code rc => if rc ≠ 0 then some v else none
    | _, _, _ => none
  | _ => none

/-- No teardown of a worker starts over its commands. -/
def Unoccupied (s : Sys) (a : Action) : Prop := ∀ v ∈ tornDown s a, (s.reactor v).inFlight = []

instance (s : Sys) (a : Action) : Decidable (Unoccupied s a) :=
  inferInstanceAs (Decidable (∀ v ∈ tornDown s a, (s.reactor v).inFlight = []))

/-- A frame that submits nothing. -/
def Frame.Inert : Frame → Prop
  | .life _ | .io (.completeRequest _ _ _) | .io (.notifyOne _) => True
  | _ => False

/-- A life cycle call has only others under and over it, and the completions of the requests it flushes. -/
def Parted (x : Reactor) : Prop := ∀ g, .life g ∈ x.stack → ∀ f ∈ x.stack, f.Inert

/-- Calls from an I/O callback: under a life cycle call it completes a flushed request. -/
theorem done_parted {f : IoFrame} {fs : List IoFrame} (h : Parted x) (hst : x.stack = .io f :: rest)
    (hdone : Done w { x with stack := rest } f y fs) :
    (∀ g, .life g ∉ rest) ∨
    y = { x with stack := rest } ∧ (∀ f' ∈ rest, f'.Inert) ∧ ∀ f' ∈ fs, Frame.Inert (.io f') := by
  by_cases hlife : ∃ g, .life g ∈ rest
  · obtain ⟨g, hg⟩ := hlife
    have hinert : ∀ f' ∈ x.stack, f'.Inert := h g (hst ▸ List.mem_cons_of_mem _ hg)
    have hrest : ∀ f' ∈ rest, f'.Inert := fun f' hf => hinert f' (hst ▸ List.mem_cons_of_mem _ hf)
    have hf : Frame.Inert (.io f) := hinert _ (hst ▸ List.mem_cons_self)
    right
    cases hdone with
    | completed r success error fs hfs =>
      refine ⟨rfl, hrest, fun f' hf' => ?_⟩
      rcases hfs with rfl | rfl
      · cases hf'
      · obtain rfl := List.mem_singleton.1 hf'
        trivial
    | notified b => exact ⟨rfl, hrest, nofun⟩
    | _ => exact hf.elim
  · exact .inl fun g hg => hlife ⟨g, hg⟩

theorem tended_inert {f : LifeFrame} {c : Choice} {fs : List Frame} (ht : Tended w x f c y fs) :
    ∀ f' ∈ fs, f'.Inert := by
  have hlife : ∀ fs : List LifeFrame, ∀ f' ∈ fs.map Frame.life, f'.Inert := by
    intro fs f' hf'
    obtain ⟨g, -, rfl⟩ := List.mem_map.1 hf'
    trivial
  cases ht with
  | quiet f fs | posted f fs | released fs => exact hlife fs
  | setUp pool dma bytes ioChannel channelHeld error => exact hlife [.onIoWorkerInitialized error]
  | own => exact hlife [.shutdownIoWorker]
  | cut => exact hlife [.onIoWorkerShutdown, .postShutdown (w + 1)]
  | flushed => simp [Frame.Inert]
  | flushedAll => exact hlife [.releaseIoWorker]

theorem acted_parted {a : Action} (h : Parted (s.reactor v)) (hacted : Acted s v a y) : Parted y := by
  have hsingle : ∀ (z : Reactor) (f : Frame), z.stack = [f] → Parted z := by
    intro z f hz g hg f' hf'
    rw [hz, List.mem_singleton] at hg hf'
    subst hf' hg
    trivial
  cases hacted with
  | message | completion | ioWait | event => exact hsingle _ _ rfl
  | io c f rest y fs hst hdone =>
    intro g hg f' hf'
    rcases done_parted h hst hdone with hnone | ⟨rfl, hrest, hfs⟩
    · rcases List.mem_append.1 hg with hg | hg
      · simp at hg
      · exact absurd hg (hnone g)
    · rcases List.mem_append.1 hf' with hf' | hf'
      · obtain ⟨f'', hf'', rfl⟩ := List.mem_map.1 hf'
        exact hfs f'' hf''
      · exact hrest f' hf'
  | life c f rest y fs hst ht =>
    intro _ _ f' hf'
    rcases List.mem_append.1 hf' with hf' | hf'
    · exact tended_inert ht f' hf'
    · exact h f (hst ▸ List.mem_cons_self) f' (hst ▸ List.mem_cons_of_mem _ hf')
  | reached u c f rest y hu hst hr => cases hr <;> exact h
  | _ => exact h

theorem init_parted (device : Nat → UInt8) (v : Nat) : Parted ((Sys.init device).reactor v) := by
  intro g hg
  rcases eq_or_ne v 0 with rfl | hv
  · cases hg
  · simp [Sys.init, hv] at hg

/-! ## The commands of a worker that is torn down -/

/-- What keeps the pool of a worker from its commands. -/
structure Settled (x : Reactor) : Prop where
  flushing : ∀ g, .life g ∈ x.stack → g.Flushes → x.inFlight = []
  pool : x.pool.initialized = false → x.inFlight = []

/-- A change of what the invariant does not mention. -/
theorem Settled.congr (h : Settled x) (h1 : y.stack = x.stack) (h2 : y.inFlight = x.inFlight)
    (h3 : y.pool.initialized = x.pool.initialized) : Settled y := by
  refine ⟨?_, ?_⟩
  · rw [h1, h2]
    exact h.flushing
  · rw [h2, h3]
    exact h.pool

theorem poolAfterRelease_initialized (p : SpdkBufferPool) (k : Option Nat) :
    (poolAfterRelease p k).initialized = p.initialized := by
  unfold poolAfterRelease SpdkBufferPool.release
  cases k with
  | none => rfl
  | some k =>
    dsimp only
    split <;> rfl

theorem done_settled {f : IoFrame} {fs : List IoFrame} (h : Settled x) (hparted : Parted x)
    (hst : x.stack = .io f :: rest) (hdone : Done w { x with stack := rest } f y fs) :
    Settled { y with stack := fs.map .io ++ rest } := by
  have hmem : ∀ g, .life g ∈ fs.map Frame.io ++ rest → .life g ∈ rest := by
    intro g hg
    rcases List.mem_append.1 hg with hg | hg
    · simp at hg
    · exact hg
  rcases done_parted hparted hst hdone with hnone | ⟨rfl, -, -⟩
  · refine ⟨fun g hg => absurd (hmem g hg) (hnone g), ?_⟩
    cases hdone with
    | accepted r k free dma c hini =>
      intro hno
      exact nomatch hini.symm.trans hno
    | parked r dma y fs hp => cases hp <;> exact h.pool
    | released r success success' error k =>
      intro hno
      exact h.pool ((poolAfterRelease_initialized _ _).symm.trans hno)
    | _ => exact h.pool
  · exact ⟨fun g hg => h.flushing g (hst ▸ List.mem_cons_of_mem _ (hmem g hg)), h.pool⟩

/-- A life cycle call: unless it starts the teardown of its worker over a command. -/
theorem tended_settled {f : LifeFrame} {c : Choice} {fs : List Frame} (h : Settled x)
    (hst : x.stack = .life f :: rest) (ht : Tended w { x with stack := rest } f c y fs)
    (hown : ∀ i, f = .postShutdown i → c = .next → x.inFlight = [])
    (hcut : ∀ rc, f = .postShutdown w → c = .code rc → rc ≠ 0 → x.inFlight = []) :
    Settled { y with stack := fs ++ rest } := by
  -- calls that flush nothing leave the flushing calls to the rest of the stack
  have hquiet : ∀ fs : List LifeFrame, (∀ g ∈ fs, ¬ g.Flushes) → ∀ g : LifeFrame, .life g ∈ fs.map .life ++ rest →
      g.Flushes → x.inFlight = [] := by
    intro fs hfs g hg hflush
    rcases List.mem_append.1 hg with hg | hg
    · obtain ⟨g', hg', heq⟩ := List.mem_map.1 hg
      cases heq
      exact absurd hflush (hfs g hg')
    · exact h.flushing g (hst ▸ List.mem_cons_of_mem _ hg) hflush
  have hflushing : f.Flushes → x.inFlight = [] := h.flushing f (hst ▸ List.mem_cons_self)
  cases ht with
  | quiet f fs hfs => exact ⟨hquiet fs hfs, h.pool⟩
  | posted f fs hfs m g hm => exact ⟨hquiet fs hfs, h.pool⟩
  | setUp pool dma bytes ioChannel channelHeld error hpool =>
    refine ⟨hquiet [.onIoWorkerInitialized error] (by simp [LifeFrame.Flushes]), ?_⟩
    rcases hpool with rfl | ⟨hini, size, alignment, n, hn, rfl⟩
    · exact h.pool
    · exact fun _ => h.pool hini
  | own i => exact ⟨fun _ _ _ => hown i rfl rfl, h.pool⟩
  | cut rc hrc => exact ⟨fun _ _ _ => hcut rc rfl rfl hrc, fun _ => hcut rc rfl rfl hrc⟩
  | flushed r tail error hp => exact ⟨fun _ _ _ => hflushing trivial, h.pool⟩
  | flushedAll hp => exact ⟨fun _ _ _ => hflushing trivial, h.pool⟩
  | released fs hfs => exact ⟨hquiet fs hfs, fun _ => hflushing trivial⟩

/-- An idle reactor starts a callback. -/
theorem settled_single {f : Frame} (h : Settled x) (hy : y.stack = [f]) (hpool : y.pool = x.pool)
    (hempty : x.inFlight = [] → y.inFlight = [])
    (hflush : ∀ g, f = .life g → g.Flushes → x.inFlight = []) : Settled y := by
  refine ⟨fun g hg hg' => ?_, fun hini => hempty (h.pool (hpool ▸ hini))⟩
  rw [hy, List.mem_singleton] at hg
  exact hempty (hflush g hg.symm hg')

theorem acted_settled {a : Action} (h : Settled (s.reactor v)) (hparted : Parted (s.reactor v))
    (hok : Unoccupied s a) (hacted : Acted s v a y) : Settled y := by
  cases hacted with
  | same => exact h
  | dispatch => exact h.congr rfl rfl rfl
  | posted => exact h.congr rfl rfl rfl
  | message m tail hidle hq =>
    refine settled_single h rfl rfl id fun g hg hflush => ?_
    cases m <;> simp only [Msg.frame, Frame.life.injEq, reduceCtorEq] at hg <;> subst hg
    case shutdownIoWorker => exact hok v (by simp [tornDown, hidle, hq])
    all_goals exact hflush.elim
  | completion k success c hidle hk =>
    refine settled_single h rfl rfl (fun hnone => ?_) (by simp)
    rw [hnone] at hk
    cases hk
  | ioWait k r hidle hk hheld => exact settled_single h rfl rfl id (by simp)
  | event c rc error hidle => exact settled_single h rfl rfl id (by simp [LifeFrame.Flushes])
  | io c f rest y fs hst hdone => exact done_settled h hparted hst hdone
  | life c f rest y fs hst ht =>
    refine tended_settled h hst ht ?_ ?_
    · rintro i rfl rfl
      exact hok v (by simp [tornDown, hst])
    · rintro rc rfl rfl hrc
      exact hok v (by simp [tornDown, hst, hrc])
  | reached u c f rest y hu hst hr =>
    cases hr with
    | same => exact h
    | posted => exact h.congr rfl rfl rfl
    | cut rc hrc =>
      have hnone := hok v (by simp [tornDown, hst, hrc])
      exact ⟨h.flushing, fun _ => hnone⟩
  | moved a k c c' dma hk =>
    have hempty : (s.reactor v).inFlight = [] → ((s.reactor v).inFlight.set k c') = [] := by
      intro hnone
      rw [hnone]
      rfl
    exact ⟨fun g hg hflush => hempty (h.flushing g hg hflush), fun hini => hempty (h.pool hini)⟩

theorem init_settled (device : Nat → UInt8) (v : Nat) : Settled ((Sys.init device).reactor v) := by
  have hnone : ((Sys.init device).reactor v).inFlight = [] := by
    rcases eq_or_ne v 0 with rfl | hv
    · rfl
    · simp [Sys.init, hv]
  exact ⟨fun _ _ _ => hnone, fun _ => hnone⟩

/-- **Staging buffers outlive the commands that use them**: in every run in which no teardown of a worker
starts over its commands, `release_all` runs on a pool none of whose buffers a command in flight has leased. -/
theorem staging_outlives {device : Nat → UInt8} {as : List Action} {a : Action} {v : Nat}
    (hok : Guarded (step e) Unoccupied (Sys.init device) as)
    (h : runFrom (step e) (Sys.init device) as = some s) (hoka : Unoccupied s a)
    (hreleased : poolReleased e s a = some v) :
    ∀ c ∈ (s.reactor v).inFlight, ∀ k, (s.request c.request).bufferIndex = some k →
      ¬ (s.reactor v).pool.Leased k := by
  have hinv : (∃ κ, Tracks s κ ∧ Consistent e κ) ∧ ∀ v, Parted (s.reactor v) ∧ Settled (s.reactor v) := by
    refine run_invariant
      (I := fun s => (∃ κ, Tracks s κ ∧ Consistent e κ) ∧ ∀ v, Parted (s.reactor v) ∧ Settled (s.reactor v)) ?_
      ⟨⟨_, init_tracks device, init_consistent e device⟩, fun v => ⟨init_parted device v, init_settled device v⟩⟩ hok h
    rintro s1 b s2 ⟨⟨κ, ht, hc⟩, hs⟩ hokb hstep
    obtain ⟨κ', hm, ht', -⟩ := step_follows ht hc hstep
    refine ⟨⟨κ', ht', moves_consistent hc hm⟩, fun v => ?_⟩
    have hacted := step_acted ht hc hstep v
    obtain ⟨h1, h2⟩ := hs v
    exact ⟨acted_parted h1 hacted, acted_settled h2 h1 hokb hacted⟩
  have hsettled := fun v => (hinv.2 v).2
  suffices hnone : (s.reactor v).inFlight = [] by
    intro c hc
    rw [hnone] at hc
    cases hc
  unfold poolReleased at hreleased
  split at hreleased
  · split at hreleased
    · rename_i hst
      cases hreleased
      exact (hsettled v).flushing .releaseIoWorker (hst ▸ List.mem_cons_self) trivial
    · rename_i rc hst
      split at hreleased
      · rename_i hcut
        cases hreleased
        exact hoka v (by simp [tornDown, hst, hcut.2])
      · cases hreleased
    · split at hreleased
      · rename_i hfresh
        cases hreleased
        simp only [Bool.and_eq_true, Bool.not_eq_eq_eq_not, Bool.not_true] at hfresh
        exact (hsettled v).pool hfresh.1
      · cases hreleased
    · cases hreleased
  · cases hreleased

/-- A bdev is removed, and the worker torn down with nothing in flight. -/
def removedRun : List Action :=
  openRun ++ [.reactor 0 .remove, .reactor 0 .next, .reactor 0 (.code 0), .reactor 0 .message, .reactor 0 .next,
    .reactor 0 .next, .reactor 0 .next]

theorem staging_outlives_removal : ∃ s, runFrom (step smallEnv) (Sys.init Nat.toUInt8) removedRun = some s ∧
    (s.reactor 0).pool.initialized = true ∧ ∀ c ∈ (s.reactor 0).inFlight, ∀ k,
      (s.request c.request).bufferIndex = some k → ¬ (s.reactor 0).pool.Leased k := by
  have hrun : runFrom (step smallEnv) (Sys.init Nat.toUInt8) removedRun = some _ := rfl
  have hok : Guarded (step smallEnv) Unoccupied (Sys.init Nat.toUInt8) removedRun := by decide
  exact ⟨_, hrun, rfl, staging_outlives (a := .reactor 0 .next) hok hrun (by decide) rfl⟩

/-- The same while a read is in flight. -/
def freedRun : List Action :=
  openRun ++ submitRun 0 .read [⟨some ⟨0, 0⟩, 1, 2, 2⟩] ++ [.reactor 0 .message, .reactor 0 .next,
    .reactor 0 (.submit 0 0 0), .reactor 0 .next, .reactor 0 .remove, .reactor 0 .next, .reactor 0 (.code 0),
    .reactor 0 .message, .reactor 0 .next, .reactor 0 .next, .reactor 0 .next]

/-- The next step frees the buffer the device is reading into. -/
theorem staging_freed : ∃ s s', runFrom (step smallEnv) (Sys.init Nat.toUInt8) freedRun = some s ∧
    poolReleased smallEnv s (.reactor 0 .next) = some 0 ∧
    (∃ c ∈ (s.reactor 0).inFlight, (s.request c.request).bufferIndex = some 0 ∧ (s.reactor 0).pool.Leased 0) ∧
    step smallEnv s (.reactor 0 .next) = some s' ∧ (s'.reactor 0).pool = {} ∧ (s'.reactor 0).inFlight ≠ [] := by
  have hrun : runFrom (step smallEnv) (Sys.init Nat.toUInt8) freedRun = some _ := rfl
  exact ⟨_, _, hrun, rfl, ⟨_, List.mem_cons_self, rfl, rfl⟩, rfl, rfl, nofun⟩

end SpdkBdevContext
end SpdkConnector
