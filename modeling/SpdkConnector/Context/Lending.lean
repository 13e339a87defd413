import SpdkConnector.Context.Lifetime

/-!
# A reactor in `request_shutdown`

`request_shutdown` keeps a copy of `runtime_` while it posts (spdk_bdev_context.cpp:520-536). As long as a reactor is
in there the context goes on only so far: the application thread cannot begin the teardown from where it is, and
cannot end it before the worker of another reactor has taken its message (`Held`). So `close()` is not past its wait,
and `runtime_` is still there (`held_waits`).
-/

namespace SpdkConnector
namespace SpdkBdevContext

open Interleaving

variable {e : Env} {s s' : Sys} {κ κ' : Cycle} {w v : Nat} {f : LifeFrame} {rest : List LifeFrame} {x : Effect}
  {c : Members} {ch : Choice} {available : Bool}

/-- What a close keeps whose messages are delivered: the calls go as they should, and once `close()` has found nothing
open the shutdown is complete, or it has been. -/
structure Attended (e : Env) (s : Sys) : Prop where
  outgoing : Outgoing e s.cycle
  ordered : Ordered s.cycle
  found : s.ctx.closed = true → s.ctx.NothingOpen → s.ctx.shutdownStarted = true ∨ s.ctx.shutdownComplete = true

/-- What is still to come while reactor `v` is in `request_shutdown`. -/
structure Held (e : Env) (κ : Cycle) (v : Nat) : Prop where
  opened : Opened e κ
  runtime : κ.ctx.runtime = true
  application : v = 0 → κ.ctx.shutdownStarted = false ∧ (κ.ctx.closed = true → ¬ κ.ctx.NothingOpen)
  worker : v ≠ 0 → v < κ.ctx.ioWorkers ∧ (κ.ctx.shutdownStarted = true → 0 < κ.weigh e (LifeFrame.tells v))

/-- A step that does not overtake reactor `v` in `request_shutdown`: the post to its worker does not fail, and `close()`
does not find nothing open while the application thread is in there. -/
def Sys.spares (s : Sys) (v : Nat) : Action → Bool
  | .reactor w (.code rc) => rc == 0 || (s.reactor w).stack.head? != some (.life (.postShutdown v))
  | .owner _ => v != 0 || s.owner != .closing || s.ctx.closed || !decide s.ctx.NothingOpen
  | _ => true

/-! ## Which of the two phases -/

theorem Outgoing.past (h : Outgoing e κ) (ho : Opened e κ) : Course e κ ∧ Telling e κ ∧ Finale e κ := by
  cases h with
  | opening hopen =>
    obtain ⟨f, hagenda, hf⟩ := hopen.agenda
    have hmem : f ∈ κ.agenda 0 := by simp [hagenda]
    refine absurd ?_ (ho.confined 0 f hmem).2
    rcases hf with ⟨rfl, -⟩ | ⟨rfl, -⟩ <;> trivial
  | opened _ hcourse htell hfinale => exact ⟨hcourse, htell, hfinale⟩

/-- `close()` is not past its wait while a reactor is in `request_shutdown`. -/
theorem held_waits (h : Outgoing e κ) (hheld : Held e κ v) : κ.owner ≠ .releasing := by
  intro hpc
  obtain ⟨hcourse, htell, hfinale⟩ := h.past hheld.opened
  have hclosed : κ.ctx.closed = true := hheld.opened.closing (by rw [hpc]; trivial)
  rcases eq_or_ne v 0 with hv | hv
  · obtain ⟨hst, hopen⟩ := hheld.application hv
    cases hfinale.complete (hfinale.released hpc) with
    | nothing hnone hno => exact hopen hclosed hno
    | unopened hno => exact hopen hclosed hno
    | finished hd hs => exact absurd (hst.symm.trans hs) (by simp)
  · obtain ⟨hlt, htells⟩ := hheld.worker hv
    have hworkers : ¬ κ.ctx.NothingOpen := fun hno => absurd hlt (by simp [hno.2])
    cases hfinale.complete (hfinale.released hpc) with
    | nothing hnone hno => exact hworkers hno
    | unopened hno => exact hworkers hno
    | finished hd hs hacks =>
      -- the worker that has not been told has not acknowledged
      have hpos := htells hs
      have hle : κ.weigh e (LifeFrame.tells v) ≤ κ.total e (LifeFrame.acks κ.ctx.ioWorkers) := by
        refine Finset.sum_le_sum fun u _ => List.sum_le_sum fun g _ => ?_
        cases g <;> simp only [LifeFrame.tells, LifeFrame.acks] <;> (try split) <;> omega
      omega

/-! ## One step -/

/-- The descriptor is closed by the end of the teardown. -/
theorem lived_releases (hl : Lived e available c w f ch x) (hd : c.bdevDescriptor = true)
    (hd' : x.ctx.bdevDescriptor = false) : f = .releaseDescriptor := by
  cases hl with
  | descriptorReleased => rfl
  | opened => cases hd'
  | _ => exact absurd (hd.symm.trans hd') (by simp)

theorem attended_step (hn : 0 < e.ioThreadCount) (h : Attended e s) {a : Action} (hg : delivers s a = true)
    (hs : step e s a = some s') : Attended e s' := by
  have hturn := step_turn hs
  refine ⟨outgoing_step hn h.outgoing h.ordered hg hs, h.ordered.turn hturn, ?_⟩
  show s'.cycle.ctx.closed = true → s'.cycle.ctx.NothingOpen →
    s'.cycle.ctx.shutdownStarted = true ∨ s'.cycle.ctx.shutdownComplete = true
  rcases step_milestones hs with ⟨w, c, f, stack, rest, x, rfl, -, hag, hl, hcycle, -⟩ | ⟨-, ha⟩
  · rw [hcycle]
    show x.ctx.closed = true → x.ctx.NothingOpen → x.ctx.shutdownStarted = true ∨ x.ctx.shutdownComplete = true
    intro hclosed hno
    rw [lived_closed hl] at hclosed
    have hmono := lived_monotone hl
    cases h.outgoing with
    | opening hopen => exact absurd (hopen.closed.symm.trans hclosed) (by simp)
    | opened ho hcourse =>
      have hmem : f ∈ s.cycle.agenda w := hag ▸ List.mem_cons_self
      have hworkers : s.ctx.ioWorkers = 0 := (lived_same hl (ho.confined w f hmem).2).1.symm.trans hno.2
      by_cases hd : s.ctx.bdevDescriptor = false
      · exact (h.found hclosed ⟨hd, hworkers⟩).imp hmono.2.2.1 hmono.2.1
      · obtain rfl := lived_releases hl (by simpa using hd) hno.1
        exact .inl (hmono.2.2.1 (hcourse.last w hmem).1)
  · generalize s'.cycle = κ at ha
    cases ha with
    | idle | counted | stops | event => exact h.found
    | owner c κ ho =>
      cases ho with
      | marked hpc hc hr =>
        rintro - ⟨hd, hw⟩
        rcases hr with hr | hr
        · exact absurd (hr.symm.trans hd) (by simp)
        · exact absurd hw hr
      | nothingOpen => exact fun _ _ => .inr rfl
      | beginFailed => exact fun _ _ => .inr rfl
      | _ => exact h.found

theorem requestShutdown_starts {rc : Int} {error : String} (h : (requestShutdown s rc error).2 = true) :
    s.ctx.shutdownRequested = false ∧ s.ctx.runtime = true := by
  obtain ⟨lastError, code, start, hstart, heq⟩ := requestShutdown_eq s rc error
  rw [heq] at h
  dsimp only at h
  simp_all

/-- Reactor `v` takes its copy. -/
theorem held_taken (h : Attended e s) {rc : Int} {error : String} {stack : List Frame}
    (hst : (s.reactor v).stack = .life (.requestShutdown rc error) :: stack)
    (hstart : (requestShutdown s rc error).2 = true) (hs : step e s (.reactor v ch) = some s') : Held e s'.cycle v := by
  have hturn := step_turn hs
  have hreactor : reactorStep e s v ch = some s' := by
    simp only [step] at hs
    split at hs
    · exact hs
    · cases hs
  obtain ⟨rest, x, hag, hl, hcycle⟩ := lifeStep_cycle hst hreactor
  have hmem : .requestShutdown rc error ∈ s.cycle.agenda v := hag ▸ List.mem_cons_self
  obtain ⟨hunasked, hruntime⟩ := requestShutdown_starts hstart
  cases h.outgoing with
  | opening hopen => exact (hopen.early hmem).2.elim
  | opened ho hcourse htell hfinale =>
    have hno : s.ctx.shutdownStarted = false := (hcourse.unasked hunasked).1
    have hopen : s.ctx.closed = true → ¬ s.ctx.NothingOpen := by
      intro hclosed hnothing
      rcases h.found hclosed hnothing with hs | hc
      · exact absurd (hno.symm.trans hs) (by simp)
      · cases hfinale.complete hc with
        | nothing hnone => exact absurd hag (by simp [hnone v])
        | unopened hnothing hc => exact absurd (hc.symm.trans hclosed) (by simp)
        | finished hd hs => exact absurd (hno.symm.trans hs) (by simp)
    have hopened := ho.turn hturn
    rw [hcycle] at hopened ⊢
    cases hl with
    | requested =>
      refine ⟨hopened, hruntime, fun _ => ⟨hno, hopen⟩, fun hv => ⟨?_, fun hs => absurd (hno.symm.trans hs) (by simp)⟩⟩
      exact (htell.hosted v _ hmem).resolve_left hv

/-- Another reactor makes a call, or this one posts. -/
theorem Held.run (hheld : Held e κ v) (htell : Telling e κ) (hcourse : Course e κ) (hord : Ordered κ)
    (ho : Opened e (κ.run w rest x)) (hag : κ.agenda w = f :: rest) (hl : Lived e available κ.ctx w f ch x)
    (hw : w = v → f = .postBeginShutdown)
    (hspares : ∀ rc, f = .postShutdown v → ch = .code rc → rc = 0) : Held e (κ.run w rest x) v := by
  have hmem : f ∈ κ.agenda w := hag ▸ List.mem_cons_self
  obtain ⟨hreactor, hf⟩ := hheld.opened.confined w f hmem
  obtain ⟨hworkers, hclosed, hruntime, -⟩ := lived_same hl hf
  refine ⟨ho, hruntime.trans hheld.runtime, fun hv => ?_, fun hv => ?_⟩
  · obtain ⟨hno, hopen⟩ := hheld.application hv
    -- the application thread is the one that would
    refine ⟨?_, fun hc hnothing => ?_⟩
    · by_contra hs
      have hs : x.ctx.shutdownStarted = true := (Bool.not_eq_false _).mp hs
      rcases lived_started hl hs with hs | ⟨rfl, -⟩
      · exact absurd (hno.symm.trans hs) (by simp)
      · exact absurd (hw ((hord.zero w _ hmem (.inr rfl)).trans hv.symm)) (by simp)
    · have hc : κ.ctx.closed = true := hclosed.symm.trans hc
      by_cases hd : κ.ctx.bdevDescriptor = false
      · exact hopen hc ⟨hd, hworkers.symm.trans hnothing.2⟩
      · obtain rfl := lived_releases hl (by simpa using hd) hnothing.1
        exact absurd (hw ((htell.central w _ hmem trivial).trans hv.symm)) (by simp)
  · obtain ⟨hlt, htells⟩ := hheld.worker hv
    refine ⟨hworkers.symm ▸ hlt, fun hs => ?_⟩
    have hpost := fun u g hx => ((lived_confined hl hf hheld.opened.workers).2 u g hx).1
    have hweigh := weigh_run hag hreactor hpost (LifeFrame.tells v)
    have hown : ∀ j, f = .postShutdown j → 1 ≤ j ∧ w = 0 := by
      rintro j rfl
      exact ⟨htell.index w j hmem, hcourse.zero w j hmem⟩
    rcases lived_tells hl hf hlt hown with heq | ⟨-, -, ⟨rfl, hwv⟩ | ⟨hcut, rc, hrc, hch⟩⟩ | ⟨-, rfl, hone⟩
    · by_cases hbefore : κ.ctx.shutdownStarted = true
      · have := htells hbefore
        omega
      · obtain ⟨rfl, -⟩ := (lived_started hl hs).resolve_left hbefore
        have hone := begun_tells hl (by simpa using hbefore) hlt
        have hnone : LifeFrame.tells v w .beginShutdown = 0 := rfl
        omega
    · exact absurd (hw hwv) (by simp)
    · exact absurd (hspares rc hcut hch) hrc
    · have hnone : LifeFrame.tells v w .beginShutdown = 0 := rfl
      omega

/-- `close()` has not found nothing open in a step that spares the application thread. -/
theorem spared_closed {a : Action} (ht : Turn e s a κ') (hspares : s.spares v a = true) :
    κ'.ctx.closed = s.ctx.closed ∨ (v = 0 → ¬ s.ctx.NothingOpen) := by
  cases ht with
  | run w c f stack rest x hst hag hl => exact .inl (lived_closed hl)
  | owner c κ howned =>
    cases howned with
    | marked hpc hc hr =>
      refine .inr fun _ hno => ?_
      rcases hr with hr | hr
      · exact absurd (hr.symm.trans hno.1) (by simp)
      · exact hr hno.2
    | nothingOpen hpc hc =>
      have hpc : s.owner = .closing := hpc
      have hc : s.ctx.closed = false := hc
      refine .inr fun hv => ?_
      simpa [Sys.spares, hpc, hc, hv] using hspares
    | _ => exact .inl rfl
  | _ => exact .inl rfl

/-- A step that makes no call. -/
theorem Held.aside (h : Outgoing e s.cycle) (hheld : Held e s.cycle v) (ha : Aside e s κ') (ho : Opened e κ')
    (hclosed : κ'.ctx.closed = s.ctx.closed ∨ (v = 0 → ¬ s.ctx.NothingOpen)) : Held e κ' v := by
  have hstarted := ha.members.1
  have hworkers := ha.beside.workers
  have hkept : κ'.ctx.runtime = true ∧ κ'.ctx.bdevDescriptor = s.ctx.bdevDescriptor := by
    cases ha with
    | idle | counted | stops | event => exact ⟨hheld.runtime, rfl⟩
    | owner c κ' howned =>
      cases howned with
      | claimReleased hpc => exact absurd hpc (held_waits h hheld)
      | _ => exact ⟨hheld.runtime, rfl⟩
  obtain ⟨hruntime, hdescriptor⟩ := hkept
  have hnothing : κ'.ctx.NothingOpen → s.ctx.NothingOpen :=
    fun hno => ⟨hdescriptor.symm.trans hno.1, hworkers.symm.trans hno.2⟩
  refine ⟨ho, hruntime, fun hv => ?_, fun hv => ?_⟩
  · obtain ⟨hno, hopen⟩ := hheld.application hv
    refine ⟨hstarted.trans hno, fun hc hn => ?_⟩
    rcases hclosed with heq | hopen'
    · exact hopen (heq.symm.trans hc) (hnothing hn)
    · exact hopen' hv (hnothing hn)
  · obtain ⟨hlt, htells⟩ := hheld.worker hv
    refine ⟨hworkers.symm ▸ hlt, fun hs => ?_⟩
    rw [aside_weigh ha _ rfl fun _ _ => rfl]
    exact htells (hstarted.symm.trans hs)

/-- **While reactor `v` is in `request_shutdown`** the others go on, and `close()` does not get past its wait. -/
theorem held_step (h : Attended e s) (hheld : Held e s.cycle v) {a : Action}
    (hposts : ∀ c, a = .reactor v c → (s.reactor v).stack.head? = some (.life .postBeginShutdown))
    (hspares : s.spares v a = true)
    (hs : step e s a = some s') : Held e s'.cycle v := by
  have hturn := step_turn hs
  have ho := hheld.opened.turn hturn
  obtain ⟨hcourse, htell, -⟩ := h.outgoing.past hheld.opened
  rcases step_milestones hs with ⟨w, c, f, stack, rest, x, rfl, hst, hag, hl, hcycle, -⟩ | ⟨-, ha⟩
  · rw [hcycle] at ho ⊢
    apply hheld.run htell hcourse h.ordered ho hag hl
    · intro hw
      simpa [← hw, hst] using hposts c (by rw [hw])
    · rintro rc rfl rfl
      simpa [Sys.spares, hst] using hspares
  · exact hheld.aside h.outgoing ha ho (spared_closed hturn hspares)

theorem init_attended (device : Nat → UInt8) : Attended e (Sys.init device) :=
  ⟨.opening (init_opening device), init_ordered device, fun hc => by cases hc⟩

end SpdkBdevContext
end SpdkConnector
