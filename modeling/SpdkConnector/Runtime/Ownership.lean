import SpdkConnector.Runtime
import SpdkConnector.Context.Teardown

/-!
# Who owns a bdev

A context holds its claim from `ClaimBdev` to `ReleaseBdev`, and `Shut` is why its descriptor is open only in
between: `close()` gets to the release through `shutdown_complete_`, and the teardown sets that after it has
closed the descriptor. The exception is a context whose post that begins the teardown fails: the catch block of
`request_shutdown` sets the flag with the descriptor open (`ownership_broken`).
-/

namespace SpdkConnector
namespace SpdkRuntime

open Interleaving SpdkBdevContext

variable {e : Env} {s s' : Sys} {κ κ' : Cycle} {v : Nat} {f : LifeFrame} {rest : List LifeFrame} {x : Effect}

/-! ## One context -/

/-- The teardown is behind whoever sees `shutdown_complete_`, and the claim goes at the end of `close()`. -/
structure Shut (κ : Cycle) : Prop where
  finishing : ∀ v, .finishShutdown ∈ κ.agenda v → κ.ctx.bdevDescriptor = false
  complete : κ.ctx.shutdownComplete = true → κ.ctx.bdevDescriptor = false
  releasing : κ.owner = .releasing → κ.ctx.shutdownComplete = true
  unclosed : κ.owner = .constructing ∨ κ.owner = .sleepingInitialization ∨ κ.owner = .running → κ.ctx.closed = false
  held : κ.ctx.bdevClaimed = false → κ.ctx.shutdownComplete = true ∧ κ.ctx.closed = true
  gone : κ.owner = .closed ∨ κ.owner = .closing ∧ κ.ctx.closed = true → κ.ctx.bdevClaimed = false
  same : κ.ctx.runtime = κ.ctx.bdevClaimed

/-- A step that does not fail to post the begin of the teardown while the descriptor is open. -/
def BeginPosted (s : Sys) : Action → Prop
  | .reactor w (.code rc) => (s.reactor w).stack.head? = some (.life .postBeginShutdown) →
      s.ctx.bdevDescriptor = false ∨ s.runtimeAvailable = true ∧ rc = 0
  | .owner (.code rc) => s.owner = .postingShutdown →
      s.ctx.bdevDescriptor = false ∨ s.runtimeAvailable = true ∧ rc = 0
  | _ => True

section
variable {c : Members} {ch : SpdkBdevContext.Choice} {available : Bool}

/-- What a call does to the members the claim depends on. -/
theorem lived_shut (hl : Lived e available c v f ch x) :
    (x.ctx.bdevDescriptor = true → c.bdevDescriptor = true ∨ f = .onRuntimeReady) ∧
    (x.ctx.shutdownComplete = true → c.shutdownComplete = true ∨ f = .finishShutdown ∨
      f = .postBeginShutdown ∧ ∃ rc, ch = .code rc ∧ ¬ (available = true ∧ rc = 0)) ∧
    (.finishShutdown ∈ x.calls → x.ctx.bdevDescriptor = false) ∧
    (∀ u, x.post ≠ some (u, .finishShutdown)) ∧
    x.ctx.closed = c.closed ∧ x.ctx.runtime = c.runtime ∧ x.ctx.bdevClaimed = c.bdevClaimed := by
  cases hl with
  | opened => exact ⟨fun _ => .inr rfl, .inl, by simp, nofun, rfl, rfl, rfl⟩
  | initializedLast error lastError hlast =>
    refine ⟨.inl, .inl, ?_, nofun, rfl, rfl, rfl⟩
    cases lastError == "" <;> simp
  | requested rc error lastError code start hstart =>
    refine ⟨.inl, .inl, ?_, nofun, rfl, rfl, rfl⟩
    cases start <;> simp
  | beginFailed rc lastError hno =>
    exact ⟨.inl, fun _ => .inr (.inr ⟨rfl, rc, rfl, hno⟩), by simp, nofun, rfl, rfl, rfl⟩
  | begun hs =>
    refine ⟨.inl, .inl, ?_, nofun, rfl, rfl, rfl⟩
    dsimp only
    split <;> simp
  | released =>
    refine ⟨.inl, .inl, ?_, nofun, rfl, rfl, rfl⟩
    dsimp only
    split <;> simp
  | acknowledged =>
    refine ⟨.inl, .inl, ?_, nofun, rfl, rfl, rfl⟩
    dsimp only
    split <;> simp
  | descriptorReleased => exact ⟨nofun, .inl, fun _ => rfl, nofun, rfl, rfl, rfl⟩
  | finished => exact ⟨.inl, fun _ => .inr (.inl rfl), by simp, nofun, rfl, rfl, rfl⟩
  | _ => exact ⟨.inl, .inl, by simp, by simp, rfl, rfl, rfl⟩

end

/-- Nothing early is pending once the bdev has been opened. -/
theorem early_opening (h : Opening κ ∨ Opened e κ) (hf : f ∈ κ.agenda v) (hearly : f.Early) : Opening κ :=
  h.resolve_right fun ho => (ho.confined v f hf).2 hearly

theorem opening_agenda (h : Opening κ) (hf : f ∈ κ.agenda v) : f = .onRuntimeReady ∨ f = .configure := by
  obtain ⟨g, hag, hg⟩ := h.agenda
  rw [hag] at hf
  rcases eq_or_ne v 0 with rfl | hv
  · simp only [Function.update_self, List.mem_singleton] at hf
    rcases hg with ⟨rfl, -⟩ | ⟨rfl, -⟩
    · exact .inl hf
    · exact .inr hf
  · simp [hv] at hf

theorem init_shut (device : Nat → UInt8) : Shut (Sys.init device).cycle := by
  refine ⟨fun v hv => ?_, nofun, nofun, fun _ => rfl, nofun, fun h => ?_, rfl⟩
  · rcases opening_agenda (init_opening device) hv with h | h <;> cases h
  · rcases h with h | ⟨h, -⟩ <;> cases h

theorem woken_resting {pc pc' : OwnerPc} (h : pc.woken = pc') (hne : pc' ≠ .constructing) (hne' : pc' ≠ .closeWaiting) :
    pc = pc' := by
  cases pc <;> simp_all [OwnerPc.woken]

theorem Shut.run {c : SpdkBdevContext.Choice} {stack : List Frame} {w : Nat} (hphase : Opening s.cycle ∨ Opened e s.cycle)
    (h : Shut s.cycle) (hg : BeginPosted s (.reactor w c)) (hst : (s.reactor w).stack = .life f :: stack)
    (hag : s.cycle.agenda w = f :: rest) (hl : Lived e s.runtimeAvailable s.ctx w f c x) :
    Shut (s.cycle.run w rest x) := by
  obtain ⟨hdesc, hcomplete, hfin, hpost, hclosed, hruntime, hclaimed⟩ := lived_shut hl
  have hf : f ∈ s.cycle.agenda w := by rw [hag]; exact List.mem_cons_self
  -- the descriptor is opened only while nothing of the teardown is there
  have hopened : x.ctx.bdevDescriptor = true → s.ctx.bdevDescriptor = true ∨
      Opening s.cycle ∧ s.ctx.shutdownComplete = false := by
    refine fun hd => (hdesc hd).imp_right fun hf' => ?_
    have ho := early_opening hphase hf (by rw [hf']; trivial)
    exact ⟨ho, ho.complete⟩
  refine ⟨fun u hu => ?_, fun hc => ?_, fun hpc => ?_, fun hpc => ?_, fun hb => ?_, fun hpc => ?_, ?_⟩
  · show x.ctx.bdevDescriptor = false
    rcases mem_run hag hu with hu | ⟨-, hu⟩ | hu
    · by_contra hd
      rcases hopened (by simpa using hd) with hd | ⟨ho, -⟩
      · exact absurd (hd.symm.trans (h.finishing u hu)) (by simp)
      · rcases opening_agenda ho hu with hu | hu <;> cases hu
    · exact hfin hu
    · exact absurd hu (hpost u)
  · show x.ctx.bdevDescriptor = false
    by_contra hd
    have hd : x.ctx.bdevDescriptor = true := by simpa using hd
    rcases hcomplete hc with hc' | rfl | ⟨rfl, rc, rfl, hno⟩
    · rcases hopened hd with hd | ⟨-, ho⟩
      · exact absurd (hd.symm.trans (h.complete hc')) (by simp)
      · exact absurd (hc'.symm.trans ho) (by simp)
    · rcases hdesc hd with hd | hd
      · exact absurd (hd.symm.trans (h.finishing w hf)) (by simp)
      · cases hd
    · rcases hdesc hd with hd | hd
      · exact hno ((hg (by rw [hst]; rfl)).resolve_left (by simp [hd]))
      · cases hd
  · have hpc' : s.owner = .releasing := by
      simp only [Cycle.run] at hpc
      split at hpc
      · exact woken_resting hpc (by simp) (by simp)
      · exact hpc
    exact (lived_monotone hl).2.1 (h.releasing hpc')
  · refine hclosed.trans (h.unclosed ?_)
    simp only [Cycle.run, Sys.cycle] at hpc
    show s.owner = _ ∨ s.owner = _ ∨ s.owner = _
    split at hpc
    · cases ho : s.owner <;> simp_all [OwnerPc.woken]
    · exact hpc
  · obtain ⟨h1, h2⟩ := h.held (hclaimed.symm.trans hb)
    exact ⟨(lived_monotone hl).2.1 h1, hclosed.trans h2⟩
  · refine hclaimed.trans (h.gone ?_)
    simp only [Cycle.run, Sys.cycle, hclosed] at hpc
    show s.owner = _ ∨ s.owner = _ ∧ s.ctx.closed = true
    split at hpc
    · cases ho : s.owner <;> simp_all [OwnerPc.woken]
    · exact hpc
  · exact (hruntime.trans h.same).trans hclaimed.symm

theorem Shut.turn {a : Action} (hphase : Opening s.cycle ∨ Opened e s.cycle) (h : Shut s.cycle)
    (hg : BeginPosted s a) (ht : Turn e s a κ') : Shut κ' := by
  have hclosing : s.owner.Closing → s.ctx.closed = true := by
    intro hpc
    rcases hphase with ho | ho
    · have := ho.owner
      simp only [Sys.cycle] at this
      rcases this with ho | ho <;> simp [ho, OwnerPc.Closing] at hpc
    · exact ho.closing hpc
  cases ht with
  | idle => exact h
  | counted => exact ⟨h.finishing, h.complete, h.releasing, h.unclosed, h.held, h.gone, h.same⟩
  | run w c f stack rest x hst hag hl => exact h.run hphase hg hst hag hl
  | event c rc error hd hposted =>
    refine ⟨fun v hv => h.finishing v ?_, h.complete, h.releasing, h.unclosed, h.held, h.gone, h.same⟩
    rcases eq_or_ne v 0 with rfl | hv0
    · simpa [Cycle.put] using hv
    · simpa [Cycle.put, hv0] using hv
  | owner c κ ho =>
    have hcomplete : s.ctx.shutdownComplete = true → s.ctx.bdevDescriptor = false := h.complete
    have hheld : s.ctx.bdevClaimed = false → s.ctx.shutdownComplete = true ∧ s.ctx.closed = true := h.held
    have hgone : s.owner = .closed ∨ s.owner = .closing ∧ s.ctx.closed = true → s.ctx.bdevClaimed = false := h.gone
    have hunclosed : s.owner = .constructing ∨ s.owner = .sleepingInitialization ∨ s.owner = .running →
        s.ctx.closed = false := h.unclosed
    have hsame : s.ctx.runtime = s.ctx.bdevClaimed := h.same
    cases ho with
    | checked hpc =>
      have hopen : s.ctx.closed = false := hunclosed (.inl hpc)
      refine ⟨h.finishing, hcomplete, fun hp => ?_, fun _ => hopen, hheld, fun hp => ?_, hsame⟩
      · cases hi : s.ctx.initializationComplete <;> cases hs : s.ctx.initializationSucceeded <;>
          simp [Sys.cycle, hi, hs] at hp
      · cases hi : s.ctx.initializationComplete <;> cases hs : s.ctx.initializationSucceeded <;>
          simp [Sys.cycle, hi, hs, hopen] at hp
    | wokenInitialization hpc =>
      exact ⟨h.finishing, hcomplete, by simp, fun _ => hunclosed (.inr (.inl hpc)), hheld, by simp, hsame⟩
    | wokenShutdown hpc => exact ⟨h.finishing, hcomplete, by simp, by simp, hheld, by simp, hsame⟩
    | close hpc =>
      refine ⟨h.finishing, hcomplete, by simp, by simp, hheld, fun hp => ?_, hsame⟩
      have hc : s.ctx.closed = true := by simpa [Sys.cycle] using hp
      rcases hpc with hpc | hpc
      · exact absurd ((hunclosed (.inr (.inr hpc))).symm.trans hc) (by simp)
      · exact hgone (.inl hpc)
    | closedAlready hpc hc =>
      exact ⟨h.finishing, hcomplete, by simp, by simp, hheld, fun _ => hgone (.inr ⟨hpc, hc⟩), hsame⟩
    | marked hpc hc hr =>
      exact ⟨h.finishing, hcomplete, by simp, by simp, fun hb => ⟨(hheld hb).1, rfl⟩, by simp, hsame⟩
    | nothingOpen hpc hc hd hw =>
      exact ⟨h.finishing, fun _ => hd, by simp, by simp, fun _ => ⟨rfl, rfl⟩, by simp, hsame⟩
    | requested hpc lastError code start hs =>
      refine ⟨h.finishing, hcomplete, fun hp => ?_, fun hp => ?_, hheld, fun hp => ?_, hsame⟩ <;>
        cases start <;> simp at hp
    | beginPosted hpc ha =>
      refine ⟨fun v hv => h.finishing v ?_, hcomplete, by simp, by simp, hheld, by simp, hsame⟩
      rcases eq_or_ne v 0 with rfl | hv0
      · simpa [Cycle.put] using hv
      · simpa [Cycle.put, hv0] using hv
    | beginFailed hpc rc lastError ha =>
      have hd : s.ctx.bdevDescriptor = false := (hg hpc).resolve_right ha
      exact ⟨h.finishing, fun _ => hd, by simp, by simp, fun hb => ⟨rfl, (hheld hb).2⟩, by simp, hsame⟩
    | waited hpc =>
      refine ⟨h.finishing, hcomplete, fun hp => ?_, fun hp => ?_, hheld, fun hp => ?_, hsame⟩ <;>
        cases hc : s.ctx.shutdownComplete <;> simp_all [Sys.cycle]
    | claimReleased hpc =>
      have hc : s.ctx.closed = true := hclosing (by rw [show s.owner = .releasing from hpc]; trivial)
      exact ⟨h.finishing, hcomplete, by simp, by simp, fun _ => ⟨h.releasing hpc, hc⟩, fun _ => rfl, rfl⟩
  | stops => exact ⟨h.finishing, h.complete, h.releasing, h.unclosed, h.held, h.gone, h.same⟩

/-- The claim is moved out by the owner at the end of `close()`, and by nobody else. -/
theorem owned_claim {c : SpdkBdevContext.Choice} (h : SpdkBdevContext.Owned e κ c κ') (hs : Shut κ) :
    κ'.ctx.bdevClaimed = (κ.ctx.bdevClaimed && !(κ.owner == .releasing && κ.ctx.bdevClaimed && κ.ctx.runtime)) ∧
    (κ.owner = .releasing → κ'.owner = .closed) := by
  have hsame := hs.same
  cases h with
  | checked hpc | wokenInitialization hpc | wokenShutdown hpc | closedAlready hpc | marked hpc | nothingOpen hpc
  | requested hpc | beginPosted hpc | beginFailed hpc | waited hpc =>
    rw [hpc]
    exact ⟨by simp [Cycle.put], by simp⟩
  | close hpc => rcases hpc with hpc | hpc <;> rw [hpc] <;> exact ⟨by simp, by simp⟩
  | claimReleased hpc =>
    rw [hpc]
    exact ⟨by cases hb : κ.ctx.bdevClaimed <;> simp [hsame, hb], fun _ => rfl⟩

theorem turn_claim {a : Action} (ht : Turn e s a κ') (hown : ∀ c, a ≠ .owner c) :
    κ'.ctx.bdevClaimed = s.ctx.bdevClaimed := by
  cases ht with
  | run w c f stack rest x hst h hl => exact (lived_shut hl).2.2.2.2.2.2
  | owner c => exact absurd rfl (hown c)
  | _ => rfl

/-! ## The contexts of a runtime -/

/-- What a context has done with its claim by the time it is where it is. -/
def Context.Kept (x : Context) : Prop :=
  match x.phase with
  | .absent | .claiming => x.claims = 0 ∧ x.releases = 0
  | .sending | .abandoning _ => x.claims = 1 ∧ x.releases = 0
  | .failed _ => x.claims = x.releases ∧ x.claims ≤ 1
  | .live s releasing =>
    x.claims = 1 ∧ x.releases = (if s.ctx.bdevClaimed || releasing then 0 else 1) ∧
    (releasing = true → s.ctx.bdevClaimed = false) ∧
    (Opening s.cycle ∨ Opened x.env s.cycle) ∧ Shut s.cycle

/-- The context has a claim and has not released it. -/
def Context.Holds (x : Context) : Prop := x.releases < x.claims

structure World.Exclusive (w : World) : Prop where
  kept : ∀ i, (w.context i).Kept
  claimed : ∀ n, n ∈ w.claimedBdevs ↔ ∃ i, (w.context i).Holds ∧ (w.context i).env.bdevName = n
  unique : ∀ i j, (w.context i).Holds → (w.context j).Holds →
    (w.context i).env.bdevName = (w.context j).env.bdevName → i = j

/-- No context fails to post the begin of its teardown with its descriptor open. -/
def BeginsPosted (w : World) : WorldAction → Prop
  | .context i a => ∀ s releasing, (w.context i).phase = .live s releasing → BeginPosted s a
  | _ => True

variable {w w' : World} {i : Nat} {y : Context}

@[simp] theorem setContext_context (w : World) (i j : Nat) (y : Context) :
    (w.setContext i y).context j = if j = i then y else w.context j := by
  simp [World.setContext, Function.update_apply]

/-- A context goes on with its claim as it was. -/
theorem World.Exclusive.go (h : w.Exclusive) (hk : y.Kept) (hh : y.Holds ↔ (w.context i).Holds)
    (hname : y.Holds → y.env.bdevName = (w.context i).env.bdevName) : (w.setContext i y).Exclusive := by
  have hsame : ∀ j, ((w.setContext i y).context j).Holds ↔ (w.context j).Holds := by
    intro j
    by_cases hj : j = i
    · subst hj
      simpa using hh
    · simp [hj]
  have hnames : ∀ j, (w.context j).Holds →
      ((w.setContext i y).context j).env.bdevName = (w.context j).env.bdevName := by
    intro j hj
    by_cases hji : j = i
    · subst hji
      simpa using hname (hh.2 hj)
    · simp [hji]
  refine ⟨fun j => ?_, fun n => (h.claimed n).trans ⟨?_, ?_⟩, fun j k hj hk hjk => ?_⟩
  · by_cases hj : j = i
    · subst hj
      simpa using hk
    · simpa [hj] using h.kept j
  · rintro ⟨j, hj, rfl⟩
    exact ⟨j, (hsame j).2 hj, hnames j hj⟩
  · rintro ⟨j, hj, rfl⟩
    exact ⟨j, (hsame j).1 hj, (hnames j ((hsame j).1 hj)).symm⟩
  · rw [hsame] at hj hk
    rw [hnames j hj, hnames k hk] at hjk
    exact h.unique j k hj hk hjk

/-- The contexts go on, each with its claim as it was. -/
theorem World.Exclusive.goAll (h : w.Exclusive) (hsame : w'.claimedBdevs = w.claimedBdevs)
    (hk : ∀ i, (w'.context i).Kept) (hh : ∀ i, (w'.context i).Holds ↔ (w.context i).Holds)
    (hname : ∀ i, (w'.context i).env = (w.context i).env) : w'.Exclusive := by
  refine ⟨hk, fun n => ?_, fun i j hi hj hij => ?_⟩
  · simp only [hsame, h.claimed, hh, hname]
  · rw [hname, hname] at hij
    exact h.unique i j ((hh i).1 hi) ((hh j).1 hj) hij

/-- A context acquires its claim. -/
theorem World.Exclusive.claim (h : w.Exclusive) (hk : y.Kept) (hh : y.Holds) (hno : ¬ (w.context i).Holds)
    (hfree : y.env.bdevName ∉ w.claimedBdevs) :
    World.Exclusive { w.setContext i y with claimedBdevs := insert y.env.bdevName w.claimedBdevs } := by
  have hother : ∀ j, (w.context j).Holds → j ≠ i := by
    rintro j hj rfl
    exact hno hj
  have hapart : ∀ j, (w.context j).Holds → (w.context j).env.bdevName ≠ y.env.bdevName := by
    intro j hj hname
    exact hfree ((h.claimed _).2 ⟨j, hj, hname⟩)
  refine ⟨fun j => ?_, fun n => ?_, fun j k hj hk hjk => ?_⟩
  · by_cases hj : j = i
    · subst hj
      simpa using hk
    · simpa [hj] using h.kept j
  · rw [Finset.mem_insert, h.claimed]
    constructor
    · rintro (rfl | ⟨j, hj, rfl⟩)
      · exact ⟨i, by simpa using hh, by simp⟩
      · exact ⟨j, by simpa [hother j hj] using hj, by simp [hother j hj]⟩
    · rintro ⟨j, hj, rfl⟩
      by_cases hji : j = i
      · subst hji
        exact .inl (by simp)
      · exact .inr ⟨j, by simpa [hji] using hj, by simp [hji]⟩
  · by_cases hji : j = i <;> by_cases hki : k = i
    · exact hji.trans hki.symm
    · simp only [setContext_context, hji, hki, if_true, if_false] at hk hjk
      exact absurd hjk.symm (hapart k hk)
    · simp only [setContext_context, hji, hki, if_true, if_false] at hj hjk
      exact absurd hjk (hapart j hj)
    · simp only [setContext_context, hji, hki, if_false] at hj hk hjk
      exact h.unique j k hj hk hjk

/-- A context releases its claim. -/
theorem World.Exclusive.release (h : w.Exclusive) (hk : y.Kept) (hh : (w.context i).Holds) (hno : ¬ y.Holds) :
    World.Exclusive { w.setContext i y with
      claimedBdevs := releaseBdev w.claimedBdevs (w.context i).env.bdevName } := by
  have hother : ∀ j, ((w.setContext i y).context j).Holds → j ≠ i ∧ (w.context j).Holds := by
    intro j hj
    by_cases hji : j = i
    · subst hji
      exact absurd (by simpa using hj) hno
    · exact ⟨hji, by simpa [hji] using hj⟩
  refine ⟨fun j => ?_, fun n => ?_, fun j k hj hk hjk => ?_⟩
  · by_cases hj : j = i
    · subst hj
      simpa using hk
    · simpa [hj] using h.kept j
  · rw [releaseBdev, Finset.mem_erase, h.claimed]
    constructor
    · rintro ⟨hne, j, hj, rfl⟩
      have hji : j ≠ i := by
        rintro rfl
        exact hne rfl
      exact ⟨j, by simpa [hji] using hj, by simp [hji]⟩
    · rintro ⟨j, hj, rfl⟩
      obtain ⟨hji, hj⟩ := hother j hj
      simp only [setContext_context, hji, if_false]
      exact ⟨fun hname => hji (h.unique j i hj hh hname), j, hj, rfl⟩
  · obtain ⟨hji, hj⟩ := hother j hj
    obtain ⟨hki, hk⟩ := hother k hk
    simp only [setContext_context, hji, hki, if_false] at hjk
    exact h.unique j k hj hk hjk

/-- A step of a live context leaves it with its claim, or has just moved it out of the members. -/
theorem liveStep_kept {env : Env} {releasing : Bool} {a : Action} {p : Sys × Bool} {claims releases : Nat}
    (hk : Context.Kept ⟨env, .live s releasing, claims, releases⟩) (hg : BeginPosted s a)
    (h : liveStep env s releasing a = some p) : Context.Kept ⟨env, .live p.1 p.2, claims, releases⟩ := by
  obtain ⟨hclaims, hreleases, hmoved, hphase, hshut⟩ := hk
  -- the life cycle's own invariants
  have hcycle : ∀ a s', BeginPosted s a → step env s a = some s' →
      (Opening s'.cycle ∨ Opened env s'.cycle) ∧ Shut s'.cycle := by
    intro a s' hg hs
    have hturn := step_turn hs
    refine ⟨?_, hshut.turn hphase hg hturn⟩
    rcases hphase with ho | ho
    · exact (ho.turn hturn).imp_right And.left
    · exact .inr (ho.turn hturn)
  -- another thread's step
  have hother : ∀ a, (∀ c, a ≠ .owner c) → BeginPosted s a →
      ((step env s a).map fun s' => (s', releasing)) = some p →
      Context.Kept ⟨env, .live p.1 p.2, claims, releases⟩ := by
    intro a hown hg hs
    obtain ⟨s', hstep, rfl⟩ := Option.map_eq_some_iff.1 hs
    have hclaim : s'.ctx.bdevClaimed = s.ctx.bdevClaimed := turn_claim (step_turn hstep) hown
    refine ⟨hclaims, ?_, ?_, hcycle a s' hg hstep⟩
    · simpa [hclaim] using hreleases
    · simpa [hclaim] using hmoved
  cases a with
  | runtimeStops => cases h
  | owner c =>
    simp only [liveStep] at h
    split at h
    · cases h
    · rename_i hidle
      obtain ⟨s', hs, rfl⟩ := Option.map_eq_some_iff.1 h
      obtain ⟨hclaim, -⟩ := owned_claim (ownerStep_owned hs) hshut
      have hclaim : s'.ctx.bdevClaimed =
          (s.ctx.bdevClaimed && !(s.owner == .releasing && s.ctx.bdevClaimed && s.ctx.runtime)) := hclaim
      have hidle : releasing = false := by simpa using hidle
      refine ⟨hclaims, ?_, ?_, hcycle (.owner c) s' hg hs⟩
      · refine hreleases.trans ?_
        dsimp only
        rw [hclaim, hidle]
        cases s.ctx.bdevClaimed <;> cases s.owner == .releasing <;> cases s.ctx.runtime <;> rfl
      · dsimp only
        rw [hclaim]
        cases s.ctx.bdevClaimed <;> cases s.owner == .releasing <;> cases s.ctx.runtime <;> simp
  | reactor v c => exact hother (.reactor v c) (fun _ => nofun) hg h
  | caller b c => exact hother (.caller b c) (fun _ => nofun) hg h
  | submit operation items memory => exact hother (.submit operation items memory) (fun _ => nofun) hg h
  | transfer v k n => exact hother (.transfer v k n) (fun _ => nofun) hg h
  | disturb v k noise => exact hother (.disturb v k noise) (fun _ => nofun) hg h

theorem exclusive_step {a : WorldAction} (h : w.Exclusive) (hg : BeginsPosted w a) (hs : worldStep w a = some w') :
    w'.Exclusive := by
  cases a with
  | construct i env error =>
    have hk := h.kept i
    simp only [worldStep] at hs
    split at hs
    · rename_i hphase
      cases hs
      have hno : ¬ (w.context i).Holds := by
        simp only [Context.Kept, hphase] at hk
        simp [Context.Holds, hk]
      cases error with
      | none => exact h.go ⟨rfl, rfl⟩ ⟨nofun, fun hh => absurd hh hno⟩ nofun
      | some error => exact h.go ⟨rfl, Nat.zero_le 1⟩ ⟨nofun, fun hh => absurd hh hno⟩ nofun
    · cases hs
  | claim i =>
    have hk := h.kept i
    simp only [worldStep] at hs
    split at hs
    · rename_i hphase
      simp only [Context.Kept, hphase] at hk
      obtain ⟨hclaims, hreleases⟩ := hk
      have hno : ¬ (w.context i).Holds := by simp [Context.Holds, hclaims]
      split at hs
      · cases hs
        refine h.go ?_ Iff.rfl fun _ => rfl
        simp [Context.Kept, hclaims, hreleases]
      · rename_i claimed hclaim
        cases hs
        unfold claimBdev at hclaim
        split at hclaim
        · cases hclaim
        · rename_i hfree
          cases hclaim
          refine h.claim (y := { w.context i with phase := .sending, claims := (w.context i).claims + 1 })
            ?_ ?_ hno hfree
          · simp [Context.Kept, hclaims, hreleases]
          · simp [Context.Holds, hclaims, hreleases]
    · cases hs
  | send i rc device =>
    have hk := h.kept i
    simp only [worldStep] at hs
    split at hs
    · rename_i hphase
      simp only [Context.Kept, hphase] at hk
      cases hs
      refine h.go ?_ Iff.rfl fun _ => rfl
      split
      · exact hk
      · split
        · exact hk
        · exact ⟨hk.1, hk.2, nofun, .inl (init_opening device), init_shut device⟩
    · cases hs
  | abandon i =>
    have hk := h.kept i
    simp only [worldStep] at hs
    split at hs
    · rename_i error hphase
      simp only [Context.Kept, hphase] at hk
      obtain ⟨hclaims, hreleases⟩ := hk
      cases hs
      refine h.release ?_ ?_ ?_ <;> simp [Context.Kept, Context.Holds, hclaims, hreleases]
    · cases hs
  | context i a =>
    have hk := h.kept i
    simp only [worldStep] at hs
    split at hs
    · rename_i s releasing hphase
      obtain ⟨p, hp, rfl⟩ := Option.map_eq_some_iff.1 hs
      refine h.go ?_ Iff.rfl fun _ => rfl
      have hlive : Context.Kept { w.context i with phase := .live s releasing } := by
        simpa only [Context.Kept, hphase] using hk
      exact liveStep_kept hlive (hg s releasing hphase) hp
    · cases hs
  | release i =>
    have hk := h.kept i
    simp only [worldStep] at hs
    split at hs
    · rename_i s hphase
      simp only [Context.Kept, hphase] at hk
      obtain ⟨hclaims, hreleases, hmoved, hlife, hshut⟩ := hk
      have hmoved : s.ctx.bdevClaimed = false := hmoved trivial
      simp only [Bool.or_true, if_true] at hreleases
      cases hs
      refine h.release ⟨hclaims, ?_, nofun, hlife, hshut⟩ ?_ ?_
      · simp [hreleases, hmoved]
      · simp [Context.Holds, hclaims, hreleases]
      · simp [Context.Holds, hclaims, hreleases]
    · cases hs
  | runtimeStops =>
    cases hs
    refine h.goAll rfl (fun i => ?_) (fun i => ?_) fun i => ?_
    · have hk := h.kept i
      dsimp only
      split
      · rename_i s releasing hphase
        simp only [Context.Kept, hphase] at hk
        obtain ⟨hclaims, hreleases, hmoved, hlife, hshut⟩ := hk
        have hturn : Turn (w.context i).env s .runtimeStops { s.cycle with runtimeAvailable := false } := .stops
        refine ⟨hclaims, hreleases, hmoved, ?_, hshut.turn (a := .runtimeStops) hlife trivial hturn⟩
        rcases hlife with ho | ho
        · exact (ho.turn hturn).imp_right And.left
        · exact .inr (ho.turn hturn)
      · exact hk
    · dsimp only
      split <;> exact Iff.rfl
    · dsimp only
      split <;> rfl

theorem empty_exclusive : World.Exclusive {} :=
  ⟨fun _ => ⟨rfl, rfl⟩, fun n => by simp [Context.Holds], fun i j hi => by simp [Context.Holds] at hi⟩

/-- An open descriptor belongs to a context that holds its claim. -/
theorem descriptorOpen_holds (hk : y.Kept) (ho : y.descriptorOpen = true) : y.Holds := by
  unfold Context.descriptorOpen at ho
  split at ho
  · rename_i s releasing hphase
    simp only [Context.Kept, hphase] at hk
    obtain ⟨hclaims, hreleases, hmoved, hlife, hshut⟩ := hk
    have hclaimed : s.ctx.bdevClaimed = true := by
      by_contra hno
      have hd := hshut.complete (hshut.held (by simpa [Sys.cycle] using hno)).1
      exact absurd (ho.symm.trans hd) (by simp)
    rw [hclaimed] at hreleases
    simp [Context.Holds, hclaims, hreleases]
  · cases ho

theorem kept_finished (hk : y.Kept) :
    y.releases ≤ y.claims ∧ y.claims ≤ 1 ∧ (y.finished = true → y.releases = y.claims) := by
  unfold Context.Kept at hk
  unfold Context.finished
  split at hk
  · rename_i hphase
    exact ⟨by omega, by omega, fun _ => by omega⟩
  · exact ⟨by omega, by omega, fun _ => by omega⟩
  · exact ⟨by omega, by omega, by simp_all⟩
  · exact ⟨by omega, by omega, by simp_all⟩
  · exact ⟨by omega, by omega, fun _ => by omega⟩
  · rename_i s releasing hphase
    obtain ⟨hclaims, hreleases, hmoved, hlife, hshut⟩ := hk
    refine ⟨by split at hreleases <;> omega, by omega, fun hf => ?_⟩
    simp only [hphase, Bool.and_eq_true, beq_iff_eq, Bool.not_eq_true'] at hf
    obtain ⟨hpc, hidle⟩ := hf
    have hgone : s.ctx.bdevClaimed = false := hshut.gone (.inl hpc)
    simpa [hgone, hidle, hclaims] using hreleases

/-- **Exclusive ownership**: in every run in which no context with an open descriptor fails to post the begin
of its teardown, at most one context has a bdev's descriptor open; a context releases a claim only if it has
acquired one, at most once, and has done so once its constructor has thrown or `close()` has returned; and
a context that has released its claim has its descriptor closed. -/
theorem exclusive_ownership {as : List WorldAction} (hg : Guarded worldStep BeginsPosted {} as)
    (h : runFrom worldStep {} as = some w) :
    (∀ i j, (w.context i).descriptorOpen = true → (w.context j).descriptorOpen = true →
      (w.context i).env.bdevName = (w.context j).env.bdevName → i = j) ∧
    (∀ i, (w.context i).releases ≤ (w.context i).claims ∧ (w.context i).claims ≤ 1 ∧
      ((w.context i).finished = true → (w.context i).releases = (w.context i).claims)) ∧
    ∀ i, 0 < (w.context i).releases → (w.context i).descriptorOpen = false := by
  have hinv : w.Exclusive := run_invariant (fun _ _ _ hi ha hs => exclusive_step hi ha hs) empty_exclusive hg h
  refine ⟨fun i j hi hj => ?_, fun i => kept_finished (hinv.kept i), fun i hr => ?_⟩
  · exact hinv.unique i j (descriptorOpen_holds (hinv.kept i) hi) (descriptorOpen_holds (hinv.kept j) hj)
  · by_contra ho
    have hholds := descriptorOpen_holds (hinv.kept i) (by simpa using ho)
    have hclaims := (kept_finished (hinv.kept i)).2.1
    unfold Context.Holds at hholds
    omega

/-- Context `i` claims the bdev and opens it. -/
def claimRun (i : Nat) : List WorldAction :=
  [.construct i smallEnv none, .claim i, .send i 0 Nat.toUInt8] ++ openRun.map (.context i)

/-- It is closed; the post that begins the teardown returns `rc`, and the application reactor takes `steps`. -/
def releaseRun (i : Nat) (rc : Int) (steps : List Action) : List WorldAction :=
  let asked : List Action := [.owner .next, .owner .next, .owner .next, .owner (.code rc)]
  let seen : List Action := [.owner .next, .owner .next]
  (asked ++ steps ++ seen).map (.context i) ++ [.release i]

/-- The teardown of one worker. -/
def teardownRun : List Action := .reactor 0 .message :: List.replicate 8 (.reactor 0 .next)

instance (s : Sys) : ∀ a, Decidable (BeginPosted s a)
  | .reactor _ (.code _) | .owner (.code _) => inferInstanceAs (Decidable (_ → _))
  | .reactor _ .next | .reactor _ (.submit ..) | .reactor _ (.fire _) | .reactor _ (.reject ..)
  | .reactor _ (.setUp ..) | .reactor _ .message | .reactor _ (.completion ..) | .reactor _ (.ioWait _)
  | .reactor _ .resize | .reactor _ .remove | .owner .next | .owner (.submit ..) | .owner (.fire _)
  | .owner (.reject ..) | .owner (.setUp ..) | .owner .message | .owner (.completion ..) | .owner (.ioWait _)
  | .owner .resize | .owner .remove | .caller .. | .submit .. | .transfer .. | .disturb .. | .runtimeStops =>
    isTrue trivial

instance (w : World) : ∀ a, Decidable (BeginsPosted w a)
  | .context i a =>
    match h : (w.context i).phase with
    | .live s releasing => decidable_of_iff (BeginPosted s a)
        ⟨fun hb s' r hs => by cases h.symm.trans hs; exact hb, fun hb => hb s releasing h⟩
    | .absent | .claiming | .sending | .abandoning _ | .failed _ => isTrue fun s' r hs => nomatch h.symm.trans hs
  | .construct .. | .claim _ | .send .. | .abandon _ | .release _ | .runtimeStops => isTrue trivial

/-- Context 1 waits to claim the bdev, and keeps the runtime, while context 0 has it. -/
def handoverRun (rc : Int) (steps : List Action) : List WorldAction :=
  claimRun 0 ++ .construct 1 smallEnv none :: releaseRun 0 rc steps ++ (claimRun 1).tail

theorem exclusive_ownership_twice : ∃ w, runFrom worldStep {} (handoverRun 0 teardownRun) = some w ∧
    (w.context 0).releases = 1 ∧ (w.context 0).descriptorOpen = false ∧ (w.context 1).descriptorOpen = true := by
  have hrun : runFrom worldStep {} (handoverRun 0 teardownRun) = some _ := rfl
  have hguard : Guarded worldStep BeginsPosted {} (handoverRun 0 teardownRun) := by decide +kernel
  obtain ⟨-, -, hclosed⟩ := exclusive_ownership hguard hrun
  exact ⟨_, hrun, rfl, hclosed 0 Nat.one_pos, rfl⟩

/-- The post that begins the teardown of context 0 fails: it releases its claim with its descriptor open, and
context 1 claims and opens the same bdev. -/
theorem ownership_broken : ∃ w, runFrom worldStep {} (handoverRun enomem []) = some w ∧
    (w.context 0).releases = 1 ∧ (w.context 0).descriptorOpen = true ∧ (w.context 1).descriptorOpen = true ∧
    (w.context 0).env.bdevName = (w.context 1).env.bdevName :=
  ⟨_, rfl, rfl, rfl, rfl, rfl⟩

end SpdkRuntime
end SpdkConnector
