import SpdkConnector.Context.Teardown
import SpdkConnector.Context.Leases

/-!
# Before the teardown

As long as `shutdown_started_` is unset no call that tears a worker down is on a stack or in a ring
(`Calm`), so no pool has been released: what the moves keep without a released pool holds in every state
before the teardown.
-/

namespace SpdkConnector
namespace SpdkBdevContext

open Interleaving

variable {e : Env} {s s' : Sys} {κ' : Cycle} {w : Nat} {f : LifeFrame} {rest : List LifeFrame} {x : Effect}

/-- A call that tears a worker down, or leads to one. -/
def LifeFrame.Tearing : LifeFrame → Prop
  | .postShutdown _ | .shutdownIoWorker | .releaseIoWorker => True
  | _ => False

/-- No worker is torn down before the teardown starts. -/
def Cycle.Calm (κ : Cycle) : Prop :=
  κ.ctx.shutdownStarted = false → ∀ v, ∀ g ∈ κ.agenda v, ¬ g.Tearing

theorem lived_calm {c : Members} {ch : Choice} {available : Bool} (hl : Lived e available c w f ch x)
    (hf : ¬ f.Tearing) (hs : x.ctx.shutdownStarted = false) :
    (∀ g ∈ x.calls, ¬ g.Tearing) ∧ ∀ u g, x.post = some (u, g) → ¬ g.Tearing := by
  cases hl with
  | begun => cases hs
  | shutdownPosted | shutdownFailed | shutdownOwn | flushed | flushedAll | released => exact absurd trivial hf
  | initializedLast error lastError =>
    refine ⟨?_, by simp⟩
    cases lastError == "" <;> simp [LifeFrame.Tearing]
  | requested rc error lastError code start =>
    refine ⟨?_, by simp⟩
    cases start <;> simp [LifeFrame.Tearing]
  | acknowledged =>
    refine ⟨?_, by simp⟩
    dsimp only
    split <;> simp [LifeFrame.Tearing]
  | setUpPosted | beginPosted | finishPosted =>
    refine ⟨by simp [LifeFrame.Tearing], fun u g hg => ?_⟩
    cases hg
    exact id
  | _ => exact ⟨by simp [LifeFrame.Tearing], by simp⟩

/-- `shutdown_started_` is never unset, and a turn that does not set it starts no teardown. -/
theorem turn_calm {a : Action} (h : s.cycle.Calm) (ht : Turn e s a κ') :
    (κ'.ctx.shutdownStarted = false → s.ctx.shutdownStarted = false) ∧ κ'.Calm := by
  have hpost : ∀ (c : Members) (pc : OwnerPc) (g : LifeFrame), c.shutdownStarted = s.ctx.shutdownStarted →
      ¬ g.Tearing → Cycle.Calm { s.cycle.put 0 (s.cycle.agenda 0 ++ [g]) with ctx := c, owner := pc } := by
    intro c pc g hc hg hs v g' hg'
    rcases eq_or_ne v 0 with rfl | hv
    · simp only [Cycle.put, Function.update_self, List.mem_append, List.mem_singleton] at hg'
      rcases hg' with hg' | rfl
      · exact h (hc ▸ hs) 0 g' hg'
      · exact hg
    · simp only [Cycle.put, ne_eq, hv, not_false_eq_true, Function.update_of_ne] at hg'
      exact h (hc ▸ hs) v g' hg'
  cases ht with
  | idle => exact ⟨id, h⟩
  | counted => exact ⟨id, h⟩
  | stops => exact ⟨id, h⟩
  | run w c f stack rest x hst hag hl =>
    have hmono : x.ctx.shutdownStarted = false → s.ctx.shutdownStarted = false := by
      intro hs
      by_contra hstarted
      rw [(lived_monotone hl).2.2.1 (by simpa using hstarted)] at hs
      cases hs
    refine ⟨hmono, fun hs v g hg => ?_⟩
    have hcalm := h (hmono hs)
    obtain ⟨hcalls, hposted⟩ := lived_calm hl (hcalm w f (hag ▸ List.mem_cons_self)) hs
    rcases mem_run hag hg with hg' | ⟨-, hg'⟩ | hg'
    · exact hcalm v g hg'
    · exact hcalls g hg'
    · exact hposted v g hg'
  | event c rc error hd hposted =>
    refine ⟨id, fun hs v g hg => ?_⟩
    rcases eq_or_ne v 0 with rfl | hv
    · simp only [Cycle.put, Function.update_self, List.mem_cons] at hg
      rcases hg with rfl | hg
      · exact id
      · exact h hs 0 g hg
    · simp only [Cycle.put, ne_eq, hv, not_false_eq_true, Function.update_of_ne] at hg
      exact h hs v g hg
  | owner c κ ho =>
    cases ho with
    | beginPosted => exact ⟨id, hpost s.ctx _ _ rfl id⟩
    | _ => exact ⟨id, h⟩

theorem init_calm (device : Nat → UInt8) : (Sys.init device).cycle.Calm := by
  intro _ v g hg
  rcases eq_or_ne v 0 with rfl | hv
  · simp [Sys.cycle, Reactor.agenda, Sys.init, Msg.frame, Frame.life?] at hg
    subst hg
    exact id
  · simp [Sys.cycle, Reactor.agenda, Sys.init, hv] at hg

/-- A callback on a reactor's stack is on its agenda. -/
theorem stack_agenda {f : LifeFrame} (h : .life f ∈ (s.reactor w).stack) : f ∈ s.cycle.agenda w :=
  List.mem_append_left _ (List.mem_filterMap.2 ⟨_, h, rfl⟩)

/-- No call on a stack tears a worker down. -/
def Sys.Calm (s : Sys) : Prop := ∀ w f, .life f ∈ (s.reactor w).stack → ¬ f.Tearing

/-- **Induction before the teardown**: what holds at the start and is kept by every step of a state in which
no worker is being torn down holds of every run that has not started the teardown. -/
theorem calm_observed {ε : Type} (obs : Sys → Action → List ε) {device : Nat → UInt8} {ok : Sys → Action → Prop}
    {I : List ε → Sys → Prop} (hinit : I [] (Sys.init device))
    (hstep : ∀ es s a s', s.Calm → I es s → ok s a → step e s a = some s' → I (es ++ obs s a) s') {as : List Action}
    (hok : Guarded (step e) ok (Sys.init device) as) (h : runFrom (step e) (Sys.init device) as = some s)
    (hcalm : s.ctx.shutdownStarted = false) : s.Calm ∧ I (observed (step e) obs (Sys.init device) as) s := by
  have hrun := run_observed obs [] (I := fun es s => s.cycle.Calm ∧ (s.ctx.shutdownStarted = false → I es s)) ?_
    ⟨init_calm device, fun _ => hinit⟩ hok h
  · exact ⟨fun w f hf => hrun.1 hcalm w f (stack_agenda hf), by simpa using hrun.2 hcalm⟩
  · rintro es s1 a s2 ⟨hcalm1, hi⟩ hoka hs
    obtain ⟨hmono, hcalm2⟩ := turn_calm hcalm1 (step_turn hs)
    refine ⟨hcalm2, fun hs2 => ?_⟩
    exact hstep es s1 a s2 (fun w f hf => hcalm1 (hmono hs2) w f (stack_agenda hf)) (hi (hmono hs2)) hoka hs

/-- What is known of the requests before the teardown. -/
structure Quiet (e : Env) (device : Nat → UInt8) (marks : Mark → Prop) (s : Sys) (κ : Core) : Prop where
  moves : Moves e (Core.init device) κ
  tracks : Tracks s κ
  consistent : Consistent e κ
  marked : ∀ m, κ.marks m → marks m

theorem init_quiet (device : Nat → UInt8) (marks : Mark → Prop) :
    Quiet e device marks (Sys.init device) (Core.init device) :=
  ⟨.refl, init_tracks device, init_consistent e device, fun _ hm => hm.elim⟩

theorem init_pooled (device : Nat → UInt8) : Pooled (Core.init device) where
  pool _ := ⟨SpdkBufferPool.new_wf, List.nodup_nil⟩
  lease _ _ hl := hl.elim
  alone _ _ _ hl := hl.elim
  owned _ k hk := by simp [Core.init, SpdkBufferPool.Leased] at hk

theorem Quiet.pooled {device : Nat → UInt8} {marks : Mark → Prop} {κ : Core} (h : Quiet e device marks s κ)
    (hmarks : ¬ marks .released) : Pooled κ :=
  moves_pooled (init_pooled device) (init_consistent e device) h.moves fun hr => hmarks (h.marked _ hr)

/-- The moves of a step before the teardown release no pool. -/
theorem quiet_step {device : Nat → UInt8} {marks : Mark → Prop} {κ : Core} {a : Action} (hcalm : s.Calm)
    (hmarks : ∀ m, stepMarks s a m → m = .released ∨ marks m) (hq : Quiet e device marks s κ)
    (hstep : step e s a = some s') : ∃ κ', Moves e κ κ' ∧ Quiet e device marks s' κ' := by
  obtain ⟨hm, ht, hc, hκ⟩ := hq
  obtain ⟨κ1, hm1, ht1, hnew⟩ := step_follows ht hc hstep
  refine ⟨κ1, hm1, hm.trans hm1, ht1, moves_consistent hc hm1, fun m hmm => ?_⟩
  rcases hnew m hmm with hmm | hmm
  · exact hκ m hmm
  · refine (hmarks m hmm).resolve_left ?_
    -- a pool is released by a call of the teardown
    rintro rfl
    cases a with
    | reactor w c =>
      obtain ⟨-, f, rest, hst, hf⟩ := hmm
      refine hcalm w f (hst ▸ List.mem_cons_self) ?_
      cases f <;> simp_all [LifeFrame.Releases, LifeFrame.Tearing]
    | caller b c => cases hmm
    | submit operation items memory => exact nomatch hmm.1
    | owner c => exact hmm
    | transfer w k n => exact hmm
    | disturb w k noise => exact hmm
    | runtimeStops => exact hmm

/-- **Every run before the teardown is a sequence of moves that release no pool.** -/
theorem calm_follows {device : Nat → UInt8} {ok : Sys → Action → Prop} {marks : Mark → Prop}
    (hmarks : ∀ s a m, ok s a → stepMarks s a m → m = .released ∨ marks m) {as : List Action}
    (hok : Guarded (step e) ok (Sys.init device) as) (h : runFrom (step e) (Sys.init device) as = some s)
    (hcalm : s.ctx.shutdownStarted = false) : ∃ κ, Quiet e device marks s κ := by
  refine (calm_observed (fun _ _ => ([] : List Unit)) (I := fun _ s => ∃ κ, Quiet e device marks s κ)
    ⟨_, init_quiet device marks⟩ ?_ hok h hcalm).2
  rintro - s1 a s2 hcalm1 ⟨κ, hq⟩ hoka hstep
  obtain ⟨κ', -, hq'⟩ := quiet_step hcalm1 (fun m => hmarks s1 a m hoka) hq hstep
  exact ⟨κ', hq'⟩

end SpdkBdevContext
end SpdkConnector
