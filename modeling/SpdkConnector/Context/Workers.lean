import SpdkConnector.Context.Teardown
import SpdkConnector.Context.Waiters

/-!
# The workers of the requests

A batch is admitted once construction has succeeded, and from then on the context has the workers it was
configured with: every request is on one of them (`Placed`).
-/

namespace SpdkConnector
namespace SpdkBdevContext

open Interleaving

variable {e : Env} {s s' : Sys} {κ κ' : Core} {ζ : Cycle} {b : Nat}

/-- Every request is on one of the workers. -/
def Placed (s : Sys) : Prop :=
  ∀ b i, i < (s.batch b).items.length → (s.request (b, i)).worker < s.ctx.ioWorkers

theorem move_worker (hc : Consistent e κ) (hm : Move e κ κ') {r : Ref} (h : κ.stage r ≠ .absent) :
    (κ'.request r).worker = (κ.request r).worker := by
  have hupdate : ∀ (r' : Ref) (q : IoRequest), q.worker = (κ.request r').worker →
      (Function.update κ.request r' q r).worker = (κ.request r).worker := by
    intro r' q hq
    rcases eq_or_ne r r' with rfl | hr
    · rw [Function.update_self, hq]
    · rw [Function.update_of_ne hr]
  cases hm with
  | submit b op items memory pc req hnew =>
    have hold : ¬ (r.1 = b ∧ r.2 < items.length) := by
      rintro ⟨rfl, -⟩
      refine h ((hc.absent_iff r.1 r.2).2 ?_)
      rw [hc.idle_items _ hnew]
      exact Nat.zero_le _
    simp only [hold, if_false]
  | note r' q hq => exact hupdate r' q hq.1
  | accept r' k => exact hupdate r' _ rfl
  | report r' => exact hupdate r' _ rfl
  | deliver r' k =>
    refine (hupdate r' { κ.request r' with copied := some (κ.stagedBytes r' k) } rfl).symm ▸ ?_
    simp only [Core.finish, Core.copy, Core.setRequest, Core.setStage, Core.setBatch, Core.setPool]
    rcases eq_or_ne r r' with rfl | hr
    · simp
    · simp [hr]
  | finish r' => exact hupdate r' _ rfl
  | complete r' => exact hupdate r' _ rfl
  | _ => rfl

/-- A request that has been built stays built. -/
theorem move_built (hc : Consistent e κ) (hm : Move e κ κ') {r : Ref} (h : κ.stage r ≠ .absent) :
    κ'.stage r ≠ .absent := by
  have hlt : r.2 < (κ.batch r.1).items.length := by
    rw [← Nat.not_le, ← hc.absent_iff]
    exact h
  have hcaller : (κ.batch r.1).caller ≠ .absent := by
    intro hidle
    rw [hc.idle_items _ hidle] at hlt
    exact Nat.not_lt_zero _ hlt
  rw [show r = (r.1, r.2) from rfl, Ne, (move_consistent hc hm).absent_iff, (move_present hm hcaller).2.1]
  exact Nat.not_le.2 hlt

theorem moves_worker (hc : Consistent e κ) (hm : Moves e κ κ') {r : Ref} (h : κ.stage r ≠ .absent) :
    κ'.stage r ≠ .absent ∧ (κ'.request r).worker = (κ.request r).worker := by
  induction hm with
  | refl => exact ⟨h, rfl⟩
  | tail hm hlast ih =>
    have hc' := moves_consistent hc hm
    exact ⟨move_built hc' hlast ih.1, (move_worker hc' hlast ih.1).trans ih.2⟩

/-- A batch gets its items when it is admitted. -/
theorem step_items (ht : Tracks s κ) (hc : Consistent e κ) {a : Action} (h : step e s a = some s') (b : Nat) :
    (s'.batch b).items = (s.batch b).items ∨
    s.ctx.initializationSucceeded = true ∧
      ∀ i < (s'.batch b).items.length, (s'.request (b, i)).worker < s.ctx.ioWorkers := by
  obtain ⟨κ', hm, ht', -⟩ := step_follows ht hc h
  have hc' := moves_consistent hc hm
  by_cases hidle : (s.batch b).caller = .absent
  · have hempty : (s'.batch b).caller = .absent → (s'.batch b).items = (s.batch b).items := by
      intro hidle'
      have h1 := hc.idle_items b (by rw [ht.batch]; exact hidle)
      have h2 := hc'.idle_items b (by rw [ht'.batch]; exact hidle')
      rw [ht.batch] at h1
      rw [ht'.batch] at h2
      rw [h1, h2]
    have hcalled := step_called ht h b
    generalize hpc : (s'.batch b).caller = pc at hcalled
    cases hcalled with
    | same => exact .inl (hempty (hpc.trans hidle))
    | woken w c rest hst hsleep => exact absurd (hidle.symm.trans hsleep) nofun
    | went c pc hlive => exact absurd hidle hlive.1
    | submitted operation items memory todo =>
      simp only [step] at h
      split at h
      · cases h
        obtain ⟨n, m, heq⟩ | ⟨-, -, -, hsucceeded, hworkers, n, m, heq⟩ :=
          submitBatch_cases e s operation items memory
        · rw [heq]
          exact .inl rfl
        · rw [heq]
          rcases eq_or_ne b s.batches with rfl | hb
          · refine .inr ⟨hsucceeded, fun i hi => ?_⟩
            simp only [Function.update_self] at hi
            simp only [true_and, hi, if_true, makeRequest]
            exact Nat.mod_lt _ (Nat.pos_of_ne_zero hworkers)
          · simp [hb]
      · cases h
  · left
    have h1 := (moves_present hm (by rw [ht.batch]; exact hidle)).2.1
    rwa [ht.batch, ht'.batch] at h1

/-- A dispatch goes to one of the workers. -/
theorem sending_placed {b : Nat} {d : IoWorkerDispatch} {todo : List IoWorkerDispatch} (ht : Tracks s κ)
    (hc : Consistent e κ) (h : Placed s) (hpc : (s.batch b).caller = .sending d todo) : d.worker < s.ctx.ioWorkers := by
  obtain ⟨hne, hworker⟩ := ht.tidy.dispatches b d (by rw [hpc]; exact List.mem_cons_self)
  obtain ⟨r, hr⟩ := List.exists_mem_of_ne_nil _ hne
  obtain ⟨hheld, rfl⟩ := ht.held (b := b) (r := r) (by rw [hpc]; exact List.mem_append_left _ hr)
  have hlt : r.2 < (s.batch r.1).items.length := by
    rw [← Nat.not_le, ← ht.batch, ← hc.absent_iff]
    rw [show κ.stage (r.1, r.2) = .held from hheld]
    nofun
  exact (hworker r hr) ▸ h r.1 r.2 hlt

/-! ## Before and after the opening -/

theorem Opening.turn_succeeded {a : Action} (h : Opening s.cycle) (ht : Turn e s a ζ) :
    ζ.ctx.initializationSucceeded = s.ctx.initializationSucceeded := by
  obtain ⟨f, hag, hf⟩ := h.agenda
  cases ht with
  | run w c g stack rest x hst hg hl =>
    have hearly : g.Early := by
      rcases eq_or_ne w 0 with rfl | hw
      · rw [hag, Function.update_self, List.cons.injEq] at hg
        obtain ⟨rfl, -⟩ := hg
        rcases hf with ⟨rfl, -⟩ | ⟨rfl, -⟩ <;> trivial
      · rw [hag, Function.update_of_ne hw] at hg
        cases hg
    show x.ctx.initializationSucceeded = _
    cases hl with
    | openFailed | opened | rejected | configured => rfl
    | _ => exact hearly.elim
  | owner c ζ ho => cases ho <;> rfl
  | _ => rfl

theorem Opened.turn_workers {a : Action} (h : Opened e s.cycle) (ht : Turn e s a ζ) :
    ζ.ctx.ioWorkers = s.ctx.ioWorkers := by
  cases ht with
  | run w c f stack rest x hst hag hl =>
    exact (lived_same hl (h.confined w f (hag ▸ List.mem_cons_self)).2).1
  | owner c ζ ho => cases ho <;> rfl
  | _ => rfl

/-- The bdev is being opened and no batch has been admitted, or the workers are there. -/
inductive Manned (e : Env) (s : Sys) : Prop
  | opening (h : Opening s.cycle) (hfailed : s.ctx.initializationSucceeded = false)
      (hnone : ∀ b, (s.batch b).items = [])
  | opened (h : Opened e s.cycle) (hplaced : Placed s)

theorem Manned.placed (h : Manned e s) : Placed s := by
  cases h with
  | opening _ _ hnone =>
    intro b i hi
    rw [hnone] at hi
    exact absurd hi (Nat.not_lt_zero i)
  | opened _ hplaced => exact hplaced

theorem manned_step (ht : Tracks s κ) (hc : Consistent e κ) (h : Manned e s) {a : Action}
    (hs : step e s a = some s') : Manned e s' := by
  have hturn := step_turn hs
  cases h with
  | opening ho hfailed hnone =>
    have hnone' : ∀ b, (s'.batch b).items = [] := by
      intro b
      rcases step_items ht hc hs b with hsame | ⟨hsucceeded, -⟩
      · rw [hsame, hnone]
      · rw [hfailed] at hsucceeded
        cases hsucceeded
    rcases ho.turn hturn with ho' | ⟨ho', -⟩
    · exact .opening ho' ((ho.turn_succeeded hturn).trans hfailed) hnone'
    · refine .opened ho' fun b i hi => ?_
      rw [hnone'] at hi
      exact absurd hi (Nat.not_lt_zero i)
  | opened ho hplaced =>
    refine .opened (ho.turn hturn) fun b i hi => ?_
    have hworkers : s'.ctx.ioWorkers = s.ctx.ioWorkers := ho.turn_workers hturn
    rw [hworkers]
    rcases step_items ht hc hs b with hsame | ⟨-, hnew⟩
    · rw [hsame] at hi
      obtain ⟨κ', hm, ht', -⟩ := step_follows ht hc hs
      have hbuilt : κ.stage (b, i) ≠ .absent := by
        rw [Ne, hc.absent_iff, ht.batch]
        exact Nat.not_le.2 hi
      have hworker := (moves_worker hc hm hbuilt).2
      rw [ht.request, ht'.request] at hworker
      rw [hworker]
      exact hplaced b i hi
    · exact hnew i hi

theorem init_manned (device : Nat → UInt8) : Manned e (Sys.init device) :=
  .opening (init_opening device) rfl fun _ => rfl

end SpdkBdevContext
end SpdkConnector
