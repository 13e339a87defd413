import SpdkConnector.Context.Reactors
import SpdkConnector.Context.Waiters

/-!
# The last completion wakes the caller

A caller sleeps only on a batch with requests to complete, and the completion of the last of them is followed
by a `notify_one`: no wakeup is lost (`waking_step`).
-/

namespace SpdkConnector
namespace SpdkBdevContext

open Interleaving

variable {e : Env} {s s' s1 : Sys} {κ : Core} {w v b : Nat} {y : Reactor}

theorem completeIo_remaining (r : Ref) (success : Bool) (b : Nat) :
    ((completeIo e s r success).1.batch b).remaining = (s.batch b).remaining := by
  unfold completeIo
  dsimp only
  split
  · split
    · exact congrArg (fun f => (f b).remaining) (releaseBuffer_batch r)
    · rw [releaseBuffer_batch]
      show (Function.update s.batch r.1 _ b).remaining = _
      exact field_update IoBatchRequest.remaining (by rfl) b
  · rw [releaseBuffer_batch]

/-- The last completion of a batch returns `batch_complete`. -/
theorem completeRequest_remaining (r : Ref) (success : Bool) (error : String) (b : Nat) :
    ((completeRequest s r success error).1.batch b).remaining = (s.batch b).remaining ∨
    r.1 = b ∧ (((completeRequest s r success error).1.batch b).remaining = 0 →
      (completeRequest s r success error).2 = true) := by
  unfold completeRequest
  dsimp only
  split
  · exact .inl rfl
  · rcases eq_or_ne b r.1 with rfl | hb
    · right
      simp [Sys.setBatch, Sys.setRequest]
    · left
      simp [Sys.setBatch, Sys.setRequest, hb]

/-- An I/O callback completes the last request of a batch, and is about to notify. -/
theorem runIo_remaining {f : IoFrame} {c : Choice} {fs : List IoFrame} (h : runIo e s w f c = some (s1, fs)) (b : Nat) :
    (s1.batch b).remaining = (s.batch b).remaining ∨ ((s1.batch b).remaining = 0 → .notifyOne b ∈ fs) := by
  unfold runIo at h
  split at h
  · cases h
    exact .inl rfl
  · cases h
    exact .inl rfl
  · have heq := congrArg Prod.fst (Option.some.inj h)
    left
    rw [show s1 = _ from heq.symm, executeIo_batch]
  · dsimp only at h
    split at h
    · cases h
    · split at h
      · cases h
        exact .inl rfl
      · cases h
  · cases h
    exact .inl rfl
  · have heq := congrArg Prod.fst (Option.some.inj h)
    left
    rw [show s1 = _ from heq.symm, completeIo_remaining]
  · rename_i r success error
    have hremaining := completeRequest_remaining (s := s) r success error b
    generalize completeRequest s r success error = p at h hremaining
    cases h
    refine hremaining.imp_right fun hlast hzero => ?_
    rw [hlast.2 hzero, ← hlast.1]
    exact List.mem_singleton_self _
  · rename_i b'
    split at h
    · cases h
      left
      exact field_update IoBatchRequest.remaining (by rfl) b
    · cases h
      exact .inl rfl
  · dsimp only at h
    split at h
    · cases h
      exact .inl rfl
    · cases h
      exact .inl rfl
  · dsimp only at h
    split at h
    · split at h
      · cases h
        exact .inl rfl
      · cases h
        exact .inl rfl
    · cases h
      exact .inl rfl
  · cases h

/-- A `notify_one` leaves its caller awake. -/
theorem runIo_notified {c : Choice} {fs : List IoFrame} (h : runIo e s w (.notifyOne b) c = some (s1, fs)) :
    (s1.batch b).caller ≠ .sleeping := by
  cases c with
  | next =>
    simp only [runIo] at h
    split at h
    · cases h
      simp [Sys.setBatch]
    · rename_i hawake
      cases h
      exact hawake
  | _ => cases h

/-- A pending `notify_one` stays pending until it is made. -/
theorem acted_keeps {a : Action} (h : Acted s v a y) (hb : .io (.notifyOne b) ∈ (s.reactor v).stack) :
    .io (.notifyOne b) ∈ y.stack ∨
    ∃ c rest, a = .reactor v c ∧ (s.reactor v).stack = .io (.notifyOne b) :: rest := by
  cases h with
  | message m rest hidle | completion k success c hidle | ioWait k r hidle | event c rc error hidle =>
    rw [hidle] at hb
    cases hb
  | io c f rest y fs hst hdone =>
    rw [hst] at hb
    rcases List.mem_cons.1 hb with heq | hb
    · exact .inr ⟨c, rest, rfl, by rw [hst, heq]⟩
    · exact .inl (List.mem_append_right _ hb)
  | life c f rest y fs hst ht =>
    rw [hst] at hb
    exact .inl (List.mem_append_right _ ((List.mem_cons.1 hb).resolve_left nofun))
  | reached u c f rest y hu hst hr => cases hr <;> exact .inl hb
  | _ => exact .inl hb

/-- A sleeping caller of a batch with nothing left to complete is about to be notified. -/
def Waking (s : Sys) : Prop :=
  ∀ b, (s.batch b).caller = .sleeping → (s.batch b).remaining = 0 → ∃ w, .io (.notifyOne b) ∈ (s.reactor w).stack

theorem reactorStep_waking (ht : Tracks s κ) (hc : Consistent e κ) {c : Choice} (h : reactorStep e s w c = some s')
    (hw : Waking s) : Waking s' := by
  intro b hsleep hzero
  have hacted := reactorStep_acted ht hc h
  have hcalled := reactorStep_called ht h b
  rw [hsleep] at hcalled
  generalize hpc : CallerPc.sleeping = pc at hcalled
  cases hcalled with
  | woken => cases hpc
  | same =>
    -- a notification that was pending is pending, or was this step's
    have hkept : (s.batch b).remaining = 0 → ∃ v, .io (.notifyOne b) ∈ (s'.reactor v).stack := by
      intro hold
      obtain ⟨v, hv⟩ := hw b hpc.symm hold
      rcases acted_keeps (hacted v) hv with hv | ⟨c', rest, heq, hst⟩
      · exact ⟨v, hv⟩
      · cases heq
        rw [reactorStep, hst] at h
        obtain ⟨⟨s1, fs⟩, hrun, rfl⟩ := Option.map_eq_some_iff.1 h
        obtain ⟨⟨s2, fs'⟩, hio, heq⟩ := Option.map_eq_some_iff.1 hrun
        cases heq
        exact (runIo_notified hio hsleep).elim
    unfold reactorStep at h
    split at h
    · refine hkept ?_
      rwa [pickUp_batch h] at hzero
    · rename_i f rest hst
      obtain ⟨⟨s1, fs⟩, hrun, rfl⟩ := Option.map_eq_some_iff.1 h
      cases f with
      | io f =>
        obtain ⟨⟨s2, fs'⟩, hio, heq⟩ := Option.map_eq_some_iff.1 hrun
        cases heq
        rcases runIo_remaining hio b with hsame | hlast
        · exact hkept (hsame.symm.trans hzero)
        · refine ⟨w, ?_⟩
          simp only [Sys.setReactor, Function.update_self]
          exact List.mem_append_left _ (List.mem_map_of_mem (hlast hzero))
      | life f =>
        have hwf : (((s.setReactor w { s.reactor w with stack := rest }).reactor w).pool).WF := by
          simpa [Sys.setReactor] using (ht.tidy.reactor w).pool
        have hsame : s1.batch = s.batch := (runLife_same hwf hrun).2
        refine hkept ?_
        rw [← hsame]
        exact hzero

/-- A caller goes to sleep on a batch with requests to complete. -/
theorem callerStep_sleeping (ht : Tracks s κ) {b' : Nat} {c : Choice} (h : callerStep e s b' c = some s')
    (hsleep : (s'.batch b).caller = .sleeping) :
    (s.batch b).caller = .sleeping ∧ (s'.batch b).remaining = (s.batch b).remaining ∨
    (s'.batch b).remaining ≠ 0 := by
  -- another batch's caller does not change this one
  have hgo : ∀ (s0 : Sys) (pc : CallerPc), (∀ b ≠ b', s0.batch b = s.batch b) → pc ≠ .sleeping →
      ((s0.setBatch b' { s0.batch b' with caller := pc }).batch b).caller = .sleeping →
      (s.batch b).caller = .sleeping ∧
        ((s0.setBatch b' { s0.batch b' with caller := pc }).batch b).remaining = (s.batch b).remaining := by
    intro s0 pc h0 hpc hs
    simp only [Sys.setBatch] at hs ⊢
    rcases eq_or_ne b b' with rfl | hb
    · rw [Function.update_self] at hs
      exact absurd hs hpc
    · rw [Function.update_of_ne hb, h0 b hb] at hs ⊢
      exact ⟨hs, rfl⟩
  unfold callerStep at h
  dsimp only at h
  split at h
  · cases h
    exact .inl (hgo s _ (fun _ _ => rfl) (by simp) hsleep)
  · split at h
    · cases h
      exact .inl (hgo s _ (fun _ _ => rfl) (by simp) hsleep)
    · cases h
      exact .inl (hgo s _ (fun _ _ => rfl) (by simp) hsleep)
  · split at h
    · cases h
      exact .inl (hgo s _ (fun _ _ => rfl) (by simp) hsleep)
    · split at h
      · cases h
        exact .inl (hgo s _ (fun _ _ => rfl) (by simp) hsleep)
      · cases h
        exact .inl (hgo _ _ (fun _ _ => rfl) (by simp) hsleep)
  · cases h
    exact .inl (hgo s _ (fun _ _ => rfl) (by simp) hsleep)
  · -- the request completed is one of the caller's own batch
    rename_i r rs error todo hpc
    cases h
    obtain ⟨-, rfl⟩ := ht.held (b := b') (r := r) (by rw [hpc]; exact List.mem_append_left _ List.mem_cons_self)
    refine .inl (hgo _ _ (fun b hb => ?_) ?_ hsleep)
    · unfold completeRequest
      dsimp only
      split
      · rfl
      · exact Function.update_of_ne hb _ _
    · split <;> simp
  · cases h
    exact .inl (hgo s _ (fun _ _ => rfl) (by simp) hsleep)
  · rename_i hpc
    cases h
    simp only [Sys.setBatch] at hsleep ⊢
    rcases eq_or_ne b b' with rfl | hb
    · rw [Function.update_self] at hsleep ⊢
      right
      intro hzero
      simp [show (s.batch b).remaining = 0 from hzero] at hsleep
    · rw [Function.update_of_ne hb] at hsleep ⊢
      exact .inl ⟨hsleep, rfl⟩
  · cases h
    exact .inl (hgo s _ (fun _ _ => rfl) (by simp) hsleep)
  · cases h
    exact .inl (hgo s _ (fun _ _ => rfl) (by simp) hsleep)
  · cases h

/-- **No wakeup is lost**: a step keeps `Waking`. -/
theorem waking_step (ht : Tracks s κ) (hc : Consistent e κ) {a : Action} (h : step e s a = some s')
    (hw : Waking s) : Waking s' := by
  have hacted := step_acted ht hc h
  -- a step of no reactor keeps the notifications that are pending
  have hkept : (∀ w c, a ≠ .reactor w c) → ∀ b, (s.batch b).caller = .sleeping → (s.batch b).remaining = 0 →
      ∃ v, .io (.notifyOne b) ∈ (s'.reactor v).stack := by
    intro hno b hs hr
    obtain ⟨v, hv⟩ := hw b hs hr
    rcases acted_keeps (hacted v) hv with hv | ⟨c, -, heq, -⟩
    · exact ⟨v, hv⟩
    · exact absurd heq (hno v c)
  have hsame : (∀ w c, a ≠ .reactor w c) → s'.batch = s.batch → Waking s' := by
    intro hno hbatch b hs hr
    rw [hbatch] at hs hr
    exact hkept hno b hs hr
  cases a with
  | reactor w c =>
    simp only [step] at h
    split at h
    · exact reactorStep_waking ht hc h hw
    · cases h
  | caller b' c =>
    intro b hs hr
    rcases callerStep_sleeping ht h hs with ⟨hsleep, hremaining⟩ | hne
    · exact hkept (by simp) b hsleep (hremaining.symm.trans hr)
    · exact absurd hr hne
  | submit operation items memory =>
    intro b hs hr
    simp only [step] at h
    split at h
    · cases h
      obtain ⟨n, m, heq⟩ | ⟨-, -, -, -, -, n, m, heq⟩ := submitBatch_cases e s operation items memory
      · rw [heq] at hs hr
        exact hkept (by simp) b hs hr
      · rw [heq] at hs hr
        simp only at hs hr
        rcases eq_or_ne b s.batches with rfl | hb
        · rw [Function.update_self] at hs
          cases hs
        · rw [Function.update_of_ne hb] at hs hr
          exact hkept (by simp) b hs hr
    · cases h
  | owner c => exact hsame (by simp) (ownerStep_batch h)
  | transfer w k n => exact hsame (by simp) (transfer_batch h)
  | disturb w k noise => exact hsame (by simp) (disturb_batch h)
  | runtimeStops =>
    cases h
    exact hsame (by simp) rfl

theorem init_waking (device : Nat → UInt8) : Waking (Sys.init device) := fun _ hs => nomatch hs

end SpdkBdevContext
end SpdkConnector
