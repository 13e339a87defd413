import SpdkConnector.Context.Refinement

/-!
# What a step does to a caller

The step function inverted for the callers of `submit_batch_and_wait`: a caller is moved by its own steps, by
the `notify_one` that wakes it, and by nothing else (`step_called`).
-/

namespace SpdkConnector
namespace SpdkBdevContext

open Interleaving

variable {e : Env} {s s' s1 : Sys} {κ : Core} {w b : Nat}

theorem releaseBuffer_batch (r : Ref) : (releaseBuffer e s r).batch = s.batch := by
  unfold releaseBuffer
  dsimp only
  split
  · rfl
  · split <;> rfl

theorem submitIo_batch (r : Ref) (index : Nat) (submitResult waitResult sendResult : Int) :
    (submitIo e s r index submitResult waitResult sendResult).1.batch = s.batch := by
  unfold submitIo
  dsimp only
  split
  · exact releaseBuffer_batch r
  · split
    · split
      · exact releaseBuffer_batch r
      · split
        · exact releaseBuffer_batch r
        · exact releaseBuffer_batch r
    · split
      · exact releaseBuffer_batch r
      · rfl

theorem executeIo_batch (r : Ref) (submitResult waitResult sendResult : Int) :
    (executeIo e s w r submitResult waitResult sendResult).1.batch = s.batch := by
  unfold executeIo
  dsimp only
  split
  · exact releaseBuffer_batch r
  · split
    · exact releaseBuffer_batch r
    · rfl
    · exact submitIo_batch r _ _ _ _

/-- A batch changes, but not in this field. -/
theorem field_update {β : Type} (p : IoBatchRequest → β) {f : Nat → IoBatchRequest} {z : IoBatchRequest} {b' : Nat}
    (h : p z = p (f b')) (b : Nat) : p (Function.update f b' z b) = p (f b) := by
  rcases eq_or_ne b b' with rfl | hb
  · rw [Function.update_self, h]
  · rw [Function.update_of_ne hb]

theorem completeIo_caller (r : Ref) (success : Bool) (b : Nat) :
    ((completeIo e s r success).1.batch b).caller = (s.batch b).caller := by
  unfold completeIo
  dsimp only
  split
  · split
    · exact congrArg (fun f => (f b).caller) (releaseBuffer_batch r)
    · rw [releaseBuffer_batch]
      show (Function.update s.batch r.1 _ b).caller = _
      exact field_update IoBatchRequest.caller (by rfl) b
  · rw [releaseBuffer_batch]

theorem completeRequest_caller (r : Ref) (success : Bool) (error : String) (b : Nat) :
    ((completeRequest s r success error).1.batch b).caller = (s.batch b).caller := by
  unfold completeRequest
  dsimp only
  split
  · rfl
  · show (Function.update s.batch r.1 _ b).caller = _
    exact field_update IoBatchRequest.caller (by rfl) b

/-- An I/O callback moves a caller only by waking it. -/
theorem runIo_caller {f : IoFrame} {c : Choice} {fs : List IoFrame} (h : runIo e s w f c = some (s1, fs)) (b : Nat) :
    (s1.batch b).caller = (s.batch b).caller ∨
    f = .notifyOne b ∧ (s.batch b).caller = .sleeping ∧ (s1.batch b).caller = .waiting := by
  unfold runIo at h
  split at h
  · cases h
    exact .inl rfl
  · cases h
    exact .inl rfl
  · have heq := congrArg Prod.fst (Option.some.inj h)
    left
    rw [show s1 = _ from heq.symm, executeIo_batch]
  · dsimp only at h
    split at h
    · cases h
    · split at h
      · cases h
        exact .inl rfl
      · cases h
  · cases h
    exact .inl rfl
  · have heq := congrArg Prod.fst (Option.some.inj h)
    left
    rw [show s1 = _ from heq.symm, completeIo_caller]
  · rename_i r success error
    have heq := congrArg Prod.fst (Option.some.inj h)
    left
    rw [show s1 = (completeRequest s r success error).1 from heq.symm, completeRequest_caller]
  · rename_i b'
    split at h
    · rename_i hsleep
      cases h
      rcases eq_or_ne b b' with rfl | hb
      · right
        refine ⟨rfl, hsleep, ?_⟩
        simp [Sys.setBatch]
      · left
        simp [Sys.setBatch, hb]
    · cases h
      exact .inl rfl
  · dsimp only at h
    split at h
    · cases h
      exact .inl rfl
    · cases h
      exact .inl rfl
  · dsimp only at h
    split at h
    · split at h
      · cases h
        exact .inl rfl
      · cases h
        exact .inl rfl
    · cases h
      exact .inl rfl
  · cases h

/-- A life cycle callback changes no request and no batch. -/
theorem runLife_same (hwf : (s.reactor w).pool.WF) {f : LifeFrame} {c : Choice} {fs : List Frame}
    (h : runLife e s w f c = some (s1, fs)) : s1.request = s.request ∧ s1.batch = s.batch := by
  unfold runLife at h
  split at h
  case h_6 =>
    rename_i onReactor channel obtained
    obtain ⟨-, -, -, hrequest, hbatch, -⟩ := initializeIoWorker_spec (e := e) (s := s) hwf onReactor channel obtained
    have heq := congrArg Prod.fst (Option.some.inj h)
    rw [show s1 = _ from heq.symm]
    exact ⟨hrequest, hbatch⟩
  case h_7 =>
    cases h
    exact ⟨(onIoWorkerInitialized_same s _).2.1, (onIoWorkerInitialized_same s _).2.2.1⟩
  case h_10 =>
    cases h
    exact ⟨(requestShutdown_same s _ _).2.1, (requestShutdown_same s _ _).2.2.1⟩
  case h_11 =>
    cases h
    unfold postBeginShutdown
    split <;> exact ⟨rfl, rfl⟩
  all_goals
    try dsimp only at h
    repeat' split at h
    all_goals cases h
    all_goals first
      | exact ⟨rfl, rfl⟩
      | exact ⟨(releasePool_spec _ _).2.2.2.2.1, (releasePool_spec _ _).2.2.2.2.2.1⟩

/-- Where a step takes the caller of batch `b`. -/
inductive Called (s : Sys) (b : Nat) : Action → CallerPc → Prop
  | same (a : Action) : Called s b a (s.batch b).caller
  | woken (w : Nat) (c : Choice) (rest : List Frame) (hst : (s.reactor w).stack = .io (.notifyOne b) :: rest)
      (hsleep : (s.batch b).caller = .sleeping) : Called s b (.reactor w c) .waiting
  | went (c : Choice) (pc : CallerPc) (hlive : (s.batch b).caller.Live)
      (hreturned : pc = .returned ↔ (s.batch b).caller = .returning) : Called s b (.caller b c) pc
  | submitted (operation : Operation) (items : List IoBatchItem) (memory : Nat → Nat → UInt8)
      (todo : List IoWorkerDispatch) (hnew : (s.batch b).caller = .absent) :
      Called s b (.submit operation items memory) (.posting todo)

theorem pickUp_batch {c : Choice} (h : pickUp s w c = some s') : s'.batch = s.batch := by
  unfold pickUp at h
  split at h
  all_goals
    try dsimp only at h
    repeat' split at h
    all_goals cases h
    all_goals rfl

theorem reactorStep_called (ht : Tracks s κ) {c : Choice} (h : reactorStep e s w c = some s') (b : Nat) :
    Called s b (.reactor w c) (s'.batch b).caller := by
  unfold reactorStep at h
  split at h
  · rw [pickUp_batch h]
    exact .same _
  · rename_i f rest hst
    obtain ⟨⟨s1, fs⟩, hrun, rfl⟩ := Option.map_eq_some_iff.1 h
    cases f with
    | io f =>
      obtain ⟨⟨s2, fs'⟩, hio, heq⟩ := Option.map_eq_some_iff.1 hrun
      cases heq
      have hcaller := runIo_caller hio b
      simp only [Sys.setReactor] at hcaller ⊢
      rcases hcaller with hsame | ⟨rfl, hsleep, hwoken⟩
      · rw [hsame]
        exact .same _
      · rw [hwoken]
        exact .woken w c rest hst hsleep
    | life f =>
      have hwf : (((s.setReactor w { s.reactor w with stack := rest }).reactor w).pool).WF := by
        simpa [Sys.setReactor] using (ht.tidy.reactor w).pool
      have hsame := (runLife_same hwf hrun).2
      simp only [Sys.setReactor] at hsame ⊢
      rw [hsame]
      exact .same _

theorem callerStep_called {b' : Nat} {c : Choice} (h : callerStep e s b' c = some s') (b : Nat) :
    Called s b (.caller b' c) (s'.batch b).caller := by
  have hgo : ∀ (s0 : Sys) (pc : CallerPc), (∀ b, (s0.batch b).caller = (s.batch b).caller) →
      (s.batch b').caller.Live → (pc = .returned ↔ (s.batch b').caller = .returning) →
      Called s b (.caller b' c) ((s0.setBatch b' { s0.batch b' with caller := pc }).batch b).caller := by
    intro s0 pc h0 hlive hreturned
    simp only [Sys.setBatch]
    rcases eq_or_ne b b' with rfl | hb
    · rw [Function.update_self]
      exact .went c pc hlive hreturned
    · rw [Function.update_of_ne hb, h0]
      exact .same _
  unfold callerStep at h
  dsimp only at h
  split at h
  · rename_i hpc
    cases h
    exact hgo s _ (fun _ => rfl) (by simp [hpc, CallerPc.Live]) (by simp [hpc])
  · rename_i d todo hpc
    split at h
    · cases h
      exact hgo s _ (fun _ => rfl) (by simp [hpc, CallerPc.Live]) (by simp [hpc])
    · cases h
      exact hgo s _ (fun _ => rfl) (by simp [hpc, CallerPc.Live]) (by simp [hpc])
  · rename_i d todo rc hpc
    split at h
    · cases h
      exact hgo s _ (fun _ => rfl) (by simp [hpc, CallerPc.Live]) (by simp [hpc])
    · split at h
      · cases h
        exact hgo s _ (fun _ => rfl) (by simp [hpc, CallerPc.Live]) (by simp [hpc])
      · cases h
        exact hgo _ _ (fun _ => rfl) (by simp [hpc, CallerPc.Live]) (by simp [hpc])
  · rename_i error todo hpc
    cases h
    exact hgo s _ (fun _ => rfl) (by simp [hpc, CallerPc.Live]) (by simp [hpc])
  · rename_i r rs error todo hpc
    cases h
    refine hgo _ _ (completeRequest_caller r false error) (by simp [hpc, CallerPc.Live]) ?_
    split <;> simp [hpc]
  · rename_i rs error todo hpc
    cases h
    exact hgo s _ (fun _ => rfl) (by simp [hpc, CallerPc.Live]) (by simp [hpc])
  · rename_i hpc
    cases h
    refine hgo s _ (fun _ => rfl) (by simp [hpc, CallerPc.Live]) ?_
    split <;> simp [hpc]
  · rename_i hpc
    cases h
    exact hgo s _ (fun _ => rfl) (by simp [hpc, CallerPc.Live]) (by simp [hpc])
  · rename_i hpc
    cases h
    exact hgo s _ (fun _ => rfl) (by simp [hpc, CallerPc.Live]) (by simp [hpc])
  · cases h

theorem ownerStep_batch {c : Choice} (h : ownerStep e s c = some s') : s'.batch = s.batch := by
  unfold ownerStep at h
  split at h
  case h_7 =>
    cases h
    exact (requestShutdown_same s _ _).2.2.1
  case h_8 =>
    cases h
    unfold postBeginShutdown
    split <;> rfl
  all_goals
    repeat' split at h
    all_goals cases h
    all_goals rfl

theorem transfer_batch {k n : Nat} (h : transfer e s w k n = some s') : s'.batch = s.batch := by
  simp only [transfer] at h
  repeat' split at h
  all_goals cases h
  all_goals rfl

theorem disturb_batch {k : Nat} {noise : Nat → UInt8} (h : disturb e s w k noise = some s') : s'.batch = s.batch := by
  simp only [disturb] at h
  repeat' split at h
  all_goals cases h
  all_goals rfl

/-- **Where a step takes a caller.** -/
theorem step_called (ht : Tracks s κ) {a : Action} (h : step e s a = some s') (b : Nat) :
    Called s b a (s'.batch b).caller := by
  cases a with
  | reactor w c =>
    simp only [step] at h
    split at h
    · exact reactorStep_called ht h b
    · cases h
  | caller b' c => exact callerStep_called h b
  | submit operation items memory =>
    simp only [step] at h
    split at h
    · cases h
      obtain ⟨n, m, heq⟩ | ⟨-, -, -, -, -, n, m, heq⟩ := submitBatch_cases e s operation items memory
      · rw [heq]
        exact .same _
      · rw [heq]
        simp only
        rcases eq_or_ne b s.batches with rfl | hb
        · rw [Function.update_self]
          exact .submitted operation items memory _ (ht.tidy.fresh _ (Nat.le_refl _))
        · rw [Function.update_of_ne hb]
          exact .same _
    · cases h
  | owner c =>
    rw [ownerStep_batch h]
    exact .same _
  | transfer w k n =>
    rw [transfer_batch h]
    exact .same _
  | disturb w k noise =>
    rw [disturb_batch h]
    exact .same _
  | runtimeStops =>
    cases h
    exact .same _

end SpdkBdevContext
end SpdkConnector
