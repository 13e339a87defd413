import SpdkConnector.Context.Callers
import SpdkConnector.Context.LifeSteps
import SpdkConnector.Interleaving.Machine

/-!
# The context does nothing to a request but moves

Every step of the machine is a sequence of moves, and the state after it tracks the requests
(`step_follows`); so does every run (`run_follows`). Only the teardown releases pools, only a caller past
its check posts a dispatch, only a submission can overlap a live batch.
-/

namespace SpdkConnector
namespace SpdkBdevContext

open Interleaving

variable {e : Env} {s s' : Sys} {κ : Core} {w : Nat}

/-! ## The device -/

/-- A command in flight turns to `c'`: the entries of its reactor. -/
theorem entries_set {x : Reactor} {k : Nat} {c : Command} (hk : x.inFlight[k]? = some c) (c' : Command)
    (hreq : c'.request = c.request) (dma : Nat → Nat → UInt8) :
    ∃ rest, x.entries.Perm ((c.request, .inFlight c) :: rest) ∧
      { x with inFlight := x.inFlight.set k c', dma }.entries.Perm ((c.request, .inFlight c') :: rest) := by
  obtain ⟨hlt, hget⟩ := List.getElem?_eq_some_iff.1 hk
  have hold := (List.getElem_cons_eraseIdx_perm hlt).map fun c => ((c.request, .inFlight c) : Ref × Stage)
  have hnew := (List.set_perm_cons_eraseIdx hlt c').map fun c => ((c.request, .inFlight c) : Ref × Stage)
  rw [hget] at hold
  refine ⟨x.queue.flatMap Msg.entries ++ (x.stack.flatMap Frame.entries ++ (x.pendingIo.map (·, .queued) ++
    ((x.inFlight.eraseIdx k).map (fun c => (c.request, .inFlight c)) ++ x.ioWait.map (·, .queued)))), ?_, ?_⟩
  · rw [List.perm_iff_count] at hold ⊢
    intro y
    have := hold y
    rw [count_entries]
    simp only [List.map_cons, List.count_cons, List.count_append] at this ⊢
    omega
  · rw [List.perm_iff_count] at hnew ⊢
    intro y
    have := hnew y
    rw [count_entries]
    simp only [List.map_cons, List.count_cons, List.count_append, hreq] at this ⊢
    omega

/-- A command in flight turns to `c'`, and a buffer or the device changes with it. -/
theorem follows_command (ht : Tracks s κ) {k : Nat} {c : Command} (hk : (s.reactor w).inFlight[k]? = some c)
    (c' : Command) {κ' : Core} (dma : Nat → Nat → UInt8)
    (hmove : κ.stage c.request = .inFlight c → (s.request c.request).worker = w → Move e κ κ')
    (hone : OneReactor s s' w { s.reactor w with inFlight := (s.reactor w).inFlight.set k c', dma })
    (hcommand : c'.request = c.request) (hreq : s'.request = s.request) (hbatch : s'.batch = s.batch)
    (hκ : κ'.request = κ.request ∧ κ'.batch = κ.batch ∧ κ'.pool = κ.pool ∧ κ'.marks = κ.marks ∧
      κ'.stage = Function.update κ.stage c.request (.inFlight c'))
    (hdev : κ'.device = s'.device) (hdma : κ'.dma = Function.update κ.dma w dma) : Follows e s' κ noMarks := by
  obtain ⟨hstage, hworker⟩ := ht.entry (entries_command (List.mem_of_getElem? hk))
  have htidy := ht.tidy.reactor w
  obtain ⟨rest, hold, hnew⟩ := entries_set hk c' hcommand dma
  have hledger := hone.turn ht.ledger hold hnew rfl
  obtain ⟨h1, h2, h3, h4, h5⟩ := hκ
  refine ⟨κ', .single (hmove hstage hworker), hone.tracks ht ?_ ?_ hdev ?_ hdma (h5 ▸ hledger)
    ⟨htidy.pool, htidy.buffers, htidy.frames, htidy.posted⟩, fun m hm => .inl (h4 ▸ hm)⟩
  · rw [h1, hreq, ht.request]
  · rw [h2, hbatch, ht.batch]
  · simp [h3, ht.pool]

/-- A command moves bytes. -/
theorem transfer_follows (ht : Tracks s κ) {k n : Nat} (h : transfer e s w k n = some s') :
    Follows e s' κ noMarks := by
  unfold transfer at h
  dsimp only at h
  split at h
  · cases h
  · rename_i c hk
    split at h
    · rename_i hle
      split at h
      · rename_i hop
        cases h
        refine follows_command ht hk { c with moved := c.moved + n } (s.reactor w).dma
          (fun hstage _ => .transferWrite c.request c n hstage hop hle) ⟨rfl, fun _ => rfl, fun _ => rfl, rfl⟩
          rfl rfl rfl ⟨rfl, rfl, rfl, rfl, rfl⟩ ?_ ?_
        · obtain ⟨-, hworker⟩ := ht.entry (entries_command (List.mem_of_getElem? hk))
          simp only [ht.device, ht.dma, ht.request, hworker, Command.start]
        · simp [ht.dma]
      · rename_i hop
        cases h
        refine follows_command ht hk { c with moved := c.moved + n } _
          (fun hstage _ => .transferRead c.request c n hstage hop hle) ⟨rfl, fun _ => rfl, fun _ => rfl, rfl⟩
          rfl rfl rfl ⟨rfl, rfl, rfl, rfl, rfl⟩ ht.device ?_
        obtain ⟨-, hworker⟩ := ht.entry (entries_command (List.mem_of_getElem? hk))
        simp only [Core.setDma, Core.setStage, ht.device, ht.dma, ht.request, hworker, Command.start]
    · cases h

/-- A command that will fail leaves what it likes. -/
theorem disturb_follows (ht : Tracks s κ) {k : Nat} {noise : Nat → UInt8} (h : disturb e s w k noise = some s') :
    Follows e s' κ noMarks := by
  unfold disturb at h
  dsimp only at h
  split at h
  · cases h
  · rename_i c hk
    split at h
    · rename_i hop
      cases h
      refine follows_command ht hk { c with disturbed := true } (s.reactor w).dma
        (fun hstage _ => .disturbWrite c.request c noise hstage hop) ⟨rfl, fun _ => rfl, fun _ => rfl, rfl⟩
        rfl rfl rfl ⟨rfl, rfl, rfl, rfl, rfl⟩ ?_ ?_
      · simp only [ht.device, Command.start, Command.length]
      · simp [ht.dma]
    · rename_i hop
      cases h
      refine follows_command ht hk { c with disturbed := true } _
        (fun hstage _ => .disturbRead c.request c noise hstage hop) ⟨rfl, fun _ => rfl, fun _ => rfl, rfl⟩
        rfl rfl rfl ⟨rfl, rfl, rfl, rfl, rfl⟩ ht.device ?_
      obtain ⟨-, hworker⟩ := ht.entry (entries_command (List.mem_of_getElem? hk))
      simp only [Core.setDma, Core.setStage, ht.dma, ht.request, hworker, Command.length]

/-! ## The owner -/

/-- One step of the constructing or closing thread. -/
theorem ownerStep_follows (ht : Tracks s κ) {c : Choice} (h : ownerStep e s c = some s') :
    Follows e s' κ noMarks := by
  have hsame : ∀ s1 : Sys, s1.reactor = s.reactor → s1.request = s.request → s1.batch = s.batch →
      s1.device = s.device → s1.batches = s.batches → Follows e s1 κ noMarks := by
    intro s1 h1 h2 h3 h4 h5
    exact follows_unmoved ht (unmoved_same h1) h2 h3 h4 h5
  unfold ownerStep at h
  split at h
  · cases h
    exact hsame _ rfl rfl rfl rfl rfl
  · cases h
    exact hsame _ rfl rfl rfl rfl rfl
  · cases h
    exact hsame _ rfl rfl rfl rfl rfl
  · cases h
    exact hsame _ rfl rfl rfl rfl rfl
  · cases h
    exact hsame _ rfl rfl rfl rfl rfl
  · split at h
    · cases h
      exact hsame _ rfl rfl rfl rfl rfl
    · split at h <;> cases h <;> exact hsame _ rfl rfl rfl rfl rfl
  · obtain ⟨h1, h2, h3, h4, h5⟩ := requestShutdown_same s 0 ""
    cases h
    exact hsame _ h1 h2 h3 h4 h5
  · -- the teardown is posted
    cases h
    unfold postBeginShutdown
    split
    · exact follows_unmoved ht (unmoved_posted (u := 0) (m := .beginShutdown) trivial rfl) rfl rfl rfl rfl
    · exact hsame _ rfl rfl rfl rfl rfl
  · cases h
    exact hsame _ rfl rfl rfl rfl rfl
  · cases h
    exact hsame _ rfl rfl rfl rfl rfl
  · cases h

/-! ## The machine -/

/-- The marks a step may leave: a pool released by the callback on top of a reactor, a dispatch posted, a
batch that overlaps a live one. -/
def stepMarks (s : Sys) : Action → Mark → Prop
  | .reactor w _ => fun m => m = .released ∧
      ∃ f rest, (s.reactor w).stack = .life f :: rest ∧ f.Releases
  | .caller _ _ => fun m => m = .posted
  | .submit operation items _ => submitMarks s operation items
  | .owner _ | .transfer _ _ _ | .disturb _ _ _ | .runtimeStops => noMarks

/-- One step of a reactor. -/
theorem reactorStep_follows (ht : Tracks s κ) (hc : Consistent e κ) {c : Choice}
    (hok : completionAllowed e s w c = true) (h : reactorStep e s w c = some s') :
    Follows e s' κ (stepMarks s (.reactor w c)) := by
  unfold reactorStep at h
  split at h
  · rename_i hidle
    exact (pickUp_follows ht hidle hok h).weaken _
  · rename_i f rest hst
    obtain ⟨⟨s1, fs⟩, hrun, rfl⟩ := Option.map_eq_some_iff.1 h
    cases f with
    | io f =>
      obtain ⟨⟨s2, fs'⟩, hio, heq⟩ := Option.map_eq_some_iff.1 hrun
      cases heq
      exact (runIo_follows ht hc hst hio).weaken _
    | life f =>
      refine (runLife_follows ht hst hrun).mono fun m hm => ?_
      exact ⟨hm.1, f, rest, hst, hm.2⟩

/-- **Every step is a sequence of moves**, and the state after it tracks the requests. -/
theorem step_follows (ht : Tracks s κ) (hc : Consistent e κ) {a : Action} (h : step e s a = some s') :
    Follows e s' κ (stepMarks s a) := by
  cases a with
  | reactor w c =>
    simp only [step] at h
    split at h
    · rename_i hok
      exact reactorStep_follows ht hc hok h
    · cases h
  | caller b c => exact callerStep_follows ht hc h
  | submit operation items memory =>
    simp only [step] at h
    split at h
    · rename_i hlen
      cases h
      exact submitBatch_follows ht hc operation items memory hlen
    · cases h
  | owner c => exact ownerStep_follows ht h
  | transfer w k n => exact transfer_follows ht h
  | disturb w k noise => exact disturb_follows ht h
  | runtimeStops =>
    cases h
    exact follows_unmoved ht (unmoved_same rfl) rfl rfl rfl rfl

/-! ## Runs -/

/-- No batch, no request, no pool. -/
def Core.init (device : Nat → UInt8) : Core where
  request := fun _ => {}
  batch := fun _ => {}
  pool := fun _ => {}
  dma := fun _ _ _ => 0
  device := device
  stage := fun _ => .absent
  marks := fun _ => False

theorem init_consistent (e : Env) (device : Nat → UInt8) : Consistent e (Core.init device) := by
  constructor <;> simp [Core.init, Stage.Fits, openCount]

theorem init_reactor (device : Nat → UInt8) (w : Nat) :
    ((Sys.init device).reactor w).entries = [] ∧ TidyReactor w ((Sys.init device).reactor w) ∧
    ((Sys.init device).reactor w).pool = {} ∧ ((Sys.init device).reactor w).dma = fun _ _ => 0 := by
  rcases eq_or_ne w 0 with rfl | hw
  · refine ⟨rfl, ⟨SpdkBufferPool.new_wf, List.nodup_nil, ?_, ?_⟩, rfl, rfl⟩
    · simp [Sys.init]
    · simp [Sys.init]
  · simp only [Sys.init, hw, if_false]
    exact ⟨rfl, ⟨SpdkBufferPool.new_wf, List.nodup_nil, by simp, by simp⟩, trivial, trivial⟩

theorem init_tracks (device : Nat → UInt8) : Tracks (Sys.init device) (Core.init device) where
  request := rfl
  batch := rfl
  pool := funext fun w => (init_reactor device w).2.2.1.symm
  dma := funext fun w => (init_reactor device w).2.2.2.symm
  device := rfl
  ledger := by
    have hnone : ∀ p, shown (Sys.init device) p = [] := by
      intro p
      cases p with
      | worker w => exact (init_reactor device w).1
      | caller b => rfl
    refine ⟨fun p => ?_, fun p y hy => ?_, fun k p hk => ?_⟩
    · simp [hnone p]
    · rw [hnone p] at hy
      cases hy
    · simp [homeOf, Core.init, Stage.home] at hk
  tidy := ⟨fun w => (init_reactor device w).2.1, fun b d hd => by simp [Sys.init, CallerPc.dispatches] at hd,
    fun b _ => rfl⟩

/-- What a step may mark is ruled out by the guard. -/
def MarksOnly (ok : Sys → Action → Prop) (marks : Mark → Prop) : Prop :=
  ∀ s a m, ok s a → stepMarks s a m → marks m

/-- **Every run is a sequence of moves**: its end tracks requests that are consistent. -/
theorem run_follows {device : Nat → UInt8} {ok : Sys → Action → Prop} {marks : Mark → Prop}
    (hmarks : MarksOnly ok marks) {as : List Action} (hok : Guarded (step e) ok (Sys.init device) as)
    (h : runFrom (step e) (Sys.init device) as = some s) :
    ∃ κ, Moves e (Core.init device) κ ∧ Tracks s κ ∧ Consistent e κ ∧ ∀ m, κ.marks m → marks m := by
  refine run_invariant (I := fun s => ∃ κ, Moves e (Core.init device) κ ∧ Tracks s κ ∧ Consistent e κ ∧
    ∀ m, κ.marks m → marks m) ?_ ⟨_, .refl, init_tracks device, init_consistent e device, fun m hm => hm.elim⟩ hok h
  rintro s1 a s2 ⟨κ, hm, ht, hc, hκ⟩ hoka hstep
  obtain ⟨κ', hm', ht', hnew⟩ := step_follows ht hc hstep
  refine ⟨κ', hm.trans hm', ht', moves_consistent hc hm', fun m hmm => ?_⟩
  rcases hnew m hmm with hmm | hmm
  · exact hκ m hmm
  · exact hmarks s1 a m hoka hmm

end SpdkBdevContext
end SpdkConnector
