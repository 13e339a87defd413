import SpdkConnector.Context.Freeing

/-!
# The context's lifetime

`close()` returns and the context is destroyed: by then no reactor may have a message of it, be in a callback of
it, or enter one. The code does not wait for every call of its own. Where each step is `orderly` nothing is left
(`context_lifetime`), in whatever order the threads go on; `context_outlived` has a close for each kind of step
that is not.
-/

namespace SpdkConnector
namespace SpdkBdevContext

open Interleaving

variable {e : Env} {s s' : Sys} {ζ : Core} {κ κ' : Cycle} {v : Nat}

/-- `close()` has returned. -/
def Sys.Returned (s : Sys) : Prop := s.owner = .closed ∨ s.owner = .closing ∧ s.ctx.closed = true

/-- No message of the context is queued, no callback of it is running, and SPDK has none to make. -/
structure Sys.Detached (s : Sys) : Prop where
  queue : ∀ v, (s.reactor v).queue = []
  stack : ∀ v, (s.reactor v).stack = []
  inFlight : ∀ v, (s.reactor v).inFlight = []
  ioWait : ∀ v, (s.reactor v).channelHeld = true → (s.reactor v).ioWait = []
  descriptor : s.ctx.bdevDescriptor = false

/-! ## Until `close()` returns -/

/-- `close()` is past its first critical section, and has not returned. -/
def OwnerPc.Waits : OwnerPc → Prop
  | .requesting | .postingShutdown | .closeWaiting | .sleepingShutdown | .releasing => True
  | _ => False

def Unclosed (κ : Cycle) : Prop := κ.owner.Waits ∨ κ.owner ≠ .closed ∧ κ.ctx.closed = false

theorem lived_closed {available : Bool} {c : Members} {w : Nat} {f : LifeFrame} {ch : Choice} {x : Effect}
    (hl : Lived e available c w f ch x) : x.ctx.closed = c.closed := by
  cases hl <;> rfl

/-- `close()` returns by its last step. -/
theorem unclosed_turn (h : Unclosed s.cycle) {a : Action} (ht : Turn e s a κ') :
    Unclosed κ' ∨ s.owner = .releasing ∧ ∃ c, a = .owner c := by
  cases ht with
  | idle | counted | stops | event => exact .inl h
  | run w c f stack rest x hst hag hl =>
    left
    have hwoken : s.cycle.owner.woken.Waits ∨ s.cycle.owner.woken ≠ .closed ∧ s.ctx.closed = false := by
      rcases woken_cases s.cycle.owner with heq | ⟨hold, heq⟩ | ⟨-, heq⟩
      · rw [heq]
        exact h
      · rcases h with h | h
        · rw [hold] at h
          exact h.elim
        · exact .inr ⟨by rw [heq]; nofun, h.2⟩
      · exact .inl (by rw [heq]; trivial)
    unfold Unclosed Cycle.run
    dsimp only
    rw [lived_closed hl]
    split
    · exact hwoken
    · exact h
  | owner c κ ho =>
    have hplace : ∀ pc, s.cycle.owner = pc → ¬ pc.Waits → s.ctx.closed = false := by
      rintro pc rfl hno
      exact (h.resolve_left hno).2
    cases ho with
    | checked hpc =>
      left
      refine .inr ⟨?_, hplace _ hpc id⟩
      dsimp only
      split
      · split <;> nofun
      · nofun
    | wokenInitialization hpc => exact .inl (.inr ⟨nofun, hplace _ hpc id⟩)
    | close hpc =>
      rcases hpc with hpc | hpc
      · exact .inl (.inr ⟨nofun, hplace _ hpc id⟩)
      · rcases h with h | h
        · rw [hpc] at h
          exact h.elim
        · exact absurd hpc h.1
    | closedAlready hpc hc => exact nomatch (hplace _ hpc id).symm.trans hc
    | wokenShutdown | marked | nothingOpen | beginPosted | beginFailed => exact .inl (.inl trivial)
    | requested hpc lastError code start =>
      left
      left
      dsimp only
      split <;> trivial
    | waited hpc =>
      left
      left
      dsimp only
      split <;> trivial
    | claimReleased hpc => exact .inr ⟨hpc, _, rfl⟩

/-! ## From then on -/

/-- Nothing is left of the context, and nothing is to come. -/
structure Left (s : Sys) : Prop where
  free : ∀ v, IoFree (s.reactor v)
  agenda : ∀ v, s.cycle.agenda v = []
  unsent : ∀ v, Unsent s v
  closed : s.ctx.closed = true
  descriptor : s.ctx.bdevDescriptor = false
  place : s.owner = .closed ∨ s.owner = .closing

theorem Left.detached (h : Left s) : s.Detached := by
  refine ⟨fun v => List.eq_nil_iff_forall_not_mem.2 fun m hm => ?_, fun v => List.eq_nil_iff_forall_not_mem.2 fun f hf => ?_,
    fun v => (h.free v).inFlight, fun v => (h.free v).waiting, h.descriptor⟩
  · have hframe := (h.free v).queue m hm
    cases hg : m.frame with
    | io => rw [hg] at hframe; exact hframe
    | life g =>
      have hmem : g ∈ s.cycle.agenda v :=
        List.mem_append_right _ (List.mem_filterMap.2 ⟨m, hm, by rw [hg]; rfl⟩)
      rw [h.agenda] at hmem
      cases hmem
  · have hframe := (h.free v).stack f hf
    cases f with
    | io => exact hframe
    | life g =>
      have hmem := stack_agenda hf
      rw [h.agenda] at hmem
      cases hmem

theorem left_turn (h : Left s) {a : Action} (ht : Turn e s a κ') : (∀ v, κ'.agenda v = []) ∧ κ'.ctx.closed = true ∧
    κ'.ctx.bdevDescriptor = false ∧ (κ'.owner = .closed ∨ κ'.owner = .closing) := by
  obtain ⟨-, hagenda, -, hclosed, hdescriptor, hplace⟩ := h
  cases ht with
  | idle | counted | stops => exact ⟨hagenda, hclosed, hdescriptor, hplace⟩
  | run w c f stack rest x hst hag => exact nomatch hag.symm.trans (hagenda w)
  | event c rc error hd => exact nomatch hdescriptor.symm.trans hd
  | owner c κ ho =>
    have hno : ∀ pc, s.cycle.owner = pc → pc ≠ .closed → pc ≠ .closing → False := by
      rintro pc rfl h1 h2
      exact hplace.elim h1 h2
    cases ho with
    | close hpc => exact ⟨hagenda, hclosed, hdescriptor, .inr rfl⟩
    | closedAlready hpc hc => exact ⟨hagenda, hclosed, hdescriptor, .inl rfl⟩
    | marked hpc hc => exact nomatch hclosed.symm.trans hc
    | nothingOpen hpc hc => exact nomatch hclosed.symm.trans hc
    | checked hpc => exact (hno _ hpc nofun nofun).elim
    | wokenInitialization hpc => exact (hno _ hpc nofun nofun).elim
    | wokenShutdown hpc => exact (hno _ hpc nofun nofun).elim
    | requested hpc => exact (hno _ hpc nofun nofun).elim
    | beginPosted hpc => exact (hno _ hpc nofun nofun).elim
    | beginFailed hpc => exact (hno _ hpc nofun nofun).elim
    | waited hpc => exact (hno _ hpc nofun nofun).elim
    | claimReleased hpc => exact (hno _ hpc nofun nofun).elim

theorem left_step (h : Left s) (ht : Tracks s ζ) (hc : Consistent e ζ) {a : Action} (hs : step e s a = some s') :
    Left s' := by
  obtain ⟨h1, h2, h3, h4⟩ := left_turn h (step_turn hs)
  refine ⟨fun v => ?_, h1, fun v => (h.unsent v).step ht hs (.inl h.closed), h2, h3, h4⟩
  exact acted_ioFree (h.free v) (h.unsent v) (by simp [h.agenda]) (by simp [h.agenda]) (step_acted ht hc hs v)

/-! ## The return -/

theorem tells_acks {f : LifeFrame} {i n : Nat} (h : f.acks n = 0) : f.tells i v = 0 := by
  cases f <;> first | rfl | exact nomatch h

/-- A call that `close()` may return past is one that a reactor is making. -/
theorem parting_stack {g : LifeFrame} (hg : g ∈ s.cycle.agenda v) (hparting : (Frame.life g).parting = true) :
    (s.reactor v).stack.any Frame.parting = true := by
  rcases List.mem_append.1 hg with hg | hg
  · obtain ⟨f, hf, heq⟩ := List.mem_filterMap.1 hg
    refine List.any_eq_true.2 ⟨f, hf, ?_⟩
    cases f with
    | io => cases heq
    | life =>
      cases heq
      exact hparting
  · obtain ⟨m, -, heq⟩ := List.mem_filterMap.1 hg
    cases m <;> cases heq <;> cases hparting

/-- When the last acknowledgement has been made, and no reactor is past what `close()` waits for, no call is left. -/
theorem agenda_over (ho : Opened e s.cycle) (htell : Telling e s.cycle) (hst : s.ctx.shutdownStarted = true)
    (hacks : s.cycle.total e (LifeFrame.acks s.ctx.ioWorkers) = 0) (hrest : ∀ g ∈ s.cycle.agenda 0, g = .notifyAll)
    (hnone : ∀ v < e.reactors, (s.reactor v).stack.any Frame.parting = false) :
    (∀ i, s.cycle.weigh e (LifeFrame.tells i) = 0) ∧ ∀ v, s.cycle.agenda v = [] := by
  have hlight : ∀ v, ∀ g ∈ s.cycle.agenda v, g.acks s.ctx.ioWorkers = 0 := by
    intro v g hg
    have hle := weight_le_weigh (e := e) (fun _ => LifeFrame.acks s.ctx.ioWorkers) (ho.confined v g hg).1 hg
    have hle : g.acks s.ctx.ioWorkers ≤ s.cycle.total e (LifeFrame.acks s.ctx.ioWorkers) := hle
    omega
  have htold : ∀ i, s.cycle.weigh e (LifeFrame.tells i) = 0 := by
    intro i
    refine Finset.sum_eq_zero fun v _ => List.sum_eq_zero fun n hn => ?_
    obtain ⟨g, hg, rfl⟩ := List.mem_map.1 hn
    exact tells_acks (hlight v g hg)
  refine ⟨htold, fun v => List.eq_nil_iff_forall_not_mem.2 fun g hg => ?_⟩
  have hparting : (Frame.life g).parting = true := by
    rcases Nat.eq_zero_or_pos v with rfl | hpos
    · rw [hrest g hg]
      rfl
    · have hv := (htell.hosted v g hg).resolve_left (Nat.ne_of_gt hpos)
      have hleaving := htell.gone hst v (Nat.ne_of_gt hpos) hv (htold v) g hg
      have hacks := hlight v g hg
      cases g with
      | postFinish => cases hacks
      | threadExit => rfl
      | _ => exact hleaving.elim
  exact nomatch (hnone v (ho.confined v g hg).1).symm.trans (parting_stack hg hparting)

/-- **`close()` returns and leaves nothing.** -/
theorem freeing_left (h : Freeing e s) (ht : Tracks s ζ) (hc : Consistent e ζ) (hpc : s.owner = .releasing) {c : Choice}
    (hg : orderly e s (.owner c) = true) (hs : step e s (.owner c) = some s') : Left s' := by
  have hgone : (∀ v, IoFree (s.reactor v)) ∧ (∀ v, s.cycle.agenda v = []) ∧ (∀ v, Unsent s v) ∧ s.ctx.closed = true ∧
      s.ctx.bdevDescriptor = false := by
    have hfar := fun v (hv : s.ctx.ioWorkers ≤ v) => unsent_placed ht hc h.manned.placed hv
    cases h.outgoing with
    | opening hopen => rcases hopen.owner with ho | ho <;> exact nomatch hpc.symm.trans ho
    | opened ho hcourse htell hfinale =>
      have hclosed : s.ctx.closed = true := ho.closing (by rw [show s.cycle.owner = .releasing from hpc]; trivial)
      cases hfinale.complete (hfinale.released hpc) with
      | nothing hnone hopen =>
        have hv : ∀ v, s.ctx.ioWorkers ≤ v := fun v => (show s.ctx.ioWorkers = 0 from hopen.2).trans_le (Nat.zero_le v)
        exact ⟨fun v => (h.spare v (hv v)).1, hnone, fun v => hfar v (hv v), hclosed, hopen.1⟩
      | unopened _ hno => exact nomatch hclosed.symm.trans hno
      | finished hd hst hacks hrest =>
        have hnone : ∀ v < e.reactors, (s.reactor v).stack.any Frame.parting = false := by
          simpa only [orderly, hpc, List.all_eq_true, List.mem_range, Bool.not_eq_true'] using hg
        obtain ⟨htold, hagenda⟩ := agenda_over ho htell hst hacks hrest hnone
        refine ⟨fun v => ?_, hagenda, fun v => ?_, hclosed, hd⟩
        · rcases Nat.lt_or_ge v s.ctx.ioWorkers with hv | hv
          · exact (h.freed hst v hv (htold v)).1
          · exact (h.spare v hv).1
        · rcases Nat.lt_or_ge v s.ctx.ioWorkers with hv | hv
          · exact (h.freed hst v hv (htold v)).2
          · exact hfar v hv
  obtain ⟨h1, h2, h3, h4, h5⟩ := hgone
  cases c with
  | next =>
    simp only [step, ownerStep, hpc] at hs
    cases hs
    exact ⟨h1, h2, h3, h4, h5, .inl rfl⟩
  | _ =>
    simp only [step, ownerStep, hpc] at hs
    cases hs

/-! ## Over a run -/

/-- Where a close in order is: it has still to return, or nothing is left. -/
structure Lasting (e : Env) (s : Sys) : Prop where
  requests : ∃ ζ, Tracks s ζ ∧ Consistent e ζ
  stage : Freeing e s ∧ Unclosed s.cycle ∨ Left s

theorem Lasting.left (h : Lasting e s) (hreturned : s.Returned) : Left s := by
  refine h.stage.resolve_left fun ⟨_, hno⟩ => ?_
  rcases hreturned with hpc | ⟨hpc, hclosed⟩
  · rcases hno with hno | hno
    · rw [show s.cycle.owner = .closed from hpc] at hno
      exact hno
    · exact hno.1 hpc
  · rcases hno with hno | hno
    · rw [show s.cycle.owner = .closing from hpc] at hno
      exact hno
    · exact nomatch hno.2.symm.trans hclosed

theorem lasting_step (hn : 0 < e.ioThreadCount) (h : Lasting e s) {a : Action} (hg : orderly e s a = true)
    (hs : step e s a = some s') : Lasting e s' := by
  obtain ⟨⟨ζ, ht, hc⟩, hstage⟩ := h
  obtain ⟨ζ', hm, ht', -⟩ := step_follows ht hc hs
  refine ⟨⟨ζ', ht', moves_consistent hc hm⟩, ?_⟩
  rcases hstage with ⟨hfreeing, hunclosed⟩ | hleft
  · rcases unclosed_turn hunclosed (step_turn hs) with hunclosed' | ⟨hpc, c, rfl⟩
    · exact .inl ⟨freeing_step hn hfreeing ht hc hg hs, hunclosed'⟩
    · exact .inr (freeing_left hfreeing ht hc hpc hg hs)
  · exact .inr (left_step hleft ht hc hs)

/-- **The context's lifetime**: in a run whose steps are all orderly, once `close()` has returned no message of the
context is queued and no callback of it is running or to come, whatever happens from then on. -/
theorem context_lifetime {device : Nat → UInt8} {as bs : List Action} {t : Sys} (hn : 0 < e.ioThreadCount)
    (horderly : Guarded (step e) (fun s a => orderly e s a = true) (Sys.init device) as)
    (h : runFrom (step e) (Sys.init device) as = some s) (hreturned : s.Returned)
    (hlater : runFrom (step e) s bs = some t) : t.Detached := by
  have hlasting : Lasting e s := by
    refine run_invariant (fun s a s' hlasting hg hs => lasting_step hn hlasting hg hs) ?_ horderly h
    exact ⟨⟨_, init_tracks device, init_consistent e device⟩,
      .inl ⟨init_freeing device, .inr ⟨nofun, rfl⟩⟩⟩
  have hend : (∃ ζ, Tracks t ζ ∧ Consistent e ζ) ∧ Left t := by
    refine run_invariant (I := fun s => (∃ ζ, Tracks s ζ ∧ Consistent e ζ) ∧ Left s) ?_
      ⟨hlasting.requests, hlasting.left hreturned⟩ (guarded_true s bs) hlater
    rintro s1 a s2 ⟨⟨ζ, ht, hc⟩, hleft⟩ - hs
    obtain ⟨ζ', hm, ht', -⟩ := step_follows ht hc hs
    exact ⟨⟨ζ', ht', moves_consistent hc hm⟩, left_step hleft ht hc hs⟩
  exact hend.2.detached

/-! ## Closes in order and not -/

/-- Two workers are set up. -/
def builtRun : List Action :=
  [.reactor 0 .message, .reactor 0 (.code 0), .reactor 0 .next, .reactor 0 (.code 0), .reactor 0 .next,
    .reactor 0 (.setUp true true 1), .reactor 0 .next, .reactor 1 .message, .reactor 1 (.setUp true true 1),
    .reactor 1 .next, .reactor 1 .next, .owner .next]

/-- A read is about to be sent to the second worker, behind a call that throws. -/
def sentRun : List Action :=
  [.submit .read [⟨none, 0, 0, 0⟩] fun _ _ => 0, .submit .read [⟨some ⟨0, 0⟩, 2, 0, 2⟩] fun _ _ => 0, .caller 0 .next]

/-- It is sent, and submitted to the device. -/
def submittedRun : List Action :=
  [.caller 0 (.code 0), .reactor 1 .message, .reactor 1 .next, .reactor 1 (.submit 0 0 0), .reactor 1 .next]

/-- `close()` asks for the teardown. -/
def askRun : List Action := [.owner .next, .owner .next, .owner .next, .owner (.code 0)]

/-- The application thread tells the second worker, and releases its own. -/
def tellRun : List Action :=
  [.reactor 0 .message, .reactor 0 .next, .reactor 0 (.code 0), .reactor 0 .next, .reactor 0 .next, .reactor 0 .next,
    .reactor 0 .next]

/-- The second worker releases its channel, and is about to exit its thread. -/
def releaseRun : List Action := [.reactor 1 .message, .reactor 1 .next, .reactor 1 .next, .reactor 1 (.code 0)]

/-- The last acknowledgement, up to the `notify_all`. -/
def finishRun : List Action := [.reactor 0 .message, .reactor 0 .next, .reactor 0 .next, .reactor 0 .next]

/-- `close()` finds the shutdown complete, and returns. -/
def returnRun : List Action := [.owner .next, .owner .next]

/-- The read is served, the bdev is removed, and `close()` sleeps until the teardown is over. -/
def orderlyRun : List Action :=
  builtRun ++ sentRun ++ submittedRun ++ [.reactor 1 (.completion 0 false), .reactor 1 .next, .reactor 1 .next,
    .reactor 1 .next, .reactor 1 .next, .reactor 1 .next, .reactor 1 .next, .reactor 0 .remove, .reactor 0 .next,
    .reactor 0 (.code 0), .owner .next, .owner .next, .owner .next, .owner .next] ++ tellRun ++ releaseRun ++
  [.reactor 1 .next] ++ finishRun ++ [.reactor 0 .next] ++ returnRun

theorem context_lifetime_removed : ∃ s t, runFrom (step pairEnv) (Sys.init Nat.toUInt8) orderlyRun = some s ∧
    s.owner = .closed ∧ runFrom (step pairEnv) s [.owner .next, .runtimeStops, .owner .next] = some t ∧ t.Detached := by
  have hend : (runFrom (step pairEnv) (Sys.init Nat.toUInt8) orderlyRun).any (fun s => decide (s.owner = .closed) &&
      (runFrom (step pairEnv) s [.owner .next, .runtimeStops, .owner .next]).isSome) = true := by decide +kernel
  obtain ⟨s, hrun, hs⟩ := (Option.any_eq_true _ _).1 hend
  obtain ⟨hclosed, hlater⟩ := Bool.and_eq_true_iff.1 hs
  obtain ⟨t, hlater⟩ := Option.isSome_iff_exists.1 hlater
  have hclosed : s.owner = .closed := of_decide_eq_true hclosed
  exact ⟨s, t, hrun, hclosed, hlater, context_lifetime (by decide) (by decide +kernel) hrun (.inl hclosed) hlater⟩

/-- Something of the context is left on reactor `v`, or an event of the bdev may come. -/
def Sys.attached (s : Sys) (v : Nat) : Bool :=
  !(s.reactor v).queue.isEmpty || !(s.reactor v).stack.isEmpty || !(s.reactor v).inFlight.isEmpty || s.ctx.bdevDescriptor

theorem not_detached (h : s.attached v = true) : ¬ s.Detached := by
  intro hd
  simp [Sys.attached, hd.queue v, hd.stack v, hd.inFlight v, hd.descriptor] at h

/-- A close of each kind that is not in order. -/
def outlivedRuns : List (List Action) :=
  [ -- the application thread is about to notify
    builtRun ++ askRun ++ tellRun ++ releaseRun ++ [.reactor 1 .next] ++ finishRun ++ returnRun,
    -- the second worker is about to exit its thread
    builtRun ++ askRun ++ tellRun ++ releaseRun ++ finishRun ++ [.reactor 0 .next] ++ returnRun,
    -- the open has failed, and the application thread has published it
    [.reactor 0 .message, .reactor 0 (.code (-19)), .reactor 0 .next, .owner .next, .owner .next] ++ returnRun,
    -- the message that begins the teardown cannot be posted, and the bdev is removed later
    builtRun ++ [.owner .next, .owner .next, .owner .next, .owner (.code (-12))] ++ returnRun ++ [.reactor 0 .remove],
    -- the second worker cannot be told, and has a dispatch in its ring
    builtRun ++ sentRun ++ [.caller 0 (.code 0)] ++ askRun ++ [.reactor 0 .message, .reactor 0 .next,
      .reactor 0 (.code (-12)), .reactor 0 .next, .reactor 0 .next, .reactor 0 .next, .reactor 0 .next, .reactor 0 .next,
      .reactor 0 .next, .reactor 0 .next, .reactor 0 .next] ++ returnRun,
    -- the second worker has a command in flight
    builtRun ++ sentRun ++ submittedRun ++ askRun ++ tellRun ++ releaseRun ++ [.reactor 1 .next] ++ finishRun ++
      [.reactor 0 .next] ++ returnRun,
    -- a dispatch is on its way to the second worker
    builtRun ++ sentRun ++ askRun ++ tellRun ++ releaseRun ++ [.reactor 1 .next] ++ finishRun ++ [.reactor 0 .next] ++
      returnRun ++ [.caller 0 (.code 0)]]

/-- The run ends with `close()` returned and something of the context left. -/
def Outlived (as : List Action) : Prop :=
  ∃ s, runFrom (step pairEnv) (Sys.init Nat.toUInt8) as = some s ∧ s.Returned ∧ ¬ s.Detached

/-- **`close()` returns before the last call has been made** in each of these. -/
theorem context_outlived : outlivedRuns.Forall Outlived := by
  have hend : ∀ as ∈ outlivedRuns, (runFrom (step pairEnv) (Sys.init Nat.toUInt8) as).any (fun s =>
      decide (s.owner = .closed) && (s.attached 0 || s.attached 1)) = true := by decide +kernel
  refine List.forall_iff_forall_mem.2 fun as has => ?_
  obtain ⟨s, hrun, hs⟩ := (Option.any_eq_true _ _).1 (hend as has)
  obtain ⟨hclosed, hattached⟩ := Bool.and_eq_true_iff.1 hs
  refine ⟨s, hrun, .inl (of_decide_eq_true hclosed), ?_⟩
  rcases Bool.or_eq_true_iff.1 hattached with h | h
  · exact not_detached h
  · exact not_detached h

end SpdkBdevContext
end SpdkConnector
