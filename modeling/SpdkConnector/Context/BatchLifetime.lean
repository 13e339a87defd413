import SpdkConnector.Context.Reactors
import SpdkConnector.Context.Waiters
import SpdkConnector.Context.Completion

/-!
# The lifetime of a batch

`IoBatchRequest`, its requests and its dispatches are on the stack of `submit_batch_and_wait`, and are gone
when it returns. A reactor that holds one of the requests keeps the batch waiting, so the callbacks find it
alive. But the `notify_one` of `complete_request` (:973) comes after the critical section that lets the caller
go: a caller that checks its predicate in between returns, and the reactor notifies a condition variable that
is gone (`notify_dangles`). Without such a return nothing is touched too late (`batch_lifetime`).
-/

namespace SpdkConnector
namespace SpdkBdevContext

open Interleaving

variable {e : Env} {s s' : Sys} {κ : Core} {w v b : Nat} {x y : Reactor}

/-! ## What a reactor touches -/

/-- What a step of reactor `w` may read or write of batch `b`: it has a request of the batch in a frame, in a
message, in a list of its own or of SPDK's, or it is about to notify. -/
def Accesses (s : Sys) (w b : Nat) : Prop :=
  (∃ y ∈ (s.reactor w).entries, y.1.1 = b) ∨ ∃ rest, (s.reactor w).stack = .io (.notifyOne b) :: rest

theorem IoFrame.entries_open {f : IoFrame} {y : Ref × Stage} (h : y ∈ f.entries) : y.2 ≠ .absent ∧ y.2.Open := by
  cases f <;> simp only [IoFrame.entries, List.mem_map, List.mem_singleton, List.not_mem_nil] at h
  case executeWorkerBatch rs =>
    obtain ⟨r, -, rfl⟩ := h
    exact ⟨by simp, trivial⟩
  all_goals
    subst h
    exact ⟨by simp, trivial⟩

theorem Frame.entries_open {f : Frame} {y : Ref × Stage} (h : y ∈ f.entries) : y.2 ≠ .absent ∧ y.2.Open := by
  cases f with
  | io f => exact IoFrame.entries_open h
  | life f => cases h

/-- A request on a reactor is built and not completed. -/
theorem entries_open {y : Ref × Stage} (h : y ∈ x.entries) : y.2 ≠ .absent ∧ y.2.Open := by
  simp only [Reactor.entries, List.mem_append, List.mem_flatMap, List.mem_map] at h
  rcases h with ⟨m, -, hm⟩ | ⟨f, -, hf⟩ | ⟨r, -, rfl⟩ | ⟨c, -, rfl⟩ | ⟨r, -, rfl⟩
  · exact Frame.entries_open hm
  · exact Frame.entries_open hf
  all_goals exact ⟨by simp, trivial⟩

/-- A batch with a request not completed has not let its caller go. -/
theorem open_unreturned (hc : Consistent e κ) {r : Ref} (hbuilt : κ.stage r ≠ .absent) (hopen : (κ.stage r).Open) :
    (κ.batch r.1).caller ≠ .returning ∧ (κ.batch r.1).caller ≠ .returned := by
  have hlt : r.2 < (κ.batch r.1).items.length := by
    rw [← Nat.not_le, ← hc.absent_iff]
    exact hbuilt
  have hwaits : ¬ ((κ.batch r.1).caller = .returning ∨ (κ.batch r.1).caller = .returned) := by
    intro hover
    have hzero := hc.returned r.1 hover
    rw [hc.remaining r.1] at hzero
    exact openCount_zero hzero r.2 hlt hopen
  exact not_or.1 hwaits

theorem entry_unreturned (ht : Tracks s κ) (hc : Consistent e κ) {y : Ref × Stage}
    (h : y ∈ (s.reactor w).entries) :
    (s.batch y.1.1).caller ≠ .returning ∧ (s.batch y.1.1).caller ≠ .returned := by
  obtain ⟨hstage, -⟩ := ht.entry h
  obtain ⟨hbuilt, hopen⟩ := entries_open h
  rw [← hstage] at hbuilt hopen
  rw [← ht.batch]
  exact open_unreturned hc hbuilt hopen

/-! ## The notification -/

/-- A frame that notifies was left by the critical section of its batch. -/
theorem Done.notify {f : IoFrame} {fs : List IoFrame} (h : Done w x f y fs) (hb : .notifyOne b ∈ fs) :
    ∃ r success error, f = .completeRequest r success error ∧ r.1 = b := by
  cases h with
  | completed r success error fs hfs =>
    rcases hfs with rfl | rfl
    · cases hb
    · simp only [List.mem_singleton, IoFrame.notifyOne.injEq] at hb
      exact ⟨r, success, error, rfl, hb.symm⟩
  | parked r dma y fs hparked => cases hparked <;> simp at hb
  | _ => simp at hb

theorem Tended.notify {f : LifeFrame} {c : Choice} {fs : List Frame} (h : Tended w x f c y fs) :
    .io (.notifyOne b) ∉ fs := by
  cases h <;> simp

theorem Acted.notify {a : Action} (h : Acted s v a y) (hb : .io (.notifyOne b) ∈ y.stack) :
    .io (.notifyOne b) ∈ (s.reactor v).stack ∨
    ∃ c r success error rest, a = .reactor v c ∧
      (s.reactor v).stack = .io (.completeRequest r success error) :: rest ∧ r.1 = b := by
  cases h with
  | message m rest =>
    simp only [List.mem_singleton] at hb
    cases m <;> cases hb
  | completion | ioWait | event => simp at hb
  | io c f rest y fs hst hdone =>
    rcases List.mem_append.1 hb with hb | hb
    · obtain ⟨g, hg, heq⟩ := List.mem_map.1 hb
      cases heq
      obtain ⟨r, success, error, rfl, hr⟩ := hdone.notify hg
      exact .inr ⟨c, r, success, error, rest, rfl, hst, hr⟩
    · exact .inl (hst ▸ List.mem_cons_of_mem _ hb)
  | life c f rest y fs hst htended =>
    rcases List.mem_append.1 hb with hb | hb
    · exact absurd hb htended.notify
    · exact .inl (hst ▸ List.mem_cons_of_mem _ hb)
  | reached u c f rest y hu hst hreached => cases hreached <;> exact .inl hb
  | _ => exact .inl hb

/-- A caller does not return while the `notify_one` of its batch is still to come. -/
def NotifiedFirst (s : Sys) : Action → Prop
  | .caller b _ => (s.batch b).caller = .returning → ∀ w, .io (.notifyOne b) ∉ (s.reactor w).stack
  | _ => True

/-- What is to be notified is there. -/
def Notifiable (s : Sys) : Prop :=
  ∀ w b, .io (.notifyOne b) ∈ (s.reactor w).stack → (s.batch b).caller ≠ .returned

theorem notifiable_step (ht : Tracks s κ) (hc : Consistent e κ) (hn : Notifiable s) {a : Action}
    (hok : NotifiedFirst s a) (h : step e s a = some s') : Notifiable s' := by
  intro w b hb
  have hold : (s.batch b).caller ≠ .returned ∧
      (.io (.notifyOne b) ∈ (s.reactor w).stack ∨ ∃ c, a = .reactor w c) := by
    rcases (step_acted ht hc h w).notify hb with hold | ⟨c, r, success, error, rest, rfl, hst, rfl⟩
    · exact ⟨hn w b hold, .inl hold⟩
    · have hentry : (r, Stage.closing success) ∈ (s.reactor w).entries :=
        entries_frame (hst ▸ List.mem_cons_self) (List.mem_singleton_self _)
      exact ⟨(entry_unreturned ht hc hentry).2, .inr ⟨c, rfl⟩⟩
  obtain ⟨hlive, hwhere⟩ := hold
  have hcalled := step_called ht h b
  generalize (s'.batch b).caller = pc at hcalled
  cases hcalled with
  | same => exact hlive
  | woken => nofun
  | submitted => nofun
  | went c pc _ hreturned =>
    rintro rfl
    rcases hwhere with hwhere | ⟨c, hc⟩
    · exact hok (hreturned.1 rfl) w hwhere
    · cases hc

/-- **The lifetime of a batch**: in every run in which no caller returns before the `notify_one` that is due
for its batch, nothing that a reactor can touch belongs to a batch whose call has returned. -/
theorem batch_lifetime {device : Nat → UInt8} {as : List Action}
    (h : runFrom (step e) (Sys.init device) as = some s)
    (hok : Guarded (step e) NotifiedFirst (Sys.init device) as) (hb : Accesses s w b) :
    (s.batch b).caller ≠ .returned := by
  have hinv : ∃ κ, Tracks s κ ∧ Consistent e κ ∧ Notifiable s := by
    refine run_invariant (I := fun s => ∃ κ, Tracks s κ ∧ Consistent e κ ∧ Notifiable s) ?_
      ⟨_, init_tracks device, init_consistent e device, ?_⟩ hok h
    · rintro s1 a s2 ⟨κ, ht, hc, hn⟩ hoka hstep
      obtain ⟨κ', hm, ht', -⟩ := step_follows ht hc hstep
      exact ⟨κ', ht', moves_consistent hc hm, notifiable_step ht hc hn hoka hstep⟩
    · intro v c hc
      rcases eq_or_ne v 0 with rfl | hv
      · simp [Sys.init] at hc
      · simp [Sys.init, hv] at hc
  obtain ⟨κ, ht, hc, hn⟩ := hinv
  rcases hb with ⟨y, hy, rfl⟩ | ⟨rest, hst⟩
  · exact (entry_unreturned ht hc hy).2
  · exact hn w b (hst ▸ List.mem_cons_self)

/-- The step is not the return of a caller. -/
def Stays (s : Sys) : Action → Bool
  | .caller b _ => (s.batch b).caller != .returning
  | _ => true

theorem Stays.notifiedFirst {a : Action} (h : Stays s a = true) : NotifiedFirst s a := by
  cases a with
  | caller b c =>
    intro hreturning
    simp [Stays, hreturning] at h
  | _ => trivial

/-- A batch is dispatched, and its worker takes up its request. -/
theorem batch_lifetime_dispatched : ∃ s, runFrom (step smallEnv) (Sys.init Nat.toUInt8)
      (openRun ++ submitRun 0 .read [⟨some ⟨0, 0⟩, 1, 2, 2⟩] ++ [.reactor 0 .message, .reactor 0 .next]) = some s ∧
    Accesses s 0 0 ∧ (s.batch 0).caller ≠ .returned := by
  have hrun : runFrom (step smallEnv) (Sys.init Nat.toUInt8)
      (openRun ++ submitRun 0 .read [⟨some ⟨0, 0⟩, 1, 2, 2⟩] ++ [.reactor 0 .message, .reactor 0 .next]) = some _ := rfl
  have hstays : Guarded (step smallEnv) (fun s a => Stays s a = true) (Sys.init Nat.toUInt8)
      (openRun ++ submitRun 0 .read [⟨some ⟨0, 0⟩, 1, 2, 2⟩] ++ [.reactor 0 .message, .reactor 0 .next]) := by decide
  refine ⟨_, hrun, ?_, batch_lifetime (w := 0) hrun (hstays.mono fun _ _ => Stays.notifiedFirst) ?_⟩
  · exact .inl ⟨((0, 0), .queued), List.mem_cons_self, rfl⟩
  · exact .inl ⟨((0, 0), .queued), List.mem_cons_self, rfl⟩

/-- The caller checks its predicate between the last critical section and its `notify_one`. -/
def danglingRun : List Action :=
  openRun ++ [.submit .read [⟨some ⟨0, 0⟩, 1, 2, 2⟩] fun _ j => j.toUInt8, .caller 0 .next, .caller 0 (.code 0),
    .caller 0 .next, .reactor 0 .message, .reactor 0 .next, .reactor 0 (.submit 0 0 0), .reactor 0 .next,
    .transfer 0 0 2, .reactor 0 (.completion 0 true), .reactor 0 .next, .reactor 0 .next, .reactor 0 .next,
    .caller 0 .next, .caller 0 .next]

/-- The call has returned, and the reactor's next step notifies the condition variable of its batch. -/
theorem notify_dangles : ∃ s s', runFrom (step smallEnv) (Sys.init Nat.toUInt8) danglingRun = some s ∧
    (s.batch 0).caller = .returned ∧ (s.reactor 0).stack = [.io (.notifyOne 0), .io (.drainPendingIo 0)] ∧
    Accesses s 0 0 ∧ step smallEnv s (.reactor 0 .next) = some s' := by
  have hrun : runFrom (step smallEnv) (Sys.init Nat.toUInt8) danglingRun = some _ := rfl
  exact ⟨_, _, hrun, rfl, rfl, .inr ⟨_, rfl⟩, rfl⟩

end SpdkBdevContext
end SpdkConnector
