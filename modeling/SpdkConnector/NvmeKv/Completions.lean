import SpdkConnector.NvmeKv.NativeConnector

/-!
# Completions find their call

A connection is `Awaited` when at most one command is outstanding, the one the running call waits for,
and its `CommandResult` says whether it still is. Every step keeps this as long as no wait gives up with
its command outstanding; a wait that does leaves a command behind whose record and staging buffer are
gone (`late_completion`).
-/
namespace SpdkConnector
namespace SpdkNvmeKvConnector

open Codec Interleaving

variable {s s' : Sys} {w : Nat} {a : Activation}

/-- How a call and the qpair stand to each other: nothing outstanding before the submission, and after
it either the completion has been delivered or the command is the only one the qpair holds. -/
def Activation.Awaits (a : Activation) (c : KvConnection) : Prop :=
  match a.pc with
  | .entry => c.outstanding = []
  | .submitting => c.outstanding = [] ∧ (c.memory a.result).done = false
  | .testing | .polling | .polled =>
    (c.outstanding = [] ∧ (c.memory a.result).done = true) ∨
    ∃ cmd, c.outstanding = [cmd] ∧ cmd.ticket = a.ticket ∧ cmd.context = a.result ∧
      (c.memory a.result).done = false

structure KvConnection.Awaited (c : KvConnection) : Prop where
  matched : ∀ e ∈ c.log, e.Matched
  idle : c.active = none → c.outstanding = []
  call : ∀ a, c.active = some a → a.Awaits c

theorem awaited_init (records : Bytes → Option Bytes) (w : Nat) :
    ((Sys.init records).connection w).Awaited := by
  refine ⟨?_, fun _ => rfl, ?_⟩
  · intro e he
    cases he
  · intro a ha
    cases ha

theorem awaited_set {c : KvConnection} (h : ∀ v, (s.connection v).Awaited)
    (hs : s'.connection = Function.update s.connection w c) (hc : c.Awaited) :
    ∀ v, (s'.connection v).Awaited := by
  intro v
  rw [hs]
  rcases eq_or_ne v w with rfl | hv
  · simpa using hc
  · simpa [hv] using h v

/-- A call that ends with nothing outstanding leaves its connection clean. -/
theorem leave_awaited (h : ∀ v, (s.connection v).Awaited) (hout : (s.connection w).outstanding = [])
    (outcome : Outcome) : ∀ v, ((leave s w a outcome).connection v).Awaited := by
  have hfreed : ∀ d, (Event.freed d (s.connection w).outstanding).Matched := by
    intro d cmd hcmd
    rw [hout] at hcmd
    cases hcmd
  unfold leave
  split
  · refine awaited_set h rfl ⟨?_, fun _ => hout, (fun _ hb => nomatch hb)⟩
    intro e he
    rcases List.mem_append.1 he with he | he
    · exact (h w).matched e he
    · rw [List.mem_singleton.1 he]
      trivial
  · refine awaited_set h rfl ⟨?_, fun _ => hout, (fun _ hb => nomatch hb)⟩
    intro e he
    rcases List.mem_append.1 he with he | he
    · exact (h w).matched e he
    · rcases List.mem_cons.1 he with rfl | he
      · exact hfreed _
      · rw [List.mem_singleton.1 he]
        trivial

/-- The call goes on and touches nothing but its own position. -/
theorem goto_awaited (h : ∀ v, (s.connection v).Awaited) {b : Activation}
    (hb : b.Awaits (s.connection w)) : ∀ v, ((s.goto w b).connection v).Awaited := by
  refine awaited_set h rfl ⟨(h w).matched, (fun hn => nomatch hn), ?_⟩
  intro c hc
  obtain rfl := Option.some.inj hc
  exact hb

theorem enter_awaited {m address : Nat} {buffer : Option Nat} (h : ∀ v, (s.connection v).Awaited)
    (hout : (s.connection w).outstanding = []) (hs : enter m s w a address buffer = some s') :
    ∀ v, (s'.connection v).Awaited := by
  have hfresh : ∀ staging : Option Nat, KvConnection.Awaited { s.connection w with
      memory := Function.update (s.connection w).memory address ⟨false, false⟩
      active := some { a with pc := .submitting, result := address, staging } } := by
    intro staging
    refine ⟨(h w).matched, (fun hn => nomatch hn), ?_⟩
    intro b hb
    obtain rfl := Option.some.inj hb
    exact ⟨hout, by simp⟩
  unfold enter at hs
  split at hs
  · cases hs
    exact awaited_set h rfl (hfresh a.staging)
  · split at hs
    · cases hs
      exact leave_awaited h hout _
    · split at hs
      · cases hs
        exact leave_awaited h hout _
      · split at hs
        · cases hs
        · cases hs
          exact awaited_set h rfl (hfresh _)

theorem submit_awaited {accepted : Bool} (h : ∀ v, (s.connection v).Awaited)
    (hout : (s.connection w).outstanding = []) (hdone : ((s.connection w).memory a.result).done = false) :
    ∀ v, ((submit s w a accepted).connection v).Awaited := by
  unfold submit
  split
  · refine awaited_set h rfl ⟨(h w).matched, (fun hn => nomatch hn), ?_⟩
    intro b hb
    obtain rfl := Option.some.inj hb
    exact .inr ⟨_, congrArg (· ++ [_]) hout, rfl, rfl, hdone⟩
  · exact leave_awaited h hout _

theorem settle_awaited (h : ∀ v, (s.connection v).Awaited) (hout : (s.connection w).outstanding = []) :
    ∀ v, ((settle s w a).connection v).Awaited := by
  unfold settle
  dsimp only
  split
  · exact leave_awaited h hout _
  · split
    · exact leave_awaited h hout _
    · exact leave_awaited h hout _
    · exact leave_awaited h hout _
    · split
      · exact goto_awaited h hout
      · exact leave_awaited h hout _

/-- The completion of the only outstanding command reaches the call that waits for it. -/
theorem deliver_awaited {k : Nat} {cmd : Command} {success : Bool} (h : ∀ v, (s.connection v).Awaited)
    (ha : (s.connection w).active = some a) (hpc : a.pc = .polling)
    (hcmd : (s.connection w).outstanding[k]? = some cmd) :
    ∀ v, ((s.setConnection w { complete (s.connection w) cmd.context success with
      outstanding := (s.connection w).outstanding.eraseIdx k
      log := (s.connection w).log ++ [Event.completed cmd (some a)] }).connection v).Awaited := by
  have hcall := (h w).call a ha
  simp only [Activation.Awaits, hpc] at hcall
  rcases hcall with ⟨hout, -⟩ | ⟨cmd', hout, ht, hr, -⟩
  · rw [hout] at hcmd
    cases hcmd
  · rw [hout] at hcmd
    obtain ⟨rfl, rfl⟩ := command_only hcmd
    refine awaited_set h rfl ⟨?_, fun _ => by simp [hout], ?_⟩
    · intro e he
      rcases List.mem_append.1 he with he | he
      · exact (h w).matched e he
      · rw [List.mem_singleton.1 he]
        exact ⟨a, rfl, hpc, ht.symm, hr.symm⟩
    · intro b hb
      obtain rfl : b = a := Option.some.inj (hb.symm.trans ha)
      simp only [Activation.Awaits, hpc]
      exact .inl ⟨by simp [hout], by simp [complete, hr]⟩

/-- Running a command changes nothing the call waits for. -/
theorem execute_awaited {k : Nat} {fault : Bool} (h : ∀ v, (s.connection v).Awaited)
    (hs : execute s w k fault = some s') : ∀ v, (s'.connection v).Awaited := by
  have hset : ∀ (cmd : Command) (st : Option Status), (s.connection w).outstanding[k]? = some cmd →
      KvConnection.Awaited { s.connection w with
        outstanding := (s.connection w).outstanding.set k { cmd with status := st } } := by
    intro cmd st hcmd
    refine ⟨(h w).matched, fun hn => by simp [(h w).idle hn], ?_⟩
    intro b hb
    have hcall := (h w).call b hb
    unfold Activation.Awaits at hcall ⊢
    cases hpc : b.pc <;> simp only [hpc] at hcall ⊢
    case entry => simp [hcall]
    case submitting => simp [hcall]
    all_goals
      rcases hcall with ⟨hout, hdone⟩ | ⟨cmd', hout, ht, hr, hdone⟩
      · exact .inl ⟨by simp [hout], hdone⟩
      · rw [hout] at hcmd
        obtain ⟨rfl, rfl⟩ := command_only hcmd
        exact .inr ⟨{ cmd' with status := st }, by simp [hout], ht, hr, hdone⟩
  unfold execute at hs
  split at hs
  · cases hs
  · rename_i cmd hcmd
    split at hs
    · cases hs
    · dsimp only at hs
      split at hs
      · cases hs
        exact awaited_set h rfl (hset cmd _ hcmd)
      · split at hs <;> cases hs <;> exact awaited_set h rfl (hset cmd _ hcmd)

/-- A wait that gives up after its completion has nothing outstanding. -/
theorem gives_up_clean (h : (s.connection w).Awaited) (ha : (s.connection w).active = some a)
    (hpc : a.pc = .polling ∨ a.pc = .polled)
    (hok : ∀ b, (s.connection w).active = some b → ∀ cmd ∈ (s.connection w).outstanding, cmd.ticket ≠ b.ticket) :
    (s.connection w).outstanding = [] := by
  have hcall := h.call a ha
  unfold Activation.Awaits at hcall
  rcases hpc with hpc | hpc
  all_goals
    simp only [hpc] at hcall
    rcases hcall with ⟨hout, -⟩ | ⟨cmd, hout, ht, -⟩
    · exact hout
    · exact absurd ht (hok a ha cmd (by simp [hout]))

/-- One step keeps every connection `Awaited` if a wait that gives up has no command outstanding. -/
theorem step_awaited {m : Nat} {x : Nat × Action} (h : ∀ v, (s.connection v).Awaited) (hok : WaitsOut s x)
    (hs : step m s x = some s') : ∀ v, (s'.connection v).Awaited := by
  obtain ⟨w, act⟩ := x
  unfold step at hs
  split at hs
  · rename_i heq
    cases heq
    exact execute_awaited h hs
  · rename_i heq
    cases heq
    split at hs
    · cases hs
    · rename_i hnone
      cases hs
      exact goto_awaited h ((h w).idle hnone)
  · rename_i heq
    cases heq
    dsimp only at hs
    split at hs
    · cases hs
    · rename_i a ha
      have hcall := (h w).call a ha
      unfold Activation.Awaits at hcall
      split at hs
      · rename_i hpc _ _
        rw [hpc] at hcall
        exact enter_awaited h hcall hs
      · rename_i hpc _ _
        rw [hpc] at hcall
        cases hs
        exact submit_awaited h hcall.1 hcall.2
      · rename_i hpc _ _
        simp only [hpc] at hcall
        split at hs
        · rename_i hdone
          cases hs
          rcases hcall with ⟨hout, -⟩ | ⟨cmd, -, -, -, hnot⟩
          · exact settle_awaited h hout
          · rw [hdone] at hnot
            cases hnot
        · cases hs
          exact goto_awaited h hcall
      · rename_i hpc _ _
        split at hs
        · cases hs
        · rename_i cmd hcmd
          split at hs
          · cases hs
          · cases hs
            exact deliver_awaited h ha hpc hcmd
      · rename_i ok hpc _ _
        simp only [hpc] at hcall
        cases ok with
        | true =>
          cases hs
          exact goto_awaited h hcall
        | false =>
          cases hs
          exact leave_awaited h (gives_up_clean (h w) ha (.inl hpc) hok) _
      · rename_i expired hpc _ _
        simp only [hpc] at hcall
        cases expired with
        | true =>
          cases hs
          exact leave_awaited h (gives_up_clean (h w) ha (.inr hpc) hok) _
        | false =>
          cases hs
          exact goto_awaited h hcall
      · cases hs

/-- A run without polling errors and deadlines needs no further condition. -/
theorem guarded_patient {m : Nat} {run : List (Nat × Action)} (s : Sys)
    (h : ∀ x ∈ run, x.2 ≠ .processed false ∧ x.2 ≠ .clock true) : Guarded (step m) WaitsOut s run := by
  induction run generalizing s with
  | nil => trivial
  | cons x run ih =>
    refine ⟨?_, fun s' _ => ih s' fun y hy => h y (List.mem_cons_of_mem x hy)⟩
    obtain ⟨w, act⟩ := x
    obtain ⟨h1, h2⟩ := h (w, act) List.mem_cons_self
    unfold WaitsOut
    split
    · rename_i heq
      cases heq
      exact absurd rfl h1
    · rename_i heq
      cases heq
      exact absurd rfl h2
    · trivial

/-- **Completion matching**: in every run of any number of workers in which no wait gives up, by a polling
error or at its deadline, while its command is outstanding, every completion callback writes the record
of the call that waits for that command, and no staging buffer is freed under an outstanding command. -/
theorem completions_matched {m : Nat} {records : Bytes → Option Bytes} {run : List (Nat × Action)}
    (hrun : runFrom (step m) (Sys.init records) run = some s)
    (hok : Guarded (step m) WaitsOut (Sys.init records) run) :
    ∀ w, ∀ e ∈ (s.connection w).log, e.Matched := by
  have hall : ∀ v, (s.connection v).Awaited :=
    run_invariant (I := fun s => ∀ v, (s.connection v).Awaited)
      (fun _ _ _ h hok hs => step_awaited h hok hs) (awaited_init records) hok hrun
  intro w
  exact (hall w).matched

/-- A command from its preparation to the end of the wait for it, its `CommandResult` at address 0. -/
def waited (w : Nat) (buffer : Option Nat) : List (Nat × Action) :=
  [(w, .enter 0 buffer), (w, .submit true), (w, .test), (w, .execute 0 false), (w, .deliver 0), (w, .processed true),
    (w, .clock false), (w, .test)]

/-- A get and a delete on connection 0, the three commands of which have their `CommandResult`s in one place, and
between them a set on connection 1, whose staging buffer is where that of the get was. -/
def threeRun : List (Nat × Action) :=
  (0, .call (.get [7] 3)) :: waited 0 (some 0) ++ (1, .call (.set [8] [4])) :: (waited 1 (some 0)).take 3 ++
    (0, .call (.delete [7])) :: waited 0 none ++ (waited 1 none).drop 3 ++ waited 0 none

/-- Three completions, two of them on the address of an earlier one, and three outcomes. -/
theorem completions_matched_calls : ∃ s, runFrom (step 4) (Sys.init fun _ => some [1, 2, 3]) threeRun = some s ∧
    (s.connection 0).log.length = 6 ∧ .returned (.get [7] 3) (.filled [1, 2, 3]) ∈ (s.connection 0).log ∧
    .returned (.delete [7]) (.answer true) ∈ (s.connection 0).log ∧
    .returned (.set [8] [4]) .stored ∈ (s.connection 1).log ∧ ∀ w, ∀ e ∈ (s.connection w).log, e.Matched := by
  have htest : (runFrom (step 4) (Sys.init fun _ => some [1, 2, 3]) threeRun).any (fun s =>
      decide ((s.connection 0).log.length = 6 ∧ .returned (.get [7] 3) (.filled [1, 2, 3]) ∈ (s.connection 0).log ∧
        .returned (.delete [7]) (.answer true) ∈ (s.connection 0).log ∧
        .returned (.set [8] [4]) .stored ∈ (s.connection 1).log)) = true := by decide +kernel
  obtain ⟨s, hrun, h⟩ := (Option.any_eq_true _ _).1 htest
  obtain ⟨hlength, hget, hdelete, hset⟩ := of_decide_eq_true h
  exact ⟨s, hrun, hlength, hget, hdelete, hset, completions_matched hrun (guarded_patient _ (by decide))⟩

/-- A get whose command is still outstanding at the deadline, and an exists call on the same connection
whose `CommandResult` lies where that of the get was. -/
def lateRun : List (Nat × Action) :=
  [(0, .call (.get [7] 3)), (0, .enter 0 (some 0)), (0, .submit true), (0, .test), (0, .processed true),
    (0, .clock true), (0, .call (.exists [7])), (0, .enter 0 none), (0, .submit true), (0, .test),
    (0, .execute 0 false), (0, .deliver 0)]

/-- The staging buffer of the get is freed under its command, and its completion ends up in the
`CommandResult` of the exists call, whose own command the device has not run. -/
theorem late_completion : ∃ s, runFrom (step 4) (Sys.init fun _ => some [1, 2, 3]) lateRun = some s ∧
    (∃ d outstanding, .freed d outstanding ∈ (s.connection 0).log ∧ ¬ (Event.freed d outstanding).Matched) ∧
    (∃ cmd active, .completed cmd active ∈ (s.connection 0).log ∧ ¬ (Event.completed cmd active).Matched) ∧
    ((s.connection 0).memory 0).done = true ∧ (s.connection 0).outstanding.map (·.status) = [none] := by
  refine ⟨_, rfl, ⟨_, _, .head _, ?_⟩, ⟨_, _, .tail _ (.tail _ (.head _)), ?_⟩, rfl, rfl⟩
  · intro h
    exact h _ (.head _) rfl
  · rintro ⟨a, ha, -, ht, -⟩
    cases ha
    cases ht

end SpdkNvmeKvConnector
end SpdkConnector
