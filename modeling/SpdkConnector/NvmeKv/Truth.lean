import SpdkConnector.NvmeKv.Calls

/-!
# `do_single_exists` and `do_single_delete` against the namespace

What a run shows of one device key is a list of `Note`s. `Knows` relates the notes taken since a call began
to the position of the call, so that an answer can be checked against them; `Race` does the same for all the
deletes of a key from a moment it has a record on.

`complete` keeps one flag of a completion. A failed EXIST therefore reads as an absent key, and a DELETE of
an absent key as a failed one (`answers_mislead`). `Clear` leaves these out, and calls on a connection that
still holds a command (`late_completion`).
-/
namespace SpdkConnector
namespace SpdkNvmeKvConnector

open Codec Interleaving

variable {m : Nat} {s s' : Sys} {v w : Nat} {a b : Activation} {act : Action} {k : Bytes}

inductive Note where
  /-- The key has no record when the step is taken. -/
  | absent
  /-- The device runs a STORE of the key for worker `w`. -/
  | stored (w : Nat)
  /-- The device removes the record for worker `w`. -/
  | removed (w : Nat)
  /-- The device fails a command of worker `w`. -/
  | faulted (w : Nat)
  | ended (w : Nat) (call : Call) (outcome : Outcome)
  deriving DecidableEq, Repr

/-- What the device does with key `k` in a step. -/
def deviceNotes (k : Bytes) (s : Sys) : Nat × Action → List Note
  | (w, .execute i fault) =>
    match (s.connection w).outstanding[i]? with
    | none => []
    | some cmd =>
      if fault then [.faulted w]
      else if cmd.deviceKey = k then
        match cmd.operation, s.records k with
        | .store, _ => [.stored w]
        | .delete, some _ => [.removed w]
        | _, _ => []
      else []
  | _ => []

def notes (m : Nat) (k : Bytes) (s : Sys) (x : Nat × Action) : List Note :=
  (if (s.records k).isNone then [.absent] else []) ++ deviceNotes k s x ++
    (ended m s x).map fun e => .ended e.1 e.2.1 e.2.2

/-- A call begins on a connection that holds no command; a delivered EXIST has not failed but for an absent
key, and a delivered DELETE has not found the key absent. -/
def Clear (s : Sys) : Nat × Action → Prop
  | (w, .call _) => (s.connection w).outstanding = []
  | (w, .deliver i) => ∀ cmd, (s.connection w).outstanding[i]? = some cmd →
    (cmd.operation = .exist → cmd.status ≠ some .error) ∧ (cmd.operation = .delete → cmd.status ≠ some .keyNotFound)
  | _ => True

/-- From `s`, worker `w` makes the call at the first step of the run and has its outcome at the last. -/
def Made (m : Nat) (s : Sys) (w : Nat) (call : Call) (run : List (Nat × Action)) (outcome : Outcome) : Prop :=
  ∃ mid x t, run = (w, .call call) :: mid ++ [x] ∧ (∀ c, (w, .call c) ∉ mid) ∧
    runFrom (step m) s ((w, .call call) :: mid) = some t ∧ (w, call, outcome) ∈ ended m t x

/-- A command could not be prepared or submitted, or the wait for it was given up. -/
def Action.GivesUp : Action → Prop
  | .enter _ _ | .submit false | .processed false | .clock true => True
  | _ => False

/-- The outcome of a call against what was noted of its key and its worker during the call. -/
structure Truth (w : Nat) (call : Call) (run : List (Nat × Action)) (es : List Note) (outcome : Outcome) : Prop where
  /-- `do_single_exists` returns false. -/
  missing : ∀ key, call = .exists key → outcome = .answer false → .absent ∈ es
  /-- `do_single_delete` returns true exactly when it has removed the record. -/
  deleted : ∀ key, call = .delete key → ∀ answer, outcome = .answer answer → (answer = true ↔ .removed w ∈ es)
  /-- `do_single_delete` returns false. -/
  nothing : ∀ key, call = .delete key → outcome = .answer false → .absent ∈ es
  /-- Only these calls are meant to throw for an absent key. -/
  raised : (∀ key len, call ≠ .get key len) → ∀ what, outcome = .raised what →
    (∃ act, run.getLast? = some (w, act) ∧ act.GivesUp) ∨ .faulted w ∈ es

/-! ## Notes of a step -/

theorem mem_deviceNotes {n : Note} (h : n ∈ deviceNotes k s (v, act)) :
    n = .stored v ∨ n = .removed v ∨ n = .faulted v := by
  unfold deviceNotes at h
  split at h
  · rename_i heq
    cases heq
    split at h
    · cases h
    · split at h
      · simp_all
      · split at h
        · split at h <;> simp_all
        · cases h
  · cases h

theorem deviceNotes_quiet (h : ∀ i fault, act ≠ .execute i fault) : deviceNotes k s (v, act) = [] := by
  unfold deviceNotes
  split
  · rename_i heq
    cases heq
    exact absurd rfl (h _ _)
  · rfl

theorem absent_mem_notes (h : s.records k = none) : Note.absent ∈ notes m k s (v, act) := by
  simp [notes, h]

theorem removed_mem_notes : Note.removed w ∈ notes m k s (v, act) ↔ .removed w ∈ deviceNotes k s (v, act) := by
  unfold notes
  split <;> simp

theorem faulted_mem_notes : Note.faulted w ∈ notes m k s (v, act) ↔ .faulted w ∈ deviceNotes k s (v, act) := by
  unfold notes
  split <;> simp

/-- The device removes a record only for the worker whose DELETE it runs. -/
theorem removed_ne (h : v ≠ w) : Note.removed w ∉ notes m k s (v, act) := by
  rw [removed_mem_notes]
  intro hn
  rcases mem_deviceNotes hn with hn | hn | hn <;> cases hn
  exact h rfl

/-- What is noted when the device runs a command. -/
theorem notes_run {i : Nat} {fault : Bool} {cmd : Command} {st : Status} {t : Sys}
    (hcmd : (s.connection w).outstanding[i]? = some cmd) (hk : cmd.deviceKey = k) (hran : Ran s cmd fault st t) :
    (st = .error → .faulted w ∈ deviceNotes k s (w, .execute i fault)) ∧ (st = .keyNotFound → s.records k = none) ∧
      (.removed w ∈ deviceNotes k s (w, .execute i fault) ↔ cmd.operation = .delete ∧ st = .success) := by
  subst hk
  cases hran with
  | faulted => simp [deviceNotes, hcmd]
  | stored h => simp [deviceNotes, hcmd, h]
  | absent h hk =>
    refine ⟨(nomatch ·), fun _ => hk, ?_⟩
    simp only [deviceNotes, hcmd, hk]
    cases hop : cmd.operation <;> simp
  | found h hk => simp [deviceNotes, hcmd, h]
  | removed h hk => simp [deviceNotes, hcmd, h, hk]
  | read h hk => simp [deviceNotes, hcmd, h]

/-! ## During one call -/

def Progress.status? : Progress → Option Status
  | .before | .pending => none
  | .ran st | .delivered st => some st

/-- A status the call can tell from its flag. -/
def Told (operation : Operation) (st : Status) : Prop :=
  (operation = .exist → st ≠ .error) ∧ (operation = .delete → st ≠ .keyNotFound)

/-- What the notes since the call began say when its command is this far. -/
structure Knows (w : Nat) (a : Activation) (p : Progress) (es : List Note) : Prop where
  absent : p.status? = some .keyNotFound → .absent ∈ es
  faulted : p.status? = some .error → .faulted w ∈ es
  removed : .removed w ∈ es ↔ a.operation = .delete ∧ p.status? = some .success
  stores : a.operation = .store → p.status? ≠ some .keyNotFound
  told : ∀ st, p = .delivered st → Told a.operation st

/-- Notes of a step that is not the device's on this connection. -/
theorem Knows.more {p : Progress} {es : List Note} (h : Knows w a p es) (ns : List Note) (hns : .removed w ∉ ns) :
    Knows w a p (es ++ ns) := by
  refine ⟨?_, ?_, ?_, h.stores, h.told⟩
  · intro hp
    exact List.mem_append_left _ (h.absent hp)
  · intro hp
    exact List.mem_append_left _ (h.faulted hp)
  · rw [List.mem_append]
    simp only [hns, or_false]
    exact h.removed

theorem Knows.same {p : Progress} {es : List Note} (h : Knows w a p es) (hop : b.operation = a.operation) :
    Knows w b p es := by
  refine ⟨h.absent, h.faulted, ?_, ?_, ?_⟩
  · rw [hop]
    exact h.removed
  · rw [hop]
    exact h.stores
  · rw [hop]
    exact h.told

theorem Knows.submit {es : List Note} (h : Knows w a .before es) : Knows w a .pending es :=
  ⟨nofun, nofun, h.removed, h.stores, nofun⟩

/-- The device runs the command of the call. -/
theorem Knows.run {es : List Note} {i : Nat} {fault : Bool} {cmd : Command} {st : Status} {t : Sys}
    (h : Knows w a .pending es) (hissued : a.Issued cmd) (hcmd : (s.connection w).outstanding[i]? = some cmd)
    (hran : Ran s cmd fault st t) :
    Knows w a (.ran st) (es ++ notes m (deriveKey a.call.key) s (w, .execute i fault)) := by
  obtain ⟨herror, hmissing, hremoved⟩ := notes_run hcmd hissued.deviceKey hran
  refine ⟨?_, ?_, ?_, ?_, nofun⟩
  · intro hst
    have hnone := hmissing (Option.some.inj hst)
    exact List.mem_append_right _ (absent_mem_notes hnone)
  · intro hst
    apply List.mem_append_right
    exact faulted_mem_notes.2 (herror (Option.some.inj hst))
  · have hbefore : .removed w ∉ es := by
      rw [h.removed]
      exact fun hn => nomatch hn.2
    rw [List.mem_append, removed_mem_notes, hremoved, hissued.operation]
    simp [hbefore, Progress.status?]
  · intro hop hst
    cases Option.some.inj hst
    cases hran with
    | absent hne _ => exact hne (hissued.operation.trans hop)

theorem removed_quiet (h : ∀ i fault, act ≠ .execute i fault) : Note.removed v ∉ notes m k s (w, act) := by
  rw [removed_mem_notes, deviceNotes_quiet h]
  exact List.not_mem_nil

/-- Worker `w` is in this call, and knows what the notes say. -/
def InCall (w : Nat) (call : Call) (es : List Note) (s : Sys) : Prop :=
  ∃ a p, (s.connection w).active = some a ∧ a.call = call ∧ a.Proper ∧ a.At (s.connection w) p ∧ Knows w a p es

theorem Activation.Same.proper (h : a.Same b) (hp : a.Proper) : b.Proper := by
  unfold Activation.Proper
  rw [h.call, h.operation]
  exact hp

/-- **One step of a call**: the worker stays in it, or leaves with an outcome the notes bear out. -/
theorem inCall_step {call : Call} {es : List Note} (h : InCall w call es s) (hok : Clear s (v, act))
    (hs : step m s (v, act) = some s') :
    InCall w call (es ++ notes m (deriveKey call.key) s (v, act)) s' ∧ (∀ c o, (w, c, o) ∉ ended m s (v, act)) ∨
    v = w ∧ ∃ o a p, s' = leave s w a o ∧ a.call = call ∧ Ends s a p act o ∧ a.Proper ∧
      Knows w a p (es ++ notes m (deriveKey call.key) s (v, act)) := by
  obtain ⟨a, p, ha, rfl, hproper, hat, hknows⟩ := h
  by_cases hv : v = w
  · subst hv
    have hquiet : Quiet s s' v → ∀ c o, (v, c, o) ∉ ended m s (v, act) := by
      intro hq c o
      rw [ended_quiet hs hq]
      exact List.not_mem_nil
    cases call_step ha hat hproper hs with
    | moves own same next staged active at' records dma quiet =>
      refine .inl ⟨⟨_, _, active, same.call, same.proper hproper, at', ?_⟩, hquiet quiet⟩
      rcases next with rfl | ⟨rfl, rfl⟩
      · exact (hknows.same same.operation).more _ (removed_quiet own)
      · exact (hknows.submit.same same.operation).more _ (removed_quiet own)
    | prepares call operation staging hlen free active at' records dma quiet =>
      refine .inl ⟨⟨_, _, active, call, ?_, at', ?_⟩, hquiet quiet⟩
      · unfold Activation.Proper at hproper ⊢
        rwa [call, operation]
      · exact (hknows.same operation).more _ (removed_quiet nofun)
    | runs issued hcmd unrun ran active at' records dma quiet =>
      exact .inl ⟨⟨a, _, active, rfl, hproper, at', hknows.run issued hcmd ran⟩, hquiet quiet⟩
    | delivers issued hcmd status active at' records dma quiet =>
      obtain ⟨hexist, hdelete⟩ := hok _ hcmd
      rw [issued.operation, status] at hexist hdelete
      refine .inl ⟨⟨a, _, active, rfl, hproper, at', Knows.more ?_ _ (removed_quiet nofun)⟩, hquiet quiet⟩
      refine ⟨hknows.absent, hknows.faulted, hknows.removed, hknows.stores, ?_⟩
      intro st hst
      cases hst
      exact ⟨fun h heq => hexist h (by rw [heq]), fun h heq => hdelete h (by rw [heq])⟩
    | deletes hcall hop active at' records dma quiet =>
      refine .inl ⟨⟨_, _, active, rfl, .inr ⟨⟨_, hcall⟩, rfl⟩, at', Knows.more ?_ _ (removed_quiet nofun)⟩, hquiet quiet⟩
      refine ⟨nofun, nofun, ?_, nofun, nofun⟩
      rw [hknows.removed, hop]
      simp [Progress.status?]
    | ends hends =>
      exact .inr ⟨rfl, _, a, p, rfl, rfl, hends, hproper, hknows.more _ (removed_quiet hends.own)⟩
  · refine .inl ⟨⟨a, p, ?_, rfl, hproper, ?_, hknows.more _ (removed_ne hv)⟩, ?_⟩
    · rw [step_ne (Ne.symm hv) hs]
      exact ha
    · rw [step_ne (Ne.symm hv) hs]
      exact hat
    · intro c o hmem
      simp only [ended, hs, Option.elim_some, List.mem_map, Prod.mk.injEq] at hmem
      obtain ⟨-, -, hvw, -⟩ := hmem
      exact hv hvw

/-- The notes bear an outcome out. -/
theorem Knows.truth {p : Progress} {es : List Note} {o : Outcome} {run : List (Nat × Action)}
    (h : Knows w a p es) (hends : Ends s a p act o) (hproper : a.Proper) (hlast : run.getLast? = some (w, act)) :
    Truth w a.call run es o := by
  -- EXIST reports a missing record or nothing but a record
  have hmissing : ∀ st, p = .delivered st → a.operation = .exist → st ≠ .success → .absent ∈ es := by
    intro st hp hop hst
    subst hp
    cases st with
    | success => exact absurd rfl hst
    | keyNotFound => exact h.absent rfl
    | error => exact absurd rfl ((h.told _ rfl).1 hop)
  have hgive : act.GivesUp → (∃ act, run.getLast? = some (w, act) ∧ act.GivesUp) ∨ .faulted w ∈ es :=
    fun hg => .inl ⟨act, hlast, hg⟩
  cases hends with
  | unprepared | refused | broken | expired => exact ⟨by simp, by simp, by simp, fun _ _ _ => hgive trivial⟩
  | @failed st hop hst what =>
    refine ⟨by simp, by simp, by simp, fun hget _ _ => .inr ?_⟩
    cases st with
    | success => exact absurd rfl hst
    | error => exact h.faulted rfl
    | keyNotFound =>
      rcases hproper with ho | ⟨-, ho⟩
      · cases hcall : a.call with
        | get key len => exact absurd hcall (hget key len)
        | set key buf => exact absurd rfl (h.stores (by simp [ho, hcall, Call.operation]))
        | «exists» key => simp [ho, hcall, Call.operation] at hop
        | delete key => simp [ho, hcall, Call.operation] at hop
      · exact absurd rfl ((h.told _ rfl).2 ho)
  | filled hcall => exact ⟨by simp, by simp, by simp, by simp⟩
  | stored hcall => exact ⟨by simp, by simp, by simp, by simp⟩
  | @«exists» key st hcall =>
    have hop : a.operation = .exist := by
      rcases hproper with ho | ⟨⟨k, hk⟩, -⟩
      · simp [ho, hcall, Call.operation]
      · rw [hcall] at hk
        cases hk
    refine ⟨?_, fun _ hd => (by rw [hcall] at hd; cases hd), fun _ hd => (by rw [hcall] at hd; cases hd), by simp⟩
    intro _ _ hanswer
    refine hmissing st rfl hop fun hst => ?_
    subst hst
    cases hanswer
  | @absent key st hcall hop hst =>
    refine ⟨fun _ he => (by rw [hcall] at he; cases he), ?_, fun _ _ _ => hmissing st rfl hop hst, by simp⟩
    intro _ _ answer hanswer
    cases hanswer
    rw [h.removed, hop]
    simp
  | @deleted key hcall hop =>
    refine ⟨fun _ he => (by rw [hcall] at he; cases he), ?_, by simp, by simp⟩
    intro _ _ answer hanswer
    cases hanswer
    rw [h.removed]
    exact ⟨fun _ => ⟨hop, rfl⟩, fun _ => rfl⟩

/-- A worker that makes no call has no outcome. -/
theorem idle_step (hidle : (s.connection w).active = none) (hcall : ∀ c, (v, act) ≠ (w, .call c))
    (hs : step m s (v, act) = some s') :
    (s'.connection w).active = none ∧ ∀ c o, (w, c, o) ∉ ended m s (v, act) := by
  by_cases hv : v = w
  · subst hv
    have hlog : (s'.connection v).log = (s.connection v).log → ∀ c o, (v, c, o) ∉ ended m s (v, act) := by
      intro hlog c o
      rw [ended_quiet hs (.refl hlog)]
      exact List.not_mem_nil
    cases step_cases hs with
    | call _ => exact absurd rfl (hcall _)
    | execute h =>
      obtain ⟨cmd, st, t, -, -, -, rfl⟩ := execute_cases h
      exact ⟨by simpa using hidle, hlog (by simp)⟩
    | enter active | submit active | settle active | poll active | deliver active | polled active | broken active
      | again active | expired active =>
      rw [hidle] at active
      cases active
  · refine ⟨by rw [step_ne (Ne.symm hv) hs]; exact hidle, ?_⟩
    intro c o hmem
    simp only [ended, hs, Option.elim_some, List.mem_map, Prod.mk.injEq] at hmem
    obtain ⟨-, -, hvw, -⟩ := hmem
    exact hv hvw

theorem idle_run {run : List (Nat × Action)} (hidle : (s.connection w).active = none)
    (hone : ∀ c, (w, .call c) ∉ run) (hs : runFrom (step m) s run = some s') : (s'.connection w).active = none := by
  have hguard : Guarded (step m) (fun _ y => ∀ c, y ≠ (w, .call c)) s run := by
    refine guarded_always s fun y hy _ c hc => ?_
    subst hc
    exact hone c hy
  refine run_invariant (I := fun s => (s.connection w).active = none) ?_ hidle hguard hs
  rintro t ⟨v, act⟩ t' ht hy hty
  exact (idle_step ht hy hty).1

/-- The call itself: a connection that holds no command. -/
theorem inCall_begin {call : Call} (hout : (s.connection w).outstanding = [])
    (hs : step m s (w, .call call) = some s') : InCall w call (notes m (deriveKey call.key) s (w, .call call)) s' := by
  cases step_cases hs with
  | call idle =>
    refine ⟨⟨call, call.operation, .entry, none, 0, 0⟩, .before, by simp [Sys.goto], rfl, .inl rfl, ?_, ?_⟩
    · exact ⟨by simpa [Sys.goto] using hout, .inl rfl⟩
    · refine ⟨by rintro ⟨⟩, by rintro ⟨⟩, ?_, by rintro - ⟨⟩, by rintro _ ⟨⟩⟩
      simp [removed_quiet, Progress.status?]

/-- **A run of steps from inside a call**, none of which begins another one. -/
theorem inCall_run {call : Call} {es : List Note} {run : List (Nat × Action)} (h : InCall w call es s)
    (hone : ∀ c, (w, .call c) ∉ run) (hok : Guarded (step m) Clear s run) (hs : runFrom (step m) s run = some s') :
    InCall w call (es ++ observed (step m) (notes m (deriveKey call.key)) s run) s' ∨
      (s'.connection w).active = none := by
  induction run generalizing s es with
  | nil =>
    cases hs
    exact .inl (by simpa [observed] using h)
  | cons x run ih =>
    obtain ⟨v, act⟩ := x
    obtain ⟨s1, h1, h2⟩ := runFrom_cons hs
    have hone' : ∀ c, (w, .call c) ∉ run := fun c hc => hone c (List.mem_cons_of_mem _ hc)
    rcases inCall_step h hok.1 h1 with ⟨h', -⟩ | ⟨rfl, o, a, p, rfl, -⟩
    · have := ih h' hone' (hok.2 s1 h1) h2
      simpa [observed, h1] using this
    · exact .inr (idle_run (leave_active o) hone' h2)

/-- **What a call says is so**, in a run whose steps are `Clear`. -/
theorem made_truth {call : Call} {run : List (Nat × Action)} {o : Outcome} (hmade : Made m s w call run o)
    (hok : Guarded (step m) Clear s run) :
    Truth w call run (observed (step m) (notes m (deriveKey call.key)) s run) o := by
  obtain ⟨mid, ⟨v, act⟩, t, rfl, hone, hrun, hended⟩ := hmade
  obtain ⟨s1, h1, h2⟩ := runFrom_cons hrun
  have hok := guarded_append hok
  have hbegin := inCall_begin hok.1.1 h1
  have hstep : ∃ t', step m t (v, act) = some t' := by
    cases h : step m t (v, act) with
    | none => simp [ended, h] at hended
    | some t' => exact ⟨t', rfl⟩
  obtain ⟨t', ht'⟩ := hstep
  have hclear := (hok.2 t hrun).1
  rcases inCall_run hbegin hone (hok.1.2 s1 h1) h2 with hcall | hidle
  · rcases inCall_step hcall hclear ht' with ⟨-, hnot⟩ | ⟨rfl, o', a, p, rfl, rfl, hends, hproper, hknows⟩
    · exact absurd hended (hnot _ _)
    · rw [ended_leave ht'] at hended
      obtain ⟨-, -, rfl⟩ : v = v ∧ a.call = a.call ∧ o = o' := by simpa using hended
      refine Knows.truth ?_ hends hproper (List.getLast?_concat (l := _ :: mid) ..)
      rw [observed_append hrun]
      simpa [observed, h1, ht'] using hknows
  · by_cases hcall : ∃ c, (v, act) = (w, .call c)
    · obtain ⟨c, hc⟩ := hcall
      cases hc
      have hquiet : Quiet t t' w := by
        cases step_cases ht' with
        | call _ => exact .refl (by simp [Sys.goto])
      rw [ended_quiet ht' hquiet] at hended
      cases hended
    · exact absurd hended ((idle_step hidle (fun c hc => hcall ⟨c, hc⟩) ht').2 _ _)

end SpdkNvmeKvConnector
end SpdkConnector
