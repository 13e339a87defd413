import SpdkConnector.NvmeKv.NativeConnector

/-!
# One call on its connection

`Activation.At` says how far the command of the running call is. As long as the connection held no command
when the call began, every step of its worker or of the device takes the call one position further:
`CallStep` lists the ways, `call_step` shows that there is no other. What the worker hands back is read off
the log (`ended`).
-/
namespace SpdkConnector
namespace SpdkNvmeKvConnector

open Codec Interleaving

variable {m : Nat} {s s' : Sys} {w : Nat} {a b : Activation} {act : Action}

/-- How far a command is. -/
inductive Progress where
  /-- Not submitted. -/
  | before
  /-- Submitted, and the device has not run it. -/
  | pending
  /-- The device has run it; the qpair holds the completion. -/
  | ran (status : Status)
  | delivered (status : Status)

structure Activation.Issued (a : Activation) (cmd : Command) : Prop where
  operation : cmd.operation = a.operation
  deviceKey : cmd.deviceKey = deriveKey a.call.key
  staging : cmd.staging = a.staging
  len : cmd.len = a.call.stagingLen.getD 0
  context : cmd.context = a.result

/-- Inside `wait_for_completion`. -/
def Activation.Waits (a : Activation) : Prop :=
  a.pc = .testing ∨ a.pc = .polling ∨ a.pc = .polled

/-- The call's own command is the only one the qpair holds, until its completion has been written into
the call's `CommandResult`. -/
def Activation.At (a : Activation) (c : KvConnection) : Progress → Prop
  | .before => c.outstanding = [] ∧ (a.pc = .entry ∨ a.pc = .submitting ∧ (c.memory a.result).done = false)
  | .pending => a.Waits ∧ (c.memory a.result).done = false ∧
    ∃ cmd, c.outstanding = [cmd] ∧ a.Issued cmd ∧ cmd.status = none
  | .ran st => a.Waits ∧ (c.memory a.result).done = false ∧
    ∃ cmd, c.outstanding = [cmd] ∧ a.Issued cmd ∧ cmd.status = some st
  | .delivered st => a.Waits ∧ c.outstanding = [] ∧ c.memory a.result = ⟨true, st == .success⟩

/-- The operation belongs to the call; only `do_single_delete` has a second one. -/
def Activation.Proper (a : Activation) : Prop :=
  a.operation = a.call.operation ∨ (∃ key, a.call = .delete key) ∧ a.operation = .delete

/-- The two are at the same command of the same call. -/
structure Activation.Same (a b : Activation) : Prop where
  call : b.call = a.call
  operation : b.operation = a.operation
  staging : b.staging = a.staging

/-- What the log says a worker has been handed. -/
def Event.handed? : Event → Option (Call × Outcome)
  | .returned call outcome => some (call, outcome)
  | _ => none

/-- The calls a step ends. -/
def ended (m : Nat) (s : Sys) (x : Nat × Action) : List (Nat × Call × Outcome) :=
  (step m s x).elim [] fun s' =>
    (((s'.connection x.1).log.drop (s.connection x.1).log.length).filterMap Event.handed?).map fun o => (x.1, o)

/-- No call of `w` has ended on the way. -/
def Quiet (s s' : Sys) (w : Nat) : Prop :=
  ∃ es, (s'.connection w).log = (s.connection w).log ++ es ∧ es.filterMap Event.handed? = []

/-- What running a command does to the namespace and to the DMA heap, and what it reports. -/
inductive Ran (s : Sys) (cmd : Command) : Bool → Status → Sys → Prop
  | faulted : Ran s cmd true .error s
  | stored (h : cmd.operation = .store) : Ran s cmd false .success { s with
      records := Function.update s.records cmd.deviceKey (some (((cmd.staging.bind s.dma).getD []).take cmd.len)) }
  | absent (h : cmd.operation ≠ .store) (hk : s.records cmd.deviceKey = none) : Ran s cmd false .keyNotFound s
  | found {v} (h : cmd.operation = .exist) (hk : s.records cmd.deviceKey = some v) : Ran s cmd false .success s
  | removed {v} (h : cmd.operation = .delete) (hk : s.records cmd.deviceKey = some v) :
    Ran s cmd false .success { s with records := Function.update s.records cmd.deviceKey none }
  | read {v} (h : cmd.operation = .retrieve) (hk : s.records cmd.deviceKey = some v) :
    Ran s cmd false .success { s with dma := match cmd.staging with
      | none => s.dma
      | some d => Function.update s.dma d ((s.dma d).map fun bytes =>
          v.take (min v.length (min cmd.len bytes.length)) ++ bytes.drop (min v.length (min cmd.len bytes.length))) }

theorem Ran.connection {cmd : Command} {fault : Bool} {st : Status} (h : Ran s cmd fault st s') :
    s'.connection = s.connection := by
  cases h <;> rfl

/-- Running a command changes the namespace and the heap as `Ran` says, and the command's status. -/
theorem execute_cases {k : Nat} {fault : Bool} (hs : execute s w k fault = some s') :
    ∃ cmd st t, (s.connection w).outstanding[k]? = some cmd ∧ cmd.status = none ∧ Ran s cmd fault st t ∧
      s' = t.setConnection w { s.connection w with
        outstanding := (s.connection w).outstanding.set k { cmd with status := some st } } := by
  unfold execute at hs
  split at hs
  · cases hs
  · rename_i cmd hcmd
    split at hs
    · cases hs
    · rename_i hnone
      have hnone : cmd.status = none := by simpa using hnone
      dsimp only at hs
      split at hs
      · rename_i hfault
        cases hs
        exact ⟨cmd, _, _, hcmd, hnone, hfault ▸ .faulted, rfl⟩
      · rename_i hfault
        obtain rfl : fault = false := by simpa using hfault
        split at hs
        · rename_i hop
          cases hs
          exact ⟨cmd, _, _, hcmd, hnone, .stored hop, rfl⟩
        · rename_i hk hop
          cases hs
          exact ⟨cmd, _, _, hcmd, hnone, .absent hop hk, rfl⟩
        · rename_i hop hk
          cases hs
          exact ⟨cmd, _, _, hcmd, hnone, .found hop hk, rfl⟩
        · rename_i hop hk
          cases hs
          exact ⟨cmd, _, _, hcmd, hnone, .removed hop hk, rfl⟩
        · rename_i hop hk
          cases hs
          exact ⟨cmd, _, _, hcmd, hnone, .read hop hk, rfl⟩

/-! ## A step of another connection -/

@[simp] theorem setConnection_self (c : KvConnection) : (s.setConnection w c).connection w = c := by
  simp [Sys.setConnection]

theorem setConnection_ne {v : Nat} (c : KvConnection) (h : v ≠ w) :
    (s.setConnection w c).connection v = s.connection v := by
  simp [Sys.setConnection, h]

theorem leave_ne {v : Nat} (o : Outcome) (h : v ≠ w) : (leave s w a o).connection v = s.connection v := by
  unfold leave
  dsimp only
  split <;> simp [Sys.setConnection, h]

theorem leave_records (o : Outcome) : (leave s w a o).records = s.records := by
  unfold leave
  dsimp only
  split <;> rfl

theorem leave_active (o : Outcome) : ((leave s w a o).connection w).active = none := by
  unfold leave
  dsimp only
  split <;> simp

theorem leave_outstanding (o : Outcome) :
    ((leave s w a o).connection w).outstanding = (s.connection w).outstanding := by
  unfold leave
  dsimp only
  split <;> simp

theorem enter_ne {v address : Nat} {buffer : Option Nat} (h : v ≠ w)
    (hs : enter m s w a address buffer = some s') : s'.connection v = s.connection v := by
  unfold enter at hs
  dsimp only at hs
  split at hs
  · cases hs
    exact setConnection_ne _ h
  · split at hs
    · cases hs
      exact leave_ne _ h
    · split at hs
      · cases hs
        exact leave_ne _ h
      · split at hs
        · cases hs
        · cases hs
          exact setConnection_ne _ h

theorem settle_ne {v : Nat} (h : v ≠ w) : (settle s w a).connection v = s.connection v := by
  unfold settle
  dsimp only
  split
  · exact leave_ne _ h
  · split
    · exact leave_ne _ h
    · exact leave_ne _ h
    · exact leave_ne _ h
    · split
      · exact setConnection_ne _ h
      · exact leave_ne _ h

/-- The steps of connection `w`, one constructor per branch of `step`. -/
inductive Move (m : Nat) (s : Sys) (w : Nat) : Action → Sys → Prop
  | call {call : Call} (idle : (s.connection w).active = none) :
    Move m s w (.call call) (s.goto w ⟨call, call.operation, .entry, none, 0, 0⟩)
  | enter {a : Activation} {address : Nat} {buffer : Option Nat} {s' : Sys}
      (active : (s.connection w).active = some a) (pc : a.pc = .entry)
    (h : enter m s w a address buffer = some s') : Move m s w (.enter address buffer) s'
  | submit {a : Activation} (active : (s.connection w).active = some a) (pc : a.pc = .submitting) (accepted : Bool) :
    Move m s w (.submit accepted) (submit s w a accepted)
  | settle {a : Activation} (active : (s.connection w).active = some a) (pc : a.pc = .testing)
    (done : ((s.connection w).memory a.result).done = true) : Move m s w .test (settle s w a)
  | poll {a : Activation} (active : (s.connection w).active = some a) (pc : a.pc = .testing)
    (done : ((s.connection w).memory a.result).done = false) : Move m s w .test (s.goto w { a with pc := .polling })
  | deliver {a : Activation} {k : Nat} {cmd : Command} {status : Status} (active : (s.connection w).active = some a)
      (pc : a.pc = .polling)
    (hcmd : (s.connection w).outstanding[k]? = some cmd) (hstatus : cmd.status = some status) :
    Move m s w (.deliver k) (s.setConnection w
      { complete (s.connection w) cmd.context (status == .success) with
        outstanding := (s.connection w).outstanding.eraseIdx k
        log := (s.connection w).log ++ [Event.completed cmd (some a)] })
  | polled {a : Activation} (active : (s.connection w).active = some a) (pc : a.pc = .polling) :
    Move m s w (.processed true) (s.goto w { a with pc := .polled })
  | broken {a : Activation} (active : (s.connection w).active = some a) (pc : a.pc = .polling) :
    Move m s w (.processed false)
      (leave s w a (.raised ("NVMe-KV " ++ a.operation.name ++ " completion polling failed")))
  | again {a : Activation} (active : (s.connection w).active = some a) (pc : a.pc = .polled) :
    Move m s w (.clock false) (s.goto w { a with pc := .testing })
  | expired {a : Activation} (active : (s.connection w).active = some a) (pc : a.pc = .polled) :
    Move m s w (.clock true) (leave s w a (.raised ("NVMe-KV " ++ a.operation.name ++ " timed out")))
  | execute {k : Nat} {fault : Bool} {s' : Sys} (h : execute s w k fault = some s') : Move m s w (.execute k fault) s'

theorem step_cases (hs : step m s (w, act) = some s') : Move m s w act s' := by
  unfold step at hs
  split at hs
  · rename_i heq
    cases heq
    exact .execute hs
  · rename_i heq
    cases heq
    split at hs
    · cases hs
    · rename_i hidle
      cases hs
      exact .call hidle
  · rename_i heq
    cases heq
    dsimp only at hs
    split at hs
    · cases hs
    · rename_i a ha
      split at hs
      · rename_i hpc _ _
        exact .enter ha hpc hs
      · rename_i accepted hpc _ _
        cases hs
        exact .submit ha hpc accepted
      · rename_i hpc _ _
        split at hs
        · rename_i hdone
          cases hs
          exact .settle ha hpc hdone
        · rename_i hdone
          cases hs
          exact .poll ha hpc (by simpa using hdone)
      · rename_i hpc _ _
        split at hs
        · cases hs
        · rename_i cmd hcmd
          split at hs
          · cases hs
          · rename_i status hstatus
            cases hs
            exact .deliver ha hpc hcmd hstatus
      · rename_i ok hpc _ _
        cases ok with
        | true =>
          cases hs
          exact .polled ha hpc
        | false =>
          cases hs
          exact .broken ha hpc
      · rename_i expired hpc _ _
        cases expired with
        | true =>
          cases hs
          exact .expired ha hpc
        | false =>
          cases hs
          exact .again ha hpc
      · cases hs

/-- A step of one connection leaves the others as they are. -/
theorem step_ne {v : Nat} (h : v ≠ w) (hs : step m s (w, act) = some s') :
    s'.connection v = s.connection v := by
  cases step_cases hs with
  | call _ => exact setConnection_ne _ h
  | enter _ _ hs => exact enter_ne h hs
  | submit _ _ accepted =>
    unfold submit
    dsimp only
    split
    · exact setConnection_ne _ h
    · exact leave_ne _ h
  | settle _ _ _ => exact settle_ne h
  | poll _ _ _ => exact setConnection_ne _ h
  | deliver _ _ _ _ => exact setConnection_ne _ h
  | polled _ _ => exact setConnection_ne _ h
  | broken _ _ => exact leave_ne _ h
  | again _ _ => exact setConnection_ne _ h
  | expired _ _ => exact leave_ne _ h
  | execute hs =>
    obtain ⟨cmd, st, t, -, -, hran, rfl⟩ := execute_cases hs
    rw [setConnection_ne _ h, hran.connection]

/-! ## A step of the call's own connection -/

/-- How a call at this position can end, and with what. -/
inductive Ends (s : Sys) (a : Activation) : Progress → Action → Outcome → Prop
  | unprepared (address : Nat) (buffer : Option Nat) (what : String) :
    Ends s a .before (.enter address buffer) (.raised what)
  | refused (what : String) : Ends s a .before (.submit false) (.raised what)
  | broken (p : Progress) (what : String) : Ends s a p (.processed false) (.raised what)
  | expired (p : Progress) (what : String) : Ends s a p (.clock true) (.raised what)
  | failed {st : Status} (hop : a.operation ≠ .exist) (hst : st ≠ .success) (what : String) :
    Ends s a (.delivered st) .test (.raised what)
  | filled {key : Bytes} {len : Nat} (hcall : a.call = .get key len) :
    Ends s a (.delivered .success) .test (.filled (((a.staging.bind s.dma).getD []).take len))
  | stored {key buf : Bytes} (hcall : a.call = .set key buf) : Ends s a (.delivered .success) .test .stored
  | exists {key : Bytes} {st : Status} (hcall : a.call = .exists key) :
    Ends s a (.delivered st) .test (.answer (st == .success))
  | absent {key : Bytes} {st : Status} (hcall : a.call = .delete key) (hop : a.operation = .exist)
    (hst : st ≠ .success) : Ends s a (.delivered st) .test (.answer false)
  | deleted {key : Bytes} (hcall : a.call = .delete key) (hop : a.operation = .delete) :
    Ends s a (.delivered .success) .test (.answer true)

/-- The bytes a fresh staging buffer of the call holds. -/
def Call.initial : Call → Bytes
  | .set _ buf => buf
  | .get _ len => List.replicate len 0
  | .exists _ | .delete _ => []

/-- What a step of worker `w` or of its commands does to the call `w` is in. -/
inductive CallStep (s : Sys) (w : Nat) (a : Activation) : Progress → Action → Sys → Prop
  | moves {p q : Progress} {act : Action} {s' : Sys} {b : Activation} (own : ∀ i fault, act ≠ .execute i fault)
    (same : a.Same b) (next : q = p ∨ p = .before ∧ q = .pending)
    (staged : a.pc = .entry → a.call.stagingLen = none) (active : (s'.connection w).active = some b)
    (at' : b.At (s'.connection w) q) (records : s'.records = s.records) (dma : s'.dma = s.dma)
    (quiet : Quiet s s' w) : CallStep s w a p act s'
  | prepares {address : Nat} {buffer : Option Nat} {s' : Sys} {b : Activation} {len d : Nat} (call : b.call = a.call)
    (operation : b.operation = a.operation) (staging : b.staging = some d) (hlen : a.call.stagingLen = some len)
    (free : s.dma d = none) (active : (s'.connection w).active = some b) (at' : b.At (s'.connection w) .before)
    (records : s'.records = s.records) (dma : s'.dma = Function.update s.dma d (some a.call.initial))
    (quiet : Quiet s s' w) : CallStep s w a .before (.enter address buffer) s'
  | runs {k : Nat} {fault : Bool} {s' t : Sys} {cmd : Command} {st : Status} (issued : a.Issued cmd)
    (hcmd : (s.connection w).outstanding[k]? = some cmd) (unrun : cmd.status = none) (ran : Ran s cmd fault st t)
    (active : (s'.connection w).active = some a) (at' : a.At (s'.connection w) (.ran st))
    (records : s'.records = t.records) (dma : s'.dma = t.dma) (quiet : Quiet s s' w) :
    CallStep s w a .pending (.execute k fault) s'
  | delivers {k : Nat} {s' : Sys} {cmd : Command} {st : Status} (issued : a.Issued cmd)
    (hcmd : (s.connection w).outstanding[k]? = some cmd) (status : cmd.status = some st)
    (active : (s'.connection w).active = some a) (at' : a.At (s'.connection w) (.delivered st))
    (records : s'.records = s.records) (dma : s'.dma = s.dma) (quiet : Quiet s s' w) :
    CallStep s w a (.ran st) (.deliver k) s'
  | deletes {s' : Sys} {key : Bytes} (hcall : a.call = .delete key) (hop : a.operation = .exist)
    (active : (s'.connection w).active = some { a with operation := .delete, pc := .entry })
    (at' : Activation.At { a with operation := .delete, pc := .entry } (s'.connection w) .before)
    (records : s'.records = s.records) (dma : s'.dma = s.dma) (quiet : Quiet s s' w) :
    CallStep s w a (.delivered .success) .test s'
  | ends {p : Progress} {act : Action} {outcome : Outcome} (h : Ends s a p act outcome) :
    CallStep s w a p act (leave s w a outcome)

theorem Ends.own {p : Progress} {o : Outcome} (h : Ends s a p act o) : ∀ i fault, act ≠ .execute i fault := by
  intro i fault
  cases h <;> nofun

theorem Quiet.refl (h : (s'.connection w).log = (s.connection w).log) : Quiet s s' w :=
  ⟨[], by simp [h], rfl⟩

/-- Only a call whose completion has been delivered is done. -/
theorem Activation.At.done {c : KvConnection} {p : Progress} (h : a.At c p) (hpc : a.Waits)
    (hdone : (c.memory a.result).done = true) :
    ∃ st, p = .delivered st ∧ c.outstanding = [] ∧ (c.memory a.result).success = (st == .success) := by
  cases p with
  | before =>
    rcases h.2 with hpc' | ⟨hpc', -⟩ <;> simp [Activation.Waits, hpc'] at hpc
  | pending =>
    rw [h.2.1] at hdone
    cases hdone
  | ran st =>
    rw [h.2.1] at hdone
    cases hdone
  | delivered st => exact ⟨st, rfl, h.2.1, by rw [h.2.2]⟩

/-- A call that waits stays where it is while only its position in the loop changes. -/
theorem Activation.At.goto {c : KvConnection} {p : Progress} {pc : Pc} (h : a.At c p) (hpc : a.Waits)
    (hpc' : pc = .testing ∨ pc = .polling ∨ pc = .polled) : Activation.At { a with pc } c p := by
  cases p with
  | before =>
    rcases h.2 with hnot | ⟨hnot, -⟩ <;> simp [Activation.Waits, hnot] at hpc
  | pending =>
    obtain ⟨-, hdone, cmd, hout, ⟨h1, h2, h3, h4, h5⟩, hst⟩ := h
    exact ⟨hpc', hdone, cmd, hout, ⟨h1, h2, h3, h4, h5⟩, hst⟩
  | ran st =>
    obtain ⟨-, hdone, cmd, hout, ⟨h1, h2, h3, h4, h5⟩, hst⟩ := h
    exact ⟨hpc', hdone, cmd, hout, ⟨h1, h2, h3, h4, h5⟩, hst⟩
  | delivered st => exact ⟨hpc', h.2⟩

theorem moves_goto {p : Progress} {pc : Pc} (h : a.At (s.connection w) p) (hpc : a.Waits)
    (hpc' : pc = .testing ∨ pc = .polling ∨ pc = .polled) (hact : ∀ i fault, act ≠ .execute i fault) :
    CallStep s w a p act (s.goto w { a with pc }) := by
  have hstaged : a.pc = .entry → a.call.stagingLen = none := by
    intro hentry
    simp [Activation.Waits, hentry] at hpc
  refine .moves (b := { a with pc }) hact ⟨rfl, rfl, rfl⟩ (.inl rfl) hstaged (by simp [Sys.goto]) ?_ rfl rfl
    (.refl ?_)
  · have := h.goto hpc hpc'
    simp only [Sys.goto, setConnection_self]
    cases p <;> exact this
  · simp [Sys.goto]

theorem enter_step {address : Nat} {buffer : Option Nat} (hat : a.At (s.connection w) .before)
    (hs : enter m s w a address buffer = some s') : CallStep s w a .before (.enter address buffer) s' := by
  unfold enter at hs
  dsimp only at hs
  split at hs
  · rename_i hlen
    cases hs
    refine .moves (b := { a with pc := .submitting, result := address }) nofun ⟨rfl, rfl, rfl⟩ (.inl rfl) (fun _ => hlen)
      (by simp) ?_ rfl rfl (.refl (by simp))
    exact ⟨by simpa using hat.1, .inr ⟨rfl, by simp⟩⟩
  · rename_i len hlen
    split at hs
    · cases hs
      exact .ends (.unprepared ..)
    · split at hs
      · cases hs
        exact .ends (.unprepared ..)
      · rename_i d
        split at hs
        · cases hs
        · rename_i hfree
          cases hs
          refine .prepares (b := { a with pc := .submitting, result := address, staging := some d }) rfl rfl rfl hlen
            hfree (by simp) ?_ rfl ?_ (.refl (by simp))
          · exact ⟨by simpa using hat.1, .inr ⟨rfl, by simp⟩⟩
          · apply congrArg fun bytes => Function.update s.dma d (some bytes)
            cases hcall : a.call <;> simp only [hcall, Call.stagingLen, Option.some.injEq, reduceCtorEq] at hlen
            · exact hlen ▸ rfl
            · rfl

theorem submit_step {accepted : Bool} (hat : a.At (s.connection w) .before) (hpc : a.pc = .submitting) :
    CallStep s w a .before (.submit accepted) (submit s w a accepted) := by
  unfold submit
  dsimp only
  cases accepted with
  | false => exact .ends (.refused _)
  | true =>
    obtain ⟨hout, hentry | ⟨-, hdone⟩⟩ := hat
    · rw [hpc] at hentry
      cases hentry
    · refine .moves (b := { a with pc := .testing, ticket := (s.connection w).submitted }) nofun ⟨rfl, rfl, rfl⟩
        (.inr ⟨rfl, rfl⟩) (fun hentry => nomatch hpc.symm.trans hentry) (by simp) ?_ rfl rfl (.refl (by simp))
      refine ⟨.inl rfl, by simpa using hdone, ?_⟩
      simp only [ite_true, setConnection_self, hout, List.nil_append]
      exact ⟨_, rfl, ⟨rfl, rfl, rfl, rfl, rfl⟩, rfl⟩

theorem settle_step {p : Progress} (hat : a.At (s.connection w) p) (hproper : a.Proper) (hpc : a.Waits)
    (hdone : ((s.connection w).memory a.result).done = true) : CallStep s w a p .test (settle s w a) := by
  obtain ⟨st, rfl, hout, hsuccess⟩ := hat.done hpc hdone
  unfold settle
  simp only [hsuccess]
  split
  · rename_i h
    simp only [bne, Bool.and_eq_true, Bool.not_eq_true', beq_eq_false_iff_ne] at h
    exact .ends (.failed h.1 h.2 _)
  · rename_i h
    have h : a.operation = .exist ∨ st = .success := by simpa [or_iff_not_imp_left] using h
    -- a call that is not at EXIST has come through only with success
    have hst : a.operation ≠ .exist → st = .success := h.resolve_left
    split
    · rename_i hcall
      obtain rfl := hst (by rcases hproper with ho | ⟨⟨k, hk⟩, ho⟩ <;> simp [ho, hcall, Call.operation])
      exact .ends (.filled hcall)
    · rename_i hcall
      obtain rfl := hst (by rcases hproper with ho | ⟨⟨k, hk⟩, ho⟩ <;> simp [ho, hcall, Call.operation])
      exact .ends (.stored hcall)
    · rename_i hcall
      exact .ends (.exists hcall)
    · rename_i hcall
      rcases hproper with ho | ⟨-, ho⟩
      · have ho : a.operation = .exist := by simp [ho, hcall, Call.operation]
        by_cases hs : st = .success
        · subst hs
          simp only [ho, beq_self_eq_true, Bool.and_self, ite_true]
          refine .deletes hcall ho (by simp [Sys.goto]) ⟨by simpa [Sys.goto] using hout, .inl rfl⟩ rfl rfl
            (.refl (by simp [Sys.goto]))
        · simp only [ho, beq_self_eq_true, Bool.true_and, beq_iff_eq, hs, if_false]
          exact .ends (.absent hcall ho hs)
      · obtain rfl := hst (by simp [ho])
        simp only [ho]
        exact .ends (.deleted hcall ho)

/-- The completion reaches the call's own `CommandResult`. -/
theorem deliver_step {p : Progress} {k : Nat} {cmd : Command} {status : Status}
    (ha : (s.connection w).active = some a) (hat : a.At (s.connection w) p) (hpc : a.pc = .polling)
    (hcmd : (s.connection w).outstanding[k]? = some cmd) (hstatus : cmd.status = some status) :
    CallStep s w a p (.deliver k) (s.setConnection w { complete (s.connection w) cmd.context (status == .success) with
      outstanding := (s.connection w).outstanding.eraseIdx k
      log := (s.connection w).log ++ [Event.completed cmd (some a)] }) := by
  cases p with
  | before =>
    rcases hat.2 with hnot | ⟨hnot, -⟩ <;> simp [hpc] at hnot
  | pending =>
    obtain ⟨-, -, cmd', hout, -, hst⟩ := hat
    rw [hout] at hcmd
    obtain ⟨rfl, rfl⟩ := command_only hcmd
    rw [hstatus] at hst
    cases hst
  | ran st =>
    obtain ⟨-, -, cmd', hout, hissued, hst⟩ := hat
    have hmem := hcmd
    rw [hout] at hcmd
    obtain ⟨rfl, rfl⟩ := command_only hcmd
    obtain rfl := Option.some.inj (hstatus.symm.trans hst)
    refine .delivers hissued hmem hstatus (by simpa [complete] using ha) ?_ rfl rfl
      ⟨[Event.completed cmd' (some a)], by simp, rfl⟩
    exact ⟨.inr (.inl hpc), by simp [hout], by simp [complete, hissued.context]⟩
  | delivered st => simp [hat.2.1] at hcmd

/-- The device runs the call's own command. -/
theorem run_step {p : Progress} {k : Nat} {fault : Bool} (ha : (s.connection w).active = some a)
    (hat : a.At (s.connection w) p) (hs : execute s w k fault = some s') :
    CallStep s w a p (.execute k fault) s' := by
  obtain ⟨cmd, st, t, hcmd, hunrun, hran, rfl⟩ := execute_cases hs
  cases p with
  | before => simp [hat.1] at hcmd
  | pending =>
    obtain ⟨hpc, hdone, cmd', hout, hissued, -⟩ := hat
    rw [hout] at hcmd
    obtain ⟨rfl, rfl⟩ := command_only hcmd
    refine .runs hissued (by simp [hout]) hunrun hran (by simpa using ha) ?_ rfl rfl (.refl (by simp))
    refine ⟨hpc, by simpa using hdone, { cmd' with status := some st }, by simp [hout], ?_, rfl⟩
    exact ⟨hissued.operation, hissued.deviceKey, hissued.staging, hissued.len, hissued.context⟩
  | ran st' =>
    obtain ⟨-, -, cmd', hout, -, hst⟩ := hat
    rw [hout] at hcmd
    obtain ⟨rfl, rfl⟩ := command_only hcmd
    rw [hunrun] at hst
    cases hst
  | delivered st' => simp [hat.2.1] at hcmd

/-- **A step of worker `w` or of its commands takes the call `w` is in one position further.** -/
theorem call_step {p : Progress} (ha : (s.connection w).active = some a) (hat : a.At (s.connection w) p)
    (hproper : a.Proper) (hs : step m s (w, act) = some s') : CallStep s w a p act s' := by
  have hentry : ∀ pc, a.pc = pc → pc = .entry ∨ pc = .submitting → p = .before := by
    intro pc hpc hor
    cases p with
    | before => rfl
    | pending | ran | delivered =>
      rcases hor with rfl | rfl <;> simp [Activation.At, Activation.Waits, hpc] at hat
  cases step_cases hs with
  | call idle =>
    rw [ha] at idle
    cases idle
  | enter active pc h =>
    obtain rfl := Option.some.inj (ha.symm.trans active)
    obtain rfl := hentry _ pc (.inl rfl)
    exact enter_step hat h
  | submit active pc accepted =>
    obtain rfl := Option.some.inj (ha.symm.trans active)
    obtain rfl := hentry _ pc (.inr rfl)
    exact submit_step hat pc
  | settle active pc done =>
    obtain rfl := Option.some.inj (ha.symm.trans active)
    exact settle_step hat hproper (.inl pc) done
  | poll active pc done =>
    obtain rfl := Option.some.inj (ha.symm.trans active)
    exact moves_goto hat (.inl pc) (.inr (.inl rfl)) nofun
  | deliver active pc hcmd hstatus =>
    obtain rfl := Option.some.inj (ha.symm.trans active)
    exact deliver_step ha hat pc hcmd hstatus
  | polled active pc =>
    obtain rfl := Option.some.inj (ha.symm.trans active)
    exact moves_goto hat (.inr (.inl pc)) (.inr (.inr rfl)) nofun
  | broken active pc =>
    obtain rfl := Option.some.inj (ha.symm.trans active)
    exact .ends (.broken ..)
  | again active pc =>
    obtain rfl := Option.some.inj (ha.symm.trans active)
    exact moves_goto hat (.inr (.inr pc)) (.inl rfl) nofun
  | expired active pc =>
    obtain rfl := Option.some.inj (ha.symm.trans active)
    exact .ends (.expired ..)
  | execute h => exact run_step ha hat h

/-! ## What a call hands back -/

theorem ended_quiet (hs : step m s (w, act) = some s') (h : Quiet s s' w) : ended m s (w, act) = [] := by
  obtain ⟨es, hlog, hes⟩ := h
  simp [ended, hs, hlog, hes]

theorem leave_log (o : Outcome) : ∃ es, es.filterMap Event.handed? = [] ∧
    ((leave s w a o).connection w).log = (s.connection w).log ++ es ++ [Event.returned a.call o] := by
  unfold leave
  dsimp only
  split
  · exact ⟨[], rfl, by simp⟩
  · rename_i d _
    exact ⟨[Event.freed d (s.connection w).outstanding], rfl, by simp⟩

theorem ended_leave {o : Outcome} (hs : step m s (w, act) = some (leave s w a o)) :
    ended m s (w, act) = [(w, a.call, o)] := by
  obtain ⟨es, hes, hlog⟩ := leave_log (s := s) (w := w) (a := a) o
  simp only [ended, hs, Option.elim_some, hlog, List.append_assoc, List.drop_left, List.filterMap_append, hes,
    List.nil_append]
  rfl

end SpdkNvmeKvConnector
end SpdkConnector
