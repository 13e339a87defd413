import SpdkConnector.NvmeKv.Truth

/-!
# Deletes racing for one record

From a moment a device key has a record and no delete of it is under way, and as long as no STORE of it runs,
`Race` ties the notes to the connections: the record goes once, for the worker whose DELETE the device ran,
and that worker's call answers true unless it throws.
-/
namespace SpdkConnector
namespace SpdkNvmeKvConnector

open Codec Interleaving

variable {m : Nat} {s s' : Sys} {v w : Nat} {a : Activation} {act : Action} {k : Bytes} {es ns : List Note}

/-- The workers whose DELETE removed the record. -/
def removers (es : List Note) : List Nat :=
  es.filterMap fun | .removed w => some w | _ => none

/-- The `do_single_delete` calls of the device key that have ended. -/
def deletes (k : Bytes) (es : List Note) : List (Nat × Outcome) :=
  es.filterMap fun
    | .ended w (.delete key) o => if deriveKey key = k then some (w, o) else none
    | _ => none

/-- The workers told that their call has removed the record. -/
def winners (k : Bytes) (es : List Note) : List Nat :=
  (deletes k es).filterMap fun | (w, .answer true) => some w | _ => none

def Activation.Deletes (a : Activation) (k : Bytes) : Prop :=
  ∃ key, a.call = .delete key ∧ deriveKey key = k

/-- The worker is in a delete of the key. -/
def Deleting (k : Bytes) (s : Sys) (w : Nat) : Prop :=
  ∃ a, (s.connection w).active = some a ∧ a.Deletes k

/-- No delete of the key is under way, neither as a call nor as a command a call has left behind. -/
def Untouched (k : Bytes) (s : Sys) : Prop :=
  ∀ w, ¬ Deleting k s w ∧ ∀ cmd ∈ (s.connection w).outstanding, cmd.operation = .delete → cmd.deviceKey ≠ k

def Raised (k : Bytes) (es : List Note) (w : Nat) : Prop :=
  ∃ what, (w, Outcome.raised what) ∈ deletes k es

/-- The deletes of a run: at most one of them is told it removed the record; once one has an answer, the
record has been removed, and the call that removed it has said so, has thrown or is still under way. -/
structure OneWins (k : Bytes) (es : List Note) (s : Sys) : Prop where
  once : (winners k es).length ≤ 1
  won : (∃ w answer, (w, Outcome.answer answer) ∈ deletes k es) →
    ∃ v, removers es = [v] ∧ (winners k es = [v] ∨ Raised k es v ∨ Deleting k s v)

/-- What a delete of the key has to do with the record when its command is this far. -/
structure Contends (k : Bytes) (w : Nat) (a : Activation) (p : Progress) (es : List Note) : Prop where
  won : a.operation = .delete → p.status? = some .success → removers es = [w] ∧ winners k es = []
  missing : p.status? = some .keyNotFound → removers es ≠ []
  mine : removers es = [w] →
    winners k es = [w] ∨ Raised k es w ∨ a.operation = .delete ∧ p.status? = some .success

/-- One connection. -/
structure Stands (k : Bytes) (w : Nat) (c : KvConnection) (es : List Note) : Prop where
  call : ∀ a, c.active = some a → ∃ p, a.Proper ∧ a.At c p ∧ (∀ st, p = .delivered st → Told a.operation st) ∧
    (a.Deletes k → Contends k w a p es)
  rest : (∀ a, c.active = some a → ¬ a.Deletes k) → removers es = [w] → winners k es = [w] ∨ Raised k es w
  loose : ∀ cmd ∈ c.outstanding, cmd.operation = .delete → cmd.deviceKey = k →
    (∃ a, c.active = some a ∧ a.Deletes k) ∨ Raised k es w

structure Race (k : Bytes) (es : List Note) (s : Sys) : Prop where
  record : s.records k = none ↔ removers es ≠ []
  once : (removers es).length ≤ 1
  told : winners k es = [] ∨ winners k es = removers es
  answered : ∀ w answer, (w, Outcome.answer answer) ∈ deletes k es → removers es ≠ []
  stands : ∀ w, Stands k w (s.connection w) es

/-! ## Notes that keep a connection's standing -/

@[simp] theorem removers_append : removers (es ++ ns) = removers es ++ removers ns :=
  List.filterMap_append

@[simp] theorem deletes_append : deletes k (es ++ ns) = deletes k es ++ deletes k ns :=
  List.filterMap_append

@[simp] theorem winners_append : winners k (es ++ ns) = winners k es ++ winners k ns := by
  simp [winners]

theorem Raised.more (h : Raised k es w) : Raised k (es ++ ns) w := by
  obtain ⟨what, h⟩ := h
  exact ⟨what, by simp [h]⟩

/-- Notes that neither remove the record for `w` nor tell `w` so, if those before have not either. -/
structure Aside (k : Bytes) (w : Nat) (es ns : List Note) : Prop where
  kept : removers es = [w] → removers ns = []
  mine : removers (es ++ ns) = [w] → removers es = [w]
  quiet : removers es = [w] → winners k ns = []

theorem Contends.more {p : Progress} (h : Contends k w a p es) (hns : Aside k w es ns) :
    Contends k w a p (es ++ ns) := by
  refine ⟨?_, ?_, ?_⟩
  · intro hop hp
    obtain ⟨hr, hw⟩ := h.won hop hp
    simp [hr, hw, hns.kept hr, hns.quiet hr]
  · intro hp
    simp [h.missing hp]
  · intro hr
    have hr := hns.mine hr
    rcases h.mine hr with hw | hw | hw
    · exact .inl (by simp [hw, hns.quiet hr])
    · exact .inr (.inl hw.more)
    · exact .inr (.inr hw)

theorem Stands.more {c : KvConnection} (h : Stands k w c es) (hns : Aside k w es ns) : Stands k w c (es ++ ns) := by
  refine ⟨?_, ?_, ?_⟩
  · intro a ha
    obtain ⟨p, hproper, hat, htold, hcontends⟩ := h.call a ha
    exact ⟨p, hproper, hat, htold, fun hd => (hcontends hd).more hns⟩
  · intro hd hr
    have hr := hns.mine hr
    rcases h.rest hd hr with hw | hw
    · exact .inl (by simp [hw, hns.quiet hr])
    · exact .inr hw.more
  · intro cmd hcmd hop hk
    exact (h.loose cmd hcmd hop hk).imp_right Raised.more

/-- Another worker's removal is the first one, and another worker is told of its own removal. -/
theorem aside_ne (hv : v ≠ w) (hr : removers ns = [] ∨ removers es = [] ∧ removers ns = [v])
    (hw : winners k ns = [] ∨ removers es = [v]) : Aside k w es ns := by
  refine ⟨?_, ?_, ?_⟩
  · intro h
    rcases hr with hr | ⟨hnil, -⟩
    · exact hr
    · rw [h] at hnil
      cases hnil
  · intro h
    rcases hr with hr | ⟨hnil, hr⟩
    · simpa [hr] using h
    · simp [hnil, hr, hv] at h
  · intro h
    rcases hw with hw | hw
    · exact hw
    · rw [h] at hw
      exact absurd (List.singleton_inj.1 hw).symm hv

theorem aside_quiet (hr : removers ns = []) (hw : winners k ns = []) : Aside k w es ns :=
  ⟨fun _ => hr, fun h => by simpa [hr] using h, fun _ => hw⟩

/-! ## Notes of a step -/

theorem removers_notes : removers (notes m k s (v, act)) = removers (deviceNotes k s (v, act)) := by
  have habsent : removers (if (s.records k).isNone then [Note.absent] else []) = [] := by
    split <;> rfl
  have hended : ∀ l : List (Nat × Call × Outcome), removers (l.map fun e => Note.ended e.1 e.2.1 e.2.2) = [] := by
    intro l
    induction l with
    | nil => rfl
    | cons e l ih => exact ih
  simp only [notes, removers_append, habsent, hended, List.nil_append, List.append_nil]

theorem deletes_notes :
    deletes k (notes m k s (v, act)) = deletes k ((ended m s (v, act)).map fun e => .ended e.1 e.2.1 e.2.2) := by
  have habsent : deletes k (if (s.records k).isNone then [Note.absent] else []) = [] := by
    split <;> rfl
  have hdevice : deletes k (deviceNotes k s (v, act)) = [] := by
    refine List.filterMap_eq_nil_iff.2 fun n hn => ?_
    rcases mem_deviceNotes hn with rfl | rfl | rfl <;> rfl
  simp only [notes, deletes_append, habsent, hdevice, List.nil_append]

theorem deletes_quiet (hs : step m s (v, act) = some s') (hq : Quiet s s' v) :
    deletes k (notes m k s (v, act)) = [] := by
  rw [deletes_notes, ended_quiet hs hq]
  rfl

theorem removers_quiet (h : ∀ i fault, act ≠ .execute i fault) : removers (notes m k s (v, act)) = [] := by
  rw [removers_notes, deviceNotes_quiet h]
  rfl

/-- What a command the device runs does to the record, when it stores nothing. -/
theorem device_effect {i : Nat} {fault : Bool} {cmd : Command} {st : Status} {t : Sys}
    (hcmd : (s.connection v).outstanding[i]? = some cmd) (hran : Ran s cmd fault st t)
    (hstore : ∀ w, Note.stored w ∉ deviceNotes k s (v, .execute i fault)) :
    (removers (deviceNotes k s (v, .execute i fault)) = [v] ∧ cmd.operation = .delete ∧ cmd.deviceKey = k ∧
      st = .success ∧ s.records k ≠ none ∧ t.records k = none) ∨
    (removers (deviceNotes k s (v, .execute i fault)) = [] ∧ t.records k = s.records k ∧
      (cmd.operation = .delete → cmd.deviceKey = k → st ≠ .success)) := by
  by_cases hk : cmd.deviceKey = k
  · subst hk
    cases hran with
    | faulted => exact .inr ⟨by simp [deviceNotes, hcmd, removers], rfl, by simp⟩
    | stored h => exact absurd (by simp [deviceNotes, hcmd, h]) (hstore v)
    | absent h hnone =>
      refine .inr ⟨?_, rfl, by simp⟩
      simp only [deviceNotes, hcmd, hnone]
      cases hop : cmd.operation <;> simp [removers, hop] at h ⊢
    | found h hsome => exact .inr ⟨by simp [deviceNotes, hcmd, h, removers], rfl, fun hd => by simp [hd] at h⟩
    | removed h hsome =>
      exact .inl ⟨by simp [deviceNotes, hcmd, h, hsome, removers], h, rfl, rfl, by simp [hsome], by simp⟩
    | read h hsome => exact .inr ⟨by simp [deviceNotes, hcmd, h, removers], rfl, fun hd => by simp [hd] at h⟩
  · refine .inr ⟨?_, ?_, fun _ hd => absurd hd hk⟩
    · simp only [deviceNotes, hcmd, if_neg hk]
      split <;> rfl
    · cases hran <;> simp [Function.update_of_ne (Ne.symm hk)]

/-! ## One step of the race -/

theorem mem_set_same {cmd c : Command} {st : Option Status} {i : Nat} {l : List Command}
    (hcmd : l[i]? = some cmd) (hc : c ∈ l.set i { cmd with status := st }) :
    ∃ c' ∈ l, c'.operation = c.operation ∧ c'.deviceKey = c.deviceKey := by
  rcases List.mem_or_eq_of_mem_set hc with hc | rfl
  · exact ⟨c, hc, rfl, rfl⟩
  · exact ⟨cmd, List.mem_of_getElem? hcmd, rfl, rfl⟩

/-- The connection whose command the device runs. -/
theorem stands_device {i : Nat} {fault : Bool} {cmd : Command} {st : Status} {t : Sys} (h : Race k es s)
    (hs : step m s (v, .execute i fault) = some s') (hcmd : (s.connection v).outstanding[i]? = some cmd)
    (hran : Ran s cmd fault st t)
    (hconn : s'.connection v = { s.connection v with
      outstanding := (s.connection v).outstanding.set i { cmd with status := some st } })
    (hstore : ∀ w, Note.stored w ∉ deviceNotes k s (v, .execute i fault)) (hw : winners k ns = [])
    (hr : removers ns = removers (deviceNotes k s (v, .execute i fault))) :
    Stands k v (s'.connection v) (es ++ ns) := by
  have hstands := h.stands v
  have hactive : (s'.connection v).active = (s.connection v).active := by rw [hconn]
  have heffect := device_effect hcmd hran hstore
  rw [← hr] at heffect
  refine ⟨?_, ?_, ?_⟩
  · intro a ha
    rw [hactive] at ha
    obtain ⟨p, hproper, hat, htold, hcontends⟩ := hstands.call a ha
    cases call_step ha hat hproper hs with
    | moves own => exact absurd rfl (own i fault)
    | ends hends => exact absurd rfl (hends.own i fault)
    | @runs k' fault' _ t' cmd' st' issued hcmd' unrun ran active at' records dma quiet =>
      refine ⟨_, hproper, at', nofun, fun hd => ?_⟩
      have hc := hcontends hd
      obtain ⟨key, hcall, hkey⟩ := hd
      have hdevice : cmd'.deviceKey = k := by rw [issued.deviceKey, hcall, ← hkey]; rfl
      have heffect := device_effect hcmd' ran hstore
      rw [← hr] at heffect
      refine ⟨?_, ?_, ?_⟩
      · intro hop hp
        rcases heffect with ⟨hrv, -, -, -, hsome, -⟩ | ⟨-, -, hnot⟩
        · have hnil : removers es = [] := by simpa [hsome] using h.record
          have hwin : winners k es = [] := by rcases h.told with h | h <;> simp [h, hnil]
          simp [hnil, hrv, hwin, hw]
        · exact absurd (Option.some.inj hp) (hnot (issued.operation.trans hop) hdevice)
      · intro hp
        cases Option.some.inj hp
        cases ran with
        | absent _ hnone =>
          rw [hdevice] at hnone
          simp [h.record.1 hnone]
      · intro hrm
        rcases heffect with ⟨-, hop, -, rfl, -, -⟩ | ⟨hrv, -, -⟩
        · exact .inr (.inr ⟨issued.operation.symm.trans hop, rfl⟩)
        · rw [removers_append, hrv, List.append_nil] at hrm
          rcases hc.mine hrm with hwin | hwin | ⟨-, hwin⟩
          · exact .inl (by simp [hwin, hw])
          · exact .inr (.inl hwin.more)
          · cases hwin
  · intro hd hrm
    rw [hactive] at hd
    rcases heffect with ⟨-, hop, hk, -, -, -⟩ | ⟨hrv, -, -⟩
    · rcases hstands.loose cmd (List.mem_of_getElem? hcmd) hop hk with ⟨a, ha, hda⟩ | hraised
      · exact absurd hda (hd a ha)
      · exact .inr hraised.more
    · rw [removers_append, hrv, List.append_nil] at hrm
      rcases hstands.rest hd hrm with hwin | hwin
      · exact .inl (by simp [hwin, hw])
      · exact .inr hwin.more
  · intro c hc hop hk
    rw [hconn] at hc
    obtain ⟨c', hc', hop', hk'⟩ := mem_set_same hcmd hc
    rw [hactive]
    exact (hstands.loose c' hc' (hop'.trans hop) (hk'.trans hk)).imp_right Raised.more

theorem race_device {i : Nat} {fault : Bool} (h : Race k es s) (hs : step m s (v, .execute i fault) = some s')
    (hstore : ∀ w, Note.stored w ∉ deviceNotes k s (v, .execute i fault)) :
    Race k (es ++ notes m k s (v, .execute i fault)) s' := by
  obtain ⟨cmd, st, t, hcmd, -, hran, rfl⟩ := execute_cases hs
  have hdel : deletes k (notes m k s (v, .execute i fault)) = [] := deletes_quiet hs (.refl (by simp))
  have hw : winners k (notes m k s (v, .execute i fault)) = [] := by simp [winners, hdel]
  have hr : removers (notes m k s (v, .execute i fault)) = removers (deviceNotes k s (v, .execute i fault)) :=
    removers_notes
  have heffect := device_effect hcmd hran hstore
  rw [← hr] at heffect
  have hrecords : ∀ c, (t.setConnection v c).records = t.records := fun _ => rfl
  refine ⟨?_, ?_, ?_, ?_, ?_⟩
  · rw [hrecords, removers_append]
    rcases heffect with ⟨hrv, -, -, -, -, hnone⟩ | ⟨hrv, hsame, -⟩
    · simp [hrv, hnone]
    · simpa [hrv, hsame] using h.record
  · rw [removers_append]
    rcases heffect with ⟨hrv, -, -, -, hsome, -⟩ | ⟨hrv, -, -⟩
    · have hnil : removers es = [] := by simpa [hsome] using h.record
      simp [hrv, hnil]
    · simpa [hrv] using h.once
  · rw [winners_append, removers_append, hw, List.append_nil]
    rcases heffect with ⟨hrv, -, -, -, hsome, -⟩ | ⟨hrv, -, -⟩
    · have hnil : removers es = [] := by simpa [hsome] using h.record
      exact .inl (by rcases h.told with h | h <;> simp [h, hnil])
    · simpa [hrv] using h.told
  · intro w answer hmem
    rw [deletes_append, hdel, List.append_nil] at hmem
    simp [h.answered w answer hmem]
  · intro w
    by_cases hv : v = w
    · subst hv
      exact stands_device h hs hcmd hran (by simp) hstore hw hr
    · rw [step_ne (Ne.symm hv) hs]
      refine (h.stands w).more (aside_ne hv ?_ (.inl hw))
      rcases heffect with ⟨hrv, -, -, -, hsome, -⟩ | ⟨hrv, -, -⟩
      · exact .inr ⟨by simpa [hsome] using h.record, hrv⟩
      · exact .inl hrv

/-- A step of a worker that ends no delete of the key. -/
theorem race_quiet (h : Race k es s) (hs : step m s (v, act) = some s') (hact : ∀ i fault, act ≠ .execute i fault)
    (hrecords : s'.records = s.records) (hdel : deletes k (notes m k s (v, act)) = [])
    (hv : Stands k v (s'.connection v) es) : Race k (es ++ notes m k s (v, act)) s' := by
  have hr : removers (notes m k s (v, act)) = [] := removers_quiet hact
  have hw : winners k (notes m k s (v, act)) = [] := by simp [winners, hdel]
  refine ⟨?_, ?_, ?_, ?_, ?_⟩
  · simpa [hrecords, hr] using h.record
  · simpa [hr] using h.once
  · simpa [hr, hw] using h.told
  · intro w answer hmem
    rw [deletes_append, hdel, List.append_nil] at hmem
    simp [h.answered w answer hmem]
  · intro w
    by_cases hvw : v = w
    · subst hvw
      exact hv.more (aside_quiet hr hw)
    · rw [step_ne (Ne.symm hvw) hs]
      exact (h.stands w).more (aside_quiet hr hw)

theorem deletes_ended {o : Outcome} (hs : step m s (v, act) = some (leave s v a o)) :
    deletes k (notes m k s (v, act)) = deletes k [.ended v a.call o] := by
  rw [deletes_notes, ended_leave hs]
  rfl

/-- A delete of the key ends: what its notes say is what the worker is told. -/
theorem ends_contends {p : Progress} {o : Outcome} (hends : Ends s a p act o) (hd : a.Deletes k)
    (htold : ∀ st, p = .delivered st → Told a.operation st) (hc : Contends k v a p es) :
    (o = .answer true ∧ removers es = [v] ∧ winners k es = []) ∨
    (o = .answer false ∧ removers es ≠ [] ∧ (removers es = [v] → winners k es = [v] ∨ Raised k es v)) ∨
    ∃ what, o = .raised what := by
  obtain ⟨key, hcall, -⟩ := hd
  cases hends with
  | unprepared | refused | broken | expired | failed => exact .inr (.inr ⟨_, rfl⟩)
  | filled h | stored h | «exists» h =>
    rw [hcall] at h
    cases h
  | @absent key' st _ hop hst =>
    have hst : st = .keyNotFound := by
      cases st with
      | success => exact absurd rfl hst
      | keyNotFound => rfl
      | error => exact absurd rfl ((htold _ rfl).1 hop)
    subst hst
    refine .inr (.inl ⟨rfl, hc.missing rfl, fun hr => ?_⟩)
    rcases hc.mine hr with hw | hw | ⟨-, hw⟩
    · exact .inl hw
    · exact .inr hw
    · cases hw
  | deleted _ hop =>
    obtain ⟨hr, hw⟩ := hc.won hop rfl
    exact .inl ⟨rfl, hr, hw⟩

/-- A call that ends with a command outstanding has thrown. -/
theorem ends_loose {p : Progress} {o : Outcome} {c : KvConnection} (hends : Ends s a p act o) (hat : a.At c p)
    {cmd : Command} (hcmd : cmd ∈ c.outstanding) : ∃ what, o = .raised what := by
  cases p with
  | before =>
    rw [hat.1] at hcmd
    cases hcmd
  | pending | ran =>
    cases hends with
    | broken | expired => exact ⟨_, rfl⟩
  | delivered =>
    rw [hat.2.1] at hcmd
    cases hcmd

theorem race_ends {p : Progress} {o : Outcome} (h : Race k es s) (ha : (s.connection v).active = some a)
    (hat : a.At (s.connection v) p) (htold : ∀ st, p = .delivered st → Told a.operation st)
    (hc : a.Deletes k → Contends k v a p es) (hends : Ends s a p act o)
    (hs : step m s (v, act) = some (leave s v a o)) : Race k (es ++ notes m k s (v, act)) (leave s v a o) := by
  have hr : removers (notes m k s (v, act)) = [] := removers_quiet hends.own
  have hdel := deletes_ended (k := k) hs
  have hactive := leave_active (s := s) (w := v) (a := a) o
  have hout := leave_outstanding (s := s) (w := v) (a := a) o
  by_cases hd : a.Deletes k
  · have hdel : deletes k (notes m k s (v, act)) = [(v, o)] := by
      obtain ⟨key, hcall, hkey⟩ := hd
      rw [hdel, hcall]
      simp [deletes, hkey]
    have hw : winners k (notes m k s (v, act)) = [] ∨
        winners k (notes m k s (v, act)) = [v] ∧ removers es = [v] ∧ winners k es = [] := by
      rcases ends_contends hends hd htold (hc hd) with ⟨rfl, hrv, hwin⟩ | ⟨rfl, -⟩ | ⟨what, rfl⟩
      · exact .inr ⟨by simp [winners, hdel], hrv, hwin⟩
      · exact .inl (by simp [winners, hdel])
      · exact .inl (by simp [winners, hdel])
    refine ⟨?_, ?_, ?_, ?_, ?_⟩
    · simpa [leave_records, hr] using h.record
    · simpa [hr] using h.once
    · rcases hw with hw | ⟨hw, hrv, hwin⟩
      · simpa [hr, hw] using h.told
      · exact .inr (by simp [hr, hw, hrv, hwin])
    · intro w answer hmem
      rw [deletes_append, hdel, List.mem_append, List.mem_singleton, Prod.mk.injEq] at hmem
      rw [removers_append, hr, List.append_nil]
      rcases hmem with hmem | ⟨rfl, rfl⟩
      · exact h.answered w answer hmem
      · rcases ends_contends hends hd htold (hc hd) with ⟨-, hrv, -⟩ | ⟨-, hne, -⟩ | ⟨what, hnot⟩
        · simp [hrv]
        · exact hne
        · cases hnot
    · intro w
      by_cases hvw : v = w
      · subst hvw
        refine ⟨fun b hb => (by rw [hactive] at hb; cases hb), fun _ hrv => ?_, ?_⟩
        · rw [removers_append, hr, List.append_nil] at hrv
          rcases ends_contends hends hd htold (hc hd) with ⟨rfl, -, hwin⟩ | ⟨rfl, -, hmine⟩ | ⟨what, rfl⟩
          · rw [winners_append, hwin]
            exact .inl (by simp [winners, hdel])
          · rcases hmine hrv with hwin | hwin
            · rw [winners_append, hwin]
              exact .inl (by simp [winners, hdel])
            · exact .inr hwin.more
          · exact .inr ⟨what, by simp [hdel]⟩
        · intro cmd hcmd _ _
          rw [hout] at hcmd
          obtain ⟨what, rfl⟩ := ends_loose hends hat hcmd
          exact .inr ⟨what, by simp [hdel]⟩
      · rw [step_ne (Ne.symm hvw) hs]
        refine (h.stands w).more (aside_ne hvw (.inl hr) ?_)
        exact hw.imp_right fun hw => hw.2.1
  · have hdel : deletes k (notes m k s (v, act)) = [] := by
      rw [hdel]
      cases hcall : a.call with
      | get key len => rfl
      | set key buf => rfl
      | «exists» key => rfl
      | delete key =>
        have hkey : deriveKey key ≠ k := fun hkey => hd ⟨key, hcall, hkey⟩
        simp [deletes, hkey]
    have hnot : ∀ b, (s.connection v).active = some b → ¬ b.Deletes k := by
      intro b hb
      obtain rfl := Option.some.inj (ha.symm.trans hb)
      exact hd
    refine race_quiet h hs hends.own (leave_records o) hdel ⟨?_, fun _ => (h.stands v).rest hnot, ?_⟩
    · intro b hb
      rw [hactive] at hb
      cases hb
    · intro cmd hcmd hop hk
      rw [hout] at hcmd
      rcases (h.stands v).loose cmd hcmd hop hk with ⟨b, hb, hdb⟩ | hraised
      · exact absurd hdb (hnot b hb)
      · exact .inr hraised

theorem Activation.At.issued {p : Progress} {c : KvConnection} {cmd : Command} (hat : a.At c p)
    (hcmd : cmd ∈ c.outstanding) : a.Issued cmd := by
  cases p with
  | before => simp [hat.1] at hcmd
  | pending | ran =>
    obtain ⟨-, -, cmd', hout, hissued, -⟩ := hat
    rw [hout, List.mem_singleton] at hcmd
    exact hcmd ▸ hissued
  | delivered => simp [hat.2.1] at hcmd

/-- A connection inside a call; of its commands only those of a delete of the key concern the race. -/
theorem stands_call {p : Progress} {c : KvConnection} (ha : c.active = some a) (hproper : a.Proper) (hat : a.At c p)
    (htold : ∀ st, p = .delivered st → Told a.operation st) (hc : a.Deletes k → Contends k v a p es)
    (hrest : ¬ a.Deletes k → removers es = [v] → winners k es = [v] ∨ Raised k es v) : Stands k v c es := by
  refine ⟨?_, fun hd => hrest (hd a ha), ?_⟩
  · intro b hb
    obtain rfl := Option.some.inj (ha.symm.trans hb)
    exact ⟨p, hproper, hat, htold, hc⟩
  · intro cmd hcmd hop hk
    have hissued := hat.issued hcmd
    rw [hissued.operation] at hop
    rw [hissued.deviceKey] at hk
    rcases hproper with ho | ⟨⟨key, hcall⟩, -⟩
    · cases hcall : a.call <;> simp [ho, hcall, Call.operation] at hop
    · rw [hcall] at hk
      exact .inl ⟨a, ha, key, hcall, hk⟩

theorem Contends.goes {b : Activation} {p q : Progress} (h : Contends k v a p es) (hop : b.operation = a.operation)
    (hq : q.status? = p.status?) : Contends k v b q es := by
  refine ⟨?_, ?_, ?_⟩
  · rw [hop, hq]
    exact h.won
  · rw [hq]
    exact h.missing
  · rw [hop, hq]
    exact h.mine

/-- Steps that leave the namespace alone. -/
theorem records_own (hs : step m s (v, act) = some s') (hact : ∀ i fault, act ≠ .execute i fault) :
    s'.records = s.records := by
  cases step_cases hs with
  | enter _ _ h =>
    unfold enter at h
    dsimp only at h
    split at h
    · cases h
      rfl
    · split at h
      · cases h
        exact leave_records _
      · split at h
        · cases h
          exact leave_records _
        · split at h <;> cases h
          rfl
  | submit _ _ accepted =>
    unfold submit
    dsimp only
    split
    · rfl
    · exact leave_records _
  | settle _ _ _ =>
    unfold settle
    dsimp only
    split
    · exact leave_records _
    · split
      · exact leave_records _
      · exact leave_records _
      · exact leave_records _
      · split
        · rfl
        · exact leave_records _
  | broken | expired => exact leave_records _
  | execute h => exact absurd rfl (hact _ _)
  | call | poll | deliver | polled | again => rfl

theorem race_own (h : Race k es s) (hok : Clear s (v, act)) (hs : step m s (v, act) = some s')
    (hact : ∀ i fault, act ≠ .execute i fault) : Race k (es ++ notes m k s (v, act)) s' := by
  have hrecords := records_own hs hact
  cases ha : (s.connection v).active with
  | none =>
    cases step_cases hs with
    | @call call _ =>
      have hq : Quiet s (s.goto v ⟨call, call.operation, .entry, none, 0, 0⟩) v := .refl (by simp [Sys.goto])
      refine race_quiet h hs hact hrecords (deletes_quiet hs hq) ?_
      have hrest := (h.stands v).rest fun a hn => by rw [ha] at hn; cases hn
      have hout : (s.connection v).outstanding = [] := hok
      refine stands_call (a := ⟨call, call.operation, .entry, none, 0, 0⟩) (p := .before) (by simp [Sys.goto])
        (.inl rfl) ⟨by simpa [Sys.goto] using hout, .inl rfl⟩ (by simp)
        (fun _ => ⟨by rintro - ⟨⟩, by rintro ⟨⟩, fun hr => ?_⟩) fun _ => hrest
      rcases hrest hr with hw | hw
      · exact .inl hw
      · exact .inr (.inl hw)
    | execute => exact absurd rfl (hact _ _)
    | enter active | submit active | settle active | poll active | deliver active | polled active | broken active
      | again active | expired active =>
      rw [ha] at active
      cases active
  | some a =>
    obtain ⟨p, hproper, hat, htold, hc⟩ := (h.stands v).call a ha
    have hrest : ¬ a.Deletes k → removers es = [v] → winners k es = [v] ∨ Raised k es v := by
      intro hd
      refine (h.stands v).rest fun b hb => ?_
      obtain rfl := Option.some.inj (ha.symm.trans hb)
      exact hd
    have hsame : ∀ {b : Activation}, b.call = a.call → (b.Deletes k ↔ a.Deletes k) := by
      intro b hb
      unfold Activation.Deletes
      rw [hb]
    cases call_step ha hat hproper hs with
    | moves own same next staged active at' records dma quiet =>
      refine race_quiet h hs hact hrecords (deletes_quiet hs quiet) ?_
      rcases next with rfl | ⟨rfl, rfl⟩
      · refine stands_call active (same.proper hproper) at' ?_ ?_ ?_
        · rw [same.operation]
          exact htold
        · exact fun hd => (hc ((hsame same.call).1 hd)).goes same.operation rfl
        · exact fun hd => hrest (mt (hsame same.call).2 hd)
      · refine stands_call active (same.proper hproper) at' (by simp) ?_ ?_
        · exact fun hd => (hc ((hsame same.call).1 hd)).goes same.operation rfl
        · exact fun hd => hrest (mt (hsame same.call).2 hd)
    | prepares call operation staging hlen free active at' records dma quiet =>
      refine race_quiet h hs hact hrecords (deletes_quiet hs quiet) (stands_call active ?_ at' (by simp) ?_ ?_)
      · unfold Activation.Proper at hproper ⊢
        rwa [call, operation]
      · exact fun hd => (hc ((hsame call).1 hd)).goes operation rfl
      · exact fun hd => hrest (mt (hsame call).2 hd)
    | runs => exact absurd rfl (hact _ _)
    | @delivers i _ cmd st issued hcmd status active at' records dma quiet =>
      obtain ⟨hexist, hdelete⟩ := hok _ hcmd
      rw [issued.operation, status] at hexist hdelete
      refine race_quiet h hs hact hrecords (deletes_quiet hs quiet) (stands_call active hproper at' ?_ ?_ hrest)
      · intro st' hst
        cases hst
        exact ⟨fun ho heq => hexist ho (by rw [heq]), fun ho heq => hdelete ho (by rw [heq])⟩
      · exact fun hd => (hc hd).goes rfl rfl
    | deletes hcall hop active at' records dma quiet =>
      refine race_quiet h hs hact hrecords (deletes_quiet hs quiet)
        (stands_call active (.inr ⟨⟨_, hcall⟩, rfl⟩) at' (by simp)
          (fun hd => ⟨by rintro - ⟨⟩, by rintro ⟨⟩, fun hr => ?_⟩) hrest)
      rcases (hc hd).mine hr with hw | hw | ⟨hnot, -⟩
      · exact .inl hw
      · exact .inr (.inl hw)
      · rw [hop] at hnot
        cases hnot
    | ends hends => exact race_ends h ha hat htold hc hends hs

/-- No STORE of the key runs. -/
def Unstored (k : Bytes) (s : Sys) (x : Nat × Action) : Prop :=
  ∀ w, Note.stored w ∉ deviceNotes k s x

/-- **One step of the race.** -/
theorem race_step (h : Race k es s) (hok : Clear s (v, act)) (hstore : Unstored k s (v, act))
    (hs : step m s (v, act) = some s') : Race k (es ++ notes m k s (v, act)) s' := by
  by_cases hact : ∀ i fault, act ≠ .execute i fault
  · exact race_own h hok hs hact
  · push Not at hact
    obtain ⟨i, fault, rfl⟩ := hact
    exact race_device h hs hstore

/-- Every worker is idle or inside a call it began on a connection that held no command. -/
def Placed (s : Sys) : Prop :=
  ∀ w, (s.connection w).active = none ∨ ∃ call es, InCall w call es s

theorem placed_step (h : Placed s) (hok : Clear s (v, act)) (hs : step m s (v, act) = some s') : Placed s' := by
  intro w
  rcases h w with hidle | ⟨call, es, hcall⟩
  · by_cases hc : ∃ c, (v, act) = (w, .call c)
    · obtain ⟨c, hc⟩ := hc
      cases hc
      exact .inr ⟨c, _, inCall_begin hok hs⟩
    · exact .inl (idle_step hidle (fun c hc' => hc ⟨c, hc'⟩) hs).1
  · rcases inCall_step hcall hok hs with ⟨hcall', -⟩ | ⟨rfl, o, a, p, rfl, -⟩
    · exact .inr ⟨call, _, hcall'⟩
    · exact .inl (leave_active o)

/-- The record is there and nobody is after it. -/
theorem race_begin (h : Placed s) (hfree : Untouched k s) (hrecord : s.records k ≠ none) : Race k [] s := by
  refine ⟨⟨fun hnone => absurd hnone hrecord, fun hne => absurd rfl hne⟩, Nat.zero_le 1, .inl rfl, nofun, ?_⟩
  intro w
  refine ⟨?_, nofun, fun cmd hcmd hop hk => absurd hk ((hfree w).2 cmd hcmd hop)⟩
  intro a ha
  rcases h w with hidle | ⟨call, es, b, p, hb, -, hproper, hat, hknows⟩
  · rw [ha] at hidle
    cases hidle
  · obtain rfl := Option.some.inj (ha.symm.trans hb)
    exact ⟨p, hproper, hat, hknows.told, fun hd => absurd ⟨a, ha, hd⟩ (hfree w).1⟩

/-- What has been noted so far fits `OneWins`. -/
theorem Race.oneWins (h : Race k es s) : OneWins k es s := by
  refine ⟨?_, ?_⟩
  · rcases h.told with hw | hw
    · simp [hw]
    · rw [hw]
      exact h.once
  · rintro ⟨w, answer, hmem⟩
    obtain ⟨v, hv⟩ := List.length_eq_one_iff.1 (show (removers es).length = 1 by
      have := h.once
      have := List.length_pos_iff.2 (h.answered w answer hmem)
      omega)
    refine ⟨v, hv, ?_⟩
    by_cases hd : Deleting k s v
    · exact .inr (.inr hd)
    · rcases (h.stands v).rest (fun a ha hda => hd ⟨a, ha, hda⟩) hv with hw | hw
      · exact .inl hw
      · exact .inr (.inl hw)

theorem race_run {run : List (Nat × Action)} (h : Race k [] s) (hok : Guarded (step m) Clear s run)
    (hstore : Guarded (step m) (Unstored k) s run) (hs : runFrom (step m) s run = some s') :
    Race k (observed (step m) (notes m k) s run) s' :=
  run_observed (notes m k) [] (fun _ _ ⟨_, _⟩ _ h hok hs => race_step h hok.1 hok.2 hs) h (hok.and hstore) hs

/-- **Exists and delete tell the truth** in every run of any number of workers whose steps are `Clear`: every
outcome of `do_single_exists`, `do_single_delete` and `do_single_set` is borne out by what happened to its key
during the call, and of the deletes racing for one record exactly one is told that it removed it, unless the
one that did throws. -/
theorem exists_delete_truthful {records : Bytes → Option Bytes} {before run : List (Nat × Action)}
    (hbefore : runFrom (step m) (Sys.init records) before = some s) (hrun : runFrom (step m) s run = some s')
    (hok : Guarded (step m) Clear (Sys.init records) (before ++ run)) :
    (∀ w call outcome, Made m s w call run outcome →
      Truth w call run (observed (step m) (notes m (deriveKey call.key)) s run) outcome) ∧
    ∀ k, s.records k ≠ none → Untouched k s → Guarded (step m) (Unstored k) s run →
      OneWins k (observed (step m) (notes m k) s run) s' := by
  obtain ⟨hbeforeOk, hrunOk⟩ := guarded_append hok
  have hplaced : Placed s := run_invariant (fun _ ⟨_, _⟩ _ h hok hs => placed_step h hok hs)
    (fun _ => .inl rfl) hbeforeOk hbefore
  refine ⟨?_, ?_⟩
  · intro w call outcome hmade
    exact made_truth hmade (hrunOk s hbefore)
  · intro k hrecord hfree hstore
    exact (race_run (race_begin hplaced hfree hrecord) (hrunOk s hbefore) hstore hrun).oneWins

instance (k : Bytes) (s : Sys) (x : Nat × Action) : Decidable (Unstored k s x) :=
  decidable_of_iff (∀ n ∈ deviceNotes k s x, (match n with | .stored _ => false | _ => true) = true) <| by
    unfold Unstored
    constructor
    · intro h w hw
      exact absurd (h _ hw) (by simp)
    · intro h n hn
      cases n with
      | stored w => exact absurd hn (h w)
      | _ => rfl

instance (s : Sys) : ∀ x, Decidable (Clear s x)
  | (w, .call _) => inferInstanceAs (Decidable ((s.connection w).outstanding = []))
  | (w, .deliver i) =>
    match h : (s.connection w).outstanding[i]? with
    | none => isTrue fun _ hc => nomatch h.symm.trans hc
    | some cmd =>
      decidable_of_iff ((cmd.operation = .exist → cmd.status ≠ some .error) ∧
        (cmd.operation = .delete → cmd.status ≠ some .keyNotFound))
        ⟨fun hcmd _ hc => Option.some.inj (h.symm.trans hc) ▸ hcmd, fun hall => hall cmd h⟩
  | (_, .enter _ _) | (_, .submit _) | (_, .test) | (_, .processed _) | (_, .clock _) | (_, .execute _ _) =>
    isTrue trivial

theorem made_of_check {call : Call} {mid : List (Nat × Action)} {x : Nat × Action} {o : Outcome}
    (hone : ∀ c, (w, .call c) ∉ mid)
    (h : (runFrom (step m) s ((w, .call call) :: mid)).any (fun t => decide ((w, call, o) ∈ ended m t x)) = true) :
    Made m s w call ((w, .call call) :: mid ++ [x]) o := by
  obtain ⟨t, ht, hended⟩ := (Option.any_eq_true _ _).1 h
  exact ⟨mid, x, t, rfl, hone, ht, by simpa using hended⟩

/-- A command from its preparation to the end of the wait for it. -/
def command (w : Nat) (fault : Bool) : List (Nat × Action) :=
  [(w, .enter 0 none), (w, .submit true), (w, .test), (w, .execute 0 fault), (w, .deliver 0), (w, .processed true),
    (w, .clock false)]

/-- Two deletes of one record, both called before a command runs; the EXIST of worker 1 runs after the DELETE of
worker 0. -/
def overtaken : List (Nat × Action) :=
  (1, .call (.delete [7])) :: command 0 false ++ [(0, .test)] ++ (command 1 false).take 3 ++ command 0 false ++
    (command 1 false).drop 3 ++ [(1, .test)]

/-- Worker 0 is told that it has removed the record, and worker 1 that there is nothing to remove. -/
theorem exists_delete_truthful_delete : ∃ run s', runFrom (step 4) (Sys.init fun _ => some [1]) run = some s' ∧
    Truth 0 (.delete [7]) run (observed (step 4) (notes 4 (deriveKey [7])) (Sys.init fun _ => some [1]) run)
      (.answer true) ∧
    deletes (deriveKey [7]) (observed (step 4) (notes 4 (deriveKey [7])) (Sys.init fun _ => some [1]) run) =
      [(1, .answer false), (0, .answer true)] ∧
    OneWins (deriveKey [7]) (observed (step 4) (notes 4 (deriveKey [7])) (Sys.init fun _ => some [1]) run) s' := by
  have hrun : (runFrom (step 4) (Sys.init fun _ => some [1])
      ((0, .call (.delete [7])) :: overtaken ++ [(0, .test)])).isSome = true := by decide +kernel
  obtain ⟨s', hs'⟩ := Option.isSome_iff_exists.1 hrun
  obtain ⟨htruth, hrace⟩ := exists_delete_truthful
    (show runFrom (step 4) (Sys.init fun _ => some [1]) [] = some _ from rfl) hs' (by decide +kernel)
  refine ⟨_, s', hs', htruth 0 (.delete [7]) (.answer true) (made_of_check ?_ ?_), ?_, hrace _ ?_ ?_ ?_⟩
  · intro c
    simp [overtaken, command]
  · decide +kernel
  · decide +kernel
  · exact nofun
  · exact fun w => ⟨nofun, nofun⟩
  · decide +kernel

/-- Two deletes of one record: the EXIST of both runs before the DELETE of either. -/
def deleteRace : List (Nat × Action) :=
  command 1 false ++ (0, .call (.delete [7])) :: command 0 false ++ [(0, .test), (1, .test)] ++ command 0 false ++
    [(0, .test)] ++ command 1 false

/-- An exists call of another key whose EXIST is still outstanding at its deadline. -/
def lateExist : List (Nat × Action) :=
  [(0, .call (.exists [8])), (0, .enter 0 none), (0, .submit true), (0, .test), (0, .processed true), (0, .clock true)]

/-- A present key is reported absent because its EXIST has failed; a delete throws because another one was
faster; a present key is reported absent because the completion of an earlier call's EXIST has come late. -/
theorem answers_mislead :
    (∃ run, Made 4 (Sys.init fun _ => some [1]) 0 (.exists [7]) run (.answer false) ∧
      .absent ∉ observed (step 4) (notes 4 (deriveKey [7])) (Sys.init fun _ => some [1]) run) ∧
    (∃ run, Made 4 (Sys.init fun _ => some [1]) 1 (.delete [7]) run (.raised "NVMe-KV delete failed") ∧
      .faulted 1 ∉ observed (step 4) (notes 4 (deriveKey [7])) (Sys.init fun _ => some [1]) run ∧
      run.getLast? = some (1, .test)) ∧
    ∃ s run, runFrom (step 4) (Sys.init (Function.update (fun _ => none) (deriveKey [7]) (some [1]))) lateExist = some s ∧
      Made 4 s 0 (.exists [7]) run (.answer false) ∧
      .absent ∉ observed (step 4) (notes 4 (deriveKey [7])) s run := by
  refine ⟨⟨(0, .call (.exists [7])) :: command 0 true ++ [(0, .test)], made_of_check ?_ ?_, ?_⟩,
    ⟨(1, .call (.delete [7])) :: deleteRace ++ [(1, .test)], made_of_check ?_ ?_, ?_, rfl⟩, ?_⟩
  · intro c
    simp [command]
  · decide +kernel
  · decide +kernel
  · intro c
    simp [deleteRace, command]
  · decide +kernel
  · decide +kernel
  · have hlate : (runFrom (step 4) (Sys.init (Function.update (fun _ => none) (deriveKey [7]) (some [1]))) lateExist).any
        (fun s => (runFrom (step 4) s ((0, .call (.exists [7])) :: command 0 false)).any
          (fun t => decide ((0, .exists [7], .answer false) ∈ ended 4 t (0, .test))) &&
          decide (.absent ∉ observed (step 4) (notes 4 (deriveKey [7])) s
            ((0, .call (.exists [7])) :: command 0 false ++ [(0, .test)]))) = true := by
      decide +kernel
    obtain ⟨s, hs, hrest⟩ := (Option.any_eq_true _ _).1 hlate
    obtain ⟨hmade, habsent⟩ := (Bool.and_eq_true _ _).mp hrest
    refine ⟨s, _, hs, made_of_check ?_ hmade, of_decide_eq_true habsent⟩
    intro c
    simp [command]

end SpdkNvmeKvConnector
end SpdkConnector
