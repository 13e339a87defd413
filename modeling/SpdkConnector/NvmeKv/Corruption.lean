import SpdkConnector.NvmeKv.Recovery

/-!
# Malformed records

`decode_manifest` answers every record with a manifest or a `KvFormatError`, one kind apart: a record is `TooDeep`
when its containers nest beyond what the interpreter admits, `json.loads` raises `RecursionError` on it, and the
`except` clause (kv_format.py:126) does not name that. The error leaves `load`, `delete` and `recover_identities` as it
left the decoder. Nesting is a matter of the text (`Codec.Deep`).
-/
namespace SpdkConnector
namespace NvmeKv

open Codec Interleaving

variable {m limit t : Nat} {l : Limit} {b v : Bytes} {i : Identity} {s : Engine} {luck : Luck → Prop}

/-- The record is text whose containers nest more than `limit` deep inside the outermost one. -/
def TooDeep (limit : Nat) (v : Bytes) : Prop := ∃ s, utf8Decode v = some s ∧ Deep (Lenient True) (limit + 2) s

theorem TooDeep.decode (h : TooDeep limit v) : decodeManifest limit v = .error .recursion := by
  obtain ⟨s, hs, hl⟩ := h
  rw [decodeManifest, hs]
  dsimp only
  rw [loads_recursion_iff.2 hl]

theorem manifestOf_error {j : Json} {e : Exn} (h : manifestOf j = .error e) : ∃ message, e = .format message := by
  unfold manifestOf malformed at h
  repeat' split at h
  all_goals first | cases h; exact ⟨_, rfl⟩ | cases h

/-- The decoder's `except` clause misses one error. -/
theorem decodes_iff (limit : Nat) (v : Bytes) : Decodes limit v ↔ ¬ TooDeep limit v := by
  constructor
  · intro h hdeep
    obtain ⟨message, he⟩ := h _ hdeep.decode
    cases he
  · intro hdeep e he
    unfold decodeManifest at he
    split at he
    · cases he
      exact ⟨_, rfl⟩
    · rename_i s hs
      split at he
      · rename_i hl
        exact absurd ⟨s, hs, loads_recursion_iff.1 hl⟩ hdeep
      · cases he
        exact ⟨_, rfl⟩
      · rename_i j hj
        cases hm : manifestOf j with
        | error e' =>
          rw [hm] at he
          cases he
          exact manifestOf_error hm
        | ok manifest =>
          rw [hm] at he
          cases hv : validateManifest manifest with
          | error e' =>
            have he : (validateManifest manifest).map (fun _ => manifest) = .error e := he
            rw [hv] at he
            cases he
            exact validateManifest_error hv
          | ok u =>
            have he : (validateManifest manifest).map (fun _ => manifest) = .error e := he
            rw [hv] at he
            cases he

/-! ## The calls -/

theorem loadResult_deep (hget : s.get (recordKey b manifestChunkIndex) = some v) (h : TooDeep limit v) :
    loadResult limit b s = .error .recursion := by
  have hobject : objectResult limit b s v = .error .recursion := by rw [objectResult, h.decode]
  rw [loadResult_same hget, hobject]
  intro message hm
  rw [hobject] at hm
  cases hm

/-- `recover_identities` gets past a key: its record decodes, and decodes once more inside `load` where it is the
manifest of this key. -/
def Recoverable (l : Limit) (key v : Bytes) : Prop :=
  ¬ TooDeep l.outer v ∧ ∀ manifest, decodeManifest l.outer v = .ok manifest →
    recordKey manifest.identity manifestChunkIndex = key → ¬ TooDeep l.inner v

/-- One key raises nothing but the decoder's `RecursionError`, and that exactly where it is not recoverable. -/
theorem recoverResult_cases (l : Limit) (s : Engine) (key : Bytes) :
    ((∀ v, s.get key = some v → Recoverable l key v) ∧ ∃ r, recoverResult l s key = .ok r) ∨
    (∃ v, s.get key = some v ∧ ¬ Recoverable l key v) ∧ recoverResult l s key = .error .recursion := by
  unfold recoverResult
  cases hget : s.get key with
  | none => exact .inl ⟨nofun, none, rfl⟩
  | some v =>
    simp only [Option.map_some]
    by_cases houter : TooDeep l.outer v
    · rw [houter.decode]
      exact .inr ⟨⟨v, rfl, fun h => h.1 houter⟩, rfl⟩
    · cases hdecode : decodeManifest l.outer v with
      | error e =>
        obtain ⟨message, rfl⟩ := (decodes_iff _ v).2 houter e hdecode
        refine .inl ⟨?_, none, rfl⟩
        rintro v' hv'
        cases hv'
        exact ⟨houter, fun manifest hm => absurd (hdecode.symm.trans hm) nofun⟩
      | ok manifest =>
        dsimp only
        split
        · rename_i hkey
          subst hkey
          by_cases hinner : TooDeep l.inner v
          · rw [loadResult_deep hget hinner]
            exact .inr ⟨⟨v, rfl, fun h => h.2 manifest hdecode rfl hinner⟩, rfl⟩
          · obtain ⟨r, hr⟩ : ∃ r, loadResult l.inner manifest.identity s = .ok r := by
              refine loadResult_total fun v' hv' => ?_
              cases hget.symm.trans hv'
              exact (decodes_iff _ v).2 hinner
            rw [hr]
            refine .inl ⟨?_, _, rfl⟩
            rintro v' hv'
            cases hv'
            exact ⟨houter, fun _ _ _ => hinner⟩
        · rename_i hkey
          refine .inl ⟨?_, none, rfl⟩
          rintro v' hv'
          cases hv'
          refine ⟨houter, fun manifest' hm hkey' => ?_⟩
          cases hdecode.symm.trans hm
          exact absurd hkey' hkey

/-- The first key that raises ends the scan. -/
theorem wp_recoverKeys_deep {keys : List Bytes} {key : Bytes} (hkey : key ∈ keys)
    (h : recoverResult l s key = .error .recursion) :
    (Rely.alone Engine).wp (exec t) luck (recoverKeys l keys) s (Gives luck s (.error .recursion)) := by
  induction keys with
  | nil => cases hkey
  | cons k keys ih =>
    refine wp_gives (wp_recoverKey k) ?_ ?_ fun hraise => ⟨rfl, .inr ⟨hraise, rfl⟩⟩
    · intro identity hk
      -- this one is no obstacle, so the key is further on
      have hrest : key ∈ keys := by
        rcases List.mem_cons.1 hkey with rfl | hrest
        · rw [h] at hk
          cases hk
        · exact hrest
      refine wp_gives (ih hrest) nofun ?_ fun hraise => ⟨rfl, .inr ⟨hraise, rfl⟩⟩
      intro e he
      cases he
      exact ⟨rfl, .inl rfl⟩
    · intro e he
      rcases recoverResult_cases l s k with ⟨-, r, hr⟩ | ⟨-, hr⟩
      · rw [hr] at he
        cases he
      · rw [hr] at he
        cases he
        exact ⟨rfl, .inl rfl⟩

theorem wp_recoverIdentities_deep {key : Bytes} (hget : s.get key = some v)
    (h : recoverResult l s key = .error .recursion) :
    (Rely.alone Engine).wp (exec t) (· = .done) (recoverIdentities l) s
      (Gives (· = .done) s (.error .recursion)) := by
  rintro _ rfl _ ch hch a s'' hx
  refine ⟨⟨trivial, trivial⟩, ?_⟩
  subst hch
  cases hx
  have hkey : key ∈ s.records.map (·.1) := by
    obtain ⟨l, r, hsplit, -⟩ := List.lookup_eq_some_iff.1 hget
    rw [hsplit]
    simp
  show (Rely.alone Engine).wp _ _ ((recoverKeys l (s.records.map (·.1))).bind _) s _
  refine wp_gives (wp_recoverKeys_deep hkey h) nofun ?_ fun hraise => ⟨rfl, .inr ⟨hraise, rfl⟩⟩
  intro e he
  cases he
  exact ⟨rfl, .inl rfl⟩

theorem load_returns (hb : identityBytes i = .ok b) (l : Limit) (m t : Nat) (s : Engine) :
    (∃ p n, Prog.run (machine m) t (fun _ => .done) (body m ⟨.load i, l⟩) 0 s = some (.ok (.loaded p), n, s)) ↔
    ∀ v, s.get (recordKey b manifestChunkIndex) = some v → ¬ TooDeep l.outer v := by
  obtain ⟨n, hrun⟩ := gives_run (m := m) (t := t) (j := ⟨.load i, l⟩) (s := s)
    (wp_packed (f := Value.loaded) (wp_load hb))
  rw [hrun]
  constructor
  · rintro ⟨p, n', heq⟩ v hget hdeep
    rw [loadResult_deep hget hdeep] at heq
    cases heq
  · intro h
    obtain ⟨r, hr⟩ : ∃ r, loadResult l.outer b s = .ok r :=
      loadResult_total fun v hget => (decodes_iff l.outer v).2 (h v hget)
    rw [hr]
    exact ⟨r, n, rfl⟩

theorem recover_returns (l : Limit) (m t : Nat) (s : Engine) :
    (∃ ids n, Prog.run (machine m) t (fun _ => .done) (body m ⟨.recover, l⟩) 0 s = some (.ok (.recovered ids), n, s)) ↔
    ∀ key v, s.get key = some v → Recoverable l key v := by
  constructor
  · rintro ⟨ids, n, hrun⟩ key v hget
    rcases recoverResult_cases l s key with ⟨h, -⟩ | ⟨-, h⟩
    · exact h v hget
    · obtain ⟨n', hraise⟩ := gives_run (m := m) (t := t) (j := ⟨.recover, l⟩)
        (wp_packed (f := Value.recovered) (wp_recoverIdentities_deep hget h))
      rw [hraise] at hrun
      cases hrun
  · intro h
    have hok : ∀ key, ∃ r, recoverResult l s key = .ok r := by
      intro key
      rcases recoverResult_cases l s key with ⟨-, hr⟩ | ⟨⟨v, hget, hnot⟩, -⟩
      · exact hr
      · exact absurd (h key v hget) hnot
    obtain ⟨f, hf⟩ := Classical.axiomOfChoice hok
    obtain ⟨n, hrun⟩ := gives_run (m := m) (t := t) (j := ⟨.recover, l⟩)
      (wp_packed (f := Value.recovered) (wp_recoverIdentities hf))
    exact ⟨_, n, hrun⟩

/-- Of a record that gives no manifest, `delete` removes the key, or raises and leaves it. -/
theorem wp_delete_malformed (hb : identityBytes i = .ok b) (hget : s.get (recordKey b manifestChunkIndex) = some v)
    (hbad : ∀ manifest, decodeManifest limit v ≠ .ok manifest) :
    (Rely.alone Engine).wp (exec t) (· = .done) (delete limit i) s fun o s' =>
      (¬ TooDeep limit v ∧ o = .ok true ∧ s'.get (recordKey b manifestChunkIndex) = none) ∨
      (TooDeep limit v ∧ o = .error .recursion) := by
  unfold delete
  rw [manifestKey_ok hb]
  rintro _ rfl _ ch hch a s'' hx
  refine ⟨⟨trivial, trivial⟩, ?_⟩
  subst hch
  cases hx
  rw [show s.reply (.retrieve (recordKey b manifestChunkIndex)) = some v from hget,
    show Engine.effect t s (.retrieve (recordKey b manifestChunkIndex)) = s from rfl]
  dsimp only [Prog.bind]
  by_cases hdeep : TooDeep limit v
  · rw [hdeep.decode]
    exact Rely.wp_alone_throw (.inr ⟨hdeep, rfl⟩)
  · cases hdecode : decodeManifest limit v with
    | ok manifest => exact absurd hdecode (hbad manifest)
    | error e =>
      obtain ⟨message, rfl⟩ := (decodes_iff limit v).2 hdeep e hdecode
      dsimp only
      rintro _ rfl _ ch hch a s'' hx
      refine ⟨⟨trivial, trivial⟩, ?_⟩
      subst hch
      cases hx
      refine Rely.wp_alone_pure (.inl ⟨hdeep, ?_, ?_⟩)
      · show Except.ok (s.get (recordKey b manifestChunkIndex)).isSome = _
        rw [hget]
        rfl
      · rw [get_delete, if_pos rfl]

theorem delete_removes (hb : identityBytes i = .ok b) (l : Limit) (m t : Nat) (s : Engine)
    (hget : s.get (recordKey b manifestChunkIndex) = some v) (hbad : ∀ manifest, decodeManifest l.outer v ≠ .ok manifest) :
    (∃ n s', Prog.run (machine m) t (fun _ => .done) (body m ⟨.delete i, l⟩) 0 s = some (.ok (.deleted true), n, s') ∧
      s'.get (recordKey b manifestChunkIndex) = none) ↔ ¬ TooDeep l.outer v := by
  obtain ⟨o, n, s', hrun, ho⟩ := done_run (m := m) (t := t) (j := ⟨.delete i, l⟩) (s := s)
    (Q := fun o s' => (¬ TooDeep l.outer v ∧ o = .ok (.deleted true) ∧ s'.get (recordKey b manifestChunkIndex) = none) ∨
      (TooDeep l.outer v ∧ o = .error .recursion)) (by
    refine Rely.wp_bind (Rely.wp_mono ?_ (wp_delete_malformed hb hget hbad))
    rintro o s' - (⟨hdeep, rfl, hgone⟩ | ⟨hdeep, rfl⟩)
    · exact Rely.wp_alone_pure (.inl ⟨hdeep, rfl, hgone⟩)
    · exact .inr ⟨hdeep, rfl⟩)
  rw [hrun]
  rcases ho with ⟨hdeep, rfl, hgone⟩ | ⟨hdeep, rfl⟩
  · exact ⟨fun _ => hdeep, fun _ => ⟨n, s', rfl, hgone⟩⟩
  · constructor
    · rintro ⟨n', s'', heq, -⟩
      cases heq
    · exact fun h => absurd hdeep h

/-- **Corruption is a miss**, up to `RecursionError`: a record decodes or raises `KvFormatError`, `load` and
`recover_identities` return, and `delete` removes what gives no manifest, exactly when no record they read is too
deep where they read it. -/
theorem corruption_misses (limit : Limit) (m t : Nat) (s : Engine) :
    (∀ n v, Decodes n v ↔ ¬ TooDeep n v) ∧
    (∀ i b, identityBytes i = .ok b →
      ((∃ p n, Prog.run (machine m) t (fun _ => .done) (body m ⟨.load i, limit⟩) 0 s =
          some (.ok (.loaded p), n, s)) ↔
        ∀ v, s.get (recordKey b manifestChunkIndex) = some v → ¬ TooDeep limit.outer v)) ∧
    ((∃ ids n, Prog.run (machine m) t (fun _ => .done) (body m ⟨.recover, limit⟩) 0 s =
        some (.ok (.recovered ids), n, s)) ↔ ∀ key v, s.get key = some v → Recoverable limit key v) ∧
    ∀ i b v, identityBytes i = .ok b → s.get (recordKey b manifestChunkIndex) = some v →
      (∀ manifest, decodeManifest limit.outer v ≠ .ok manifest) →
      ((∃ n s', Prog.run (machine m) t (fun _ => .done) (body m ⟨.delete i, limit⟩) 0 s =
          some (.ok (.deleted true), n, s') ∧ s'.get (recordKey b manifestChunkIndex) = none) ↔
        ¬ TooDeep limit.outer v) :=
  ⟨decodes_iff, fun _ _ hb => load_returns hb limit m t s, recover_returns limit m t s,
    fun _ _ _ hb hget hbad => delete_removes hb limit m t s hget hbad⟩

/-! ## A record of brackets -/

theorem brackets_open {count k : Nat} (hk : 1 ≤ k) (h : k ≤ count) :
    Opens (Lenient True) k .value (List.replicate count 91) := by
  induction k, hk using Nat.le_induction generalizing count with
  | base =>
    obtain ⟨count, rfl⟩ : ∃ n, count = n + 1 := ⟨count - 1, by omega⟩
    exact .bracket (.inr rfl)
  | succ k hk ih =>
    obtain ⟨count, rfl⟩ : ∃ n, count = n + 1 := ⟨count - 1, by omega⟩
    exact .array (.done _) (.element (ih (by omega)))

theorem brackets_deep {count : Nat} (h : limit + 1 < count) :
    TooDeep limit ((List.replicate count 91).map UInt8.ofNat) := by
  refine ⟨List.replicate count 91, utf8Decode_ascii fun c hc => ?_, _, .done _, brackets_open (by omega) (by omega)⟩
  rw [List.eq_of_mem_replicate hc]
  decide

/-- One hundred thousand opening brackets. -/
def deepRecord : Bytes := (List.replicate 100000 91).map UInt8.ofNat

/-- Python's recursion limit, all of it. -/
def wholeLimit : Limit := python311 1000

theorem deepRecord_deep : TooDeep wholeLimit.outer deepRecord := brackets_deep (by decide)

/-- A device with the record under the manifest key of an identity. -/
def deepEngine : Engine := ⟨[(recordKey [120] manifestChunkIndex, deepRecord)], []⟩

/-- Decoding the record raises `RecursionError`, and no call on the device returns. -/
theorem deep_record_raises : ¬ Decodes wholeLimit.outer deepRecord ∧
    (¬ ∃ p n, Prog.run (machine 200000) 0 (fun _ => .done) (body 200000 ⟨.load (.bytes [120]), wholeLimit⟩) 0
      deepEngine = some (.ok (.loaded p), n, deepEngine)) ∧
    (¬ ∃ ids n, Prog.run (machine 200000) 0 (fun _ => .done) (body 200000 ⟨.recover, wholeLimit⟩) 0 deepEngine =
      some (.ok (.recovered ids), n, deepEngine)) ∧
    ¬ ∃ n s', Prog.run (machine 200000) 0 (fun _ => .done) (body 200000 ⟨.delete (.bytes [120]), wholeLimit⟩) 0
      deepEngine = some (.ok (.deleted true), n, s') ∧ s'.get (recordKey [120] manifestChunkIndex) = none := by
  have hid : identityBytes (.bytes [120]) = .ok [120] := rfl
  have hget : deepEngine.get (recordKey [120] manifestChunkIndex) = some deepRecord := List.lookup_cons_self
  refine ⟨fun h => (decodes_iff _ deepRecord).1 h deepRecord_deep, ?_, ?_, ?_⟩
  · rw [load_returns hid]
    exact fun h => h _ hget deepRecord_deep
  · rw [recover_returns]
    exact fun h => (h _ _ hget).1 deepRecord_deep
  · rw [delete_removes hid _ _ _ _ hget fun manifest h => by rw [deepRecord_deep.decode] at h; cases h]
    exact fun h => h deepRecord_deep

end NvmeKv
end SpdkConnector
