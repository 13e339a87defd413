import SpdkConnector.Codec.Reading
import SpdkConnector.NvmeKv.LoadIntegrity

/-!
# What `recover_identities` finds

On any device: chunks that read as manifests, manifests under other keys, manifests without their chunks.
`recover_identities` decodes a record itself, and `load` decodes it once more a frame further in: `recoverResult` is
what comes of one key. The only thing asked of the records is `Readable`: decoding one gives a manifest or a format
error, in the inner call too.
-/
namespace SpdkConnector
namespace NvmeKv

open Codec Interleaving

variable {m limit t : Nat} {l : Limit} {b p : Bytes} {s : Engine} {luck : Luck → Prop}

/-- `decode_manifest` returns or raises `KvFormatError` on every record. -/
def Readable (limit : Nat) (s : Engine) : Prop :=
  ∀ r ∈ s.records, ∀ e, decodeManifest limit r.2 = .error e → ∃ message, e = .format message

/-- The same of one record's value. -/
def Decodes (limit : Nat) (value : Bytes) : Prop :=
  ∀ e, decodeManifest limit value = .error e → ∃ message, e = .format message

/-- The record under a key, if any. -/
def DecodesAt (limit : Nat) (s : Engine) (key : Bytes) : Prop := ∀ value, s.get key = some value → Decodes limit value

theorem Readable.at (h : Readable limit s) (key : Bytes) : DecodesAt limit s key := by
  intro value hget
  obtain ⟨l, r, hsplit, -⟩ := List.lookup_eq_some_iff.1 hget
  refine h (key, value) ?_
  rw [hsplit]
  simp

/-- A record that decodes where less nesting is allowed decodes alike where more is. -/
theorem decodeManifest_deeper {outer : Nat} {value : Bytes} (hle : limit ≤ outer) (h : Decodes limit value) :
    decodeManifest outer value = decodeManifest limit value := by
  unfold decodeManifest
  split
  · rfl
  · rename_i text htext
    have hshallow : loads (limit + 1) text ≠ .error .recursion := by
      intro hdeep
      obtain ⟨message, he⟩ := h .recursion (by rw [decodeManifest, htext]; dsimp only; rw [hdeep])
      cases he
    obtain ⟨hdeeper, hsame⟩ := loads_deeper (Nat.succ_le_succ hle) hshallow
    cases hx : loads (limit + 1) text with
    | ok j => rw [(hsame j).2 hx]
    | error e =>
      cases hy : loads (outer + 1) text with
      | ok j => cases hx.symm.trans ((hsame j).1 hy)
      | error e' =>
        -- every other error is a malformed manifest
        cases e with
        | recursion => exact absurd hx hshallow
        | _ =>
          cases e' with
          | recursion => exact absurd hy hdeeper
          | _ => rfl

theorem Limit.inner_le (l : Limit) : l.inner ≤ l.outer := Nat.le_add_right _ _

/-! ## One key -/

theorem validateManifest_error {manifest : KvManifest} {e : Exn} (h : validateManifest manifest = .error e) :
    ∃ message, e = .format message := by
  unfold validateManifest at h
  repeat' split at h
  all_goals first | cases h; exact ⟨_, rfl⟩ | cases h

theorem validatePayload_error {manifest : KvManifest} {chunks : List Bytes} {e : Exn}
    (h : validatePayload manifest chunks = .error e) : ∃ message, e = .format message := by
  unfold validatePayload at h
  cases hv : validateManifest manifest with
  | error e' =>
    rw [hv] at h
    cases h
    exact validateManifest_error hv
  | ok u =>
    rw [hv] at h
    simp only [Except.bind] at h
    repeat' split at h
    all_goals first | cases h; exact ⟨_, rfl⟩ | cases h

/-- `load` returns when the manifest record decodes. -/
theorem loadResult_total (h : DecodesAt limit s (recordKey b manifestChunkIndex)) : ∃ r, loadResult limit b s = .ok r := by
  cases hget : s.get (recordKey b manifestChunkIndex) with
  | none => exact ⟨_, loadResult_none hget⟩
  | some value =>
    cases hr : objectResult limit b s value with
    | ok r =>
      refine ⟨r, (loadResult_same hget ?_).trans hr⟩
      intro message hm
      rw [hr] at hm
      cases hm
    | error e =>
      suffices hformat : ∃ message, e = .format message by
        obtain ⟨message, rfl⟩ := hformat
        exact ⟨_, loadResult_format hget hr⟩
      unfold objectResult at hr
      split at hr
      · rename_i e' hdecode
        cases hr
        exact h value hget e hdecode
      · split at hr
        · cases hr
        · dsimp only at hr
          split at hr
          · cases hr
          · cases hp : validatePayload _ _ with
            | ok p =>
              rw [hp] at hr
              cases hr
            | error e' =>
              rw [hp] at hr
              cases hr
              exact validatePayload_error hp

/-- What comes of one key. -/
def recoverResult (l : Limit) (s : Engine) (key : Bytes) : Except Exn (Option Bytes) :=
  match (s.get key).map (decodeManifest l.outer) with
  | none | some (.error (.format _)) => .ok none
  | some (.error e) => .error e
  | some (.ok manifest) =>
    if recordKey manifest.identity manifestChunkIndex = key then
      (loadResult l.inner manifest.identity s).map fun p => if p.isSome then some manifest.identity else none
    else .ok none

theorem loadResult_deeper {outer : Nat} (hle : limit ≤ outer) (h : DecodesAt limit s (recordKey b manifestChunkIndex)) :
    loadResult outer b s = loadResult limit b s := by
  unfold loadResult
  split
  · rfl
  · rename_i value hget
    unfold objectResult
    rw [decodeManifest_deeper hle (h value hget)]

/-- The identity whose object `key` makes visible. -/
def recovered (limit : Nat) (s : Engine) (key : Bytes) : Option Bytes :=
  match (s.get key).map (decodeManifest limit) with
  | some (.ok manifest) =>
    if recordKey manifest.identity manifestChunkIndex = key then
      match loadResult limit manifest.identity s with
      | .ok (some _) => some manifest.identity
      | _ => none
    else none
  | _ => none

/-- A key recovers the identity it is the manifest key of, when that identity loads. -/
theorem recovered_some {key : Bytes} : recovered limit s key = some b ↔
    key = recordKey b manifestChunkIndex ∧ ∃ p, loadResult limit b s = .ok (some p) := by
  unfold recovered
  constructor
  · intro h
    split at h
    · split at h
      · rename_i hkey
        split at h
        · rename_i p hp
          cases h
          exact ⟨hkey.symm, p, hp⟩
        · cases h
      · cases h
    · cases h
  · rintro ⟨rfl, p, hp⟩
    obtain ⟨value, manifest, hget, hdecode, rfl, -⟩ := loadResult_some.1 hp
    rw [hget, Option.map_some, hdecode]
    dsimp only
    rw [if_pos rfl, hp]

theorem wp_recoverKey (key : Bytes) :
    (Rely.alone Engine).wp (exec t) luck (recoverKey l key) s (Gives luck s (recoverResult l s key)) := by
  refine wp_retrieve ?_
  unfold recoverResult
  cases hget : s.get key with
  | none => exact Rely.wp_alone_pure ⟨rfl, .inl rfl⟩
  | some value =>
    simp only [Option.map_some]
    cases hdecode : decodeManifest l.outer value with
    | error e =>
      cases e with
      | format message => exact Rely.wp_alone_pure ⟨rfl, .inl rfl⟩
      | _ => exact Rely.wp_alone_throw ⟨rfl, .inl rfl⟩
    | ok manifest =>
      have hid : identityBytes (.bytes manifest.identity) = .ok manifest.identity :=
        identityBytes_ok.2 ⟨rfl, (decodeManifest_valid hdecode).identity⟩
      dsimp only
      rw [manifestKey_ok hid]
      show (Rely.alone Engine).wp _ _ (if recordKey manifest.identity manifestChunkIndex ≠ key then _ else _) _ _
      by_cases hkey : recordKey manifest.identity manifestChunkIndex = key
      · rw [if_neg (not_not.2 hkey), if_pos hkey]
        refine wp_gives (wp_load hid) ?_ ?_ ?_
        · intro payload hp
          rw [hp]
          exact Rely.wp_alone_pure ⟨rfl, .inl rfl⟩
        · intro e he
          rw [he]
          exact ⟨rfl, .inl rfl⟩
        · exact fun hraise => ⟨rfl, .inr ⟨hraise, rfl⟩⟩
      · rw [if_pos hkey, if_neg hkey]
        exact Rely.wp_alone_pure ⟨rfl, .inl rfl⟩

/-- Of readable records a key gives what `load` says. -/
theorem recoverResult_readable {key : Bytes} (h : DecodesAt l.inner s key) :
    recoverResult l s key = .ok (recovered l.inner s key) := by
  unfold recoverResult recovered
  cases hget : s.get key with
  | none => rfl
  | some value =>
    simp only [Option.map_some]
    rw [decodeManifest_deeper l.inner_le (h value hget)]
    cases hdecode : decodeManifest l.inner value with
    | error e =>
      obtain ⟨message, rfl⟩ := h value hget e hdecode
      rfl
    | ok manifest =>
      dsimp only
      split
      · rename_i hkey
        obtain ⟨r, hr⟩ := loadResult_total (hkey.symm ▸ h)
        rw [hr]
        cases r <;> rfl
      · rfl

theorem wp_recoverKeys {keys : List Bytes} {f : Bytes → Option Bytes}
    (h : ∀ key ∈ keys, recoverResult l s key = .ok (f key)) :
    (Rely.alone Engine).wp (exec t) luck (recoverKeys l keys) s (Gives luck s (.ok (keys.filterMap f))) := by
  induction keys with
  | nil => exact Rely.wp_alone_pure ⟨rfl, .inl rfl⟩
  | cons key keys ih =>
    have hkey := h key List.mem_cons_self
    refine wp_gives (wp_recoverKey key) ?_ ?_ fun hraise => ⟨rfl, .inr ⟨hraise, rfl⟩⟩
    · intro identity heq
      obtain rfl := Except.ok.inj (hkey.symm.trans heq)
      refine wp_gives (ih fun k hk => h k (List.mem_cons_of_mem key hk)) ?_ nofun fun hraise =>
        ⟨rfl, .inr ⟨hraise, rfl⟩⟩
      intro identities heq
      obtain rfl := Except.ok.inj heq
      refine Rely.wp_alone_pure ⟨rfl, .inl ?_⟩
      rw [List.filterMap_cons]
      cases f key <;> rfl
    · intro e he
      rw [hkey] at he
      cases he

/-- The identities of the visible objects, in the order of their keys. -/
def visible (limit : Nat) (s : Engine) : List Bytes := (s.records.map (·.1)).filterMap (recovered limit s)

theorem mem_visible : b ∈ visible limit s ↔ ∃ p, loadResult limit b s = .ok (some p) := by
  rw [visible, List.mem_filterMap]
  constructor
  · rintro ⟨key, -, hkey⟩
    exact (recovered_some.1 hkey).2
  · rintro ⟨p, hp⟩
    obtain ⟨value, manifest, hget, -⟩ := loadResult_some.1 hp
    obtain ⟨l, r, hsplit, -⟩ := List.lookup_eq_some_iff.1 hget
    refine ⟨recordKey b manifestChunkIndex, ?_, recovered_some.2 ⟨rfl, p, hp⟩⟩
    rw [hsplit]
    simp

/-- Two keys never recover the same identity. -/
theorem visible_nodup (hkeys : (s.records.map (·.1)).Nodup) : (visible limit s).Nodup := by
  refine List.Pairwise.filterMap _ ?_ hkeys
  rintro key key' hne b h b' h' rfl
  exact hne ((recovered_some.1 h).1.trans (recovered_some.1 h').1.symm)

theorem wp_recoverIdentities {f : Bytes → Option Bytes} (h : ∀ key, recoverResult l s key = .ok (f key)) :
    (Rely.alone Engine).wp (exec t) luck (recoverIdentities l) s
      (Gives luck s (.ok (((s.records.map (·.1)).filterMap f).mergeSort bytesLe))) := by
  rintro _ rfl _ ch hch a s'' hx
  refine ⟨⟨trivial, trivial⟩, ?_⟩
  cases ch with
  | done =>
    cases hx
    show (Rely.alone Engine).wp _ _ ((recoverKeys l (s.records.map (·.1))).bind _) s _
    refine wp_gives (wp_recoverKeys fun key _ => h key) ?_ nofun fun hraise => ⟨rfl, .inr ⟨hraise, rfl⟩⟩
    rintro identities heq
    obtain rfl := Except.ok.inj heq
    exact Rely.wp_alone_pure ⟨rfl, .inl rfl⟩
  | raiseBefore =>
    cases hx
    exact Rely.wp_alone_throw ⟨rfl, .inr ⟨⟨_, hch, nofun⟩, rfl⟩⟩
  | raiseAfter =>
    cases hx
    exact Rely.wp_alone_throw ⟨rfl, .inr ⟨⟨_, hch, nofun⟩, rfl⟩⟩

/-! ## Order -/

theorem bytesLe_iff {x y : Bytes} : bytesLe x y = true ↔ x ≤ y := by
  induction x generalizing y with
  | nil => simp [bytesLe]
  | cons a x ih =>
    cases y with
    | nil => simp [bytesLe]
    | cons c y =>
      rw [List.cons_le_cons_iff, ← ih]
      simp [bytesLe]

/-- Sorting distinct byte strings puts them in increasing order. -/
theorem mergeSort_increasing {xs : List Bytes} (h : xs.Nodup) : (xs.mergeSort bytesLe).Pairwise (· < ·) := by
  have hsorted : (xs.mergeSort bytesLe).Pairwise fun x y => bytesLe x y = true := by
    apply List.pairwise_mergeSort
    · intro x y z hxy hyz
      exact bytesLe_iff.2 (List.le_trans (bytesLe_iff.1 hxy) (bytesLe_iff.1 hyz))
    · intro x y
      rw [Bool.or_eq_true, bytesLe_iff, bytesLe_iff]
      exact List.le_total x y
  have hdistinct : (xs.mergeSort bytesLe).Nodup := (List.mergeSort_perm xs _).nodup_iff.2 h
  refine (hsorted.and hdistinct).imp ?_
  rintro x y ⟨hle, hne⟩
  by_contra hlt
  exact hne (List.le_antisymm (bytesLe_iff.1 hle) hlt)

/-! ## Recovery -/

/-- A call packs the result of a read-only program. -/
theorem wp_packed {α β : Type} {q : KvProg α} {r : Except Exn α} {f : α → β}
    (h : (Rely.alone Engine).wp (exec t) luck q s (Gives luck s r)) :
    (Rely.alone Engine).wp (exec t) luck (q.bind fun a => .pure (f a)) s (Gives luck s (r.map f)) := by
  refine wp_gives h ?_ ?_ fun hraise => ⟨rfl, .inr ⟨hraise, rfl⟩⟩
  · rintro a rfl
    exact Rely.wp_alone_pure ⟨rfl, .inl rfl⟩
  · rintro e rfl
    exact ⟨rfl, .inl rfl⟩

/-- A call whose engine never raises runs to its end. -/
theorem done_run {j : Job} {Q : Except Exn Value → Engine → Prop}
    (h : (Rely.alone Engine).wp (exec t) (· = .done) (body m j) s Q) :
    ∃ o n s', Prog.run (machine m) t (fun _ => .done) (body m j) 0 s = some (o, n, s') ∧ Q o s' := by
  obtain ⟨o, n, s', hrun⟩ := Rely.run_total (M := machine m) (fun _ => Luck.done) (exec_total t) (body m j) 0 s
  obtain ⟨-, ho⟩ := Rely.run_wp (M := machine m) (by intro _; rfl) hrun trivial h
  exact ⟨o, n, s', hrun, ho⟩

/-- A read-only one leaves the state as it is. -/
theorem gives_run {j : Job} {r : Except Exn Value}
    (h : (Rely.alone Engine).wp (exec t) (· = .done) (body m j) s (Gives (· = .done) s r)) :
    ∃ n, Prog.run (machine m) t (fun _ => .done) (body m j) 0 s = some (r, n, s) := by
  obtain ⟨o, n, s', hrun, rfl, ho⟩ := done_run h
  refine ⟨n, ?_⟩
  rcases ho with rfl | ⟨⟨ch, rfl, hne⟩, -⟩
  · exact hrun
  · exact absurd rfl hne

/-- **Recovery is exact**: whatever the readable records are, `recover_identities` returns, in increasing order,
the byte strings that `load` returns a payload for. -/
theorem recover_exact (m t : Nat) (limit : Limit) {s : Engine} (hkeys : (s.records.map (·.1)).Nodup)
    (hread : Readable limit.inner s) :
    ∃ ids n, Prog.run (machine m) t (fun _ => .done) (body m ⟨.recover, limit⟩) 0 s =
        some (.ok (.recovered ids), n, s) ∧
      ids.Pairwise (· < ·) ∧ [] ∉ ids ∧
      ∀ b, b ≠ [] → ∃ payload n, Prog.run (machine m) t (fun _ => .done) (body m ⟨.load (.bytes b), limit⟩) 0 s =
        some (.ok (.loaded payload), n, s) ∧ (b ∈ ids ↔ payload ≠ none) := by
  obtain ⟨n, hrun⟩ := gives_run (m := m) (t := t) (j := ⟨.recover, limit⟩)
    (wp_packed (f := Value.recovered) (wp_recoverIdentities fun key => recoverResult_readable (hread.at key)))
  refine ⟨_, n, hrun, mergeSort_increasing (visible_nodup hkeys), ?_, ?_⟩
  · intro hnil
    obtain ⟨p, hp⟩ := mem_visible.1 (List.mem_mergeSort.1 hnil)
    obtain ⟨value, manifest, -, hdecode, hid, -⟩ := loadResult_some.1 hp
    exact (decodeManifest_valid hdecode).identity hid
  · intro b hb
    obtain ⟨payload, hp⟩ := loadResult_total (b := b) (hread.at _)
    have houter : loadResult limit.outer b s = .ok payload := (loadResult_deeper limit.inner_le (hread.at _)).trans hp
    obtain ⟨n', hload⟩ := gives_run (m := m) (t := t) (j := ⟨.load (.bytes b), limit⟩)
      (wp_packed (f := Value.loaded) (wp_load (identityBytes_ok.2 ⟨rfl, hb⟩)))
    refine ⟨payload, n', hload.trans (by rw [houter]; rfl), ?_⟩
    rw [List.mem_mergeSort]
    refine mem_visible.trans ?_
    rw [hp]
    cases payload <;> simp

/-- One object, and its manifest once more under another key. -/
def copiedManifest : Engine :=
  match makeObjectPlan (.bytes [120]) [1, 2, 3] 200 with
  | .ok plan =>
    ⟨([9], plan.manifestValue) :: (plan.manifestKey, plan.manifestValue) :: plan.chunks.map fun c => (c.key, c.value), []⟩
  | .error _ => .empty

/-- A value that decodes, or is refused by its format. -/
def decodes (limit : Nat) (value : Bytes) : Bool :=
  match decodeManifest limit value with
  | .ok _ | .error (.format _) => true
  | .error _ => false

theorem recover_exact_copied : copiedManifest.records.length = 3 ∧ ∃ ids n,
    Prog.run (machine 200) 0 (fun _ => .done) (body 200 ⟨.recover, python311 50⟩) 0 copiedManifest =
      some (.ok (.recovered ids), n, copiedManifest) ∧ ids.Pairwise (· < ·) ∧
    ∃ payload n,
      Prog.run (machine 200) 0 (fun _ => .done) (body 200 ⟨.load (.bytes [120]), python311 50⟩) 0 copiedManifest =
      some (.ok (.loaded payload), n, copiedManifest) ∧ ([120] ∈ ids ↔ payload ≠ none) := by
  have hdecoded : copiedManifest.records.all (fun r => decodes 50 r.2) = true := by decide +kernel
  have hread : Readable 50 copiedManifest := by
    intro r hr e he
    have h := List.all_eq_true.1 hdecoded r hr
    rw [decodes, he] at h
    cases e with
    | format message => exact ⟨message, rfl⟩
    | _ => cases h
  obtain ⟨ids, n, hrun, hsorted, -, hload⟩ := recover_exact 200 0 (python311 50) (by decide +kernel) hread
  obtain ⟨payload, n', hrun', hiff⟩ := hload [120] (by decide)
  exact ⟨by decide +kernel, ids, n, hrun, hsorted, payload, n', hrun', hiff⟩

end NvmeKv
end SpdkConnector
