import SpdkConnector.NvmeKv.Format
import SpdkConnector.Codec.JsonRoundTrip

/-!
# What a plan contains, and that its manifest reads back

`KvManifest.Valid` is what `_validate_manifest` accepts; `decode_encode` undoes `encode_manifest`;
`makeObjectPlan_ok` says what a plan is made of.
-/
namespace SpdkConnector
namespace NvmeKv

open Codec

variable {m : KvManifest} {b p : Bytes}

/-- The key `_derive_key` gives for an index in range. -/
def recordKey (b : Bytes) (index : Nat) : Bytes :=
  (sha256 (domainSeparator ++ b ++ beBytes 4 index)).take KV_KEY_BYTES

theorem deriveKey_ok {index : Nat} (h : index ≤ manifestChunkIndex) : deriveKey b index = .ok (recordKey b index) :=
  if_pos h

theorem identityBytes_ok {i : Identity} : identityBytes i = .ok b ↔ i.encode = .ok b ∧ b ≠ [] := by
  unfold identityBytes
  cases h : i.encode with
  | error e => simp [Except.bind]
  | ok c =>
    simp only [Except.bind, Except.ok.injEq]
    constructor
    · intro hc
      split at hc
      · cases hc
      · rename_i hne
        cases hc
        exact ⟨rfl, hne⟩
    · rintro ⟨rfl, hne⟩
      rw [if_neg hne]

theorem manifestKey_ok {i : Identity} (h : identityBytes i = .ok b) :
    manifestKey i = .ok (recordKey b manifestChunkIndex) := by
  rw [manifestKey, h]
  exact deriveKey_ok (Nat.le_refl _)

theorem chunkKey_ok {i : Identity} (h : identityBytes i = .ok b) {index : Nat}
    (hi : index ≤ manifestChunkIndex) : chunkKey i index = .ok (recordKey b index) := by
  rw [chunkKey, h]
  exact deriveKey_ok hi

/-! ## Manifests -/

/-- What `_validate_manifest` accepts. -/
structure KvManifest.Valid (m : KvManifest) : Prop where
  identity : m.identity ≠ []
  length : ∃ n : Nat, 0 < n ∧ int? m.logicalBytes = some (n : Int)
  chunks : ∃ n : Nat, 0 < n ∧ n < manifestChunkIndex ∧ int? m.chunkCount = some (n : Int)
  checksum : ∃ s, str? m.payloadChecksum = some s ∧ s.length = 64 ∧ int16Ok s = true

theorem validateManifest_ok : validateManifest m = .ok () ↔ m.Valid := by
  unfold validateManifest
  constructor
  · intro h
    split at h
    · cases h
    · rename_i hid
      split at h
      · cases h
      · rename_i n hn
        split at h
        · cases h
        · rename_i hpos
          split at h
          · cases h
          · rename_i c hc
            split at h
            · cases h
            · rename_i hrange
              split at h
              · cases h
              · rename_i s hs
                split at h
                · cases h
                · rename_i hlen
                  split at h
                  · rename_i hint
                    have hrange := Classical.not_not.1 hrange
                    refine ⟨hid, ⟨n.toNat, by omega, ?_⟩, ⟨c.toNat, by omega, by omega, ?_⟩,
                      ⟨s, hs, Classical.not_not.1 hlen, hint⟩⟩
                    · rw [hn, Int.toNat_of_nonneg (by omega)]
                    · rw [hc, Int.toNat_of_nonneg (by omega)]
                  · cases h
  · rintro ⟨hid, ⟨n, hn, hln⟩, ⟨c, hc, hcm, hcc⟩, ⟨s, hs, hlen, hint⟩⟩
    rw [if_neg hid, hln, hcc, hs]
    simp only [show ¬ (n : Int) ≤ 0 by omega, show (0 : Int) < c ∧ (c : Int) < (manifestChunkIndex : Int) by omega,
      hlen, hint, if_false, if_true, not_true, ne_eq, and_self]

theorem bind_ok {α β ε : Type} {x : Except ε α} {f : α → Except ε β} {y : β} (h : x.bind f = .ok y) :
    ∃ a, x = .ok a ∧ f a = .ok y := by
  cases x with
  | error e => cases h
  | ok a => exact ⟨a, rfl, h⟩

theorem map_ok {α β ε : Type} {x : Except ε α} {f : α → β} {y : β} (h : x.map f = .ok y) :
    ∃ a, x = .ok a ∧ f a = y := by
  cases x with
  | error e => cases h
  | ok a =>
    cases h
    exact ⟨a, rfl, rfl⟩

theorem decodeManifest_valid {limit : Nat} {v : Bytes} (h : decodeManifest limit v = .ok m) : m.Valid := by
  unfold decodeManifest at h
  split at h
  · cases h
  · split at h
    · cases h
    · cases h
    · obtain ⟨m', -, hm⟩ := bind_ok h
      obtain ⟨u, hv, rfl⟩ := map_ok hm
      exact validateManifest_ok.1 hv

theorem manifestOf_document (m : KvManifest) : manifestOf (.dict (manifestDocument m)) = .ok m := by
  have hfields : isManifestFields ((manifestDocument m).map (·.1)) = true := by
    show isManifestFields manifestFields = true
    decide
  have hversion : (manifestDocument m).lookup (text "version") = some (.int 1) := rfl
  have hidentity : (manifestDocument m).lookup (text "identity") = some (.str (base64Encode m.identity)) := rfl
  have hlength : (manifestDocument m).lookup (text "length") = some m.logicalBytes := rfl
  have hchunks : (manifestDocument m).lookup (text "chunks") = some m.chunkCount := rfl
  have hsha : (manifestDocument m).lookup (text "sha256") = some m.payloadChecksum := rfl
  unfold manifestOf
  dsimp only
  rw [if_pos hfields, hversion, hidentity, hlength, hchunks, hsha]
  simp only [equalsOne, str?, Option.bind_some, base64Decode_encode]
  rfl

theorem ascii_scalar {s : Str} (h : Ascii s) : ∀ c ∈ s, Scalar c := by
  intro c hc
  have := h c hc
  refine ⟨by omega, ?_⟩
  simp only [surrogate, Bool.and_eq_false_iff, decide_eq_false_iff_not]
  omega

theorem plain_of_int {v : Json} {n : Int} (h : int? v = some n) {t : Str} (ht : dumpScalar v = some t) :
    v.Plain := by
  cases v with
  | int k =>
    simp only [dumpScalar, dumpInt] at ht
    split at ht
    · cases ht
    · rename_i hlen
      exact Nat.le_of_not_lt hlen
  | bool b => trivial
  | null => cases h
  | float x => cases h
  | str s => cases h
  | list xs => cases h
  | dict d => cases h

/-- The integers of a written document had not too many digits. -/
theorem dumped_scalars {entries : List (Str × Json)} {t : Str} (h : dumpMembers entries = some t) :
    ∀ p ∈ entries, ∃ s, dumpScalar p.2 = some s := by
  induction entries generalizing t with
  | nil =>
    intro p hp
    cases hp
  | cons q entries ih =>
    obtain ⟨key, v⟩ := q
    intro p hp
    cases entries with
    | nil =>
      simp only [dumpMembers, Option.map_eq_some_iff] at h
      obtain ⟨s, hs, -⟩ := h
      obtain rfl := List.mem_singleton.1 hp
      exact ⟨s, hs⟩
    | cons q' entries =>
      simp only [dumpMembers, Option.bind_eq_some_iff, Option.map_eq_some_iff] at h
      obtain ⟨s, hs, r, hr, -⟩ := h
      rcases List.mem_cons.1 hp with rfl | hp
      · exact ⟨s, hs⟩
      · exact ih hr p hp

/-- The fields of a manifest are written so that they are read back. -/
theorem document_plain {t : Str} (hv : m.Valid) (hsum : ∀ s, m.payloadChecksum = .str s → ∀ c ∈ s, Scalar c)
    (ht : dumpMembers (manifestDocument m) = some t) : ∀ p ∈ manifestDocument m, Entry.Plain p := by
  have hscalars := dumped_scalars ht
  have hkey : ∀ k ∈ manifestFields, ∀ c ∈ k, Scalar c := by
    refine fun k hk => ascii_scalar ?_
    revert k
    unfold Ascii
    decide
  obtain ⟨n, -, hn⟩ := hv.length
  obtain ⟨c, -, -, hc⟩ := hv.chunks
  intro p hp
  obtain ⟨w, hw⟩ := hscalars p hp
  simp only [manifestDocument, List.mem_cons, List.not_mem_nil, or_false] at hp
  rcases hp with rfl | rfl | rfl | rfl | rfl
  · exact ⟨hkey (text "chunks") (by decide), plain_of_int hc hw⟩
  · exact ⟨hkey (text "identity") (by decide), ascii_scalar (base64Encode_ascii _)⟩
  · exact ⟨hkey (text "length") (by decide), plain_of_int hn hw⟩
  · obtain ⟨sum, hsum', -, -⟩ := hv.checksum
    refine ⟨hkey (text "sha256") (by decide), ?_⟩
    cases hj : m.payloadChecksum with
    | str sum =>
      intro c hc
      exact hsum sum hj c hc
    | null => rw [hj] at hsum'; cases hsum'
    | bool b => rw [hj] at hsum'; cases hsum'
    | int n => rw [hj] at hsum'; cases hsum'
    | float x => rw [hj] at hsum'; cases hsum'
    | list xs => rw [hj] at hsum'; cases hsum'
    | dict d => rw [hj] at hsum'; cases hsum'
  · exact ⟨hkey (text "version") (by decide), plain_of_int rfl hw⟩

/-- What `encode_manifest` returns, as text. -/
theorem encodeManifest_text {v : Bytes} (h : encodeManifest m = .ok v)
    (hsum : ∀ s, m.payloadChecksum = .str s → ∀ c ∈ s, Scalar c) : validateManifest m = .ok () ∧ ∃ s,
      utf8Decode v = some s ∧ dumps (manifestDocument m) = some s ∧ ∀ p ∈ manifestDocument m, Entry.Plain p := by
  obtain ⟨u, hvalid, h⟩ := bind_ok h
  split at h
  · cases h
  · rename_i s hs
    have hascii := dumps_ascii hs
    rw [utf8Encode_ascii hascii] at h
    cases h
    obtain ⟨t, ht, -⟩ := Option.map_eq_some_iff.1 hs
    exact ⟨hvalid, s, utf8Decode_ascii hascii, hs, document_plain (validateManifest_ok.1 hvalid) hsum ht⟩

theorem document_nodup (m : KvManifest) : ((manifestDocument m).map (·.1)).Nodup := by
  show manifestFields.Nodup
  decide

/-- **Decoding undoes encoding**, for every valid manifest whose checksum holds no surrogates. -/
theorem decode_encode {v : Bytes} (h : encodeManifest m = .ok v)
    (hsum : ∀ s, m.payloadChecksum = .str s → ∀ c ∈ s, Scalar c) (limit : Nat) :
    decodeManifest limit v = .ok m := by
  obtain ⟨hvalid, s, hs, hdumps, hplain⟩ := encodeManifest_text h hsum
  have hloads : loads (limit + 1) s = .ok (.dict (manifestDocument m)) :=
    loads_dumps (List.cons_ne_nil _ _) hplain (document_nodup m) hdumps limit
  unfold decodeManifest
  rw [hs]
  dsimp only
  rw [hloads]
  dsimp only
  rw [manifestOf_document]
  show (validateManifest m).map _ = _
  rw [hvalid]
  rfl

/-! ## Checksums -/

theorem hexDigest_length (bs : Bytes) : (hexDigest bs).length = 2 * bs.length := by
  induction bs with
  | nil => rfl
  | cons a bs ih =>
    have hcons : hexDigest (a :: bs) = hexDigit (a.toNat / 16) :: hexDigit (a.toNat % 16) :: hexDigest bs := rfl
    rw [hcons, List.length_cons, List.length_cons, ih, List.length_cons]
    omega

theorem hexDigest_digits {bs : Bytes} {c : Nat} (h : c ∈ hexDigest bs) : (hexValue c).isSome := by
  obtain ⟨a, -, hc⟩ := List.mem_flatMap.1 h
  have ha := a.toNat_lt
  simp only [List.mem_cons, List.not_mem_nil, or_false] at hc
  rcases hc with rfl | rfl
  · rw [hexValue_digit (by omega)]
    rfl
  · rw [hexValue_digit (by omega)]
    rfl

theorem checksum_length (p : Bytes) : (checksum p).length = 64 := by
  rw [checksum, hexDigest_length, sha256_length]

theorem checksum_accepted (p : Bytes) : int16Ok (checksum p) = true := by
  refine int16Ok_hex (fun c hc => hexDigest_digits hc) ?_
  intro h
  have := checksum_length p
  rw [h] at this
  cases this

theorem checksum_scalar (p : Bytes) : ∀ c ∈ checksum p, Scalar c := by
  intro c hc
  have := hexValue_range (hexDigest_digits hc)
  refine ⟨by omega, ?_⟩
  simp only [surrogate, Bool.and_eq_false_iff, decide_eq_false_iff_not]
  omega

/-! ## Plans -/

theorem planned_roundtrip {maxValueBytes : Nat} {v : Bytes} (h : encodeManifest (plannedManifest b p maxValueBytes) = .ok v)
    (limit : Nat) : decodeManifest limit v = .ok (plannedManifest b p maxValueBytes) := by
  refine decode_encode h ?_ limit
  intro s hs
  cases hs
  exact checksum_scalar p

theorem planned_valid {maxValueBytes : Nat} {v : Bytes} (h : encodeManifest (plannedManifest b p maxValueBytes) = .ok v) :
    (plannedManifest b p maxValueBytes).Valid := by
  obtain ⟨u, hv, -⟩ := bind_ok h
  exact validateManifest_ok.1 hv

theorem planChunks_ok {values : List Bytes} {index : Nat} {chunks : List KvChunk}
    (h : planChunks b index values = .ok chunks) :
    chunks = values.mapIdx fun i x => ⟨recordKey b (index + i), x⟩ := by
  induction values generalizing index chunks with
  | nil =>
    cases h
    rfl
  | cons x values ih =>
    obtain ⟨key, hkey, h⟩ := bind_ok h
    obtain ⟨rest, hrest, rfl⟩ := map_ok h
    unfold deriveKey at hkey
    split at hkey
    · cases hkey
      rw [ih hrest, List.mapIdx_cons]
      simp only [Nat.add_zero, List.cons.injEq, true_and, recordKey]
      refine List.mapIdx_eq_mapIdx_iff.2 fun i hi => ?_
      rw [show index + 1 + i = index + (i + 1) by omega]
    · cases hkey

/-- What `make_object_plan` returns. -/
structure Planned (b p : Bytes) (maxValueBytes : Nat) (plan : KvObjectPlan) : Prop where
  identity : b ≠ []
  payload : p ≠ []
  positive : maxValueBytes ≠ 0
  manifestKey : plan.manifestKey = recordKey b manifestChunkIndex
  manifestValue : encodeManifest (plannedManifest b p maxValueBytes) = .ok plan.manifestValue
  chunks : plan.chunks = (pieces maxValueBytes p).mapIdx fun i x => ⟨recordKey b i, x⟩
  fits : plan.manifestValue.length ≤ maxValueBytes

theorem makeObjectPlan_ok {i : Identity} {maxValueBytes : Nat} {plan : KvObjectPlan}
    (h : makeObjectPlan i p maxValueBytes = .ok plan) :
    ∃ b, identityBytes i = .ok b ∧ Planned b p maxValueBytes plan := by
  obtain ⟨b, hb, h⟩ := bind_ok h
  split at h
  · cases h
  · rename_i hp
    split at h
    · cases h
    · rename_i hm
      obtain ⟨chunks, hchunks, h⟩ := bind_ok h
      obtain ⟨value, hvalue, h⟩ := bind_ok h
      split at h
      · cases h
      · rename_i hfits
        obtain ⟨key, hkey, rfl⟩ := map_ok h
        rw [deriveKey_ok (Nat.le_refl _)] at hkey
        cases hkey
        refine ⟨b, hb, (identityBytes_ok.1 hb).2, hp, hm, rfl, hvalue, ?_, Nat.le_of_not_lt hfits⟩
        have := planChunks_ok hchunks
        simpa only [Nat.zero_add] using this

theorem Planned.count {maxValueBytes : Nat} {plan : KvObjectPlan} (h : Planned b p maxValueBytes plan) :
    0 < (pieces maxValueBytes p).length ∧ (pieces maxValueBytes p).length < manifestChunkIndex := by
  obtain ⟨n, hpos, hlt, hn⟩ := (planned_valid h.manifestValue).chunks
  have : (pieces maxValueBytes p).length = n := Int.ofNat.inj (Option.some.inj hn)
  omega

end NvmeKv
end SpdkConnector
