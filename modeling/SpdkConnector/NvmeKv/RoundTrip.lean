import SpdkConnector.NvmeKv.FormatProofs

/-!
# Every accepted manifest reads back

What `_validate_manifest` accepts, `encode_manifest` writes and `decode_manifest` reads back, as long as Python
prints the length. It refuses integers of more than 4300 digits, and `encode_manifest` then raises `ValueError`
(`long_manifest`).
-/
namespace SpdkConnector
namespace NvmeKv

open Codec

variable {m m' : KvManifest} {v : Bytes}

/-! ## Checksums without surrogates -/

/-- A character that `int` does not know becomes `?`. -/
theorem asciiDigit_scalar {c : Nat} (h : asciiDigit c ≠ 63) : Scalar c := by
  have hscalar : c < 0xd800 ∨ (0xe000 ≤ c ∧ c < 0x110000) → Scalar c := by
    intro hc
    refine ⟨by omega, ?_⟩
    simp only [surrogate, Bool.and_eq_false_iff, decide_eq_false_iff_not]
    omega
  apply hscalar
  unfold asciiDigit at h
  split at h
  · omega
  · split at h
    · rename_i hspace
      have hall : ∀ z ∈ unicodeSpaces, z < 0xd800 := by decide
      exact .inl (hall c hspace)
    · split at h
      · rename_i z hz
        have hall : ∀ z ∈ decimalZeros, z + 10 ≤ 0xd800 ∨ (0xe000 ≤ z ∧ z + 10 ≤ 0x110000) := by decide
        have hzero := hall z (List.mem_of_find?_eq_some hz)
        have hin := List.find?_some hz
        simp only [Bool.and_eq_true, decide_eq_true_eq] at hin
        omega
      · exact absurd rfl h

theorem mem_of_dropWhile {p : Nat → Bool} {s : Str} {c : Nat} (hc : c ∈ s) : p c = true ∨ c ∈ s.dropWhile p := by
  rw [← List.takeWhile_append_dropWhile (p := p) (l := s)] at hc
  rcases List.mem_append.1 hc with hc | hc
  · exact .inl (List.mem_takeWhile_imp hc)
  · exact .inr hc

theorem mem_of_tail {s : Str} {c : Nat} (hc : c ∈ s) : s.head? = some c ∨ c ∈ s.tail := by
  cases s with
  | nil => cases hc
  | cons d s =>
    rcases List.mem_cons.1 hc with rfl | hc
    · exact .inl rfl
    · exact .inr hc

theorem isCSpace_known {c : Nat} (h : isCSpace c = true) : c ≠ 63 := by
  rintro rfl
  cases h

theorem isHexRun_known {c : Nat} (h : isHexRun c = true) : c ≠ 63 := by
  rintro rfl
  cases h

theorem hexDigitsOk_known {s : Str} (h : hexDigitsOk s = true) {c : Nat} (hc : c ∈ s) : c ≠ 63 := by
  have hrun : ∀ t : Str, (t.takeWhile isHexRun != [] && goodUnderscores true (t.takeWhile isHexRun) &&
      (t.dropWhile isHexRun).all isCSpace) = true → ∀ c ∈ t, c ≠ 63 := by
    intro t ht c hc
    rcases mem_of_dropWhile (p := isHexRun) hc with hc | hc
    · exact isHexRun_known hc
    · rw [Bool.and_eq_true] at ht
      exact isCSpace_known (List.all_eq_true.1 ht.2 c hc)
  unfold hexDigitsOk at h
  dsimp only at h
  split at h
  · rename_i hx
    obtain ⟨h0, hx⟩ := hx
    rcases mem_of_tail hc with hc | hc
    · rw [h0] at hc
      cases hc
      decide
    · rcases mem_of_tail hc with hc | hc
      · rw [hc] at hx
        rcases hx with hx | hx
        all_goals
          cases hx
          decide
      · split at h
        · rename_i hu
          rcases mem_of_tail hc with hc | hc
          · rw [hu] at hc
            cases hc
            decide
          · exact hrun _ h c hc
        · exact hrun _ h c hc
  · exact hrun s h c hc

/-- `int(text, 16)` accepts no surrogates. -/
theorem int16Ok_scalar {s : Str} (h : int16Ok s = true) : ∀ c ∈ s, Scalar c := by
  intro c hc
  apply asciiDigit_scalar
  have hmem : asciiDigit c ∈ s.map asciiDigit := List.mem_map_of_mem hc
  unfold int16Ok at h
  dsimp only at h
  rcases mem_of_dropWhile (p := isCSpace) hmem with hsp | hmem
  · exact isCSpace_known hsp
  · split at h
    · rename_i hsign
      rcases mem_of_tail hmem with hd | hmem
      · rw [hd] at hsign
        rcases hsign with hsign | hsign
        all_goals
          rw [Option.some.inj hsign]
          decide
      · exact hexDigitsOk_known h hmem
    · exact hexDigitsOk_known h hmem

theorem Valid.scalars (h : m.Valid) : ∀ s, m.payloadChecksum = .str s → ∀ c ∈ s, Scalar c := by
  obtain ⟨t, ht, -, hok⟩ := h.checksum
  intro s hs
  rw [hs] at ht
  cases ht
  exact int16Ok_scalar hok

/-! ## Numbers that print -/

/-- `str` of the value does not raise: an `int` has at most 4300 digits. -/
def Printable (x : Json) : Prop := ∀ n, x = .int n → n.natAbs < 10 ^ maxStrDigits

theorem dumpNat_length (n : Nat) : (dumpNat n).length ≤ maxStrDigits ↔ n < 10 ^ maxStrDigits := by
  unfold dumpNat
  rw [List.length_map]
  exact Nat.length_toDigits_le_iff (by decide) (by decide)

theorem dumpScalar_printable {x : Json} {n : Int} (h : int? x = some n) : (∃ s, dumpScalar x = some s) ↔ Printable x := by
  cases x with
  | int k =>
    have hprint : Printable (.int k) ↔ k.natAbs < 10 ^ maxStrDigits := by
      constructor
      · exact fun hk => hk k rfl
      · rintro hk _ ⟨⟩
        exact hk
    rw [hprint, ← dumpNat_length]
    simp only [dumpScalar, dumpInt]
    split
    · rename_i hlong
      exact ⟨by simp, fun hle => by omega⟩
    · rename_i hshort
      exact ⟨fun _ => Nat.le_of_not_lt hshort, fun _ => ⟨_, rfl⟩⟩
  | bool b =>
    refine ⟨fun _ => (by intro k hk; cases hk), fun _ => ?_⟩
    cases b <;> exact ⟨_, rfl⟩
  | null => cases h
  | float x => cases h
  | str s => cases h
  | list xs => cases h
  | dict d => cases h

theorem Valid.chunks_printable (h : m.Valid) : Printable m.chunkCount := by
  obtain ⟨n, -, hlt, hn⟩ := h.chunks
  intro k hk
  rw [hk] at hn
  obtain rfl := Option.some.inj hn
  have hbound : manifestChunkIndex ≤ 10 ^ 10 := by decide
  have hpow : 10 ^ 10 ≤ 10 ^ maxStrDigits := Nat.pow_le_pow_right (by decide) (by decide)
  exact Nat.lt_of_lt_of_le hlt (Nat.le_trans hbound hpow)

/-- A document of scalars that print is written. -/
theorem dumpMembers_total {entries : List (Str × Json)} (h : ∀ p ∈ entries, ∃ s, dumpScalar p.2 = some s) :
    ∃ s, dumpMembers entries = some s := by
  induction entries with
  | nil => exact ⟨_, rfl⟩
  | cons q entries ih =>
    obtain ⟨key, x⟩ := q
    obtain ⟨s, hs⟩ := h (key, x) List.mem_cons_self
    obtain ⟨r, hr⟩ := ih fun p hp => h p (List.mem_cons_of_mem _ hp)
    cases entries with
    | nil => exact ⟨_, by rw [dumpMembers, hs]; rfl⟩
    | cons q' entries => exact ⟨_, by rw [dumpMembers, hs, hr]; rfl; simp⟩

/-- `encode_manifest` returns for the accepted manifests whose length prints. -/
theorem encodeManifest_printable (hv : m.Valid) : (∃ v, encodeManifest m = .ok v) ↔ Printable m.logicalBytes := by
  obtain ⟨n, -, hn⟩ := hv.length
  obtain ⟨c, -, -, hc⟩ := hv.chunks
  obtain ⟨s, hs, -, -⟩ := hv.checksum
  unfold encodeManifest
  rw [validateManifest_ok.2 hv]
  simp only [Except.bind]
  constructor
  · rintro ⟨v, h⟩
    split at h
    · cases h
    · rename_i t ht
      obtain ⟨r, hr, -⟩ := Option.map_eq_some_iff.1 ht
      exact (dumpScalar_printable hn).1 (dumped_scalars hr (text "length", m.logicalBytes) (by simp [manifestDocument]))
  · intro hprint
    have hmembers : ∃ r, dumpMembers (manifestDocument m) = some r := by
      refine dumpMembers_total ?_
      intro p hp
      simp only [manifestDocument, List.mem_cons, List.not_mem_nil, or_false] at hp
      rcases hp with rfl | rfl | rfl | rfl | rfl
      · exact (dumpScalar_printable hc).2 (Valid.chunks_printable hv)
      · exact ⟨_, rfl⟩
      · exact (dumpScalar_printable hn).2 hprint
      · dsimp only
        cases hj : m.payloadChecksum with
        | str t => exact ⟨_, rfl⟩
        | null => rw [hj] at hs; cases hs
        | bool b => rw [hj] at hs; cases hs
        | int k => rw [hj] at hs; cases hs
        | float x => rw [hj] at hs; cases hs
        | list xs => rw [hj] at hs; cases hs
        | dict d => rw [hj] at hs; cases hs
      · exact ⟨_, rfl⟩
    obtain ⟨r, hr⟩ := hmembers
    have hdumps : dumps (manifestDocument m) = some (123 :: (r ++ [125])) := by rw [dumps, hr]; rfl
    rw [hdumps]
    dsimp only
    rw [utf8Encode_ascii (dumps_ascii hdumps)]
    exact ⟨_, rfl⟩

theorem decode_encoded (h : encodeManifest m = .ok v) (limit : Nat) : decodeManifest limit v = .ok m := by
  obtain ⟨u, hvalid, -⟩ := bind_ok h
  exact decode_encode h (Valid.scalars (validateManifest_ok.1 hvalid)) limit

/-- **Manifest round trip**: `encode_manifest` returns for exactly the accepted manifests whose length prints,
what it returns decodes to the manifest it was made from, and so no two manifests share a value. -/
theorem manifest_round_trip (limit : Nat) :
    (∀ m, validateManifest m = .ok () → Printable m.logicalBytes →
      (encodeManifest m).bind (decodeManifest limit) = .ok m) ∧
    (∀ m v, encodeManifest m = .ok v → validateManifest m = .ok () ∧ Printable m.logicalBytes) ∧
    ∀ m m' v, encodeManifest m = .ok v → encodeManifest m' = .ok v → m = m' := by
  refine ⟨?_, ?_, ?_⟩
  · intro m hvalid hprint
    obtain ⟨v, hv⟩ := (encodeManifest_printable (validateManifest_ok.1 hvalid)).2 hprint
    rw [hv]
    exact decode_encoded hv limit
  · intro m v hv
    obtain ⟨u, hvalid, -⟩ := bind_ok hv
    exact ⟨hvalid, (encodeManifest_printable (validateManifest_ok.1 hvalid)).1 ⟨v, hv⟩⟩
  · intro m m' v hv hv'
    have heq := (decode_encoded hv limit).symm.trans (decode_encoded hv' limit)
    exact Except.ok.inj heq

/-- A manifest of three bytes in one chunk. -/
def shortManifest : KvManifest := ⟨[120], .int 3, .int 1, .str (List.replicate 64 48)⟩

theorem manifest_round_trip_short : (encodeManifest shortManifest).bind (decodeManifest 900) = .ok shortManifest ∧
    ∃ v, encodeManifest shortManifest = .ok v ∧
      (validateManifest shortManifest = .ok () ∧ Printable shortManifest.logicalBytes) ∧
      ∀ m, encodeManifest m = .ok v → m = shortManifest := by
  obtain ⟨htrip, hdomain, hinj⟩ := manifest_round_trip 900
  have hprint : Printable shortManifest.logicalBytes := by
    intro n hn
    obtain rfl : (3 : Int) = n := Json.int.inj hn
    exact Nat.lt_of_lt_of_le (by decide : 3 < 10 ^ 1) (Nat.pow_le_pow_right (by decide) (by decide))
  have h := htrip shortManifest (by decide) hprint
  obtain ⟨v, hv, -⟩ := bind_ok h
  exact ⟨h, v, hv, hdomain _ v hv, fun m hm => hinj m _ v hm hv⟩

/-- An accepted manifest whose length has 4301 digits. -/
def longManifest : KvManifest := ⟨[120], .int ((10 ^ maxStrDigits : Nat) : Int), .int 1, .str (List.replicate 64 48)⟩

/-- It has no encoding: printing its length raises. -/
theorem long_manifest : validateManifest longManifest = .ok () ∧ encodeManifest longManifest = .error .value ∧
    (encodeManifest longManifest).bind (decodeManifest 900) ≠ .ok longManifest := by
  have hvalid : longManifest.Valid := by
    refine ⟨by decide, ⟨10 ^ maxStrDigits, Nat.pow_pos (by decide), rfl⟩, ⟨1, by decide, by decide, rfl⟩, _, rfl, by decide,
      by decide⟩
  have hlong : ¬ Printable longManifest.logicalBytes := by
    intro h
    have hlt := h _ rfl
    rw [Int.natAbs_natCast] at hlt
    exact Nat.lt_irrefl _ hlt
  have herror : encodeManifest longManifest = .error .value := by
    have hnone : ¬ ∃ v, encodeManifest longManifest = .ok v := fun h => hlong ((encodeManifest_printable hvalid).1 h)
    unfold encodeManifest at hnone ⊢
    rw [validateManifest_ok.2 hvalid] at hnone ⊢
    simp only [Except.bind] at hnone ⊢
    split
    · rfl
    · rename_i s hs
      rw [hs] at hnone
      dsimp only at hnone
      rw [utf8Encode_ascii (dumps_ascii hs)] at hnone
      exact absurd ⟨_, rfl⟩ hnone
  refine ⟨validateManifest_ok.2 hvalid, herror, ?_⟩
  rw [herror]
  nofun

end NvmeKv
end SpdkConnector
