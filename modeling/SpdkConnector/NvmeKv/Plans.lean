import SpdkConnector.NvmeKv.LoadIntegrity

/-!
# A plan reads back

What `make_object_plan` cuts and encodes, `decode_manifest` and `validate_payload` put together again, for
every object it plans; and it refuses an object only for its number of chunks or the size of its manifest.
-/
namespace SpdkConnector
namespace NvmeKv

open Codec

variable {i : Identity} {b p : Bytes} {m : Nat} {plan : KvObjectPlan}

/-! ## Pieces -/

/-- `len(range(0, len(payload), max_value_bytes))`. -/
def chunkTotal (payload : Bytes) (maxValueBytes : Nat) : Nat := (payload.length + maxValueBytes - 1) / maxValueBytes

theorem pieces_length (m : Nat) (p : Bytes) : (pieces m p).length = chunkTotal p m := by
  simp [pieces, chunkTotal]

/-- Every chunk has bytes, and at most as many as a value may. -/
theorem piece_size (hm : 0 < m) {x : Bytes} (hx : x ∈ pieces m p) : x ≠ [] ∧ x.length ≤ m := by
  obtain ⟨k, hk, rfl⟩ := List.mem_map.1 hx
  have hk := List.mem_range.1 hk
  refine ⟨?_, by simp⟩
  have hstart : k * m < p.length := by
    have hle : (k + 1) * m ≤ p.length + m - 1 := (Nat.le_div_iff_mul_le hm).1 hk
    rw [Nat.succ_mul] at hle
    omega
  intro hnil
  have hlen := congrArg List.length hnil
  rw [List.length_take, List.length_drop, List.length_nil] at hlen
  omega

theorem chunkTotal_pos (hm : 0 < m) (hp : p ≠ []) : 0 < chunkTotal p m := by
  have hlen := List.length_pos_of_ne_nil hp
  exact Nat.div_pos (by omega) hm

/-! ## What a plan holds -/

/-- The records of a plan fit the device, lie under the object's keys and read back as the object. -/
structure ReadsBack (i : Identity) (b p : Bytes) (m : Nat) (plan : KvObjectPlan) : Prop where
  manifestFits : plan.manifestValue ≠ [] ∧ plan.manifestValue.length ≤ m
  chunksFit : ∀ c ∈ plan.chunks, c.value ≠ [] ∧ c.value.length ≤ m
  keyBytes : plan.manifestKey.length = KV_KEY_BYTES ∧ ∀ c ∈ plan.chunks, c.key.length = KV_KEY_BYTES
  manifestKey : NvmeKv.manifestKey i = .ok plan.manifestKey
  chunkKeys : ∀ k c, plan.chunks[k]? = some c → chunkKey i k = .ok c.key ∧ k ≠ manifestChunkIndex
  decodes : ∀ limit, decodeManifest limit plan.manifestValue =
    .ok ⟨b, .int p.length, .int plan.chunks.length, .str (checksum p)⟩
  validates : validatePayload ⟨b, .int p.length, .int plan.chunks.length, .str (checksum p)⟩
    (plan.chunks.map KvChunk.value) = .ok p

theorem recordKey_length (b : Bytes) (index : Nat) : (recordKey b index).length = KV_KEY_BYTES := by
  rw [recordKey, List.length_take, sha256_length]
  rfl

theorem Planned.chunk {k : Nat} {c : KvChunk} (h : Planned b p m plan) (hc : plan.chunks[k]? = some c) :
    c.key = recordKey b k ∧ (pieces m p)[k]? = some c.value := by
  rw [h.chunks, List.getElem?_mapIdx, Option.map_eq_some_iff] at hc
  obtain ⟨x, hx, rfl⟩ := hc
  exact ⟨rfl, hx⟩

theorem Planned.values (h : Planned b p m plan) : plan.chunks.map KvChunk.value = pieces m p := by
  rw [h.chunks]
  apply List.ext_getElem?
  intro k
  rw [List.getElem?_map, List.getElem?_mapIdx, Option.map_map]
  exact congrFun Option.map_id _

theorem Planned.manifest (h : Planned b p m plan) : plannedManifest b p m =
    ⟨b, .int p.length, .int plan.chunks.length, .str (checksum p)⟩ := by
  rw [plannedManifest, h.chunks, List.length_mapIdx]

theorem Planned.readsBack (h : Planned b p m plan) (hi : identityBytes i = .ok b) : ReadsBack i b p m plan := by
  have hpos : 0 < m := Nat.pos_of_ne_zero h.positive
  have hindex : ∀ k c, plan.chunks[k]? = some c → k < manifestChunkIndex := by
    intro k c hc
    obtain ⟨hlt, -⟩ := List.getElem?_eq_some_iff.1 (h.chunk hc).2
    exact Nat.lt_trans hlt h.count.2
  have hdecode : ∀ limit, decodeManifest limit plan.manifestValue = .ok (plannedManifest b p m) :=
    planned_roundtrip h.manifestValue
  refine ⟨⟨?_, h.fits⟩, ?_, ⟨?_, ?_⟩, ?_, ?_, ?_, ?_⟩
  · intro hnil
    have hempty : decodeManifest 0 [] = .error malformed := rfl
    have := hdecode 0
    rw [hnil, hempty] at this
    cases this
  · intro c hc
    refine piece_size hpos (p := p) ?_
    rw [← h.values]
    exact List.mem_map_of_mem hc
  · rw [h.manifestKey]
    exact recordKey_length _ _
  · intro c hc
    obtain ⟨k, hk⟩ := List.mem_iff_getElem?.1 hc
    rw [(h.chunk hk).1]
    exact recordKey_length _ _
  · rw [manifestKey_ok hi, h.manifestKey]
  · intro k c hc
    have hlt := hindex k c hc
    rw [chunkKey_ok hi (Nat.le_of_lt hlt), (h.chunk hc).1]
    exact ⟨rfl, Nat.ne_of_lt hlt⟩
  · intro limit
    rw [hdecode, h.manifest]
  · rw [← h.manifest]
    refine (validatePayload_ok (planned_valid h.manifestValue)).2 ⟨?_, ?_, rfl, rfl⟩
    · rw [h.values]
      exact (Valid.count (planned_valid h.manifestValue)).1 |> Option.some.inj |> Int.ofNat.inj
    · rw [h.values]
      exact (pieces_flatten h.positive p).symm

/-! ## When there is no plan -/

/-- `sys.maxsize`, the length of the longest `bytes` object. -/
def maxSize : Nat := 2 ^ 63 - 1

theorem dumpInt_total {n : Nat} (h : n ≤ maxSize) : ∃ s, dumpInt (n : Int) = some s := by
  have hdigits : (dumpNat n).length ≤ 19 := by
    rw [dumpNat, List.length_map, Nat.length_toDigits_le_iff (by decide) (by decide)]
    exact Nat.lt_of_le_of_lt h (by decide)
  have hshort : ¬ maxStrDigits < (dumpNat (n : Int).natAbs).length := by
    rw [Int.natAbs_natCast, maxStrDigits]
    omega
  exact ⟨_, if_neg hshort⟩

theorem planChunks_total {values : List Bytes} {index : Nat} (h : index + values.length ≤ manifestChunkIndex + 1) :
    ∃ chunks, planChunks b index values = .ok chunks := by
  induction values generalizing index with
  | nil => exact ⟨[], rfl⟩
  | cons x values ih =>
    rw [List.length_cons] at h
    have hnext : index + 1 + values.length ≤ manifestChunkIndex + 1 := by omega
    obtain ⟨chunks, hchunks⟩ := ih hnext
    refine ⟨⟨recordKey b index, x⟩ :: chunks, ?_⟩
    rw [planChunks, deriveKey_ok (by omega)]
    show (planChunks b (index + 1) values).map _ = _
    rw [hchunks]
    rfl

/-- A manifest whose numbers can be printed is encoded. -/
theorem encodeManifest_total (hb : b ≠ []) (hp : p ≠ []) (hsize : p.length ≤ maxSize)
    (hpos : 0 < (pieces m p).length) (hlt : (pieces m p).length < manifestChunkIndex) :
    ∃ v, encodeManifest (plannedManifest b p m) = .ok v := by
  have hvalid : (plannedManifest b p m).Valid :=
    ⟨hb, ⟨p.length, List.length_pos_of_ne_nil hp, rfl⟩, ⟨(pieces m p).length, hpos, hlt, rfl⟩,
      ⟨checksum p, rfl, checksum_length p, checksum_accepted p⟩⟩
  obtain ⟨chunks, hchunks⟩ := dumpInt_total (n := (pieces m p).length)
    (Nat.le_of_lt (Nat.lt_trans hlt (by decide)))
  obtain ⟨length, hlength⟩ := dumpInt_total hsize
  obtain ⟨version, hversion⟩ : ∃ s, dumpInt formatVersion = some s := dumpInt_total (n := 1) (by decide)
  obtain ⟨s, hs⟩ : ∃ s, dumps (manifestDocument (plannedManifest b p m)) = some s := by
    simp [dumps, manifestDocument, plannedManifest, dumpMembers, dumpScalar, hchunks, hlength, hversion]
  unfold encodeManifest
  rw [validateManifest_ok.2 hvalid, hs]
  simp only [Except.bind]
  rw [utf8Encode_ascii (dumps_ascii hs)]
  exact ⟨_, rfl⟩

/-- **A plan reads back**, for every object, whatever the size of the values; and an object has no plan only
for its number of chunks or the length of its manifest. -/
theorem plan_reads_back (henc : i.encode = .ok b) (hb : b ≠ []) (hp : p ≠ []) (hm : 1 ≤ m) :
    (∀ plan, makeObjectPlan i p m = .ok plan → ReadsBack i b p m plan) ∧
    ∀ e, makeObjectPlan i p m = .error e → p.length ≤ maxSize →
      manifestChunkIndex ≤ chunkTotal p m ∨
      ∃ v, encodeManifest ⟨b, .int p.length, .int (chunkTotal p m), .str (checksum p)⟩ = .ok v ∧ m < v.length := by
  have hi : identityBytes i = .ok b := identityBytes_ok.2 ⟨henc, hb⟩
  constructor
  · intro plan hplan
    obtain ⟨b', hb', hplanned⟩ := makeObjectPlan_ok hplan
    rw [hi] at hb'
    cases hb'
    exact hplanned.readsBack hi
  · intro e he hsize
    by_cases hcount : chunkTotal p m < manifestChunkIndex
    · right
      have hpos := chunkTotal_pos hm hp
      rw [← pieces_length] at hcount hpos
      have hroom : 0 + (pieces m p).length ≤ manifestChunkIndex + 1 := by omega
      obtain ⟨chunks, hchunks⟩ := planChunks_total (b := b) hroom
      obtain ⟨v, hv⟩ := encodeManifest_total hb hp hsize hpos hcount
      refine ⟨v, by rw [← pieces_length]; exact hv, ?_⟩
      by_contra hfits
      unfold makeObjectPlan at he
      rw [hi] at he
      simp only [Except.bind, if_neg hp, if_neg (Nat.ne_of_gt hm), hchunks, hv, if_neg hfits,
        deriveKey_ok (Nat.le_refl _)] at he
      cases he
    · exact .inl (Nat.le_of_not_lt hcount)

/-- The last of the chunks is shorter than the others. -/
theorem plan_reads_back_two : ∃ plan, makeObjectPlan (.str (text "x")) (List.replicate 250 7) 200 = .ok plan ∧
    plan.chunks.length = 2 ∧ ReadsBack (.str (text "x")) [120] (List.replicate 250 7) 200 plan := by
  have hplan : ((makeObjectPlan (.str (text "x")) (List.replicate 250 7) 200).map fun plan => plan.chunks.length) =
      .ok 2 := by decide +kernel
  obtain ⟨plan, hplan, hlen⟩ := map_ok hplan
  exact ⟨plan, hplan, hlen, (plan_reads_back rfl (by decide) (by decide) (by decide)).1 plan hplan⟩

end NvmeKv
end SpdkConnector
