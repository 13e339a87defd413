import SpdkConnector.Geometry
import Mathlib.Order.Bounds.Basic

/-!
# What `BuildStorageGeometry` derives

`exactStorageGeometry` is the derivation over unbounded integers. `buildStorageGeometry_exact` says that the
source computes it, so no product wraps; `StorageGeometry.Derived` says what an accepted geometry is,
`Derivable` which inputs are accepted.
-/

namespace SpdkConnector

/-- A product that is refused when it does not fit in 64 bits. -/
def exactMultiply (left right : Nat) (description : String) : Except Exn Nat :=
  if left * right < 2 ^ 64 then pure (left * right) else throw ⟨.overflowError, description⟩

/-- The derivation over unbounded integers. -/
def exactStorageGeometry (numBlocks blockSize writeUnitBlocks bufferAlignment ioSegmentSize
    bdevMaxRwSizeBlocks spdkBufferCount : Nat) : Except Exn StorageGeometry := do
  if numBlocks = 0 ∨ blockSize = 0 ∨ writeUnitBlocks = 0 then
    throw ⟨.invalidArgument, "bdev geometry contains a zero-sized dimension"⟩
  if !isPowerOfTwo bufferAlignment then
    throw ⟨.invalidArgument, "bdev buffer alignment must be a power of two"⟩
  if spdkBufferCount = 0 then
    throw ⟨.invalidArgument, "spdk_buffer_count must be greater than zero"⟩
  let capacityBytes ← exactMultiply numBlocks blockSize "bdev byte capacity overflows uint64_t"
  let pageSize ← exactMultiply blockSize writeUnitBlocks "bdev write unit overflows uint64_t"
  let bdevMaxRwSizeBytes ←
    exactMultiply bdevMaxRwSizeBlocks blockSize "bdev maximum I/O size overflows uint64_t"
  let effectiveIoSegmentSize :=
    if bdevMaxRwSizeBytes = 0 then ioSegmentSize
    else min ioSegmentSize (bdevMaxRwSizeBytes / pageSize * pageSize)
  if effectiveIoSegmentSize < pageSize ∨ effectiveIoSegmentSize % pageSize ≠ 0 ∨
      effectiveIoSegmentSize > u64Max then
    throw ⟨.invalidArgument,
      "effective SPDK I/O segment size must be a storage-page-aligned bdev command size"⟩
  let pageCount := capacityBytes / pageSize
  if pageCount = 0 then
    throw ⟨.invalidArgument, "bdev has no complete storage pages"⟩
  let usableCapacityBytes ← exactMultiply pageCount pageSize "usable bdev capacity overflows uint64_t"
  return { capacityBytes, usableCapacityBytes, pageSize, pageCount,
           ioSegmentSize := effectiveIoSegmentSize, bdevMaxRwSizeBytes, blockSize,
           writeUnitBlocks, bufferAlignment, spdkBufferCount }

/-- The division before the product keeps it in range. -/
theorem checkedMultiply_exact (left right : Nat) (d : String) :
    checkedMultiply left right d = exactMultiply left right d := by
  unfold checkedMultiply exactMultiply
  rcases Nat.eq_zero_or_pos left with rfl | hpos
  · simp [mul64]
  · by_cases hlt : left * right < 2 ^ 64
    · have hle : right ≤ u64Max / left := by
        rw [Nat.le_div_iff_mul_le hpos, Nat.mul_comm]
        unfold u64Max
        omega
      rw [if_neg (fun h => absurd h.2 (by omega)), if_pos hlt, mul64_exact hlt]
    · have hgt : right > u64Max / left := by
        apply Nat.lt_of_not_le
        intro hle
        have := (Nat.le_div_iff_mul_le hpos).1 hle
        rw [Nat.mul_comm] at this
        unfold u64Max at this
        omega
      rw [if_pos ⟨hpos.ne', hgt⟩, if_neg hlt]

theorem exactMultiply_lt {left right : Nat} {d : String} {v : Nat} (h : exactMultiply left right d = .ok v) :
    v < 2 ^ 64 := by
  unfold exactMultiply at h
  split at h
  · rename_i hlt
    cases h
    exact hlt
  · cases h

/-- Rounding down to whole pages does not wrap. -/
theorem mul64_div {q : Nat} (h : q < 2 ^ 64) (p : Nat) : mul64 (q / p) p = q / p * p :=
  mul64_exact (Nat.lt_of_le_of_lt (Nat.div_mul_le_self q p) h)

theorem buildStorageGeometry_exact (nb bs wu ba seg mx bc : Nat) :
    buildStorageGeometry nb bs wu ba seg mx bc = exactStorageGeometry nb bs wu ba seg mx bc := by
  unfold buildStorageGeometry exactStorageGeometry
  simp only [bdevMaxRwSizeBytesOf_eq, checkedMultiply_exact]
  cases hmax : exactMultiply mx bs "bdev maximum I/O size overflows uint64_t" with
  | error e => rfl
  | ok mxBytes => simp only [bind, Except.bind, mul64_div (exactMultiply_lt hmax)]

/-- The command sizes a bdev takes: whole pages, within its transfer ceiling if it has one. -/
def segmentSizes (blockSize writeUnitBlocks bdevMaxRwSizeBlocks : Nat) : Set Nat :=
  { n | 0 < n ∧ blockSize * writeUnitBlocks ∣ n ∧ (bdevMaxRwSizeBlocks ≠ 0 → n ≤ bdevMaxRwSizeBlocks * blockSize) }

/-- An accepted geometry, from the arguments it was derived from. -/
structure StorageGeometry.Derived (g : StorageGeometry)
    (numBlocks blockSize writeUnitBlocks ioSegmentSize bdevMaxRwSizeBlocks : Nat) : Prop where
  pageSize : g.pageSize = blockSize * writeUnitBlocks
  capacity : g.capacityBytes = numBlocks * blockSize
  pageCount : IsGreatest { n | n * g.pageSize ≤ numBlocks * blockSize } g.pageCount
  pageCount_pos : 1 ≤ g.pageCount
  usable : g.usableCapacityBytes = g.pageCount * g.pageSize
  usable_le : g.usableCapacityBytes ≤ g.capacityBytes
  capacity_lt : g.capacityBytes < g.usableCapacityBytes + g.pageSize
  segment : IsGreatest { n ∈ segmentSizes blockSize writeUnitBlocks bdevMaxRwSizeBlocks | n ≤ ioSegmentSize }
    g.ioSegmentSize
  page_le_segment : g.pageSize ≤ g.ioSegmentSize

/-- The arguments from which a geometry can be derived. -/
structure Derivable (numBlocks blockSize writeUnitBlocks bufferAlignment ioSegmentSize
    bdevMaxRwSizeBlocks spdkBufferCount : Nat) : Prop where
  dimensions : numBlocks ≠ 0 ∧ blockSize ≠ 0 ∧ writeUnitBlocks ≠ 0
  alignment : ∃ k, bufferAlignment = 2 ^ k
  buffers : spdkBufferCount ≠ 0
  capacity_fits : numBlocks * blockSize < 2 ^ 64
  capacity_page : blockSize * writeUnitBlocks ≤ numBlocks * blockSize
  segment : ioSegmentSize ∈ segmentSizes blockSize writeUnitBlocks bdevMaxRwSizeBlocks ∨
    ∃ n, IsGreatest (segmentSizes blockSize writeUnitBlocks bdevMaxRwSizeBlocks) n ∧ n ≤ ioSegmentSize

/-- `value & (value - 1)` clears the lowest bit. -/
theorem isPowerOfTwo_iff (v : Nat) : isPowerOfTwo v = true ↔ ∃ k, v = 2 ^ k := by
  rw [← Nat.isPowerOfTwo, ← Nat.ne_zero_and_sub_one_eq_zero_iff_isPowerOfTwo]
  unfold isPowerOfTwo
  simp only [Bool.and_eq_true, bne_iff_ne, ne_eq, beq_iff_eq]
  rfl

/-- The largest multiple of `p` up to `q`. -/
theorem le_floor {n p q : Nat} (hp : 0 < p) (hd : p ∣ n) (h : n ≤ q) : n ≤ q / p * p := by
  obtain ⟨k, rfl⟩ := hd
  have hk : k ≤ q / p := by
    rw [Nat.le_div_iff_mul_le hp, Nat.mul_comm]
    exact h
  calc p * k = k * p := Nat.mul_comm p k
    _ ≤ q / p * p := Nat.mul_le_mul_right p hk

variable {nb bs wu ba seg mx bc : Nat}

/-- The size before the check of :60-65. -/
def effectiveSegment (bs wu seg mx : Nat) : Nat :=
  if mx * bs = 0 then seg else min seg (mx * bs / (bs * wu) * (bs * wu))

theorem effectiveSegment_greatest (hbs : bs ≠ 0) (hwu : wu ≠ 0) (hle : bs * wu ≤ effectiveSegment bs wu seg mx)
    (hmod : effectiveSegment bs wu seg mx % (bs * wu) = 0) :
    IsGreatest { n ∈ segmentSizes bs wu mx | n ≤ seg } (effectiveSegment bs wu seg mx) := by
  have hpage : 0 < bs * wu := Nat.mul_pos (Nat.pos_of_ne_zero hbs) (Nat.pos_of_ne_zero hwu)
  have hlimit : mx ≠ 0 → effectiveSegment bs wu seg mx ≤ mx * bs := by
    intro hmx
    unfold effectiveSegment
    rw [if_neg (Nat.mul_ne_zero hmx hbs)]
    exact Nat.le_trans (Nat.min_le_right _ _) (Nat.div_mul_le_self _ _)
  have hseg : effectiveSegment bs wu seg mx ≤ seg := by
    unfold effectiveSegment
    split
    · exact Nat.le_refl _
    · exact Nat.min_le_left _ _
  refine ⟨⟨⟨by omega, Nat.dvd_of_mod_eq_zero hmod, hlimit⟩, hseg⟩, ?_⟩
  rintro n ⟨⟨-, hd, hmax⟩, hn⟩
  unfold effectiveSegment
  split
  · exact hn
  · rename_i hne
    exact Nat.le_min.2 ⟨hn, le_floor hpage hd (hmax fun h0 => hne (by rw [h0, Nat.zero_mul]))⟩

theorem buildStorageGeometry_derived {g : StorageGeometry}
    (h : buildStorageGeometry nb bs wu ba seg mx bc = .ok g) : g.Derived nb bs wu seg mx := by
  obtain ⟨⟨-, hbs, hwu⟩, -, -, -, -, hmax, ⟨hle, hmod, -⟩, hcount, rfl⟩ := buildStorageGeometry_ok h
  have hpage : 0 < bs * wu := Nat.mul_pos (Nat.pos_of_ne_zero hbs) (Nat.pos_of_ne_zero hwu)
  dsimp only at hle hmod
  rw [mul64_div hmax, ← effectiveSegment] at hle hmod
  exact
    { pageSize := rfl
      capacity := rfl
      pageCount := ⟨Nat.div_mul_le_self _ _, fun n hn => (Nat.le_div_iff_mul_le hpage).2 hn⟩
      pageCount_pos := Nat.pos_of_ne_zero hcount
      usable := rfl
      usable_le := Nat.div_mul_le_self _ _
      capacity_lt := Nat.lt_div_mul_add hpage
      segment := by
        rw [mul64_div hmax, ← effectiveSegment]
        exact effectiveSegment_greatest hbs hwu hle hmod
      page_le_segment := by
        rw [mul64_div hmax, ← effectiveSegment]
        exact hle }

/-- The effective size passes its check exactly when the bdev takes it or caps it at a page or more. -/
theorem effectiveSegment_accepted (hbs : bs ≠ 0) (hwu : wu ≠ 0) :
    (bs * wu ≤ effectiveSegment bs wu seg mx ∧ effectiveSegment bs wu seg mx % (bs * wu) = 0) ↔
    (seg ∈ segmentSizes bs wu mx ∨ ∃ n, IsGreatest (segmentSizes bs wu mx) n ∧ n ≤ seg) := by
  have hpage : 0 < bs * wu := Nat.mul_pos (Nat.pos_of_ne_zero hbs) (Nat.pos_of_ne_zero hwu)
  constructor
  · rintro ⟨hle, hmod⟩
    obtain ⟨⟨hmem, hseg⟩, hup⟩ := effectiveSegment_greatest hbs hwu hle hmod
    rcases Nat.lt_or_eq_of_le hseg with hlt | heq
    · right
      refine ⟨_, ⟨hmem, ?_⟩, hseg⟩
      -- the request was capped, so the cap is the effective size
      have hcap : mx * bs ≠ 0 ∧ effectiveSegment bs wu seg mx = mx * bs / (bs * wu) * (bs * wu) := by
        unfold effectiveSegment at hlt ⊢
        split at hlt
        · omega
        · rename_i hne
          rw [if_neg hne]
          exact ⟨hne, Nat.min_eq_right (by omega)⟩
      rintro n ⟨-, hd, hmax⟩
      rw [hcap.2]
      exact le_floor hpage hd (hmax fun h0 => hcap.1 (by rw [h0, Nat.zero_mul]))
    · left
      rwa [heq] at hmem
  · rintro (⟨hpos, hd, hmax⟩ | ⟨n, ⟨⟨hpos, hd, hmax⟩, hup⟩, hn⟩)
    · have heff : effectiveSegment bs wu seg mx = seg := by
        unfold effectiveSegment
        split
        · rfl
        · rename_i hne
          exact Nat.min_eq_left (le_floor hpage hd (hmax fun h0 => hne (by rw [h0, Nat.zero_mul])))
      rw [heff]
      exact ⟨Nat.le_of_dvd hpos hd, Nat.mod_eq_zero_of_dvd hd⟩
    · -- without a ceiling there is no largest size
      have hmx : mx ≠ 0 := by
        intro h0
        have hmem : n + bs * wu ∈ segmentSizes bs wu mx :=
          ⟨by omega, Nat.dvd_add hd (Nat.dvd_refl _), fun hne => absurd h0 hne⟩
        have := hup hmem
        omega
      have hne : mx * bs ≠ 0 := Nat.mul_ne_zero hmx hbs
      have hfloor : n ≤ mx * bs / (bs * wu) * (bs * wu) := le_floor hpage hd (hmax hmx)
      have hpage_le : bs * wu ≤ n := Nat.le_of_dvd hpos hd
      have hmem : mx * bs / (bs * wu) * (bs * wu) ∈ segmentSizes bs wu mx :=
        ⟨by omega, Nat.dvd_mul_left _ _, fun _ => Nat.div_mul_le_self _ _⟩
      have hfloor_le := hup hmem
      have heff : effectiveSegment bs wu seg mx = mx * bs / (bs * wu) * (bs * wu) := by
        unfold effectiveSegment
        rw [if_neg hne]
        exact Nat.min_eq_right (by omega)
      rw [heff]
      exact ⟨by omega, Nat.mul_mod_left _ _⟩

theorem exactMultiply_ok {left right : Nat} (d : String) (h : left * right < 2 ^ 64) :
    exactMultiply left right d = .ok (left * right) := if_pos h

/-- The checks of the source, taken together. -/
theorem buildStorageGeometry_accepts (hpage : bs * wu < 2 ^ 64) (hmax : mx * bs < 2 ^ 64) (hseg : seg < 2 ^ 64) :
    (∃ g, buildStorageGeometry nb bs wu ba seg mx bc = .ok g) ↔ Derivable nb bs wu ba seg mx bc := by
  constructor
  · rintro ⟨g, h⟩
    obtain ⟨hdim, hpow, hbuf, hcap, -, -, ⟨hle, hmod, -⟩, hcount, rfl⟩ := buildStorageGeometry_ok h
    dsimp only at hle hmod
    rw [mul64_div hmax, ← effectiveSegment] at hle hmod
    have hpos : 0 < bs * wu := Nat.mul_pos (Nat.pos_of_ne_zero hdim.2.1) (Nat.pos_of_ne_zero hdim.2.2)
    exact
      { dimensions := hdim
        alignment := (isPowerOfTwo_iff ba).1 hpow
        buffers := hbuf
        capacity_fits := hcap
        capacity_page := (Nat.div_pos_iff.1 (Nat.pos_of_ne_zero hcount)).2
        segment := (effectiveSegment_accepted hdim.2.1 hdim.2.2).1 ⟨hle, hmod⟩ }
  · intro h
    obtain ⟨hnb, hbs, hwu⟩ := h.dimensions
    have hpos : 0 < bs * wu := Nat.mul_pos (Nat.pos_of_ne_zero hbs) (Nat.pos_of_ne_zero hwu)
    obtain ⟨hle, hmod⟩ := (effectiveSegment_accepted hbs hwu).2 h.segment
    have hsize : effectiveSegment bs wu seg mx ≤ seg := by
      unfold effectiveSegment
      split
      · exact Nat.le_refl _
      · exact Nat.min_le_left _ _
    have hcount : nb * bs / (bs * wu) ≠ 0 := (Nat.div_pos h.capacity_page hpos).ne'
    have husable : nb * bs / (bs * wu) * (bs * wu) < 2 ^ 64 :=
      Nat.lt_of_le_of_lt (Nat.div_mul_le_self _ _) h.capacity_fits
    have hdims : ¬ (nb = 0 ∨ bs = 0 ∨ wu = 0) := by
      rintro (h0 | h0 | h0) <;> contradiction
    have hcheck : ¬ (effectiveSegment bs wu seg mx < bs * wu ∨
        effectiveSegment bs wu seg mx % (bs * wu) ≠ 0 ∨ effectiveSegment bs wu seg mx > u64Max) := by
      rintro (h1 | h1 | h1)
      · omega
      · exact h1 hmod
      · unfold u64Max at h1
        omega
    rw [buildStorageGeometry_exact]
    unfold exactStorageGeometry
    simp only [bind, Except.bind, pure, Except.pure, if_neg hdims, (isPowerOfTwo_iff ba).2 h.alignment,
      Bool.not_true, Bool.false_eq_true, if_false, if_neg h.buffers, exactMultiply_ok _ h.capacity_fits,
      exactMultiply_ok _ hpage, exactMultiply_ok _ hmax, ← effectiveSegment.eq_def, if_neg hcheck, if_neg hcount,
      exactMultiply_ok _ husable]
    exact ⟨_, rfl⟩

/-- **Geometry derivation**: for every value of the arguments' types the source computes what unbounded
integers give; what it returns is `Derived`; and it returns exactly on `Derivable` arguments. -/
theorem geometry_derivation (numBlocks ioSegmentSize bufferAlignment spdkBufferCount : UInt64)
    (blockSize writeUnitBlocks bdevMaxRwSizeBlocks : UInt32) :
    buildStorageGeometry numBlocks.toNat blockSize.toNat writeUnitBlocks.toNat bufferAlignment.toNat
      ioSegmentSize.toNat bdevMaxRwSizeBlocks.toNat spdkBufferCount.toNat =
    exactStorageGeometry numBlocks.toNat blockSize.toNat writeUnitBlocks.toNat bufferAlignment.toNat
      ioSegmentSize.toNat bdevMaxRwSizeBlocks.toNat spdkBufferCount.toNat ∧
    (∀ g, buildStorageGeometry numBlocks.toNat blockSize.toNat writeUnitBlocks.toNat bufferAlignment.toNat
        ioSegmentSize.toNat bdevMaxRwSizeBlocks.toNat spdkBufferCount.toNat = .ok g →
      g.Derived numBlocks.toNat blockSize.toNat writeUnitBlocks.toNat ioSegmentSize.toNat
        bdevMaxRwSizeBlocks.toNat) ∧
    ((∃ g, buildStorageGeometry numBlocks.toNat blockSize.toNat writeUnitBlocks.toNat bufferAlignment.toNat
        ioSegmentSize.toNat bdevMaxRwSizeBlocks.toNat spdkBufferCount.toNat = .ok g) ↔
      Derivable numBlocks.toNat blockSize.toNat writeUnitBlocks.toNat bufferAlignment.toNat ioSegmentSize.toNat
        bdevMaxRwSizeBlocks.toNat spdkBufferCount.toNat) := by
  have hproduct : ∀ a b : UInt32, a.toNat * b.toNat < 2 ^ 64 := by
    intro a b
    calc a.toNat * b.toNat < 2 ^ 32 * 2 ^ 32 :=
          Nat.mul_lt_mul_of_le_of_lt (Nat.le_of_lt a.toNat_lt) b.toNat_lt (by decide)
      _ = 2 ^ 64 := by decide
  refine ⟨buildStorageGeometry_exact .., fun g h => buildStorageGeometry_derived h, ?_⟩
  exact buildStorageGeometry_accepts (hproduct _ _) (hproduct _ _) ioSegmentSize.toNat_lt

end SpdkConnector
