import SpdkConnector.Word

/-!
# Storage geometry: `BuildStorageGeometry` (storage_geometry.cpp:29-86)

One storage page is one bdev write unit. The capacity is truncated to whole pages and the requested
segment size is capped by the bdev's transfer ceiling, itself rounded down to whole pages.

`Valid` is what the rest of the development uses of an accepted geometry, and
`buildStorageGeometry_valid` derives it from the source's checks.
-/

namespace SpdkConnector

/-- `StorageGeometry` (spdk/storage_geometry.h:11), the fields `BuildStorageGeometry` fills in. -/
structure StorageGeometry where
  capacityBytes : Nat
  usableCapacityBytes : Nat
  pageSize : Nat
  pageCount : Nat
  ioSegmentSize : Nat
  bdevMaxRwSizeBytes : Nat
  blockSize : Nat
  writeUnitBlocks : Nat
  bufferAlignment : Nat
  spdkBufferCount : Nat
deriving DecidableEq, Repr

/-- `CheckedMultiply` (storage_geometry.cpp:14). -/
def checkedMultiply (left right : Nat) (description : String) : Except Exn Nat :=
  if left ≠ 0 ∧ right > u64Max / left then throw ⟨.overflowError, description⟩
  else pure (mul64 left right)

/-- `IsPowerOfTwo` (storage_geometry.cpp:23). -/
def isPowerOfTwo (value : Nat) : Bool := value != 0 && Nat.land value (value - 1) == 0

/-- The transfer ceiling in bytes, 0 for "no ceiling" (storage_geometry.cpp:55-58). -/
def bdevMaxRwSizeBytesOf (bdevMaxRwSizeBlocks blockSize : Nat) : Except Exn Nat :=
  if bdevMaxRwSizeBlocks = 0 then pure 0
  else checkedMultiply bdevMaxRwSizeBlocks blockSize "bdev maximum I/O size overflows uint64_t"

/-- `BuildStorageGeometry` (storage_geometry.cpp:29). -/
def buildStorageGeometry (numBlocks blockSize writeUnitBlocks bufferAlignment ioSegmentSize
    bdevMaxRwSizeBlocks spdkBufferCount : Nat) : Except Exn StorageGeometry := do
  if numBlocks = 0 ∨ blockSize = 0 ∨ writeUnitBlocks = 0 then
    throw ⟨.invalidArgument, "bdev geometry contains a zero-sized dimension"⟩
  if !isPowerOfTwo bufferAlignment then
    throw ⟨.invalidArgument, "bdev buffer alignment must be a power of two"⟩
  if spdkBufferCount = 0 then
    throw ⟨.invalidArgument, "spdk_buffer_count must be greater than zero"⟩
  let capacityBytes ← checkedMultiply numBlocks blockSize "bdev byte capacity overflows uint64_t"
  let pageSize ← checkedMultiply blockSize writeUnitBlocks "bdev write unit overflows uint64_t"
  let bdevMaxRwSizeBytes ← bdevMaxRwSizeBytesOf bdevMaxRwSizeBlocks blockSize
  let bdevMaxPageAlignedBytes := mul64 (bdevMaxRwSizeBytes / pageSize) pageSize
  let effectiveIoSegmentSize :=
    if bdevMaxRwSizeBytes = 0 then ioSegmentSize else min ioSegmentSize bdevMaxPageAlignedBytes
  if effectiveIoSegmentSize < pageSize ∨ effectiveIoSegmentSize % pageSize ≠ 0 ∨
      effectiveIoSegmentSize > u64Max then
    throw ⟨.invalidArgument,
      "effective SPDK I/O segment size must be a storage-page-aligned bdev command size"⟩
  let pageCount := capacityBytes / pageSize
  if pageCount = 0 then
    throw ⟨.invalidArgument, "bdev has no complete storage pages"⟩
  let usableCapacityBytes ←
    checkedMultiply pageCount pageSize "usable bdev capacity overflows uint64_t"
  return { capacityBytes, usableCapacityBytes, pageSize, pageCount,
           ioSegmentSize := effectiveIoSegmentSize, bdevMaxRwSizeBytes, blockSize,
           writeUnitBlocks, bufferAlignment, spdkBufferCount }

theorem checkedMultiply_ok {left right : Nat} {d : String} {v : Nat}
    (h : checkedMultiply left right d = .ok v) : v = left * right ∧ left * right < 2 ^ 64 := by
  unfold checkedMultiply at h
  split at h
  · cases h
  · rename_i hno
    have hlt : left * right < 2 ^ 64 := by
      by_cases h0 : left = 0
      · subst h0; simp
      · have hr : right ≤ u64Max / left := by
          by_contra hc; exact hno ⟨h0, by omega⟩
        have := (Nat.le_div_iff_mul_le (Nat.pos_of_ne_zero h0)).1 hr
        unfold u64Max at this
        rw [Nat.mul_comm]; omega
    simp only [pure, Except.pure, Except.ok.injEq] at h
    exact ⟨by rw [← h, mul64_exact hlt], hlt⟩

/-- The facts about an accepted geometry that segmentation and block conversion rest on. -/
structure StorageGeometry.Valid (g : StorageGeometry) : Prop where
  blockSize_pos : 0 < g.blockSize
  pageSize_eq : g.pageSize = g.blockSize * g.writeUnitBlocks
  pageSize_pos : 0 < g.pageSize
  pageCount_pos : 0 < g.pageCount
  usable_eq : g.usableCapacityBytes = g.pageCount * g.pageSize
  usable_le : g.usableCapacityBytes ≤ g.capacityBytes
  capacity_lt : g.capacityBytes < 2 ^ 64
  pageSize_le_segment : g.pageSize ≤ g.ioSegmentSize
  segment_aligned : g.ioSegmentSize % g.pageSize = 0
  segment_lt : g.ioSegmentSize < 2 ^ 64
  bufferCount_pos : 0 < g.spdkBufferCount

/-- The unlimited case is the product with zero. -/
theorem bdevMaxRwSizeBytesOf_eq (mx bs : Nat) : bdevMaxRwSizeBytesOf mx bs =
    checkedMultiply mx bs "bdev maximum I/O size overflows uint64_t" := by
  unfold bdevMaxRwSizeBytesOf
  split
  · rename_i h; subst h; simp [checkedMultiply, mul64]
  · rfl

/-- What a successful derivation computed and which checks it passed. -/
theorem buildStorageGeometry_ok {nb bs wu ba seg mx bc : Nat} {g : StorageGeometry}
    (h : buildStorageGeometry nb bs wu ba seg mx bc = .ok g) :
    (nb ≠ 0 ∧ bs ≠ 0 ∧ wu ≠ 0) ∧ isPowerOfTwo ba = true ∧ bc ≠ 0 ∧
    nb * bs < 2 ^ 64 ∧ bs * wu < 2 ^ 64 ∧ mx * bs < 2 ^ 64 ∧
    (bs * wu ≤ g.ioSegmentSize ∧ g.ioSegmentSize % (bs * wu) = 0 ∧ g.ioSegmentSize ≤ u64Max) ∧
    nb * bs / (bs * wu) ≠ 0 ∧
    g = { capacityBytes := nb * bs, usableCapacityBytes := nb * bs / (bs * wu) * (bs * wu),
          pageSize := bs * wu, pageCount := nb * bs / (bs * wu),
          ioSegmentSize := if mx * bs = 0 then seg
            else min seg (mul64 (mx * bs / (bs * wu)) (bs * wu)),
          bdevMaxRwSizeBytes := mx * bs, blockSize := bs, writeUnitBlocks := wu,
          bufferAlignment := ba, spdkBufferCount := bc } := by
  unfold buildStorageGeometry at h
  simp only [bdevMaxRwSizeBytesOf_eq] at h
  simp only [bind, Except.bind, pure, Except.pure, throw, throwThe, MonadExceptOf.throw] at h
  split at h
  · cases h
  rename_i hzero
  split at h
  · cases h
  rename_i hpow
  split at h
  · cases h
  rename_i hbuf
  cases hcap : checkedMultiply nb bs "bdev byte capacity overflows uint64_t" with
  | error e => simp [hcap] at h
  | ok cap =>
  cases hpage : checkedMultiply bs wu "bdev write unit overflows uint64_t" with
  | error e => simp [hcap, hpage] at h
  | ok page =>
  cases hmax : checkedMultiply mx bs "bdev maximum I/O size overflows uint64_t" with
  | error e => simp [hcap, hpage, hmax] at h
  | ok mxBytes =>
  simp only [hcap, hpage, hmax] at h
  obtain ⟨rfl, h1⟩ := checkedMultiply_ok hcap
  obtain ⟨rfl, h2⟩ := checkedMultiply_ok hpage
  obtain ⟨rfl, h3⟩ := checkedMultiply_ok hmax
  generalize (if mx * bs = 0 then seg else min seg (mul64 (mx * bs / (bs * wu)) (bs * wu))) = io
    at h ⊢
  split at h
  · cases h
  rename_i hseg
  split at h
  · cases h
  rename_i hcount
  cases husable : checkedMultiply (nb * bs / (bs * wu)) (bs * wu)
      "usable bdev capacity overflows uint64_t" with
  | error e => simp [husable] at h
  | ok usable =>
  simp only [husable, Except.ok.injEq] at h
  obtain ⟨rfl, -⟩ := checkedMultiply_ok husable
  subst h
  refine ⟨⟨?_, ?_, ?_⟩, by simpa using hpow, hbuf, h1, h2, h3, ?_, hcount, rfl⟩
  · exact fun e => hzero (.inl e)
  · exact fun e => hzero (.inr (.inl e))
  · exact fun e => hzero (.inr (.inr e))
  · simp only [not_or, not_lt, ne_eq, Decidable.not_not, gt_iff_lt] at hseg
    exact hseg

/-- **Every accepted geometry is valid** (storage_geometry.cpp:36-85). -/
theorem buildStorageGeometry_valid {nb bs wu ba seg mx bc : Nat} {g : StorageGeometry}
    (h : buildStorageGeometry nb bs wu ba seg mx bc = .ok g) : g.Valid := by
  obtain ⟨⟨hnb, hbs, hwu⟩, -, hbc, hcap, hpage, -, ⟨hle, hmod, hmax⟩, hcount, rfl⟩ :=
    buildStorageGeometry_ok h
  have hpos : 0 < bs * wu := Nat.mul_pos (Nat.pos_of_ne_zero hbs) (Nat.pos_of_ne_zero hwu)
  exact
    { blockSize_pos := Nat.pos_of_ne_zero hbs
      pageSize_eq := rfl
      pageSize_pos := hpos
      pageCount_pos := Nat.pos_of_ne_zero hcount
      usable_eq := rfl
      usable_le := Nat.div_mul_le_self _ _
      capacity_lt := hcap
      pageSize_le_segment := hle
      segment_aligned := hmod
      segment_lt := lt_of_le_of_lt hmax (by decide)
      bufferCount_pos := Nat.pos_of_ne_zero hbc }

end SpdkConnector
