import SpdkConnector.AllocatorRuns
import SpdkConnector.Connector

/-!
# Segmentation is exact and in bounds

From a length to block commands: `PagesForBytes`, `allocate`, `AppendSegments`, `validate_item` and the
block conversion of `execute_io_on_worker`, on any accepted geometry and any reachable allocator. The
facts about the segments are read off `Tiles`; the block facts off what `BuildStorageGeometry` computed.
-/

namespace SpdkConnector

variable {g : StorageGeometry}

/-- A byte of the device range of an item. -/
def IoBatchItem.Covers (it : IoBatchItem) (a : Nat) : Prop :=
  it.byteOffset ≤ a ∧ a < it.byteOffset + it.physicalLength

/-- A byte of the pages of an extent. -/
def PageExtent.HasByte (pageSize : Nat) (e : PageExtent) (a : Nat) : Prop :=
  e.firstPage * pageSize ≤ a ∧ a < e.stop * pageSize

/-- The items' caller ranges follow one another from `x` to `y`. -/
def CallerRuns (buffer : Nat) : Nat → List IoBatchItem → Nat → Prop
  | x, [], y => x = y
  | x, it :: its, y =>
    it.buffer = some ⟨buffer, x⟩ ∧ 0 < it.logicalLength ∧ CallerRuns buffer (x + it.logicalLength) its y

/-- The block command of an item (spdk_bdev_context.cpp:834-835) on a bdev of `numBlocks` blocks. -/
structure BlockCommandOk (g : StorageGeometry) (numBlocks maxRwSizeBlocks : Nat) (it : IoBatchItem) : Prop where
  offset_exact : blockOffset g it * g.blockSize = it.byteOffset
  count_exact : blockCount g it * g.blockSize = it.physicalLength
  count_pos : 0 < blockCount g it
  offset_aligned : g.writeUnitBlocks ∣ blockOffset g it
  count_aligned : g.writeUnitBlocks ∣ blockCount g it
  inside : blockOffset g it + blockCount g it ≤ numBlocks
  transfer : maxRwSizeBlocks ≠ 0 → blockCount g it ≤ maxRwSizeBlocks
  no_wrap : it.byteOffset + it.physicalLength < 2 ^ 64 ∧ it.logicalLength ≤ it.physicalLength ∧
    it.physicalLength ≤ g.ioSegmentSize

/-! ## Which operations wrap -/

/-- Every operation of `BuildStorageGeometry` is exact (:20, :54-81). -/
structure GeometryExact (g : StorageGeometry) (numBlocks blockSize writeUnitBlocks maxRwSizeBlocks : Nat) : Prop where
  capacity : numBlocks * blockSize < 2 ^ 64
  page : blockSize * writeUnitBlocks < 2 ^ 64
  transfer : maxRwSizeBlocks * blockSize < 2 ^ 64
  aligned : maxRwSizeBlocks * blockSize / (blockSize * writeUnitBlocks) * (blockSize * writeUnitBlocks) < 2 ^ 64
  usable : g.pageCount * g.pageSize < 2 ^ 64

/-- The check of `PagesForBytes` is exact (:248). -/
def checkExact (g : StorageGeometry) : Prop := 1 ≤ g.pageSize ∧ g.pageSize - 1 ≤ u64Max

/-- `value + page` and the subtraction behind it are exact (:250). -/
def roundingExact (g : StorageGeometry) (value : Nat) : Prop :=
  value + g.pageSize < 2 ^ 64 ∧ 1 ≤ add64 value g.pageSize

/-- Every operation of the loop over one extent is exact (:298-316). -/
def segmentLoopExact (g : StorageGeometry) (entry : Entry) (firstPage bytes : Nat) : Nat → Nat → Nat → Prop
  | 0, _, _ => True
  | fuel + 1, logical, physical =>
    physical < bytes →
      let segmentPhysical := min g.ioSegmentSize (bytes - physical)
      let segmentLogical := min segmentPhysical (entry.logicalSize - logical)
      bytes < 2 ^ 64 ∧ logical ≤ entry.logicalSize ∧ entry.logicalSize < 2 ^ 64 ∧
      firstPage * g.pageSize + physical < 2 ^ 64 ∧ logical + segmentLogical < 2 ^ 64 ∧
      physical + segmentPhysical < 2 ^ 64 ∧
      segmentLoopExact g entry firstPage bytes fuel (logical + segmentLogical) (physical + segmentPhysical)

/-- Every operation of `AppendSegments` is exact: `before` pages of the entry are done (:295-317). -/
def extentLoopExact (g : StorageGeometry) (entry : Entry) : List PageExtent → Nat → Prop
  | [], _ => True
  | e :: es, before =>
    e.pageCount * g.pageSize < 2 ^ 64 ∧
    segmentLoopExact g entry e.firstPage (e.pageCount * g.pageSize) (e.pageCount * g.pageSize)
      (min (before * g.pageSize) entry.logicalSize) 0 ∧
    extentLoopExact g entry es (before + e.pageCount)

theorem geometry_exact {nb bs wu ba seg mx bc : Nat} (hgeo : buildStorageGeometry nb bs wu ba seg mx bc = .ok g) :
    GeometryExact g nb bs wu mx := by
  have hg := buildStorageGeometry_valid hgeo
  obtain ⟨-, -, -, hcap, hpage, hmax, -, -, -⟩ := buildStorageGeometry_ok hgeo
  refine ⟨hcap, hpage, hmax, Nat.lt_of_le_of_lt (Nat.div_mul_le_self _ _) hmax, ?_⟩
  rw [← hg.usable_eq]
  exact Nat.lt_of_le_of_lt hg.usable_le hg.capacity_lt

theorem check_exact (hg : g.Valid) : checkExact g := by
  have hpos := hg.pageSize_pos
  have hle := hg.pageSize_le_segment
  have hlt := hg.segment_lt
  refine ⟨hpos, ?_⟩
  simp only [u64Max]
  omega

/-- The check lets one length through whose sum with the page size does not fit. -/
theorem rounding_exact_iff (hg : g.Valid) {L n : Nat} (hpages : pagesForBytes g L = .ok n) :
    roundingExact g L ↔ L + g.pageSize ≠ 2 ^ 64 := by
  have hpos := hg.pageSize_pos
  have hfits := (check_exact hg).2
  have hle : L + g.pageSize ≤ 2 ^ 64 := by
    unfold pagesForBytes at hpages
    split at hpages
    · cases hpages
    · rename_i hcheck
      simp only [u64Max] at hcheck hfits
      omega
  constructor
  · rintro ⟨hlt, -⟩ heq
    omega
  · intro hne
    have hlt : L + g.pageSize < 2 ^ 64 := by omega
    refine ⟨hlt, ?_⟩
    rw [add64_exact hlt]
    omega

theorem segmentLoop_exact (hg : g.Valid) {en : Entry} (hen : en.Ok g) {B : Nat} {ex : PageExtent}
    (hex : ex.stop ≤ g.pageCount) (hB : B % g.pageSize = 0)
    (hend : B + ex.pageCount * g.pageSize ≤ pageSum en.extents * g.pageSize) :
    ∀ fuel physical : Nat, physical % g.pageSize = 0 →
      segmentLoopExact g en ex.firstPage (ex.pageCount * g.pageSize) fuel
        (min (B + physical) en.logicalSize) physical
  | 0, _, _ => trivial
  | fuel + 1, physical, hmod => by
    intro hlt
    have hps := hg.pageSize_pos
    have hio := hg.pageSize_le_segment
    have hsz := hen.size_lt
    have husable := hg.usable_eq
    have hcap := hg.capacity_lt
    have hucap := hg.usable_le
    have hstop : ex.firstPage * g.pageSize + ex.pageCount * g.pageSize ≤ g.usableCapacityBytes := by
      rw [husable, ← Nat.add_mul]
      exact Nat.mul_le_mul_right _ hex
    have hposlt : B + physical < en.logicalSize :=
      hen.aligned_lt hg (by rw [Nat.add_mod, hB, hmod]; simp) (by omega)
    have hlog : min (B + physical) en.logicalSize = B + physical := by omega
    have hbytesmod : (ex.pageCount * g.pageSize - physical) % g.pageSize = 0 := by
      obtain ⟨q, hq⟩ := Nat.dvd_of_mod_eq_zero hmod
      rw [hq, Nat.mul_comm, ← Nat.mul_sub, Nat.mul_mod_right]
    have hPmod : min g.ioSegmentSize (ex.pageCount * g.pageSize - physical) % g.pageSize = 0 :=
      mod_min hg.segment_aligned hbytesmod
    have hnext := segmentLoop_exact hg hen hex hB hend fuel
      (physical + min g.ioSegmentSize (ex.pageCount * g.pageSize - physical))
      (by rw [Nat.add_mod, hmod, hPmod]; simp)
    rw [hlog]
    refine ⟨by omega, by omega, hsz, by omega, by omega, by omega, ?_⟩
    rw [show B + physical + min (min g.ioSegmentSize (ex.pageCount * g.pageSize - physical))
        (en.logicalSize - (B + physical)) =
      min (B + (physical + min g.ioSegmentSize (ex.pageCount * g.pageSize - physical))) en.logicalSize by omega]
    exact hnext

theorem extentLoop_exact (hg : g.Valid) {en : Entry} (hen : en.Ok g) :
    ∀ es pre : List PageExtent, en.extents = pre ++ es → extentLoopExact g en es (pageSum pre)
  | [], _, _ => trivial
  | e :: es, pre, h => by
    have hex := hen.owned.bound e (by rw [h]; simp)
    have hcap := hg.capacity_lt
    have hucap := hg.usable_le
    have husable := hg.usable_eq
    have hstop : e.firstPage * g.pageSize + e.pageCount * g.pageSize ≤ g.usableCapacityBytes := by
      rw [husable, ← Nat.add_mul]
      exact Nat.mul_le_mul_right _ hex
    have hle : pageSum pre * g.pageSize + e.pageCount * g.pageSize ≤ pageSum en.extents * g.pageSize := by
      rw [← Nat.add_mul]
      refine Nat.mul_le_mul_right _ ?_
      simp only [h, pageSum_append, pageSum_cons]
      omega
    have hnext := extentLoop_exact hg hen es (pre ++ [e]) (by simp [h])
    simp only [pageSum_append, pageSum_cons, pageSum_nil, Nat.add_zero] at hnext
    exact ⟨by omega, segmentLoop_exact hg hen hex (Nat.mul_mod_left _ _) hle _ 0 (Nat.zero_mod _), hnext⟩

/-! ## What tiling says about the items -/

section
variable {addr : Nat → Nat} {L P buffer : Nat}

/-- The caller ranges follow one another up to the entry's size. -/
theorem tiles_caller (hLP : L ≤ P) : ∀ {items : List IoBatchItem} {x : Nat},
    Tiles g addr L buffer x items P → CallerRuns buffer (min x L) items L
  | [], x, h => by
    simp only [Tiles] at h
    subst h
    exact Nat.min_eq_right hLP
  | it :: its, x, ⟨hok, hb, hl, _, _, ht⟩ => by
    have hpos := hok.logical_pos
    have hx : min x L = x := by omega
    have ih := tiles_caller hLP ht
    refine ⟨by rw [hx]; exact hb, hpos, ?_⟩
    rw [hx, show x + it.logicalLength = min (x + it.physicalLength) L by omega]
    exact ih

/-- Every item but the last carries no padding, and the last less than `d` bytes. -/
theorem tiles_padding {d : Nat} (hLP : L ≤ P) (hP : P < L + d) : ∀ {items : List IoBatchItem} {x : Nat},
    Tiles g addr L buffer x items P → items ≠ [] →
    ∃ init last, items = init ++ [last] ∧ (∀ it ∈ init, it.logicalLength = it.physicalLength) ∧
      last.physicalLength < last.logicalLength + d
  | [it], x, ⟨hok, _, hl, _, _, ht⟩, _ => by
    simp only [Tiles] at ht
    have hpos := hok.logical_pos
    exact ⟨[], it, rfl, by simp, by omega⟩
  | it :: it' :: its, x, ⟨_, _, hl, _, _, ht⟩, _ => by
    obtain ⟨init, last, heq, hinit, hlast⟩ := tiles_padding hLP hP ht (by simp)
    have hnext : 0 < it'.logicalLength ∧ it'.logicalLength = min it'.physicalLength (L - (x + it.physicalLength)) :=
      ⟨ht.1.logical_pos, ht.2.2.1⟩
    refine ⟨it :: init, last, by rw [heq]; rfl, fun y hy => ?_, hlast⟩
    rcases List.mem_cons.1 hy with rfl | hy
    · omega
    · exact hinit y hy

/-- An item's device range is the addresses of positions between the ends. -/
theorem tiles_item : ∀ {items : List IoBatchItem} {x : Nat}, Tiles g addr L buffer x items P →
    ∀ it ∈ items, ∀ a, it.Covers a → ∃ z, x ≤ z ∧ z < P ∧ addr z = a
  | it :: its, x, ⟨_, _, _, hle, ha, ht⟩, y, hy, a, hc => by
    rcases List.mem_cons.1 hy with rfl | hy
    · unfold IoBatchItem.Covers at hc
      refine ⟨x + (a - y.byteOffset), by omega, by omega, ?_⟩
      rw [ha _ (by omega)]
      omega
    · obtain ⟨z, h1, h2, h3⟩ := tiles_item ht y hy a hc
      exact ⟨z, by omega, h2, h3⟩

/-- Each position is in one of the items. -/
theorem tiles_position : ∀ {items : List IoBatchItem} {x z : Nat}, Tiles g addr L buffer x items P →
    x ≤ z → z < P → ∃ it ∈ items, it.Covers (addr z)
  | [], x, z, h, h1, h2 => by
    simp only [Tiles] at h
    omega
  | it :: its, x, z, ⟨_, _, _, _, ha, ht⟩, h1, h2 => by
    by_cases hz : z < x + it.physicalLength
    · have := ha (z - x) (by omega)
      rw [show x + (z - x) = z by omega] at this
      exact ⟨it, by simp, by unfold IoBatchItem.Covers; omega⟩
    · obtain ⟨y, hy, hc⟩ := tiles_position ht (by omega) h2
      exact ⟨y, by simp [hy], hc⟩

/-- Distinct items have disjoint device ranges. -/
theorem tiles_disjoint (hinj : ∀ y z, y < P → z < P → addr y = addr z → y = z) :
    ∀ {items : List IoBatchItem} {x : Nat}, Tiles g addr L buffer x items P →
      items.Pairwise fun it it' => ∀ a, ¬ (it.Covers a ∧ it'.Covers a)
  | [], _, _ => .nil
  | it :: its, x, ⟨_, _, _, hle, ha, ht⟩ => by
    refine List.pairwise_cons.2 ⟨fun it' hit' a ⟨h1, h2⟩ => ?_, tiles_disjoint hinj ht⟩
    obtain ⟨z, hz, hzP, hza⟩ := tiles_item ht it' hit' a h2
    unfold IoBatchItem.Covers at h1
    have hfirst := ha (a - it.byteOffset) (by omega)
    have := hinj _ z (by omega) hzP ((hfirst.trans (by omega)).trans hza.symm)
    omega

theorem tiles_ok : ∀ {items : List IoBatchItem} {x : Nat}, Tiles g addr L buffer x items P →
    ∀ it ∈ items, it.Ok g
  | it :: its, x, ⟨hok, _, _, _, _, ht⟩, y, hy => by
    rcases List.mem_cons.1 hy with rfl | hy
    · exact hok
    · exact tiles_ok ht y hy

end

/-- The addresses of an entry's bytes are the bytes of its extents. -/
theorem devAddr_range {ps : Nat} (hps : 0 < ps) {es : List PageExtent} (a : Nat) :
    (∃ z, z < pageSum es * ps ∧ devAddr ps es z = a) ↔ ∃ e ∈ es, e.HasByte ps a := by
  constructor
  · rintro ⟨z, hz, rfl⟩
    obtain ⟨e, he, h1, h2⟩ := devAddr_covers hps hz
    refine ⟨e, he, (Nat.le_div_iff_mul_le hps).1 h1, ?_⟩
    exact (Nat.div_lt_iff_lt_mul hps).1 h2
  · rintro ⟨e, he, h1, h2⟩
    obtain ⟨pre, post, rfl⟩ := List.append_of_mem he
    have hk : a - e.firstPage * ps < e.pageCount * ps := by
      simp only [PageExtent.stop, Nat.add_mul] at h2
      omega
    refine ⟨pageSum pre * ps + (a - e.firstPage * ps), ?_, ?_⟩
    · simp only [pageSum_append, pageSum_cons, Nat.add_mul]
      omega
    · rw [devAddr_append ps hk pre]
      omega

/-! ## Block commands -/

/-- What `BuildStorageGeometry` says about a valid item's block command. -/
theorem block_command {nb bs wu ba seg mx bc : Nat} (hgeo : buildStorageGeometry nb bs wu ba seg mx bc = .ok g)
    {it : IoBatchItem} (hit : it.Ok g) : BlockCommandOk g nb mx it := by
  have hg := buildStorageGeometry_valid hgeo
  obtain ⟨⟨-, hbs, hwu⟩, -, -, hcap, hpage, hmax, ⟨hle, -, -⟩, -, rfl⟩ := buildStorageGeometry_ok hgeo
  have hbs : 0 < bs := Nat.pos_of_ne_zero hbs
  have hlpos := hit.logical_pos
  have hlle := hit.logical_le
  have hple := hit.physical_le
  have hin := hit.inside
  obtain ⟨p, hp⟩ := Nat.dvd_of_mod_eq_zero hit.offset_aligned
  obtain ⟨q, hq⟩ := Nat.dvd_of_mod_eq_zero hit.physical_aligned
  simp only at hp hq hin hple
  have hoff : it.byteOffset / bs = wu * p := by
    rw [hp, Nat.mul_assoc, Nat.mul_div_cancel_left _ hbs]
  have hcnt : it.physicalLength / bs = wu * q := by
    rw [hq, Nat.mul_assoc, Nat.mul_div_cancel_left _ hbs]
  have husable : nb * bs / (bs * wu) * (bs * wu) ≤ nb * bs := Nat.div_mul_le_self _ _
  refine ⟨?_, ?_, ?_, ⟨p, hoff⟩, ⟨q, hcnt⟩, ?_, fun hmx => ?_, ⟨by omega, hlle, hple⟩⟩
  · simp only [blockOffset, hoff]
    rw [hp, Nat.mul_comm, Nat.mul_assoc]
  · simp only [blockCount, hcnt]
    rw [hq, Nat.mul_comm, Nat.mul_assoc]
  · simp only [blockCount, hcnt]
    refine Nat.pos_of_ne_zero fun h0 => ?_
    rw [Nat.mul_assoc, h0, Nat.mul_zero] at hq
    omega
  · simp only [blockOffset, blockCount, hoff, hcnt]
    have hsum : (wu * p + wu * q) * bs ≤ nb * bs := by
      calc (wu * p + wu * q) * bs = it.byteOffset + it.physicalLength := by
            rw [hp, hq]
            ring
        _ ≤ nb * bs / (bs * wu) * (bs * wu) := hin
        _ ≤ nb * bs := husable
    exact Nat.le_of_mul_le_mul_right hsum hbs
  · simp only [blockCount, hcnt]
    have hne : mx * bs ≠ 0 := Nat.mul_ne_zero hmx (Nat.pos_iff_ne_zero.1 hbs)
    rw [if_neg hne] at hple
    have hfloor : mul64 (mx * bs / (bs * wu)) (bs * wu) ≤ mx * bs := by
      have h1 : mx * bs / (bs * wu) * (bs * wu) ≤ mx * bs := Nat.div_mul_le_self _ _
      rw [mul64_exact (by omega)]
      exact h1
    have hsum : wu * q * bs ≤ mx * bs := by
      calc wu * q * bs = it.physicalLength := by
            rw [hq]
            ring
        _ ≤ mx * bs := by omega
    exact Nat.le_of_mul_le_mul_right hsum hbs

/-! ## From a length to its block commands -/

/-- The segments of an entry of `length` bytes in the pages `extents`. -/
structure SegmentsExact (g : StorageGeometry) (numBlocks maxRwSizeBlocks length buffer : Nat)
    (extents : List PageExtent) (items : List IoBatchItem) : Prop where
  caller : CallerRuns buffer 0 items length
  device : ∀ a, (∃ it ∈ items, it.Covers a) ↔ ∃ e ∈ extents, e.HasByte g.pageSize a
  disjoint : items.Pairwise fun it it' => ∀ a, ¬ (it.Covers a ∧ it'.Covers a)
  padding : ∃ init last, items = init ++ [last] ∧ (∀ it ∈ init, it.logicalLength = it.physicalLength) ∧
    last.logicalLength ≤ last.physicalLength ∧ last.physicalLength < last.logicalLength + g.pageSize
  valid : ∀ it ∈ items, validateItem g it = .ok ()
  blocks : ∀ it ∈ items, BlockCommandOk g numBlocks maxRwSizeBlocks it

/-- **Segmentation is exact and in bounds**: on every accepted geometry and after every sequence of
allocator calls, a length whose pages are granted is segmented without an exception, the segments cover
the caller's bytes and the granted pages exactly once, and their block commands stay inside the bdev and
its transfer limit. No 64-bit operation on the way wraps, but for a length that is one page short of `2 ^ 64`:
there `value + page` does, and so does the subtraction behind it, which gives the exact value back. -/
theorem segmentation_exact {nb bs wu ba seg mx bc : Nat} (hgeo : buildStorageGeometry nb bs wu ba seg mx bc = .ok g)
    {a0 : PageExtentAllocator} (hnew : PageExtentAllocator.new g.pageCount = .ok a0)
    {cs : List AllocatorCall} (hcs : ∀ c ∈ cs, c.Fits) {L n : Nat} (hL : 1 ≤ L)
    (hpages : pagesForBytes g L = .ok n) {es : List PageExtent} {a' : PageExtentAllocator}
    (halloc : (a0.calls cs).2.allocate n = (.ok es, a')) (buffer : Nat) :
    n = (L + g.pageSize - 1) / g.pageSize ∧
    (∃ items, appendSegments g ⟨L, es⟩ buffer = .ok items ∧ SegmentsExact g nb mx L buffer es items) ∧
    GeometryExact g nb bs wu mx ∧ checkExact g ∧ (roundingExact g L ↔ L + g.pageSize ≠ 2 ^ 64) ∧
    extentLoopExact g ⟨L, es⟩ es 0 := by
  have hg := buildStorageGeometry_valid hgeo
  have hps := hg.pageSize_pos
  have hlt : g.pageCount < 2 ^ 64 := by
    have h1 := hg.usable_eq
    have h2 := hg.usable_le
    have h3 := hg.capacity_lt
    have h4 := Nat.le_mul_of_pos_right g.pageCount hps
    omega
  obtain ⟨hwf0, htotal0, -⟩ := new_wf hlt hnew
  obtain ⟨hwf, htotal, -⟩ := PageExtentAllocator.calls_keep hwf0 hcs
  -- the granted pages make a well-formed entry
  have hen : Entry.Ok g ⟨L, es⟩ := by
    rcases allocate_spec hwf n with ⟨x, heq, -⟩ | ⟨es', a'', heq, -, -, hal⟩
    · rw [heq] at halloc
      cases halloc
    · rw [heq] at halloc
      cases halloc
      exact entry_ok hg hpages hL (htotal0 ▸ htotal ▸ hal.owned) hal.sum
  obtain ⟨hle, hlt'⟩ := hen.size_le hg
  simp only at hle hlt'
  obtain ⟨items, hok, htiles⟩ := appendSegments_spec hg hen buffer
  have hne : items ≠ [] := by
    rintro rfl
    simp only [Tiles] at htiles
    omega
  refine ⟨(pagesForBytes_spec hg hpages).2, ⟨items, hok, ?_⟩, geometry_exact hgeo, check_exact hg,
    rounding_exact_iff hg hpages, extentLoop_exact hg hen es [] rfl⟩
  obtain ⟨init, last, heq, hinit, hlast⟩ := tiles_padding hle hlt' htiles hne
  have hitems := tiles_ok htiles
  exact
    { caller := by simpa using tiles_caller hle htiles
      device := fun a => by
        rw [← devAddr_range hps]
        constructor
        · rintro ⟨it, hit, hc⟩
          obtain ⟨z, -, hz, hza⟩ := tiles_item htiles it hit a hc
          exact ⟨z, hz, hza⟩
        · rintro ⟨z, hz, rfl⟩
          exact tiles_position htiles (Nat.zero_le _) hz
      disjoint := tiles_disjoint (fun y z hy hz h => devAddr_inj hps hen.owned hy hz h) htiles
      padding := ⟨init, last, heq, hinit, (hitems last (by simp [heq])).logical_le, hlast⟩
      valid := fun it hit => validateItem_ok_iff.2 (hitems it hit)
      blocks := fun it hit => block_command hgeo (hitems it hit) }

/-- Seven bytes in the pages a release left free. -/
theorem segmentation_exact_seven : ∃ items,
    appendSegments ⟨16, 16, 2, 8, 4, 0, 2, 1, 1, 1⟩ ⟨7, [⟨0, 1⟩, ⟨3, 3⟩]⟩ 0 = .ok items ∧
    SegmentsExact ⟨16, 16, 2, 8, 4, 0, 2, 1, 1, 1⟩ 8 0 7 0 [⟨0, 1⟩, ⟨3, 3⟩] items ∧
    roundingExact ⟨16, 16, 2, 8, 4, 0, 2, 1, 1, 1⟩ 7 := by
  obtain ⟨-, ⟨items, hok, hexact⟩, -, -, hround, -⟩ := segmentation_exact
    (show buildStorageGeometry 8 2 1 1 4 0 1 = .ok ⟨16, 16, 2, 8, 4, 0, 2, 1, 1, 1⟩ from rfl)
    (show PageExtentAllocator.new 8 = .ok ⟨[⟨0, 8⟩], 8, 8⟩ from rfl)
    (show ∀ c ∈ [.allocate 3, .release [⟨0, 1⟩]], AllocatorCall.Fits c by decide) (by decide)
    (show pagesForBytes _ 7 = .ok 4 from rfl)
    (show PageExtentAllocator.allocate _ 4 = (.ok [⟨0, 1⟩, ⟨3, 3⟩], ⟨[⟨6, 2⟩], 8, 2⟩) from rfl) 0
  exact ⟨items, hok, hexact, hround.2 (by decide)⟩

/-- A bdev of `2 ^ 55 - 1` blocks of 512 bytes, written block by block. -/
def wholeBdev : StorageGeometry :=
  ⟨2 ^ 64 - 512, 2 ^ 64 - 512, 512, 2 ^ 55 - 1, 512, 0, 512, 1, 1, 1⟩

/-- A value that fills the bdev gets all of its pages, and `value + page` wraps on the way. -/
theorem rounding_wraps : buildStorageGeometry (2 ^ 55 - 1) 512 1 1 512 0 1 = .ok wholeBdev ∧
    pagesForBytes wholeBdev (2 ^ 64 - 512) = .ok (2 ^ 55 - 1) ∧
    ∃ a, PageExtentAllocator.new (2 ^ 55 - 1) = .ok a ∧ (a.allocate (2 ^ 55 - 1)).1 = .ok [⟨0, 2 ^ 55 - 1⟩] ∧
    ¬ roundingExact wholeBdev (2 ^ 64 - 512) := by
  refine ⟨by rfl, by rfl, ⟨[⟨0, 2 ^ 55 - 1⟩], 2 ^ 55 - 1, 2 ^ 55 - 1⟩, by rfl, by rfl, ?_⟩
  rintro ⟨hlt, -⟩
  simp [wholeBdev] at hlt

end SpdkConnector
