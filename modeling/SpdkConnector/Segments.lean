import SpdkConnector.Geometry
import SpdkConnector.AllocatorProofs
import Mathlib.Tactic.Ring

/-!
# Segmentation: from an entry's extents to bdev segments

`PagesForBytes`, `AppendSegments` (spdk_connector.cpp:246-320), `validate_item`
(spdk_bdev_context.cpp:1026) and the block conversion of `execute_io_on_worker` (:832-836).

An entry's bytes live at the device addresses `devAddr`: page after page, extent after extent.
`appendSegments_spec` says the emitted segments walk these addresses in order, once each.
-/

namespace SpdkConnector

abbrev Bytes := List UInt8

/-- A non-null `char*` into the caller buffer with the given index in the request. -/
structure CallerPtr where
  buffer : Nat
  offset : Nat
deriving DecidableEq, Repr

/-- `IoBatchItem` (spdk_bdev_context.h:36); `none` is a null `buffer`. The trace fields only feed
diagnostics. -/
structure IoBatchItem where
  buffer : Option CallerPtr
  logicalLength : Nat
  byteOffset : Nat
  physicalLength : Nat
deriving DecidableEq, Repr

inductive Operation where
  | read | write
deriving DecidableEq, Repr

/-- `IoResult` (spdk_bdev_context.h:52). -/
structure IoResult where
  success : Bool
  error : String
deriving DecidableEq, Repr

/-- `SpdkConnector::Entry` (spdk_connector.cpp:233). -/
structure Entry where
  logicalSize : Nat
  extents : List PageExtent
deriving DecidableEq, Repr

/-- `PagesForBytes` (spdk_connector.cpp:246). -/
def pagesForBytes (g : StorageGeometry) (value : Nat) : Except Exn Nat :=
  if value > u64Max - (g.pageSize - 1) then
    throw ⟨.overflowError, "value page count overflows uint64_t"⟩
  else pure (sub64 (add64 value g.pageSize) 1 / g.pageSize)

/-- The `while (physical < bytes)` loop over one extent (spdk_connector.cpp:298-316). Every round
that does not throw advances `physical`, so `bytes` rounds are enough. -/
def segmentLoop (g : StorageGeometry) (entry : Entry) (buffer firstPage bytes : Nat) :
    Nat → Nat → Nat → Except Exn (List IoBatchItem × Nat)
  | 0, logical, _ => .ok ([], logical)
  | fuel + 1, logical, physical =>
    if physical < bytes then
      let segmentPhysical := min g.ioSegmentSize (sub64 bytes physical)
      let segmentLogical := min segmentPhysical (sub64 entry.logicalSize logical)
      if segmentLogical = 0 then .error ⟨.logicError, "entry extents exceed its logical size"⟩
      else
        match segmentLoop g entry buffer firstPage bytes fuel (add64 logical segmentLogical)
            (add64 physical segmentPhysical) with
        | .error x => .error x
        | .ok (items, l) =>
          .ok (⟨some ⟨buffer, logical⟩, segmentLogical,
            add64 (mul64 firstPage g.pageSize) physical, segmentPhysical⟩ :: items, l)
    else .ok ([], logical)

/-- The loop over the extents (spdk_connector.cpp:295-317). -/
def extentLoop (g : StorageGeometry) (entry : Entry) (buffer : Nat) :
    List PageExtent → Nat → Except Exn (List IoBatchItem × Nat)
  | [], logical => .ok ([], logical)
  | e :: es, logical =>
    let bytes := mul64 e.pageCount g.pageSize
    match segmentLoop g entry buffer e.firstPage bytes bytes logical 0 with
    | .error x => .error x
    | .ok (items, l) =>
      match extentLoop g entry buffer es l with
      | .error x => .error x
      | .ok (items', l') => .ok (items ++ items', l')

/-- `AppendSegments` (spdk_connector.cpp:290): the items it pushes. -/
def appendSegments (g : StorageGeometry) (entry : Entry) (buffer : Nat) :
    Except Exn (List IoBatchItem) :=
  match extentLoop g entry buffer entry.extents 0 with
  | .error x => .error x
  | .ok (items, logical) =>
    if logical ≠ entry.logicalSize then
      .error ⟨.logicError, "entry extents do not cover its logical size"⟩
    else .ok items

/-- `validate_item` (spdk_bdev_context.cpp:1026). -/
def validateItem (g : StorageGeometry) (item : IoBatchItem) : Except Exn Unit := do
  if item.buffer = none then throw ⟨.invalidArgument, "buffer must not be null"⟩
  if item.logicalLength = 0 then
    throw ⟨.invalidArgument, "logical segment length must be nonzero"⟩
  if item.physicalLength < item.logicalLength ∨ item.physicalLength > g.ioSegmentSize then
    throw ⟨.invalidArgument,
      "physical segment length must cover logical bytes and not exceed io_segment_size"⟩
  if item.byteOffset % g.pageSize ≠ 0 ∨ item.physicalLength % g.pageSize ≠ 0 then
    throw ⟨.invalidArgument, "segment offset and physical length must be storage-page aligned"⟩
  if item.byteOffset > g.usableCapacityBytes ∨
      item.physicalLength > g.usableCapacityBytes - item.byteOffset then
    throw ⟨.invalidArgument, "segment lies outside usable bdev capacity"⟩

/-- The accepted items. -/
structure IoBatchItem.Ok (g : StorageGeometry) (it : IoBatchItem) : Prop where
  buffer : it.buffer ≠ none
  logical_pos : 0 < it.logicalLength
  logical_le : it.logicalLength ≤ it.physicalLength
  physical_le : it.physicalLength ≤ g.ioSegmentSize
  offset_aligned : it.byteOffset % g.pageSize = 0
  physical_aligned : it.physicalLength % g.pageSize = 0
  inside : it.byteOffset + it.physicalLength ≤ g.usableCapacityBytes

theorem validateItem_ok_iff {g : StorageGeometry} {it : IoBatchItem} :
    validateItem g it = .ok () ↔ it.Ok g := by
  unfold validateItem
  simp only [bind, Except.bind, pure, Except.pure, throw, throwThe, MonadExceptOf.throw]
  constructor
  · intro h
    split at h
    · cases h
    rename_i h1
    split at h
    · cases h
    rename_i h2
    split at h
    · cases h
    rename_i h3
    split at h
    · cases h
    rename_i h4
    split at h
    · cases h
    rename_i h5
    exact ⟨h1, by omega, by omega, by omega, by omega, by omega, by omega⟩
  · intro h
    have := h.logical_pos; have := h.logical_le; have := h.physical_le
    have := h.offset_aligned; have := h.physical_aligned; have := h.inside
    rw [if_neg h.buffer, if_neg (by omega), if_neg (by omega), if_neg (by omega), if_neg (by omega)]

/-! ## Where an entry's bytes live -/

/-- The device address of byte `x` of the pages `es`. -/
def devAddr (pageSize : Nat) : List PageExtent → Nat → Nat
  | [], x => x
  | e :: es, x =>
    if x < e.pageCount * pageSize then e.firstPage * pageSize + x
    else devAddr pageSize es (x - e.pageCount * pageSize)

theorem devAddr_append (ps : Nat) {e : PageExtent} {post : List PageExtent} {k : Nat}
    (hk : k < e.pageCount * ps) : ∀ pre : List PageExtent,
      devAddr ps (pre ++ e :: post) (pageSum pre * ps + k) = e.firstPage * ps + k
  | [] => by simp [devAddr, hk]
  | x :: pre => by
    have h : ¬ (x.pageCount + pageSum pre) * ps + k < x.pageCount * ps := by
      rw [Nat.add_mul]; omega
    have h' : (x.pageCount + pageSum pre) * ps + k - x.pageCount * ps = pageSum pre * ps + k := by
      rw [Nat.add_mul]; omega
    simp only [List.cons_append, pageSum_cons, devAddr, if_neg h, h']
    exact devAddr_append ps hk pre

/-- Every byte of the pages has its address in one of them. -/
theorem devAddr_covers {ps : Nat} (hps : 0 < ps) : ∀ {es : List PageExtent} {x : Nat},
    x < pageSum es * ps → Covers es (devAddr ps es x / ps)
  | [], x, h => by simp at h
  | e :: es, x, h => by
    simp only [pageSum_cons, Nat.add_mul] at h
    by_cases hx : x < e.pageCount * ps
    · refine covers_cons.2 (.inl ?_)
      have hq : x / ps < e.pageCount := (Nat.div_lt_iff_lt_mul hps).2 hx
      have hdiv : (e.firstPage * ps + x) / ps = e.firstPage + x / ps := by
        rw [Nat.mul_comm, Nat.mul_add_div hps]
      simp only [devAddr, if_pos hx, PageExtent.Has, PageExtent.stop]
      rw [hdiv]
      exact ⟨Nat.le_add_right _ _, Nat.add_lt_add_left hq _⟩
    · simp only [devAddr, if_neg hx]
      exact covers_cons.2 (.inr (devAddr_covers hps (by omega)))

theorem owned_tail {total : Nat} {e : PageExtent} {es : List PageExtent} (h : Owned total (e :: es)) :
    Owned total es :=
  ⟨fun x hx => h.pos x (by simp [hx]), fun x hx => h.bound x (by simp [hx]),
    (List.pairwise_cons.1 h.apart).2⟩

theorem owned_head_apart {total : Nat} {e : PageExtent} {es : List PageExtent}
    (h : Owned total (e :: es)) (p : Nat) : ¬ (e.Has p ∧ Covers es p) := by
  rintro ⟨he, x, hx, hxp⟩
  exact (apart_iff (h.pos e (by simp)) (h.pos x (by simp [hx]))).1
    ((List.pairwise_cons.1 h.apart).1 x hx) p ⟨he, hxp⟩

/-- Distinct bytes of an entry have distinct addresses. -/
theorem devAddr_inj {ps total : Nat} (hps : 0 < ps) : ∀ {es : List PageExtent} {x y : Nat},
    Owned total es → x < pageSum es * ps → y < pageSum es * ps →
    devAddr ps es x = devAddr ps es y → x = y
  | [], x, y, _, hx, _, _ => by simp at hx
  | e :: es, x, y, ho, hx, hy, heq => by
    have first : ∀ z, z < e.pageCount * ps → e.Has (devAddr ps (e :: es) z / ps) := fun z hz => by
      have : Covers [e] (devAddr ps [e] z / ps) := devAddr_covers hps (by simpa using hz)
      simpa [devAddr, hz] using this
    have rest : ∀ z, ¬ z < e.pageCount * ps → z < pageSum (e :: es) * ps →
        Covers es (devAddr ps (e :: es) z / ps) := fun z hz hlt => by
      simp only [devAddr, if_neg hz]
      simp only [pageSum_cons, Nat.add_mul] at hlt
      exact devAddr_covers hps (by omega)
    by_cases hxe : x < e.pageCount * ps <;> by_cases hye : y < e.pageCount * ps
    · simp only [devAddr, if_pos hxe, if_pos hye] at heq; omega
    · exact (owned_head_apart ho _ ⟨first x hxe, heq ▸ rest y hye hy⟩).elim
    · exact (owned_head_apart ho _ ⟨heq ▸ first y hye, rest x hxe hx⟩).elim
    · simp only [devAddr, if_neg hxe, if_neg hye] at heq
      simp only [pageSum_cons, Nat.add_mul] at hx hy
      have := devAddr_inj hps (owned_tail ho) (by omega) (by omega) heq
      omega

/-! ## `AppendSegments` walks the entry's addresses in order -/

/-- The items cover the linear positions `x .. y` of an entry of `L` bytes one after the other,
position `x + k` of an item being device byte `byteOffset + k`. -/
def Tiles (g : StorageGeometry) (addr : Nat → Nat) (L buffer : Nat) :
    Nat → List IoBatchItem → Nat → Prop
  | x, [], y => x = y
  | x, it :: its, y =>
    it.Ok g ∧ it.buffer = some ⟨buffer, x⟩ ∧ it.logicalLength = min it.physicalLength (L - x) ∧
    x + it.physicalLength ≤ y ∧ (∀ k < it.physicalLength, addr (x + k) = it.byteOffset + k) ∧
    Tiles g addr L buffer (x + it.physicalLength) its y

theorem tiles_append {g : StorageGeometry} {addr : Nat → Nat} {L buffer z : Nat} :
    ∀ {xs ys : List IoBatchItem} {x y : Nat}, Tiles g addr L buffer x xs y →
      Tiles g addr L buffer y ys z → y ≤ z → Tiles g addr L buffer x (xs ++ ys) z
  | [], _, _, _, h1, h2, _ => by simp only [Tiles] at h1; subst h1; exact h2
  | it :: its, _, _, _, ⟨a, b, c, d, e, f⟩, h2, hz =>
    ⟨a, b, c, Nat.le_trans d hz, e, tiles_append f h2 hz⟩

/-- What makes an entry segmentable: owned extents, exactly the pages its size rounds up to. -/
structure Entry.Ok (g : StorageGeometry) (e : Entry) : Prop where
  owned : Owned g.pageCount e.extents
  size_pos : 0 < e.logicalSize
  size_lt : e.logicalSize < 2 ^ 64
  pages : pageSum e.extents = (e.logicalSize + g.pageSize - 1) / g.pageSize
  needs : pagesForBytes g e.logicalSize = .ok (pageSum e.extents)

theorem Entry.Ok.size_le {g : StorageGeometry} (hg : g.Valid) {e : Entry} (h : e.Ok g) :
    e.logicalSize ≤ pageSum e.extents * g.pageSize ∧
    pageSum e.extents * g.pageSize < e.logicalSize + g.pageSize := by
  have hps := hg.pageSize_pos
  have h1 := Nat.div_add_mod (e.logicalSize + g.pageSize - 1) g.pageSize
  have h2 := Nat.mod_lt (e.logicalSize + g.pageSize - 1) hps
  rw [h.pages, Nat.mul_comm]
  omega

/-- A page-aligned position before the end of the pages is before the end of the bytes. -/
theorem Entry.Ok.aligned_lt {g : StorageGeometry} (hg : g.Valid) {e : Entry} (h : e.Ok g) {y : Nat}
    (hy : y % g.pageSize = 0) (hlt : y < pageSum e.extents * g.pageSize) : y < e.logicalSize := by
  obtain ⟨q, rfl⟩ := Nat.dvd_of_mod_eq_zero hy
  have hps := hg.pageSize_pos
  have hq : q + 1 ≤ pageSum e.extents := by
    rw [Nat.mul_comm] at hlt; exact Nat.lt_of_mul_lt_mul_right hlt
  have h1 : (q + 1) * g.pageSize ≤ pageSum e.extents * g.pageSize := Nat.mul_le_mul_right _ hq
  have := (h.size_le hg).2
  rw [Nat.add_mul, Nat.mul_comm] at h1
  omega

theorem mod_min {a b m : Nat} (ha : a % m = 0) (hb : b % m = 0) : min a b % m = 0 := by
  rcases Nat.le_total a b with h | h
  · rwa [Nat.min_eq_left h]
  · rwa [Nat.min_eq_right h]

/-- One extent, from position `physical` of it on. `B` is the linear position of its first byte. -/
theorem segmentLoop_spec {g : StorageGeometry} (hg : g.Valid) {en : Entry} (hen : en.Ok g)
    {B : Nat} {ex : PageExtent} {addr : Nat → Nat} (buffer : Nat)
    (hex : ex.stop ≤ g.pageCount) (hB : B % g.pageSize = 0)
    (hend : B + ex.pageCount * g.pageSize ≤ pageSum en.extents * g.pageSize)
    (haddr : ∀ k < ex.pageCount * g.pageSize, addr (B + k) = ex.firstPage * g.pageSize + k) :
    ∀ fuel physical : Nat, ex.pageCount * g.pageSize ≤ fuel + physical →
      physical ≤ ex.pageCount * g.pageSize → physical % g.pageSize = 0 →
      ∃ items, segmentLoop g en buffer ex.firstPage (ex.pageCount * g.pageSize) fuel
          (min (B + physical) en.logicalSize) physical =
          .ok (items, min (B + ex.pageCount * g.pageSize) en.logicalSize) ∧
        Tiles g addr en.logicalSize buffer (B + physical) items (B + ex.pageCount * g.pageSize)
  | 0, physical, hf, hle, _ => by
    have : physical = ex.pageCount * g.pageSize := by omega
    subst this
    exact ⟨[], rfl, rfl⟩
  | fuel + 1, physical, hf, hle, hmod => by
    have hps := hg.pageSize_pos
    have hio := hg.pageSize_le_segment
    have hsz := hen.size_lt
    have husable := hg.usable_eq
    have hcap := hg.capacity_lt
    have hucap := hg.usable_le
    -- the extent lies inside the usable capacity, so no product or sum below wraps
    have hstop : ex.firstPage * g.pageSize + ex.pageCount * g.pageSize ≤ g.usableCapacityBytes := by
      rw [husable, ← Nat.add_mul]; exact Nat.mul_le_mul_right _ hex
    by_cases hlt : physical < ex.pageCount * g.pageSize
    · have hposlt : B + physical < en.logicalSize :=
        hen.aligned_lt hg (by rw [Nat.add_mod, hB, hmod]; simp) (by omega)
      have hlog : min (B + physical) en.logicalSize = B + physical := by omega
      have hrest : sub64 (ex.pageCount * g.pageSize) physical = ex.pageCount * g.pageSize - physical :=
        sub64_exact hle (by omega)
      have hleft : sub64 en.logicalSize (B + physical) = en.logicalSize - (B + physical) :=
        sub64_exact (by omega) hsz
      have hbytesmod : (ex.pageCount * g.pageSize - physical) % g.pageSize = 0 := by
        obtain ⟨q, hq⟩ := Nat.dvd_of_mod_eq_zero hmod
        rw [hq, Nat.mul_comm, ← Nat.mul_sub, Nat.mul_mod_right]
      generalize hP : min g.ioSegmentSize (ex.pageCount * g.pageSize - physical) = P at *
      have hPmod : P % g.pageSize = 0 := hP ▸ mod_min hg.segment_aligned hbytesmod
      have hPpos : 0 < P := by omega
      have hPle : P ≤ ex.pageCount * g.pageSize - physical := by omega
      have hlogpos : min P (en.logicalSize - (B + physical)) ≠ 0 := by omega
      have hadd1 : add64 (B + physical) (min P (en.logicalSize - (B + physical))) =
          min (B + (physical + P)) en.logicalSize := by
        rw [add64_exact (by omega)]; omega
      have hadd2 : add64 physical P = physical + P := add64_exact (by omega)
      have hmul : mul64 ex.firstPage g.pageSize = ex.firstPage * g.pageSize := mul64_exact (by omega)
      have hoff : add64 (ex.firstPage * g.pageSize) physical = ex.firstPage * g.pageSize + physical :=
        add64_exact (by omega)
      obtain ⟨items, hrun, htiles⟩ := segmentLoop_spec hg hen buffer hex hB hend haddr fuel
        (physical + P) (by omega) (by omega)
        (by rw [Nat.add_mod, hmod, hPmod]; simp)
      refine ⟨⟨some ⟨buffer, B + physical⟩, min P (en.logicalSize - (B + physical)),
        ex.firstPage * g.pageSize + physical, P⟩ :: items, ?_, ?_⟩
      · simp only [segmentLoop, hlog, if_pos hlt, hrest, hP, hleft, if_neg hlogpos, hadd1, hadd2, hrun,
          hmul, hoff]
      · refine ⟨⟨by simp, Nat.pos_of_ne_zero hlogpos, Nat.min_le_left _ _, by show P ≤ _; omega, ?_, hPmod, by simp; omega⟩,
          rfl, rfl, by simp; omega, fun k hk => ?_, ?_⟩
        · simp [Nat.add_mod, hmod]
        · rw [Nat.add_assoc, haddr _ (by simp only at hk; omega), Nat.add_assoc]
        · simpa [Nat.add_assoc] using htiles
    · have : physical = ex.pageCount * g.pageSize := by omega
      subst this
      exact ⟨[], by simp [segmentLoop], rfl⟩

theorem extentLoop_spec {g : StorageGeometry} (hg : g.Valid) {en : Entry} (hen : en.Ok g)
    (buffer : Nat) : ∀ es pre : List PageExtent, en.extents = pre ++ es →
      ∃ items, extentLoop g en buffer es (min (pageSum pre * g.pageSize) en.logicalSize) =
          .ok (items, min (pageSum en.extents * g.pageSize) en.logicalSize) ∧
        Tiles g (devAddr g.pageSize en.extents) en.logicalSize buffer (pageSum pre * g.pageSize) items
          (pageSum en.extents * g.pageSize)
  | [], pre, h => by
    refine ⟨[], ?_, ?_⟩ <;> simp [extentLoop, Tiles, h]
  | e :: es, pre, h => by
    have hmem : e ∈ en.extents := by rw [h]; simp
    have hex := hen.owned.bound e hmem
    have hcap := hg.capacity_lt
    have hucap := hg.usable_le
    have husable := hg.usable_eq
    have hstop : e.firstPage * g.pageSize + e.pageCount * g.pageSize ≤ g.usableCapacityBytes := by
      rw [husable, ← Nat.add_mul]; exact Nat.mul_le_mul_right _ hex
    have hmul : mul64 e.pageCount g.pageSize = e.pageCount * g.pageSize := mul64_exact (by omega)
    have hsum : pageSum (pre ++ [e]) * g.pageSize = pageSum pre * g.pageSize + e.pageCount * g.pageSize := by
      simp [Nat.add_mul]
    have hle : pageSum (pre ++ [e]) * g.pageSize ≤ pageSum en.extents * g.pageSize := by
      refine Nat.mul_le_mul_right _ ?_
      simp only [h, pageSum_append, pageSum_cons, pageSum_nil]; omega
    have haddr : ∀ k < e.pageCount * g.pageSize, devAddr g.pageSize en.extents
        (pageSum pre * g.pageSize + k) = e.firstPage * g.pageSize + k := fun k hk => by
      rw [h]; exact devAddr_append g.pageSize hk pre
    obtain ⟨items, h1, t1⟩ := segmentLoop_spec hg hen buffer hex (Nat.mul_mod_left (pageSum pre) g.pageSize)
      (by omega)
      haddr
      (e.pageCount * g.pageSize) 0 (by omega) (by omega) (Nat.zero_mod _)
    obtain ⟨items', h2, t2⟩ := extentLoop_spec hg hen buffer es (pre ++ [e])
      (by rw [h]; simp)
    rw [hsum] at h2 t2 hle
    simp only [Nat.add_zero] at h1 t1
    refine ⟨items ++ items', ?_, tiles_append t1 t2 hle⟩
    simp only [extentLoop, hmul, h1, h2]

/-- **`AppendSegments` never throws on a well-formed entry**, and its items walk the entry's
addresses from the first byte to the end of the last page. -/
theorem appendSegments_spec {g : StorageGeometry} (hg : g.Valid) {en : Entry} (hen : en.Ok g)
    (buffer : Nat) : ∃ items, appendSegments g en buffer = .ok items ∧
      Tiles g (devAddr g.pageSize en.extents) en.logicalSize buffer 0 items
        (pageSum en.extents * g.pageSize) := by
  obtain ⟨items, h, t⟩ := extentLoop_spec hg hen buffer en.extents [] rfl
  have hle := (hen.size_le hg).1
  have hmin : min (pageSum en.extents * g.pageSize) en.logicalSize = en.logicalSize := by omega
  simp only [pageSum_nil, Nat.zero_mul, Nat.zero_min, hmin] at h t
  exact ⟨items, by simp [appendSegments, h], t⟩

/-- `PagesForBytes` rounds up without wrapping. -/
theorem pagesForBytes_spec {g : StorageGeometry} (hg : g.Valid) {v n : Nat}
    (h : pagesForBytes g v = .ok n) :
    v < 2 ^ 64 ∧ n = (v + g.pageSize - 1) / g.pageSize := by
  have hps := hg.pageSize_pos
  have hle := hg.pageSize_le_segment
  have hio := hg.segment_lt
  unfold pagesForBytes at h
  split at h
  · cases h
  · rename_i hv
    simp only [u64Max] at hv
    have hsub : sub64 (add64 v g.pageSize) 1 = v + g.pageSize - 1 := by
      unfold sub64 add64; omega
    simp only [pure, Except.pure, Except.ok.injEq, hsub] at h
    exact ⟨by omega, h.symm⟩

/-- An allocation of the computed page count makes a well-formed entry. -/
theorem entry_ok {g : StorageGeometry} (hg : g.Valid) {v n : Nat} {es : List PageExtent}
    (h : pagesForBytes g v = .ok n) (hv : 0 < v) (ho : Owned g.pageCount es) (hs : pageSum es = n) :
    Entry.Ok g ⟨v, es⟩ := by
  obtain ⟨h1, h2⟩ := pagesForBytes_spec hg h
  exact ⟨ho, hv, h1, hs.trans h2, hs.symm ▸ h⟩

end SpdkConnector
