import SpdkConnector.Allocator.Placement

/-!
# What `release` takes back

`release` (page_extent_allocator.cpp:65) checks and inserts one extent after the other, each against the
free map the earlier ones left. So it accepts a list exactly when the whole list is legal, and when it is
not, the extents before the first offending one stay released.
-/

namespace SpdkConnector

/-- The extents may be returned to an allocator of `n` pages whose free pages are `F`. -/
structure LegalReturn (n : Nat) (F : Finset Nat) (es : List PageExtent) : Prop where
  pos : ∀ e ∈ es, 0 < e.pageCount
  bound : ∀ e ∈ es, e.stop ≤ n
  apart : es.Pairwise (fun x y => ∀ p, ¬ (x.Has p ∧ y.Has p))
  used : ∀ e ∈ es, ∀ p, e.Has p → p ∉ F

theorem LegalReturn.owned {n : Nat} {F : Finset Nat} {es : List PageExtent} (h : LegalReturn n F es) :
    Owned n es := by
  refine ⟨h.pos, h.bound, ?_⟩
  apply List.Pairwise.imp_of_mem _ h.apart
  intro x y hx hy hxy
  exact (apart_iff (h.pos x hx) (h.pos y hy)).2 hxy

namespace PageExtentAllocator

variable {a : PageExtentAllocator}

theorem legalReturn_iff {es : List PageExtent} :
    LegalReturn a.totalPageCount a.freePages es ↔
      Owned a.totalPageCount es ∧ ∀ p, ¬ (Covers es p ∧ Covers a.freeExtents p) := by
  constructor
  · intro h
    refine ⟨h.owned, ?_⟩
    rintro p ⟨⟨e, he, hp⟩, hf⟩
    exact h.used e he p hp (mem_pagesOf.2 hf)
  · rintro ⟨ho, hd⟩
    refine ⟨ho.pos, ho.bound, ?_, fun e he p hp hf => hd p ⟨⟨e, he, hp⟩, mem_pagesOf.1 hf⟩⟩
    apply List.Pairwise.imp_of_mem _ ho.apart
    intro x y hx hy hxy
    exact (apart_iff (ho.pos x hx) (ho.pos y hy)).1 hxy

theorem Returnable.of_legal {e : PageExtent} {es : List PageExtent}
    (h : LegalReturn a.totalPageCount a.freePages (e :: es)) : a.Returnable e :=
  ⟨h.pos e (by simp), h.bound e (by simp), fun p hp => h.used e (by simp) p hp.1 (mem_pagesOf.2 hp.2)⟩

/-- After a legal extent, the rest of the list is as legal as it was with the extent in front. -/
theorem legalReturn_cons {a' : PageExtentAllocator} {e : PageExtent} {es : List PageExtent}
    (r : Released a [e] a') (he : a.Returnable e) :
    LegalReturn a.totalPageCount a.freePages (e :: es) ↔ LegalReturn a'.totalPageCount a'.freePages es := by
  have hfree : ∀ p, p ∈ a'.freePages ↔ p ∈ a.freePages ∨ e.Has p := fun p => by
    simp [freePages, r.covers]
  rw [r.total]
  constructor
  · intro h
    obtain ⟨h1, h2⟩ := List.pairwise_cons.1 h.apart
    refine ⟨fun x hx => h.pos x (by simp [hx]), fun x hx => h.bound x (by simp [hx]), h2, ?_⟩
    intro x hx p hp hf
    rcases (hfree p).1 hf with hf | hf
    · exact h.used x (by simp [hx]) p hp hf
    · exact h1 x hx p ⟨hf, hp⟩
  · intro h
    refine ⟨?_, ?_, List.pairwise_cons.2 ⟨?_, h.apart⟩, ?_⟩
    · simp only [List.mem_cons, forall_eq_or_imp]
      exact ⟨he.pos, h.pos⟩
    · simp only [List.mem_cons, forall_eq_or_imp]
      exact ⟨he.bound, h.bound⟩
    · rintro x hx p ⟨hep, hp⟩
      exact h.used x hx p hp ((hfree p).2 (.inr hep))
    · simp only [List.mem_cons, forall_eq_or_imp]
      refine ⟨fun p hp hf => he.apart p ⟨hp, mem_pagesOf.1 hf⟩, fun x hx p hp hf => ?_⟩
      exact h.used x hx p hp ((hfree p).2 (.inl hf))

/-- `release` returns exactly on legal lists. -/
theorem release_ok_iff {es : List PageExtent} (h : a.WF) (hes : ∀ e ∈ es, e.Fits) :
    (a.release es).1 = .ok () ↔ LegalReturn a.totalPageCount a.freePages es := by
  induction es generalizing a with
  | nil => exact ⟨fun _ => ⟨by simp, by simp, .nil, by simp⟩, fun _ => rfl⟩
  | cons e es ih =>
    rcases releaseOne_cases h (hes e (by simp)) with ⟨hr, a1, h1, r1⟩ | ⟨hr, x, -, h1⟩
    · rw [legalReturn_cons r1 hr, ← ih r1.wf fun y hy => hes y (by simp [hy])]
      simp only [release, h1]
    · simp only [release, h1]
      exact ⟨by simp, fun hl => absurd (.of_legal hl) hr⟩

theorem release_released {es : List PageExtent} (h : a.WF)
    (hl : LegalReturn a.totalPageCount a.freePages es) : Released a es (a.release es).2 := by
  obtain ⟨ho, hd⟩ := legalReturn_iff.1 hl
  obtain ⟨a', heq, hr⟩ := release_spec h ho hd
  rw [heq]
  exact hr

/-- A refused list was released up to its first offending extent. -/
theorem release_prefix {es : List PageExtent} (h : a.WF) (hes : ∀ e ∈ es, e.Fits) {x : Exn}
    (hx : (a.release es).1 = .error x) :
    ∃ pre e post, es = pre ++ e :: post ∧ LegalReturn a.totalPageCount a.freePages pre ∧
      ¬ LegalReturn a.totalPageCount a.freePages (pre ++ [e]) ∧
      a.release pre = (.ok (), (a.release es).2) := by
  induction es generalizing a with
  | nil => cases hx
  | cons e es ih =>
    rcases releaseOne_cases h (hes e (by simp)) with ⟨hr, a1, h1, r1⟩ | ⟨hr, y, -, h1⟩
    · have htail : a.release (e :: es) = a1.release es := by simp only [release, h1]
      rw [htail] at hx ⊢
      obtain ⟨pre, f, post, rfl, hl, hn, hp⟩ := ih r1.wf (fun y hy => hes y (by simp [hy])) hx
      refine ⟨e :: pre, f, post, rfl, (legalReturn_cons r1 hr).2 hl, ?_, ?_⟩
      · rw [List.cons_append, legalReturn_cons r1 hr]
        exact hn
      · simp only [release, h1]
        exact hp
    · refine ⟨[], e, es, rfl, ⟨by simp, by simp, .nil, by simp⟩, fun hl => hr (.of_legal hl), ?_⟩
      simp only [release, h1]

/-! ## The additions of `release` -/

/-- The operands of the additions `insert_free_extent_locked` evaluates: the end of the previous extent
(:98), the end of the returned one (:104), and the two merged counts (:114, :118). -/
def insertSums (m : List PageExtent) (extent : PageExtent) : List (Nat × Nat) :=
  let before := m.takeWhile (·.firstPage < extent.firstPage)
  let after := m.dropWhile (·.firstPage < extent.firstPage)
  let previous := before.getLast?
  let next := after.head?
  let previousEnd := previous.toList.map (fun p => (p.firstPage, p.pageCount))
  let extentEnd := add64 extent.firstPage extent.pageCount
  let left := mergeLeft previous extent m
  let merges :=
    (previous.filter (fun p => add64 p.firstPage p.pageCount == extent.firstPage)).toList.map
        (fun p => (extent.pageCount, p.pageCount)) ++
      (next.filter (fun n => extentEnd == n.firstPage)).toList.map (fun n => (left.1.pageCount, n.pageCount))
  if previous.any (fun p => add64 p.firstPage p.pageCount > extent.firstPage) then previousEnd
  else if next.any (fun n => extentEnd > n.firstPage) then
    previousEnd ++ [(extent.firstPage, extent.pageCount)]
  else previousEnd ++ (extent.firstPage, extent.pageCount) :: merges

/-- Those of one round of `release`: the end of the range check (:71), which the two checks before it may
cut off, those of the insertion, and the count (:81), which the overflow check may cut off. -/
def releaseOneSums (a : PageExtentAllocator) (e : PageExtent) : List (Nat × Nat) :=
  if e.pageCount = 0 ∨ e.firstPage > u64Max - e.pageCount then []
  else if add64 e.firstPage e.pageCount > a.totalPageCount then [(e.firstPage, e.pageCount)]
  else
    (e.firstPage, e.pageCount) :: insertSums a.freeExtents e ++
      match insertFreeExtentLocked a.freeExtents e with
      | .error _ => []
      | .ok _ => if a.freePageCount > u64Max - e.pageCount then [] else [(a.freePageCount, e.pageCount)]

/-- Those of `release`. -/
def releaseSums (a : PageExtentAllocator) : List PageExtent → List (Nat × Nat)
  | [] => []
  | e :: es =>
    a.releaseOneSums e ++
      match a.releaseOne e with
      | (.error _, _) => []
      | (.ok _, a) => a.releaseSums es

/-- The insertion adds page numbers and counts of the device. -/
theorem insertSums_exact {m : List PageExtent} {e : PageExtent} {hi : Nat} (hhi : hi < 2 ^ 64)
    (hb : ∀ x ∈ m, x.stop ≤ hi) (hbe : e.stop ≤ hi) : ∀ s ∈ insertSums m e, s.1 + s.2 < 2 ^ 64 := by
  have hend : add64 e.firstPage e.pageCount = e.stop := add64_exact (by unfold PageExtent.stop at hbe; omega)
  have hprev : ∀ q ∈ (m.takeWhile (·.firstPage < e.firstPage)).getLast?, q.stop ≤ hi := by
    intro q hq
    exact hb q (List.takeWhile_sublist _ |>.subset (List.mem_of_getLast? hq))
  have hnext : ∀ q ∈ (m.dropWhile (·.firstPage < e.firstPage)).head?, q.stop ≤ hi := by
    intro q hq
    exact hb q (List.dropWhile_sublist _ |>.subset (List.mem_of_head? hq))
  simp only [insertSums, hend]
  generalize (m.takeWhile (·.firstPage < e.firstPage)).getLast? = previous at *
  generalize (m.dropWhile (·.firstPage < e.firstPage)).head? = next at *
  have hends : ∀ s ∈ previous.toList.map (fun p => (p.firstPage, p.pageCount)), s.1 + s.2 < 2 ^ 64 := by
    intro s hs
    obtain ⟨q, hq, rfl⟩ := List.mem_map.1 hs
    have := hprev q (Option.mem_toList.1 hq)
    unfold PageExtent.stop at this
    omega
  -- merging to the left only moves the start down to the previous extent's
  have hleft : (mergeLeft previous e m).1.pageCount ≤ e.stop := by
    unfold mergeLeft
    split
    · rename_i q hq
      obtain ⟨hq, hqe⟩ := Option.filter_eq_some_iff.1 hq
      have := hprev q hq
      rw [add64_exact (by unfold PageExtent.stop at this; omega), beq_iff_eq] at hqe
      simp only [PageExtent.stop] at *
      rw [add64_exact (by omega)]
      omega
    · exact Nat.le_add_left _ _
  have hmerges : ∀ s ∈ (previous.filter (fun p => add64 p.firstPage p.pageCount == e.firstPage)).toList.map
        (fun p => (e.pageCount, p.pageCount)) ++
      (next.filter (fun n => e.stop == n.firstPage)).toList.map
        (fun n => ((mergeLeft previous e m).1.pageCount, n.pageCount)), s.1 + s.2 < 2 ^ 64 := by
    intro s hs
    rcases List.mem_append.1 hs with hs | hs
    · obtain ⟨q, hq, rfl⟩ := List.mem_map.1 hs
      obtain ⟨hq, hqe⟩ := Option.filter_eq_some_iff.1 (Option.mem_toList.1 hq)
      have := hprev q hq
      rw [add64_exact (by unfold PageExtent.stop at this; omega), beq_iff_eq] at hqe
      simp only [PageExtent.stop] at *
      omega
    · obtain ⟨q, hq, rfl⟩ := List.mem_map.1 hs
      obtain ⟨hq, hqe⟩ := Option.filter_eq_some_iff.1 (Option.mem_toList.1 hq)
      have := hnext q hq
      rw [beq_iff_eq] at hqe
      simp only [PageExtent.stop] at *
      omega
  have hthis : e.firstPage + e.pageCount < 2 ^ 64 := by unfold PageExtent.stop at hbe; omega
  split
  · exact hends
  · split <;> simp only [List.mem_append, List.mem_cons, List.not_mem_nil, or_false] <;>
      rintro s (hs | hs)
    · exact hends s hs
    · rw [hs]
      exact hthis
    · exact hends s hs
    · rcases hs with rfl | hs
      · exact hthis
      · exact hmerges s (List.mem_append.2 hs)

theorem releaseOneSums_exact (h : a.WF) {e : PageExtent} (he : e.Fits) :
    ∀ s ∈ a.releaseOneSums e, s.1 + s.2 < 2 ^ 64 := by
  have htot := h.total_lt
  have hle := h.free_le
  have hcount := h.count
  obtain ⟨hf, hc⟩ := he
  unfold releaseOneSums
  split
  · nofun
  rename_i h1
  simp only [not_or, u64Max] at h1
  have hsum : e.firstPage + e.pageCount < 2 ^ 64 := by omega
  split
  · simpa using hsum
  rename_i h2
  rw [add64_exact hsum] at h2
  simp only [List.cons_append, List.mem_cons, List.mem_append]
  rintro s (rfl | hs | hs)
  · exact hsum
  · exact insertSums_exact htot h.bound (by unfold PageExtent.stop; omega) s hs
  · split at hs
    · cases hs
    · split at hs
      · cases hs
      · rename_i hover
        simp only [u64Max] at hover
        rw [List.mem_singleton.1 hs]
        simp only
        omega

theorem releaseSums_exact {es : List PageExtent} (h : a.WF) (hes : ∀ e ∈ es, e.Fits) :
    ∀ s ∈ a.releaseSums es, s.1 + s.2 < 2 ^ 64 := by
  induction es generalizing a with
  | nil => nofun
  | cons e es ih =>
    simp only [releaseSums, List.mem_append]
    rintro s (hs | hs)
    · exact releaseOneSums_exact h (hes e (by simp)) s hs
    · rcases releaseOne_cases h (hes e (by simp)) with ⟨-, a1, h1, r1⟩ | ⟨-, x, -, h1⟩
      · simp only [h1] at hs
        exact ih r1.wf (fun y hy => hes y (by simp [hy])) s hs
      · simp only [h1] at hs
        cases hs

end PageExtentAllocator

/-- **Legal returns**: in every reachable state `release` returns exactly when the whole list is legal, and
then the listed pages are free and counted. None of its additions wraps, whatever the list. -/
theorem release_legal {n : Nat} {a : PageExtentAllocator} (ha : ReachableAllocator n a)
    {es : List PageExtent} (hes : ∀ e ∈ es, e.Fits) :
    ((a.release es).1 = .ok () ↔ LegalReturn n a.freePages es) ∧
    ((a.release es).1 = .ok () →
      (a.release es).2.freePages = a.freePages ∪ pagesOf es ∧
      (a.release es).2.freePageCount = a.freePageCount + pageSum es) ∧
    ∀ s ∈ a.releaseSums es, s.1 + s.2 < 2 ^ 64 := by
  obtain ⟨h, rfl⟩ := ha.wf
  have hiff := PageExtentAllocator.release_ok_iff h hes
  refine ⟨hiff, fun hok => ?_, PageExtentAllocator.releaseSums_exact h hes⟩
  have hr := PageExtentAllocator.release_released h (hiff.1 hok)
  refine ⟨?_, hr.count⟩
  ext p
  simp [PageExtentAllocator.freePages, hr.covers]

/-- A double return of a part of an allocation, at the edge of the word. -/
theorem release_legal_four :
    ((⟨[⟨2, 2⟩], 4, 2⟩ : PageExtentAllocator).release [⟨1, 1⟩, ⟨2 ^ 64 - 1, 1⟩]).1 = .ok () ↔
      LegalReturn 4 (PageExtentAllocator.freePages ⟨[⟨2, 2⟩], 4, 2⟩) [⟨1, 1⟩, ⟨2 ^ 64 - 1, 1⟩] :=
  (release_legal (n := 4) (a := ⟨[⟨2, 2⟩], 4, 2⟩)
    ⟨by decide, ⟨[⟨0, 4⟩], 4, 4⟩, [.allocate 2], rfl, by decide, by decide⟩ (by decide)).1

/-- **A refused return** leaves the extents before the first offending one released, and nothing else: each
extent is taken back as a whole or not at all. So nothing changed exactly if the first extent was refused. -/
theorem release_refused {n : Nat} {a : PageExtentAllocator} (ha : ReachableAllocator n a)
    {es : List PageExtent} (hes : ∀ e ∈ es, e.Fits) {x : Exn} (hx : (a.release es).1 = .error x) :
    ∃ pre e post, es = pre ++ e :: post ∧ LegalReturn n a.freePages pre ∧
      ¬ LegalReturn n a.freePages (pre ++ [e]) ∧ a.release pre = (.ok (), (a.release es).2) ∧
      ((a.release es).2 = a ↔ pre = []) := by
  obtain ⟨h, rfl⟩ := ha.wf
  obtain ⟨pre, e, post, hsplit, hl, hn, hpre⟩ := PageExtentAllocator.release_prefix h hes hx
  refine ⟨pre, e, post, hsplit, hl, hn, hpre, ?_⟩
  constructor
  · intro hsame
    by_contra hne
    obtain ⟨f, rest, rfl⟩ := List.exists_cons_of_ne_nil hne
    have hcount := (PageExtentAllocator.release_released h hl).count
    have hpos := hl.pos f (by simp)
    rw [hpre, hsame] at hcount
    simp only [pageSum_cons] at hcount
    omega
  · rintro rfl
    exact (Prod.mk.inj hpre).2.symm

/-- The second extent is refused, and the first one stays released. -/
theorem release_refused_twice :
    ReachableAllocator 4 ⟨[⟨2, 2⟩], 4, 2⟩ ∧
    ((⟨[⟨2, 2⟩], 4, 2⟩ : PageExtentAllocator).release [⟨0, 1⟩, ⟨0, 1⟩]) =
      (.error overlaps, ⟨[⟨0, 1⟩, ⟨2, 2⟩], 4, 3⟩) := by
  refine ⟨⟨by decide, ⟨[⟨0, 4⟩], 4, 4⟩, [.allocate 2], rfl, by decide, by decide⟩, by decide⟩

theorem release_refused_out_of_range :
    ∃ pre e post, [⟨1, 1⟩, ⟨4, 1⟩] = pre ++ e :: post ∧
      LegalReturn 4 (PageExtentAllocator.freePages ⟨[⟨2, 2⟩], 4, 2⟩) pre ∧
      ¬ LegalReturn 4 (PageExtentAllocator.freePages ⟨[⟨2, 2⟩], 4, 2⟩) (pre ++ [e]) ∧
      (⟨[⟨2, 2⟩], 4, 2⟩ : PageExtentAllocator).release pre = (.ok (), ⟨[⟨1, 3⟩], 4, 3⟩) ∧
      (⟨[⟨1, 3⟩], 4, 3⟩ = (⟨[⟨2, 2⟩], 4, 2⟩ : PageExtentAllocator) ↔ pre = []) :=
  release_refused (n := 4) (a := ⟨[⟨2, 2⟩], 4, 2⟩)
    (x := ⟨.invalidArgument, "invalid page extent release"⟩)
    ⟨by decide, ⟨[⟨0, 4⟩], 4, 4⟩, [.allocate 2], rfl, by decide, by decide⟩ (by decide) (by decide)

end SpdkConnector
