import SpdkConnector.Allocator
import Mathlib.Data.List.TakeWhile
import Mathlib.Tactic.Linarith

/-!
# The allocator keeps its free map disjoint, coalesced and exact

`WF` is the representation invariant. `allocate_spec` and `release_spec` are the two contracts the
connector uses: a granted request hands out fresh free pages, and the return of pages that are
positive, in range, disjoint and not free is always accepted.
-/

namespace SpdkConnector

/-- The free map is in key order with a used page between consecutive extents, lies within the
device, and the count is the number of its pages. -/
structure PageExtentAllocator.WF (a : PageExtentAllocator) : Prop where
  total_lt : a.totalPageCount < 2 ^ 64
  sorted : a.freeExtents.Pairwise (fun x y => x.stop < y.firstPage)
  pos : ∀ e ∈ a.freeExtents, 0 < e.pageCount
  bound : ∀ e ∈ a.freeExtents, e.stop ≤ a.totalPageCount
  count : a.freePageCount = pageSum a.freeExtents

/-- The extents share no page: one ends before the other starts. -/
def PageExtent.Apart (x y : PageExtent) : Prop := x.stop ≤ y.firstPage ∨ y.stop ≤ x.firstPage

/-- Extents that can be owned together: nonempty, inside the device, pairwise apart. -/
structure Owned (total : Nat) (es : List PageExtent) : Prop where
  pos : ∀ e ∈ es, 0 < e.pageCount
  bound : ∀ e ∈ es, e.stop ≤ total
  apart : es.Pairwise PageExtent.Apart

/-! ## Page lists -/

@[simp] theorem pageSum_nil : pageSum [] = 0 := rfl
@[simp] theorem pageSum_cons (e : PageExtent) (es : List PageExtent) :
    pageSum (e :: es) = e.pageCount + pageSum es := rfl
@[simp] theorem pageSum_append (xs ys : List PageExtent) :
    pageSum (xs ++ ys) = pageSum xs + pageSum ys := by simp [pageSum]

@[simp] theorem covers_nil (p : Nat) : ¬ Covers [] p := by simp [Covers]
@[simp] theorem covers_cons {e : PageExtent} {es : List PageExtent} {p : Nat} :
    Covers (e :: es) p ↔ e.Has p ∨ Covers es p := by simp [Covers]
@[simp] theorem covers_append {xs ys : List PageExtent} {p : Nat} :
    Covers (xs ++ ys) p ↔ Covers xs p ∨ Covers ys p := by
  simp only [Covers, List.mem_append]
  constructor
  · rintro ⟨e, he | he, hp⟩
    · exact .inl ⟨e, he, hp⟩
    · exact .inr ⟨e, he, hp⟩
  · rintro (⟨e, he, hp⟩ | ⟨e, he, hp⟩)
    · exact ⟨e, .inl he, hp⟩
    · exact ⟨e, .inr he, hp⟩

theorem apart_iff {x y : PageExtent} (hx : 0 < x.pageCount) (hy : 0 < y.pageCount) :
    x.Apart y ↔ ∀ p, ¬ (x.Has p ∧ y.Has p) := by
  simp only [PageExtent.Apart, PageExtent.Has, PageExtent.stop]
  constructor
  · intro h p; omega
  · intro h
    by_contra hc
    exact h (max x.firstPage y.firstPage) (by omega)

/-- An ordered list between `lo` and `hi` holds at most `hi - lo` pages. -/
theorem pageSum_le {hi : Nat} : ∀ {es : List PageExtent} {lo : Nat},
    es.Pairwise (fun x y => x.stop ≤ y.firstPage) → (∀ e ∈ es, lo ≤ e.firstPage ∧ e.stop ≤ hi) →
    lo ≤ hi → pageSum es ≤ hi - lo
  | [], _, _, _, _ => by simp
  | e :: es, lo, hs, hb, _ => by
    obtain ⟨h1, h2⟩ := List.pairwise_cons.1 hs
    have he := hb e (by simp)
    have ih : pageSum es ≤ hi - e.stop := pageSum_le h2 (fun x hx => ⟨h1 x hx, (hb x (by simp [hx])).2⟩) he.2
    simp only [pageSum_cons, PageExtent.stop] at *
    omega

theorem sorted_weaken {es : List PageExtent}
    (h : es.Pairwise (fun x y => x.stop < y.firstPage)) :
    es.Pairwise (fun x y => x.stop ≤ y.firstPage) := h.imp (fun h => Nat.le_of_lt h)

theorem PageExtentAllocator.WF.free_le {a : PageExtentAllocator} (h : a.WF) :
    pageSum a.freeExtents ≤ a.totalPageCount :=
  pageSum_le (sorted_weaken h.sorted) (fun e he => ⟨Nat.zero_le _, h.bound e he⟩) (Nat.zero_le _)

/-! ## The ordered map -/

theorem mapErase_of_ne {m : List PageExtent} {k : Nat} (h : ∀ e ∈ m, e.firstPage ≠ k) :
    mapErase m k = m := List.filter_eq_self.2 (fun e he => by simpa using h e he)

theorem mapErase_append_cons {xs ys : List PageExtent} {e : PageExtent}
    (h : (xs ++ e :: ys).Pairwise (fun x y => x.firstPage < y.firstPage)) :
    mapErase (xs ++ e :: ys) e.firstPage = xs ++ ys := by
  obtain ⟨_, h2, h3⟩ := List.pairwise_append.1 h
  have hx : mapErase xs e.firstPage = xs :=
    mapErase_of_ne (fun x hx => Nat.ne_of_lt (h3 x hx e (by simp)))
  have hy : mapErase ys e.firstPage = ys :=
    mapErase_of_ne (fun y hy => (Nat.ne_of_lt ((List.pairwise_cons.1 h2).1 y hy)).symm)
  unfold mapErase at *
  rw [List.filter_append, List.filter_cons, hx, hy]
  simp

theorem mapEmplace_append {ys : List PageExtent} {k v : Nat} (hy : ∀ e ∈ ys, k < e.firstPage) :
    ∀ {xs : List PageExtent}, (∀ e ∈ xs, e.firstPage < k) →
      mapEmplace (xs ++ ys) k v = xs ++ ⟨k, v⟩ :: ys
  | [], _ => by
    cases ys with
    | nil => rfl
    | cons y ys => simp [mapEmplace, hy y (by simp)]
  | x :: xs, hx => by
    have h1 : x.firstPage < k := hx x (by simp)
    simp only [List.cons_append, mapEmplace, Nat.not_lt_of_lt h1, (Nat.ne_of_lt h1).symm, if_false]
    rw [mapEmplace_append hy (fun e he => hx e (by simp [he]))]

/-! ## `allocate` is first fit -/

/-- The first `r` pages of an extent list. -/
def takePages : Nat → List PageExtent → List PageExtent
  | _, [] => []
  | r, e :: es => if r ≤ e.pageCount then [⟨e.firstPage, r⟩] else e :: takePages (r - e.pageCount) es

/-- What is left of an extent list after its first `r` pages. -/
def dropPages : Nat → List PageExtent → List PageExtent
  | _, [] => []
  | r, e :: es =>
    if r < e.pageCount then ⟨e.firstPage + r, e.pageCount - r⟩ :: es
    else if r = e.pageCount then es
    else dropPages (r - e.pageCount) es

theorem firstFit_eq : ∀ {m : List PageExtent} {r : Nat}, 0 < r → r ≤ pageSum m →
    firstFit r m = (takePages r m, 0)
  | [], r, h0, hr => by simp at hr; omega
  | e :: es, r, h0, hr => by
    simp only [pageSum_cons] at hr
    by_cases hle : r ≤ e.pageCount
    · simp [firstFit, takePages, hle]
    · have h1 : min r e.pageCount = e.pageCount := by omega
      have h2 : r - e.pageCount ≠ 0 := by omega
      simp only [firstFit, takePages, h1, h2, hle, if_false]
      rw [firstFit_eq (m := es) (by omega) (by omega)]

theorem carve_takePages {hi : Nat} (hhi : hi < 2 ^ 64) :
    ∀ {m : List PageExtent} {r : Nat}, m.Pairwise (fun x y => x.stop < y.firstPage) →
      (∀ e ∈ m, 0 < e.pageCount) → (∀ e ∈ m, e.stop ≤ hi) → 0 < r → r ≤ pageSum m →
      carve m (takePages r m) = (.ok (), dropPages r m)
  | [], r, _, _, _, h0, hr => by simp at hr; omega
  | e :: es, r, hs, hp, hb, h0, hr => by
    obtain ⟨h1, h2⟩ := List.pairwise_cons.1 hs
    have he := hp e (by simp)
    have hbe := hb e (by simp)
    have hkeys : ∀ x ∈ es, e.firstPage < x.firstPage := fun x hx => by
      have := h1 x hx; unfold PageExtent.stop at this; omega
    have herase : mapErase (e :: es) e.firstPage = es := by
      have hes : mapErase es e.firstPage = es :=
        mapErase_of_ne (fun x hx => (Nat.ne_of_lt (hkeys x hx)).symm)
      simpa [mapErase] using hes
    have hfind : mapFind (e :: es) e.firstPage = some e.pageCount := by simp [mapFind]
    simp only [pageSum_cons] at hr
    by_cases hle : r ≤ e.pageCount
    · simp only [takePages, hle, if_true, carve, hfind, Nat.not_lt.2 hle, if_false, herase]
      by_cases heq : r = e.pageCount
      · subst heq
        simp [dropPages]
      · have hlt : r < e.pageCount := by omega
        have hne : e.pageCount ≠ r := by omega
        unfold PageExtent.stop at hbe
        rw [if_pos hne, add64_exact (by omega), sub64_exact (by omega) (by omega)]
        have : mapEmplace ([] ++ es) (e.firstPage + r) (e.pageCount - r) =
            [] ++ ⟨e.firstPage + r, e.pageCount - r⟩ :: es := mapEmplace_append
          (fun x hx => by have := h1 x hx; unfold PageExtent.stop at this; omega) (by simp)
        simp only [List.nil_append] at this
        rw [this]
        simp [dropPages, hlt]
    · simp only [takePages, hle, if_false, carve, hfind, Nat.lt_irrefl, ne_eq, not_true, herase]
      rw [carve_takePages hhi h2 (fun x hx => hp x (by simp [hx])) (fun x hx => hb x (by simp [hx]))
        (by omega) (by omega)]
      have h3 : ¬ r < e.pageCount := by omega
      have h4 : r ≠ e.pageCount := by omega
      simp [dropPages, h3, h4]

/-- Cutting an ordered list after `r` pages: both halves are ordered, nothing is lost, and the gaps
of the second half stay open. -/
theorem cut_spec : ∀ {m : List PageExtent} {r : Nat},
    m.Pairwise (fun x y => x.stop < y.firstPage) → (∀ e ∈ m, 0 < e.pageCount) →
    0 < r → r ≤ pageSum m →
    (takePages r m ++ dropPages r m).Pairwise (fun x y => x.stop ≤ y.firstPage) ∧
    (takePages r m).Pairwise (fun x y => x.stop < y.firstPage) ∧
    (dropPages r m).Pairwise (fun x y => x.stop < y.firstPage) ∧
    (∀ e ∈ takePages r m ++ dropPages r m, 0 < e.pageCount ∧ ∃ x ∈ m, x.firstPage ≤ e.firstPage ∧ e.stop ≤ x.stop) ∧
    pageSum (takePages r m) = r ∧ pageSum (dropPages r m) = pageSum m - r ∧
    ∀ p, Covers (takePages r m ++ dropPages r m) p ↔ Covers m p
  | [], r, _, _, h0, hr => by simp at hr; omega
  | e :: es, r, hs, hp, h0, hr => by
    obtain ⟨h1, h2⟩ := List.pairwise_cons.1 hs
    have he := hp e (by simp)
    have hp' : ∀ x ∈ es, 0 < x.pageCount := fun x hx => hp x (by simp [hx])
    have hw := sorted_weaken h2
    simp only [pageSum_cons] at hr
    rcases Nat.lt_trichotomy r e.pageCount with hlt | heq | hgt
    · have hle : r ≤ e.pageCount := by omega
      simp only [takePages, dropPages, hlt, hle, if_true]
      refine ⟨?_, by simp, ?_, ?_, by simp, by simp; omega, fun p => ?_⟩
      · simp only [List.cons_append, List.nil_append, List.pairwise_cons, List.mem_cons]
        refine ⟨?_, fun x hx => ?_, hw⟩
        · rintro x (rfl | hx)
          · simp [PageExtent.stop]
          · have := h1 x hx; simp only [PageExtent.stop] at *; omega
        · have := h1 x hx; simp only [PageExtent.stop] at *; omega
      · refine List.pairwise_cons.2 ⟨fun x hx => ?_, h2⟩
        have := h1 x hx; simp only [PageExtent.stop] at *; omega
      · simp only [List.cons_append, List.nil_append, List.mem_cons]
        rintro x (rfl | rfl | hx)
        · exact ⟨h0, e, .inl rfl, by simp, by simp [PageExtent.stop]; omega⟩
        · exact ⟨by simp; omega, e, .inl rfl, by simp, by simp [PageExtent.stop]; omega⟩
        · exact ⟨hp' x hx, x, .inr hx, le_refl _, le_refl _⟩
      · simp only [List.cons_append, List.nil_append, covers_cons, PageExtent.Has, PageExtent.stop]
        constructor
        · rintro (h | h | h)
          · exact .inl (by omega)
          · exact .inl (by omega)
          · exact .inr h
        · rintro (h | h)
          · by_cases hc : p < e.firstPage + r
            · exact .inl (by omega)
            · exact .inr (.inl (by omega))
          · exact .inr (.inr h)
    · subst heq
      simp only [takePages, dropPages, le_refl, if_true, Nat.lt_irrefl, if_false]
      refine ⟨?_, by simp, h2, ?_, by simp, by simp, fun p => by simp⟩
      · exact List.pairwise_cons.2 ⟨fun x hx => Nat.le_of_lt (h1 x hx), hw⟩
      · simp only [List.cons_append, List.nil_append, List.mem_cons]
        rintro x (rfl | hx)
        · exact ⟨he, e, .inl rfl, le_refl _, le_refl _⟩
        · exact ⟨hp' x hx, x, .inr hx, le_refl _, le_refl _⟩
    · have n1 : ¬ r ≤ e.pageCount := by omega
      have n2 : ¬ r < e.pageCount := by omega
      have n3 : r ≠ e.pageCount := by omega
      simp only [takePages, dropPages, n1, n2, n3, if_false]
      obtain ⟨i1, i2, i3, i4, i5, i6, i7⟩ := cut_spec (m := es) (r := r - e.pageCount) h2 hp' (by omega) (by omega)
      -- every piece of the tail lies inside an extent of the tail, hence after `e`
      have after : ∀ x ∈ takePages (r - e.pageCount) es ++ dropPages (r - e.pageCount) es,
          e.stop < x.firstPage := fun x hx => by
        obtain ⟨-, y, hy, hle, -⟩ := i4 x hx
        have := h1 y hy; omega
      refine ⟨?_, ?_, i3, ?_, by simp [i5]; omega, by simp [i6]; omega, fun p => ?_⟩
      · exact List.pairwise_cons.2 ⟨fun x hx => Nat.le_of_lt (after x hx), i1⟩
      · exact List.pairwise_cons.2 ⟨fun x hx => after x (List.mem_append_left _ hx), i2⟩
      · simp only [List.cons_append, List.mem_cons]
        rintro x (rfl | hx)
        · exact ⟨he, x, .inl rfl, le_refl _, le_refl _⟩
        · obtain ⟨hpos, y, hy, hb⟩ := i4 x hx
          exact ⟨hpos, y, .inr hy, hb⟩
      · have := i7 p
        simp only [List.cons_append, covers_cons, covers_append] at *
        rw [← this]

/-- What a granted request means: `es` are `n` fresh pages taken out of the free map. -/
structure Allocated (a : PageExtentAllocator) (n : Nat) (es : List PageExtent)
    (a' : PageExtentAllocator) : Prop where
  wf : a'.WF
  total : a'.totalPageCount = a.totalPageCount
  owned : Owned a.totalPageCount es
  sum : pageSum es = n
  count : a'.freePageCount + n = a.freePageCount
  split : ∀ p, Covers a.freeExtents p ↔ Covers es p ∨ Covers a'.freeExtents p
  fresh : ∀ p, ¬ (Covers es p ∧ Covers a'.freeExtents p)

theorem pairwise_le_apart {es : List PageExtent} (h : es.Pairwise (fun x y => x.stop ≤ y.firstPage)) :
    es.Pairwise PageExtent.Apart := h.imp Or.inl

/-- A granted request is the first `n` free pages, and what is left is the rest of the free map. -/
theorem allocate_eq {a : PageExtentAllocator} (h : a.WF) {n : Nat} (hpos : 0 < n) (hn : n ≤ a.freePageCount) :
    a.allocate n = (.ok (takePages n a.freeExtents),
      { a with freeExtents := dropPages n a.freeExtents, freePageCount := a.freePageCount - n }) := by
  have hle : n ≤ pageSum a.freeExtents := h.count ▸ hn
  have hlt : a.freePageCount < 2 ^ 64 := by
    have := h.free_le; have := h.total_lt; have := h.count; omega
  unfold PageExtentAllocator.allocate
  rw [if_neg (by omega), if_neg (by omega)]
  simp only [firstFit_eq hpos hle, carve_takePages h.total_lt h.sorted h.pos h.bound hpos hle,
    ne_eq, not_true, if_false, sub64_exact hn hlt]

/-- **`allocate`** either throws and changes nothing, or grants fresh pages. -/
theorem allocate_spec {a : PageExtentAllocator} (h : a.WF) (n : Nat) :
    (∃ x, a.allocate n = (.error x, a) ∧ (n = 0 ∨ a.freePageCount < n)) ∨
    ∃ es a', a.allocate n = (.ok es, a') ∧ 0 < n ∧ n ≤ a.freePageCount ∧ Allocated a n es a' := by
  by_cases h0 : n = 0
  · exact .inl ⟨_, by unfold PageExtentAllocator.allocate; rw [if_pos h0], .inl h0⟩
  by_cases hn : n > a.freePageCount
  · exact .inl ⟨_, by unfold PageExtentAllocator.allocate; rw [if_neg h0, if_pos hn], .inr hn⟩
  have hpos : 0 < n := by omega
  have hle : n ≤ pageSum a.freeExtents := by have := h.count; omega
  obtain ⟨c1, c2, c3, c4, c5, c6, c7⟩ := cut_spec h.sorted h.pos hpos hle
  refine .inr ⟨_, _, allocate_eq h hpos (by omega), hpos, by omega, ?_⟩
  have inside : ∀ e ∈ takePages n a.freeExtents ++ dropPages n a.freeExtents, e.stop ≤ a.totalPageCount :=
    fun e he => by
      obtain ⟨-, x, hx, -, hb⟩ := c4 e he
      exact Nat.le_trans hb (h.bound x hx)
  exact
    { wf :=
        { total_lt := h.total_lt
          sorted := c3
          pos := fun e he => (c4 e (List.mem_append_right _ he)).1
          bound := fun e he => inside e (List.mem_append_right _ he)
          count := by simp only [c6]; have := h.count; omega }
      total := rfl
      owned :=
        { pos := fun e he => (c4 e (List.mem_append_left _ he)).1
          bound := fun e he => inside e (List.mem_append_left _ he)
          apart := pairwise_le_apart (sorted_weaken c2) }
      sum := c5
      count := by simp only; omega
      split := fun p => by rw [← covers_append]; exact (c7 p).symm
      fresh := fun p ⟨⟨x, hx, hxp⟩, y, hy, hyp⟩ => by
        have := (List.pairwise_append.1 c1).2.2 x hx y hy
        simp only [PageExtent.Has] at hxp hyp; omega }

/-! ## `release` coalesces -/

/-- Replacing a middle part of an ordered map by one extent that also covers `e`. -/
theorem splice_spec {xs mid ys : List PageExtent} {e u : PageExtent}
    (hs : (xs ++ mid ++ ys).Pairwise (fun x y => x.stop < y.firstPage))
    (hx : ∀ x ∈ xs, x.stop < u.firstPage) (hy : ∀ y ∈ ys, u.stop < y.firstPage)
    (hc : u.pageCount = e.pageCount + pageSum mid) (hu : ∀ p, u.Has p ↔ e.Has p ∨ Covers mid p) :
    (xs ++ u :: ys).Pairwise (fun x y => x.stop < y.firstPage) ∧
    pageSum (xs ++ u :: ys) = pageSum (xs ++ mid ++ ys) + e.pageCount ∧
    ∀ p, Covers (xs ++ u :: ys) p ↔ Covers (xs ++ mid ++ ys) p ∨ e.Has p := by
  obtain ⟨h1, h2, h3⟩ := List.pairwise_append.1 hs
  obtain ⟨h4, -, -⟩ := List.pairwise_append.1 h1
  refine ⟨List.pairwise_append.2 ⟨h4, List.pairwise_cons.2 ⟨hy, h2⟩, ?_⟩, by simp; omega, fun p => ?_⟩
  · rintro x hxm y hym
    rcases List.mem_cons.1 hym with rfl | hym
    · exact hx x hxm
    · exact h3 x (by simp [hxm]) y hym
  · simp only [covers_append, covers_cons, hu p]
    constructor
    · rintro (h | (h | h) | h) <;> simp [h]
    · rintro (((h | h) | h) | h) <;> simp [h]

/-- The two neighbours `lower_bound` and `std::prev` select, and how far the others are. -/
theorem neighbours_spec {m : List PageExtent} {e : PageExtent}
    (hs : m.Pairwise (fun x y => x.stop < y.firstPage)) (hp : ∀ x ∈ m, 0 < x.pageCount)
    (he : 0 < e.pageCount) (hd : ∀ p, ¬ (e.Has p ∧ Covers m p)) :
    (∀ x ∈ m.takeWhile (·.firstPage < e.firstPage), x.stop ≤ e.firstPage) ∧
    (∀ y ∈ m.dropWhile (·.firstPage < e.firstPage), e.stop ≤ y.firstPage) := by
  have apart : ∀ x ∈ m, x.stop ≤ e.firstPage ∨ e.stop ≤ x.firstPage := fun x hx =>
    (apart_iff (hp x hx) he).2 (fun p hh => hd p ⟨hh.2, x, hx, hh.1⟩)
  constructor
  · intro x hx
    have hlt : x.firstPage < e.firstPage := by simpa using List.mem_takeWhile_imp hx
    have := apart x (List.takeWhile_sublist _ |>.subset hx)
    simp only [PageExtent.stop] at *; omega
  · intro y hy
    have hym := List.dropWhile_sublist _ |>.subset hy
    have hge : e.firstPage ≤ y.firstPage := by
      cases hd : m.dropWhile (·.firstPage < e.firstPage) with
      | nil => simp [hd] at hy
      | cons z zs =>
        have hz : e.firstPage ≤ z.firstPage := by
          have := List.head?_dropWhile_not (fun x : PageExtent => decide (x.firstPage < e.firstPage)) m
          simpa [hd] using this
        have hsd : (z :: zs).Pairwise (fun x y => x.stop < y.firstPage) :=
          hd ▸ hs.sublist (List.dropWhile_sublist _)
        rw [hd] at hy
        rcases List.mem_cons.1 hy with rfl | hy
        · exact hz
        · have := (List.pairwise_cons.1 hsd).1 y hy
          simp only [PageExtent.stop] at this; omega
    have := apart y hym
    have := hp y hym
    simp only [PageExtent.stop] at *; omega

theorem mergeLeft_spec {hi : Nat} (hhi : hi < 2 ^ 64) {before after : List PageExtent} {e : PageExtent}
    (hs : (before ++ after).Pairwise (fun x y => x.stop < y.firstPage))
    (hb : ∀ x ∈ before ++ after, x.stop ≤ hi) (hbe : e.stop ≤ hi)
    (hpos : ∀ x ∈ before ++ after, 0 < x.pageCount) (he : 0 < e.pageCount)
    (hstop : ∀ x ∈ before, x.stop ≤ e.firstPage) :
    ∃ xs ps, before = xs ++ ps ∧ (mergeLeft before.getLast? e (before ++ after)).2 = xs ++ after ∧
      ∃ l, (mergeLeft before.getLast? e (before ++ after)).1 = l ∧ l.stop = e.stop ∧
        l.pageCount = e.pageCount + pageSum ps ∧ (∀ p, l.Has p ↔ e.Has p ∨ Covers ps p) ∧
        ∀ x ∈ xs, x.stop < l.firstPage := by
  unfold mergeLeft
  cases hl : before.getLast? with
  | none =>
    have hnil : before = [] := by simpa using hl
    subst hnil
    exact ⟨[], [], rfl, rfl, e, rfl, rfl, by simp, by simp, by simp⟩
  | some q =>
    obtain ⟨xs, rfl⟩ := List.getLast?_eq_some_iff.1 hl
    have hq := hb q (by simp)
    have hqp := hpos q (by simp)
    have hqs := hstop q (by simp)
    have hxs : ∀ x ∈ xs, x.stop < q.firstPage := fun x hx =>
      (List.pairwise_append.1 (List.pairwise_append.1 hs).1).2.2 x hx q (by simp)
    have hend : add64 q.firstPage q.pageCount = q.stop := add64_exact (by unfold PageExtent.stop at hq; omega)
    by_cases hm : q.stop = e.firstPage
    · have hcnt : add64 e.pageCount q.pageCount = e.pageCount + q.pageCount :=
        add64_exact (by unfold PageExtent.stop at *; omega)
      have herase : mapErase (xs ++ [q] ++ after) q.firstPage = xs ++ after := by
        rw [List.append_assoc]
        exact mapErase_append_cons (by
          simpa using hs.imp (fun h => by unfold PageExtent.stop at h; omega))
      simp only [Option.filter_some, hend, hm, beq_self_eq_true, if_true, hcnt, herase]
      refine ⟨xs, [q], rfl, rfl, _, rfl, ?_, by simp, fun p => ?_, hxs⟩
      · simp only [PageExtent.stop] at *; omega
      · simp only [covers_cons, covers_nil, or_false, PageExtent.Has, PageExtent.stop] at *; omega
    · have hne : (add64 q.firstPage q.pageCount == e.firstPage) = false := by simpa [hend] using hm
      simp only [Option.filter_some, hne, Bool.false_eq_true, if_false]
      refine ⟨xs ++ [q], [], by simp, by simp, e, rfl, rfl, by simp, by simp, ?_⟩
      intro x hx
      rcases List.mem_append.1 hx with hx | hx
      · have := hxs x hx; simp only [PageExtent.stop] at *; omega
      · rw [List.mem_singleton.1 hx]; omega

theorem mergeRight_spec {hi : Nat} (hhi : hi < 2 ^ 64) {xs after : List PageExtent} {e l : PageExtent}
    (hs : (xs ++ after).Pairwise (fun x y => x.stop < y.firstPage))
    (hb : ∀ x ∈ after, x.stop ≤ hi) (hpos : ∀ x ∈ after, 0 < x.pageCount) (hl : l.stop = e.stop)
    (hstop : ∀ y ∈ after, e.stop ≤ y.firstPage) :
    ∃ ns ys, after = ns ++ ys ∧ (mergeRight after.head? e.stop (l, xs ++ after)).2 = xs ++ ys ∧
      ∃ u, (mergeRight after.head? e.stop (l, xs ++ after)).1 = u ∧ u.firstPage = l.firstPage ∧
        u.pageCount = l.pageCount + pageSum ns ∧ (∀ p, u.Has p ↔ l.Has p ∨ Covers ns p) ∧
        ∀ y ∈ ys, u.stop < y.firstPage := by
  unfold mergeRight
  cases after with
  | nil => exact ⟨[], [], rfl, rfl, l, rfl, rfl, by simp, by simp, by simp⟩
  | cons n ys =>
    have hn := hb n (by simp)
    have hnp := hpos n (by simp)
    have hns := hstop n (by simp)
    have hys : ∀ y ∈ ys, n.stop < y.firstPage :=
      (List.pairwise_cons.1 (List.pairwise_append.1 hs).2.1).1
    by_cases hm : e.stop = n.firstPage
    · have hcnt : add64 l.pageCount n.pageCount = l.pageCount + n.pageCount :=
        add64_exact (by unfold PageExtent.stop at *; omega)
      have herase : mapErase (xs ++ n :: ys) n.firstPage = xs ++ ys :=
        mapErase_append_cons (hs.imp (fun h => by unfold PageExtent.stop at h; omega))
      simp only [List.head?_cons, Option.filter_some, hm, beq_self_eq_true, if_true, hcnt, herase]
      refine ⟨[n], ys, rfl, rfl, _, rfl, rfl, by simp, fun p => ?_, fun y hy => ?_⟩
      · simp only [covers_cons, covers_nil, or_false, PageExtent.Has, PageExtent.stop] at *; omega
      · have := hys y hy; simp only [PageExtent.stop] at *; omega
    · have hne : (e.stop == n.firstPage) = false := by simpa using hm
      simp only [List.head?_cons, Option.filter_some, hne, Bool.false_eq_true, if_false]
      refine ⟨[], n :: ys, rfl, rfl, l, rfl, rfl, by simp, by simp, fun y hy => ?_⟩
      rcases List.mem_cons.1 hy with rfl | hy
      · omega
      · have := hys y hy; simp only [PageExtent.stop] at *; omega

/-- The checks pass, and the new map is the two merges around `e`. -/
theorem insertFreeExtentLocked_eq {hi : Nat} (hhi : hi < 2 ^ 64) {m : List PageExtent} {e : PageExtent}
    (hs : m.Pairwise (fun x y => x.stop < y.firstPage)) (hp : ∀ x ∈ m, 0 < x.pageCount)
    (hb : ∀ x ∈ m, x.stop ≤ hi) (he : 0 < e.pageCount) (hbe : e.stop ≤ hi)
    (hd : ∀ p, ¬ (e.Has p ∧ Covers m p)) :
    ∃ xs mid ys u, m = xs ++ mid ++ ys ∧ insertFreeExtentLocked m e = .ok (xs ++ u :: ys) ∧
      (∀ x ∈ xs, x.stop < u.firstPage) ∧ (∀ y ∈ ys, u.stop < y.firstPage) ∧
      u.pageCount = e.pageCount + pageSum mid ∧ ∀ p, u.Has p ↔ e.Has p ∨ Covers mid p := by
  obtain ⟨hbefore, hafter⟩ := neighbours_spec hs hp he hd
  unfold insertFreeExtentLocked
  have hsplit := List.takeWhile_append_dropWhile (p := fun x : PageExtent => decide (x.firstPage < e.firstPage)) (l := m)
  generalize m.takeWhile (·.firstPage < e.firstPage) = before at *
  generalize m.dropWhile (·.firstPage < e.firstPage) = after at *
  subst hsplit
  have hend : add64 e.firstPage e.pageCount = e.stop := add64_exact (by unfold PageExtent.stop at hbe; omega)
  obtain ⟨xs, ps, hxs, hl2, l, hl1, hlstop, hlcnt, hlhas, hllt⟩ :=
    mergeLeft_spec hhi hs hb hbe hp he hbefore
  have hsx : (xs ++ after).Pairwise (fun x y => x.stop < y.firstPage) := by
    subst hxs
    exact hs.sublist (List.Sublist.append (List.sublist_append_left _ _) (List.Sublist.refl _))
  obtain ⟨ns, ys, hns, hr2, u, hr1, hufirst, hucnt, huhas, hult⟩ :=
    mergeRight_spec hhi (l := l) (e := e) hsx (fun x hx => hb x (List.mem_append_right _ hx))
      (fun x hx => hp x (List.mem_append_right _ hx)) hlstop hafter
  have hprev : before.getLast?.any (fun p => decide (add64 p.firstPage p.pageCount > e.firstPage)) = false := by
    cases hg : before.getLast? with
    | none => rfl
    | some q =>
      obtain ⟨zs, rfl⟩ := List.getLast?_eq_some_iff.1 hg
      have h1 := hbefore q (by simp)
      have h2 := hb q (by simp)
      simp only [PageExtent.stop] at h1 h2
      simp only [Option.any_some, decide_eq_false_iff_not, add64_exact (show q.firstPage + q.pageCount < 2 ^ 64 by omega)]
      omega
  have hnext : after.head?.any (fun n => decide (e.stop > n.firstPage)) = false := by
    cases hg : after with
    | nil => rfl
    | cons n zs =>
      have := hafter n (by simp [hg])
      simp only [List.head?_cons, Option.any_some, decide_eq_false_iff_not]; omega
  have hleft : mergeLeft before.getLast? e (before ++ after) = (l, xs ++ after) := Prod.ext hl1 hl2
  have hright : mergeRight after.head? e.stop (l, xs ++ after) = (u, xs ++ ys) := Prod.ext hr1 hr2
  refine ⟨xs, ps ++ ns, ys, u, by simp [hxs, hns], ?_, fun x hx => by rw [hufirst]; exact hllt x hx, hult,
    by simp [hucnt, hlcnt]; omega, fun p => by rw [huhas, hlhas, covers_append, or_assoc]⟩
  have hbody : (pure (mapEmplace (xs ++ ys) u.firstPage u.pageCount) : Except Exn (List PageExtent)) =
      .ok (xs ++ u :: ys) := by
    rw [mapEmplace_append (fun y hy => by have := hult y hy; unfold PageExtent.stop at this; omega)
      (fun x hx => by have := hllt x hx; unfold PageExtent.stop at this; omega)]
    rfl
  simp only [hprev, hend, hnext, Bool.false_eq_true, if_false, hleft, hright]
  exact hbody

/-- What an accepted return means. -/
structure Released (a : PageExtentAllocator) (es : List PageExtent) (a' : PageExtentAllocator) : Prop where
  wf : a'.WF
  total : a'.totalPageCount = a.totalPageCount
  count : a'.freePageCount = a.freePageCount + pageSum es
  covers : ∀ p, Covers a'.freeExtents p ↔ Covers a.freeExtents p ∨ Covers es p

theorem releaseOne_spec {a : PageExtentAllocator} (h : a.WF) {e : PageExtent} (he : 0 < e.pageCount)
    (hb : e.stop ≤ a.totalPageCount) (hd : ∀ p, ¬ (e.Has p ∧ Covers a.freeExtents p)) :
    ∃ a', a.releaseOne e = (.ok (), a') ∧ Released a [e] a' := by
  have htot := h.total_lt
  have hend : add64 e.firstPage e.pageCount = e.stop := add64_exact (by unfold PageExtent.stop at hb; omega)
  have hguard : ¬ (e.pageCount = 0 ∨ e.firstPage > u64Max - e.pageCount ∨
      add64 e.firstPage e.pageCount > a.totalPageCount) := by
    simp only [hend, u64Max, PageExtent.stop] at *; omega
  obtain ⟨xs, mid, ys, u, hm, hok, hx, hy, hc, hu⟩ :=
    insertFreeExtentLocked_eq htot h.sorted h.pos h.bound he hb hd
  obtain ⟨s1, s2, s3⟩ := splice_spec (hm ▸ h.sorted) hx hy hc hu
  rw [← hm] at s2 s3
  -- the merged extent reaches no further than its parts
  have hbound : ∀ x ∈ xs ++ u :: ys, x.stop ≤ a.totalPageCount := by
    have hup : u.Has (u.stop - 1) := by simp only [PageExtent.Has, PageExtent.stop]; omega
    have hu' : u.stop ≤ a.totalPageCount := by
      rcases (hu _).1 hup with hh | ⟨x, hxm, hh⟩
      · simp only [PageExtent.Has] at hh; omega
      · have := h.bound x (by rw [hm]; simp [hxm])
        simp only [PageExtent.Has] at hh; omega
    simp only [List.mem_append, List.mem_cons]
    rintro x (hxm | rfl | hxm)
    · exact h.bound x (by rw [hm]; simp [hxm])
    · exact hu'
    · exact h.bound x (by rw [hm]; simp [hxm])
  have hpos : ∀ x ∈ xs ++ u :: ys, 0 < x.pageCount := by
    simp only [List.mem_append, List.mem_cons]
    rintro x (hxm | rfl | hxm)
    · exact h.pos x (by rw [hm]; simp [hxm])
    · omega
    · exact h.pos x (by rw [hm]; simp [hxm])
  have hle : pageSum (xs ++ u :: ys) ≤ a.totalPageCount - 0 :=
    pageSum_le (sorted_weaken s1) (fun x hx => ⟨Nat.zero_le _, hbound x hx⟩) (Nat.zero_le _)
  have hcount := h.count
  have hover : ¬ a.freePageCount > u64Max - e.pageCount := by simp only [u64Max]; omega
  have hadd : add64 a.freePageCount e.pageCount = a.freePageCount + e.pageCount := add64_exact (by omega)
  refine ⟨{ a with freeExtents := xs ++ u :: ys, freePageCount := a.freePageCount + e.pageCount }, ?_,
    ⟨⟨htot, s1, hpos, hbound, by rw [s2, hcount]⟩, rfl, by simp, fun p => by rw [s3]; simp⟩⟩
  simp only [PageExtentAllocator.releaseOne, if_neg hguard, hok, if_neg hover, hadd]

/-- **`release`** accepts every list of owned extents that are not free, and frees exactly them. -/
theorem release_spec : ∀ {es : List PageExtent} {a : PageExtentAllocator}, a.WF →
    Owned a.totalPageCount es → (∀ p, ¬ (Covers es p ∧ Covers a.freeExtents p)) →
    ∃ a', a.release es = (.ok (), a') ∧ Released a es a'
  | [], a, h, _, _ => ⟨a, rfl, h, rfl, by simp, by simp⟩
  | e :: es, a, h, ho, hd => by
    obtain ⟨hap, hap'⟩ := List.pairwise_cons.1 ho.apart
    have hep := ho.pos e (by simp)
    obtain ⟨a1, h1, r1⟩ := releaseOne_spec h hep (ho.bound e (by simp))
      (fun p hp => hd p ⟨covers_cons.2 (.inl hp.1), hp.2⟩)
    obtain ⟨a2, h2, r2⟩ := release_spec r1.wf
      ⟨fun x hx => ho.pos x (by simp [hx]), fun x hx => r1.total ▸ ho.bound x (by simp [hx]), hap'⟩
      (fun p hp => by
        rcases (r1.covers p).1 hp.2 with hf | hf
        · exact hd p ⟨covers_cons.2 (.inr hp.1), hf⟩
        · obtain ⟨x, hx, hxp⟩ := hp.1
          have hxe := (apart_iff hep (ho.pos x (by simp [hx]))).1 (hap x hx)
          exact hxe p ⟨by simpa using hf, hxp⟩)
    refine ⟨a2, by simp only [PageExtentAllocator.release, h1, h2], r2.wf, r2.total.trans r1.total,
      by rw [r2.count, r1.count]; simp; omega, fun p => ?_⟩
    rw [r2.covers, r1.covers]
    simp [or_assoc]

/-- A fresh allocator is well formed. -/
theorem new_wf {n : Nat} {a : PageExtentAllocator} (hn : n < 2 ^ 64)
    (h : PageExtentAllocator.new n = .ok a) :
    a.WF ∧ a.totalPageCount = n ∧ ∀ p, Covers a.freeExtents p ↔ p < n := by
  unfold PageExtentAllocator.new at h
  split at h
  · cases h
  · rename_i h0
    cases h
    exact ⟨⟨hn, by simp, by simp; omega, by simp [PageExtent.stop], by simp⟩, rfl,
      by simp [PageExtent.Has, PageExtent.stop]⟩

end SpdkConnector
