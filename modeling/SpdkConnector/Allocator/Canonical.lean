import SpdkConnector.Allocator.Returns

/-!
# The free map is canonical

A sorted and coalesced extent list is the only one of its set of pages, so the allocator's state is a
function of the device size and the set of free pages. Whatever order and portions pages come back in, the
merges of `insert_free_extent_locked` end in the same map.
-/

namespace SpdkConnector

/-- Behind the head of a coalesced list there is a gap. -/
theorem covers_tail {e : PageExtent} {es : List PageExtent} {p : Nat}
    (h : (e :: es).Pairwise (fun x y => x.stop < y.firstPage)) (hp : Covers es p) : e.stop < p := by
  obtain ⟨x, hx, hxp⟩ := hp
  have := (List.pairwise_cons.1 h).1 x hx
  unfold PageExtent.Has at hxp
  omega

theorem covers_head {e : PageExtent} {es : List PageExtent} {p : Nat}
    (h : (e :: es).Pairwise (fun x y => x.stop < y.firstPage)) (hp : Covers (e :: es) p) : e.firstPage ≤ p := by
  rcases covers_cons.1 hp with hp | hp
  · exact hp.1
  · have := covers_tail h hp
    unfold PageExtent.stop at this
    omega

/-- The first extent of a coalesced list is as long as its pages allow. -/
theorem head_le {x y : PageExtent} {xs ys : List PageExtent}
    (hys : (y :: ys).Pairwise (fun x y => x.stop < y.firstPage)) (hfirst : x.firstPage = y.firstPage)
    (hc : ∀ p, Covers (x :: xs) p → Covers (y :: ys) p) : x.stop ≤ y.stop := by
  by_contra hlt
  have hend : Covers (y :: ys) y.stop := by
    apply hc
    apply covers_cons.2
    left
    simp only [PageExtent.Has, PageExtent.stop] at *
    omega
  rcases covers_cons.1 hend with hy | hy
  · exact Nat.lt_irrefl _ hy.2
  · exact Nat.lt_irrefl _ (covers_tail hys hy)

/-- **Uniqueness**: coalesced lists of the same pages are the same list. -/
theorem coalesced_unique {xs ys : List PageExtent}
    (hxs : xs.Pairwise (fun x y => x.stop < y.firstPage)) (hxp : ∀ e ∈ xs, 0 < e.pageCount)
    (hys : ys.Pairwise (fun x y => x.stop < y.firstPage)) (hyp : ∀ e ∈ ys, 0 < e.pageCount)
    (hc : ∀ p, Covers xs p ↔ Covers ys p) : xs = ys := by
  have has : ∀ {e : PageExtent}, 0 < e.pageCount → e.Has e.firstPage := fun h => by
    simp only [PageExtent.Has, PageExtent.stop]
    omega
  induction xs generalizing ys with
  | nil =>
    cases ys with
    | nil => rfl
    | cons y ys => exact absurd ((hc _).2 (covers_cons.2 (.inl (has (hyp y (by simp)))))) (covers_nil _)
  | cons x xs ih =>
    cases ys with
    | nil => exact absurd ((hc _).1 (covers_cons.2 (.inl (has (hxp x (by simp)))))) (covers_nil _)
    | cons y ys =>
      have hx := hxp x (by simp)
      have hy := hyp y (by simp)
      have hfirst : x.firstPage = y.firstPage := by
        apply Nat.le_antisymm
        · exact covers_head hxs ((hc _).2 (covers_cons.2 (.inl (has hy))))
        · exact covers_head hys ((hc _).1 (covers_cons.2 (.inl (has hx))))
      have hstop : x.stop = y.stop := Nat.le_antisymm
        (head_le hys hfirst fun p => (hc p).1) (head_le hxs hfirst.symm fun p => (hc p).2)
      have hxy : x = y := by
        cases x
        cases y
        simp only [PageExtent.stop] at hfirst hstop
        simp only [PageExtent.mk.injEq]
        omega
      subst hxy
      congr 1
      apply ih (List.pairwise_cons.1 hxs).2 (fun e he => hxp e (by simp [he])) (List.pairwise_cons.1 hys).2
        (fun e he => hyp e (by simp [he]))
      intro p
      have hcp := hc p
      simp only [covers_cons] at hcp
      constructor
      · intro hp
        apply (hcp.1 (.inr hp)).resolve_left
        intro hh
        exact Nat.lt_asymm hh.2 (covers_tail hxs hp)
      · intro hp
        apply (hcp.2 (.inr hp)).resolve_left
        intro hh
        exact Nat.lt_asymm hh.2 (covers_tail hys hp)

namespace PageExtentAllocator

variable {a b : PageExtentAllocator}

/-- The state is a function of the device size and the free pages. -/
theorem WF.unique (ha : a.WF) (hb : b.WF) (htotal : a.totalPageCount = b.totalPageCount)
    (hfree : ∀ p, Covers a.freeExtents p ↔ Covers b.freeExtents p) : a = b := by
  have hmap : a.freeExtents = b.freeExtents := coalesced_unique ha.sorted ha.pos hb.sorted hb.pos hfree
  have hcount : a.freePageCount = b.freePageCount := by rw [ha.count, hb.count, hmap]
  cases a
  cases b
  simp_all

/-- What an accepted return leaves is decided by the pages returned. -/
theorem released_unique {es fs : List PageExtent} {a' b' : PageExtentAllocator} (ha : Released a es a')
    (hb : Released a fs b') (hc : ∀ p, Covers es p ↔ Covers fs p) : a' = b' := by
  apply WF.unique ha.wf hb.wf (ha.total.trans hb.total.symm)
  intro p
  rw [ha.covers, hb.covers, hc]

/-- An accepted list may as well be returned in two calls. -/
theorem release_append {es fs : List PageExtent} (h : (a.release (es ++ fs)).1 = .ok ()) :
    (a.release es).1 = .ok () ∧ a.release (es ++ fs) = (a.release es).2.release fs := by
  induction es generalizing a with
  | nil => exact ⟨rfl, rfl⟩
  | cons e es ih =>
    rcases h1 : a.releaseOne e with ⟨_ | _, a1⟩
    · simp only [List.cons_append, release, h1] at h
      cases h
    · simp only [List.cons_append, release, h1] at h ⊢
      exact ih h

/-- Or in any number of them. -/
theorem calls_release {gs : List (List PageExtent)} (h : (a.release gs.flatten).1 = .ok ()) :
    a.calls (gs.map .release) = (gs.map fun _ => .ok [], (a.release gs.flatten).2) := by
  induction gs generalizing a with
  | nil => rfl
  | cons g gs ih =>
    obtain ⟨h1, h2⟩ := release_append h
    rw [List.flatten_cons] at h
    rw [h2] at h
    simp only [List.map_cons, calls, call, ih h, List.flatten_cons, h2, h1, Except.map]

end PageExtentAllocator

theorem LegalReturn.fits {n : Nat} (hn : n < 2 ^ 64) {F : Finset Nat} {es : List PageExtent}
    (h : LegalReturn n F es) : ∀ e ∈ es, e.Fits := by
  intro e he
  have := h.bound e he
  unfold PageExtent.stop at this
  exact ⟨by omega, by omega⟩

/-- The calls `gs` return the pages of `es`, each once: in any order, in any number of calls, with the
extents cut in any way. -/
structure Portions (es : List PageExtent) (gs : List (List PageExtent)) : Prop where
  pos : ∀ e ∈ gs.flatten, 0 < e.pageCount
  apart : gs.flatten.Pairwise (fun x y => ∀ p, ¬ (x.Has p ∧ y.Has p))
  pages : pagesOf gs.flatten = pagesOf es

theorem Portions.of_perm {n : Nat} {F : Finset Nat} {es : List PageExtent} {gs : List (List PageExtent)}
    (h : LegalReturn n F es) (hp : gs.flatten.Perm es) : Portions es gs := by
  refine ⟨fun e he => h.pos e (hp.mem_iff.1 he), ?_, ?_⟩
  · apply hp.symm.pairwise h.apart
    intro x y hxy p hyx
    exact hxy p hyx.symm
  · rw [pagesOf_eq_iff]
    intro p
    simp only [Covers, hp.mem_iff]

theorem Portions.legal {n : Nat} {F : Finset Nat} {es : List PageExtent} {gs : List (List PageExtent)}
    (h : LegalReturn n F es) (hg : Portions es gs) : LegalReturn n F gs.flatten := by
  have hpage : ∀ e ∈ gs.flatten, ∀ p, e.Has p → ∃ x ∈ es, x.Has p := fun e he p hp =>
    (pagesOf_eq_iff.1 hg.pages p).1 ⟨e, he, hp⟩
  refine ⟨hg.pos, fun e he => ?_, hg.apart, fun e he p hp => ?_⟩
  · have hpos := hg.pos e he
    obtain ⟨x, hx, hxp⟩ := hpage e he (e.stop - 1) (by simp only [PageExtent.Has, PageExtent.stop]; omega)
    have := h.bound x hx
    unfold PageExtent.Has at hxp
    omega
  · obtain ⟨x, hx, hxp⟩ := hpage e he p hp
    exact h.used x hx p hxp

/-- **The allocator is canonical**: reachable allocators of one size with the same free pages are the same
and answer alike, a legal return has one outcome however it is portioned, and returning a grant restores
the allocator it came from. -/
theorem allocator_canonical {n : Nat} {a : PageExtentAllocator} (ha : ReachableAllocator n a) :
    (∀ b, ReachableAllocator n b → b.freePages = a.freePages →
      b = a ∧ ∀ cs, (b.calls cs).1 = (a.calls cs).1) ∧
    (∀ es gs, LegalReturn n a.freePages es → Portions es gs →
      a.calls (gs.map .release) = (gs.map fun _ => .ok [], (a.release es).2)) ∧
    ∀ k es, (a.allocate k).1 = .ok es → (a.allocate k).2.release es = (.ok (), a) := by
  obtain ⟨h, rfl⟩ := ha.wf
  refine ⟨fun b hb hfree => ?_, fun es gs hl hg => ?_, fun k es hk => ?_⟩
  · have hab : b = a := hb.wf.1.unique h hb.wf.2 (pagesOf_eq_iff.1 hfree)
    exact ⟨hab, fun cs => by rw [hab]⟩
  · have hlg := hg.legal hl
    have hok := (PageExtentAllocator.release_ok_iff h (hlg.fits h.total_lt)).2 hlg
    have hsame : (a.release gs.flatten).2 = (a.release es).2 :=
      PageExtentAllocator.released_unique (PageExtentAllocator.release_released h hlg)
        (PageExtentAllocator.release_released h hl) (pagesOf_eq_iff.1 hg.pages)
    rw [PageExtentAllocator.calls_release hok, hsame]
  · rcases allocate_spec h k with ⟨x, heq, -⟩ | ⟨fs, a', heq, -, -, hal⟩
    · rw [heq] at hk
      cases hk
    · rw [heq] at hk ⊢
      cases hk
      obtain ⟨a'', h1, h2⟩ := release_spec hal.wf (hal.total ▸ hal.owned) hal.fresh
      simp only [h1]
      have hback : a'' = a := by
        apply h2.wf.unique h (h2.total.trans hal.total)
        intro p
        rw [h2.covers, hal.split, or_comm]
      rw [hback]

/-- The coalescing case of the allocator's test: the outer thirds first, then the middle. -/
theorem allocator_canonical_thirds :
    (⟨[], 6, 0⟩ : PageExtentAllocator).calls ([[⟨0, 2⟩, ⟨4, 2⟩], [⟨2, 2⟩]].map .release) =
      ([.ok [], .ok []], ((⟨[], 6, 0⟩ : PageExtentAllocator).release [⟨0, 2⟩, ⟨2, 2⟩, ⟨4, 2⟩]).2) := by
  have hl : LegalReturn 6 (PageExtentAllocator.freePages ⟨[], 6, 0⟩) [⟨0, 2⟩, ⟨2, 2⟩, ⟨4, 2⟩] :=
    (PageExtentAllocator.release_ok_iff (a := ⟨[], 6, 0⟩) ⟨by decide, by simp, by simp, by simp, rfl⟩
      (by decide)).1 (by decide)
  exact (allocator_canonical (n := 6) (a := ⟨[], 6, 0⟩)
    ⟨by decide, ⟨[⟨0, 6⟩], 6, 6⟩, [.allocate 6], rfl, by decide, by decide⟩).2.1 _ _ hl
    (.of_perm hl (by decide))

end SpdkConnector
