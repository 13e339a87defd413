import SpdkConnector.AllocatorRuns
import Mathlib.Order.Interval.Finset.Nat

/-!
# Where `allocate` puts an allocation

First fit over a sorted free map hands out the lowest free pages, whatever the fragmentation. `pagesOf` is
the set of pages an extent list stands for, and `Lowest` what the first pages of a set are; `cut_spec`
(AllocatorProofs) says that the scan cuts the free map into the two parts, in order.
-/

namespace SpdkConnector

/-- The pages the extents list. -/
def pagesOf : List PageExtent → Finset Nat
  | [] => ∅
  | e :: es => Finset.Ico e.firstPage e.stop ∪ pagesOf es

@[simp] theorem mem_pagesOf {es : List PageExtent} {p : Nat} : p ∈ pagesOf es ↔ Covers es p := by
  induction es with
  | nil => simp [pagesOf]
  | cons e es ih => simp [pagesOf, ih, PageExtent.Has]

theorem pagesOf_eq_iff {xs ys : List PageExtent} :
    pagesOf xs = pagesOf ys ↔ ∀ p, Covers xs p ↔ Covers ys p := by
  simp [Finset.ext_iff]

/-- Extents that share no page list as many pages as their counts say. -/
theorem card_pagesOf {es : List PageExtent} (hpos : ∀ e ∈ es, 0 < e.pageCount)
    (h : es.Pairwise PageExtent.Apart) : (pagesOf es).card = pageSum es := by
  induction es with
  | nil => rfl
  | cons e es ih =>
    obtain ⟨h1, h2⟩ := List.pairwise_cons.1 h
    have hdis : Disjoint (Finset.Ico e.firstPage e.stop) (pagesOf es) := by
      rw [Finset.disjoint_left]
      rintro p hp hq
      obtain ⟨x, hx, hxp⟩ := mem_pagesOf.1 hq
      exact (apart_iff (hpos e (by simp)) (hpos x (by simp [hx]))).1 (h1 x hx) p
        ⟨by simpa [PageExtent.Has] using hp, hxp⟩
    have ih' := ih (fun x hx => hpos x (List.mem_cons_of_mem e hx)) h2
    rw [pagesOf, Finset.card_union_of_disjoint hdis, Nat.card_Ico, ih', pageSum_cons]
    unfold PageExtent.stop
    omega

/-- `S` holds the `n` lowest elements of `F`. -/
structure Lowest (F : Finset Nat) (n : Nat) (S : Finset Nat) : Prop where
  subset : S ⊆ F
  card : S.card = n
  below : ∀ p ∈ S, ∀ q ∈ F, q ∉ S → p < q

/-- No two sets hold the `n` lowest elements of `F`. -/
theorem Lowest.unique {F S T : Finset Nat} {n : Nat} (hs : Lowest F n S) (ht : Lowest F n T) : S = T := by
  apply Finset.eq_of_subset_of_card_le
  · intro p hp
    by_contra hpt
    -- `T` is as large as `S`, so it has a page that `S` lacks, which is above `p` and below it
    obtain ⟨q, hq, hqs⟩ : ∃ q ∈ T, q ∉ S := by
      by_contra hno
      push Not at hno
      have hsub : T ⊂ S := ⟨hno, fun hle => hpt (hle hp)⟩
      have := Finset.card_lt_card hsub
      rw [hs.card, ht.card] at this
      omega
    have h1 := hs.below p hp q (ht.subset hq) hqs
    have h2 := ht.below q hq p (hs.subset hp) hpt
    omega
  · rw [hs.card, ht.card]

namespace PageExtentAllocator

/-- The set of free pages. -/
def freePages (a : PageExtentAllocator) : Finset Nat := pagesOf a.freeExtents

variable {a : PageExtentAllocator}

theorem WF.card_freePages (h : a.WF) : a.freePages.card = a.freePageCount := by
  rw [h.count]
  exact card_pagesOf h.pos (pairwise_le_apart (sorted_weaken h.sorted))

/-- What a granted request hands out: increasing extents with a page between consecutive ones, of the
lowest free pages, which are then no longer free. -/
structure Placed (a : PageExtentAllocator) (n : Nat) (es : List PageExtent) (a' : PageExtentAllocator) : Prop where
  sorted : es.Pairwise (fun x y => x.stop < y.firstPage)
  pos : ∀ e ∈ es, 0 < e.pageCount
  lowest : Lowest a.freePages n (pagesOf es)
  rest : a'.freePages = a.freePages \ pagesOf es

/-- A request within the capacity is placed on the lowest pages. -/
theorem allocate_placed (h : a.WF) {n : Nat} (hpos : 0 < n) (hn : n ≤ a.freePageCount) :
    ∃ es a', a.allocate n = (.ok es, a') ∧ Placed a n es a' := by
  have hle : n ≤ pageSum a.freeExtents := h.count ▸ hn
  obtain ⟨c1, c2, -, c4, c5, -, c7⟩ := cut_spec h.sorted h.pos hpos hle
  have hes : ∀ e ∈ takePages n a.freeExtents, 0 < e.pageCount := fun e he =>
    (c4 e (List.mem_append_left _ he)).1
  have hcut : ∀ p q, Covers (takePages n a.freeExtents) p → Covers (dropPages n a.freeExtents) q → p < q := by
    rintro p q ⟨x, hx, hxp⟩ ⟨y, hy, hyq⟩
    have := (List.pairwise_append.1 c1).2.2 x hx y hy
    simp only [PageExtent.Has] at hxp hyq
    omega
  refine ⟨_, _, allocate_eq h hpos hn, c2, hes, ⟨fun p hp => ?_, ?_, fun p hp q hq hqs => ?_⟩, ?_⟩
  · exact mem_pagesOf.2 ((c7 p).1 (covers_append.2 (.inl (mem_pagesOf.1 hp))))
  · rw [card_pagesOf hes (pairwise_le_apart (sorted_weaken c2)), c5]
  · rw [mem_pagesOf] at hp hqs
    have hq' := covers_append.1 ((c7 q).2 (mem_pagesOf.1 hq))
    exact hcut p q hp (hq'.resolve_left hqs)
  · ext p
    simp only [freePages, Finset.mem_sdiff, mem_pagesOf, ← c7 p, covers_append]
    constructor
    · intro hp
      exact ⟨.inr hp, fun ht => Nat.lt_irrefl p (hcut p p ht hp)⟩
    · rintro ⟨ht | hp, hnt⟩
      · exact absurd ht hnt
      · exact hp

/-- Any other request is refused. -/
theorem allocate_refused {n : Nat} (hn : n = 0 ∨ a.freePageCount < n) :
    ∃ x, a.allocate n = (.error x, a) := by
  unfold allocate
  by_cases h0 : n = 0
  · exact ⟨_, by rw [if_pos h0]⟩
  · exact ⟨_, by rw [if_neg h0, if_pos (hn.resolve_left h0)]⟩

end PageExtentAllocator

/-- The allocator of `n` pages after a sequence of calls with arbitrary arguments. -/
def ReachableAllocator (n : Nat) (a : PageExtentAllocator) : Prop :=
  n < 2 ^ 64 ∧ ∃ a0 cs, PageExtentAllocator.new n = .ok a0 ∧ (∀ c ∈ cs, AllocatorCall.Fits c) ∧
    a = (a0.calls cs).2

theorem ReachableAllocator.wf {n : Nat} {a : PageExtentAllocator} (h : ReachableAllocator n a) :
    a.WF ∧ a.totalPageCount = n := by
  obtain ⟨hn, a0, cs, hnew, hcs, rfl⟩ := h
  obtain ⟨hwf, htotal, -⟩ := new_wf hn hnew
  obtain ⟨h1, h2, -⟩ := PageExtentAllocator.calls_keep hwf hcs
  exact ⟨h1, h2.trans htotal⟩

/-- **First fit**: in every reachable state `allocate` throws exactly for an empty request or one beyond the
free pages, and changes nothing; otherwise it hands out the lowest free pages, in order. -/
theorem allocate_lowest {m : Nat} {a : PageExtentAllocator} (ha : ReachableAllocator m a) (n : Nat) :
    ((∃ x, (a.allocate n).1 = .error x) ↔ n = 0 ∨ a.freePages.card < n) ∧
    (∀ x, (a.allocate n).1 = .error x → (a.allocate n).2 = a) ∧
    ∀ es, (a.allocate n).1 = .ok es → PageExtentAllocator.Placed a n es (a.allocate n).2 := by
  have h := ha.wf.1
  rw [h.card_freePages]
  by_cases hn : n = 0 ∨ a.freePageCount < n
  · obtain ⟨x, hx⟩ := PageExtentAllocator.allocate_refused hn
    rw [hx]
    exact ⟨⟨fun _ => hn, fun _ => ⟨x, rfl⟩⟩, fun _ _ => rfl, nofun⟩
  · obtain ⟨es, a', heq, hp⟩ := PageExtentAllocator.allocate_placed h (n := n) (by omega) (by omega)
    rw [heq]
    refine ⟨⟨nofun, fun h => absurd h hn⟩, nofun, fun ys hys => ?_⟩
    cases hys
    exact hp

/-- The fragmented request of the allocator's test: pages 3 and 4 stay with their owner. -/
theorem allocate_lowest_fragmented :
    PageExtentAllocator.Placed ⟨[⟨0, 3⟩, ⟨5, 5⟩], 10, 8⟩ 4 [⟨0, 3⟩, ⟨5, 1⟩] ⟨[⟨6, 4⟩], 10, 4⟩ :=
  (allocate_lowest (m := 10) (a := ⟨[⟨0, 3⟩, ⟨5, 5⟩], 10, 8⟩)
    ⟨by decide, ⟨[⟨0, 10⟩], 10, 10⟩, [.allocate 3, .allocate 2, .release [⟨0, 3⟩]], rfl, by decide, by decide⟩
    4).2.2 [⟨0, 3⟩, ⟨5, 1⟩] (by decide)

end SpdkConnector
