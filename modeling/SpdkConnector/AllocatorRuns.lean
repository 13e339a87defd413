import SpdkConnector.AllocatorProofs
import Mathlib.Data.List.Pairwise

/-!
# The allocator under arbitrary calls

What `allocate` and `release` do on any argument, legal or not, and from it the representation invariant
over every sequence of calls. A call that throws leaves a well-formed allocator behind, and none of the
checks of the accounting itself (`std::logic_error`, `std::overflow_error`) ever fires.
-/

namespace SpdkConnector

/-- Both fields are `std::uint64_t`s. -/
def PageExtent.Fits (e : PageExtent) : Prop := e.firstPage < 2 ^ 64 ∧ e.pageCount < 2 ^ 64

instance (e : PageExtent) : Decidable e.Fits := inferInstanceAs (Decidable (_ ∧ _))

namespace PageExtentAllocator

variable {a : PageExtentAllocator}

/-- What `release` may take back: a nonempty extent of the device, none of whose pages is free. -/
structure Returnable (a : PageExtentAllocator) (e : PageExtent) : Prop where
  pos : 0 < e.pageCount
  bound : e.stop ≤ a.totalPageCount
  apart : ∀ p, ¬ (e.Has p ∧ Covers a.freeExtents p)

/-- The checks of `insert_free_extent_locked` find every overlap (:99, :107). -/
theorem neighbours_overlap {m : List PageExtent} {e : PageExtent}
    (hs : m.Pairwise (fun x y => x.stop < y.firstPage)) {hi : Nat} (hhi : hi < 2 ^ 64)
    (hb : ∀ x ∈ m, x.stop ≤ hi) (hbe : e.stop ≤ hi)
    (hd : ∃ p, e.Has p ∧ Covers m p) : insertFreeExtentLocked m e = .error overlaps := by
  unfold insertFreeExtentLocked
  have hsplit := List.takeWhile_append_dropWhile (p := fun x : PageExtent => decide (x.firstPage < e.firstPage)) (l := m)
  have hafter : ∀ y ∈ (m.dropWhile (·.firstPage < e.firstPage)).head?, e.firstPage ≤ y.firstPage := by
    intro y hy
    have := List.head?_dropWhile_not (fun x : PageExtent => decide (x.firstPage < e.firstPage)) m
    rw [Option.mem_def] at hy
    simpa [hy] using this
  generalize m.takeWhile (·.firstPage < e.firstPage) = before at *
  generalize m.dropWhile (·.firstPage < e.firstPage) = after at *
  subst hsplit
  obtain ⟨p, hep, x, hx, hxp⟩ := hd
  have hend : add64 e.firstPage e.pageCount = e.stop := add64_exact (by unfold PageExtent.stop at hbe; omega)
  obtain ⟨h1, h2, h3⟩ := List.pairwise_append.1 hs
  by_cases hprev : before.getLast?.any (fun p => decide (add64 p.firstPage p.pageCount > e.firstPage)) = true
  · simp only [hprev, if_true]
    rfl
  · have hprev' : before.getLast?.any (fun p => decide (add64 p.firstPage p.pageCount > e.firstPage)) = false := by
      simpa using hprev
    -- the last extent before `e` ends before it, so all do, and the shared page is in a later one
    have hbefore : ∀ z ∈ before, z.stop ≤ e.firstPage := by
      intro z hz
      obtain ⟨q, hq⟩ : ∃ q, before.getLast? = some q := by
        cases hg : before.getLast? with
        | none => simp [List.getLast?_eq_none_iff.1 hg] at hz
        | some q => exact ⟨q, rfl⟩
      obtain ⟨zs, hzs⟩ := List.getLast?_eq_some_iff.1 hq
      have hqb := hb q (by simp [hzs])
      have hqend : add64 q.firstPage q.pageCount = q.stop := add64_exact (by unfold PageExtent.stop at hqb; omega)
      have hqle : q.stop ≤ e.firstPage := by
        simp only [hq, Option.any_some, decide_eq_false_iff_not, hqend] at hprev'
        omega
      rw [hzs] at hz h1
      rcases List.mem_append.1 hz with hz | hz
      · have := (List.pairwise_append.1 h1).2.2 z hz q (by simp)
        unfold PageExtent.stop at *
        omega
      · rw [List.mem_singleton.1 hz]
        exact hqle
    have hxa : x ∈ after := by
      rcases List.mem_append.1 hx with hx | hx
      · have := hbefore x hx
        simp only [PageExtent.Has] at hep hxp
        omega
      · exact hx
    have hnext : after.head?.any (fun n => decide (e.stop > n.firstPage)) = true := by
      cases after with
      | nil => simp at hxa
      | cons n ys =>
        simp only [List.head?_cons, Option.any_some, decide_eq_true_eq]
        rcases List.mem_cons.1 hxa with rfl | hxa
        · simp only [PageExtent.Has] at hep hxp
          omega
        · have := (List.pairwise_cons.1 h2).1 x hxa
          simp only [PageExtent.Has, PageExtent.stop] at *
          omega
    simp only [hprev', hend, hnext, Bool.false_eq_true, if_false, if_true]
    rfl

/-- **One extent** is taken back when it is returnable, and refused with nothing changed otherwise. -/
theorem releaseOne_cases (h : a.WF) {e : PageExtent} (he : e.Fits) :
    (a.Returnable e ∧ ∃ a', a.releaseOne e = (.ok (), a') ∧ Released a [e] a') ∨
    (¬ a.Returnable e ∧ ∃ x, x.kind = .invalidArgument ∧ a.releaseOne e = (.error x, a)) := by
  by_cases hr : a.Returnable e
  · exact .inl ⟨hr, releaseOne_spec h hr.pos hr.bound hr.apart⟩
  · refine .inr ⟨hr, ?_⟩
    have htot := h.total_lt
    obtain ⟨hf, hc⟩ := he
    unfold releaseOne
    by_cases hguard : e.pageCount = 0 ∨ e.firstPage > u64Max - e.pageCount ∨
        add64 e.firstPage e.pageCount > a.totalPageCount
    · exact ⟨_, rfl, by rw [if_pos hguard]⟩
    · simp only [not_or, u64Max] at hguard
      have hend : add64 e.firstPage e.pageCount = e.stop := add64_exact (by omega)
      have hbound : e.stop ≤ a.totalPageCount := by omega
      have hover : ∃ p, e.Has p ∧ Covers a.freeExtents p := by
        by_contra hno
        exact hr ⟨by omega, hbound, fun p hp => hno ⟨p, hp⟩⟩
      refine ⟨overlaps, rfl, ?_⟩
      rw [if_neg (by simp only [u64Max, not_or]; omega),
        neighbours_overlap h.sorted htot h.bound hbound hover]

/-- Whatever `release` is given, it leaves a well-formed allocator, and refuses nothing but arguments. -/
theorem release_keeps : ∀ {es : List PageExtent} {a : PageExtentAllocator}, a.WF → (∀ e ∈ es, e.Fits) →
    (a.release es).2.WF ∧ (a.release es).2.totalPageCount = a.totalPageCount ∧
    ∀ x, (a.release es).1 = .error x → x.kind = .invalidArgument
  | [], a, h, _ => ⟨h, rfl, nofun⟩
  | e :: es, a, h, hes => by
    rcases releaseOne_cases h (hes e (by simp)) with ⟨-, a1, h1, r1⟩ | ⟨-, x, hx, h1⟩
    · have ih := release_keeps (a := a1) r1.wf fun y (hy : y ∈ es) => hes y (List.mem_cons_of_mem _ hy)
      simp only [release, h1]
      exact ⟨ih.1, ih.2.1.trans r1.total, ih.2.2⟩
    · simp only [release, h1]
      exact ⟨h, trivial, fun y hy => by cases hy; exact hx⟩

/-- Whatever `allocate` is given, likewise; it refuses an empty request or one beyond the capacity. -/
theorem allocate_keeps (h : a.WF) (n : Nat) :
    (a.allocate n).2.WF ∧ (a.allocate n).2.totalPageCount = a.totalPageCount ∧
    ∀ x, (a.allocate n).1 = .error x → x.kind = .invalidArgument ∨ x.kind = .runtimeError := by
  rcases allocate_spec h n with ⟨x, heq, hn⟩ | ⟨es, a', heq, -, -, hal⟩
  · rw [heq]
    refine ⟨h, rfl, fun y hy => ?_⟩
    cases hy
    unfold allocate at heq
    by_cases h0 : n = 0
    · rw [if_pos h0] at heq
      cases heq
      exact .inl rfl
    · rw [if_neg h0, if_pos (hn.resolve_left h0)] at heq
      cases heq
      exact .inr rfl
  · rw [heq]
    exact ⟨hal.wf, hal.total, nofun⟩

end PageExtentAllocator

/-! ## Sequences of calls -/

inductive AllocatorCall where
  | allocate (pageCount : Nat)
  | release (extents : List PageExtent)
deriving DecidableEq, Repr

/-- The arguments are `std::uint64_t`s. -/
def AllocatorCall.Fits : AllocatorCall → Prop
  | .allocate n => n < 2 ^ 64
  | .release es => ∀ e ∈ es, e.Fits

instance : ∀ c : AllocatorCall, Decidable c.Fits
  | .allocate n => inferInstanceAs (Decidable (n < 2 ^ 64))
  | .release es => inferInstanceAs (Decidable (∀ e ∈ es, e.Fits))

namespace PageExtentAllocator

/-- One call: what it returns or throws, and the allocator after it. -/
def call (a : PageExtentAllocator) : AllocatorCall → Except Exn (List PageExtent) × PageExtentAllocator
  | .allocate n => a.allocate n
  | .release es => ((a.release es).1.map fun _ => [], (a.release es).2)

/-- The outcomes of a sequence of calls, and the allocator after the last. -/
def calls (a : PageExtentAllocator) :
    List AllocatorCall → List (Except Exn (List PageExtent)) × PageExtentAllocator
  | [] => ([], a)
  | c :: cs =>
    let r := (a.call c).2.calls cs
    ((a.call c).1 :: r.1, r.2)

variable {a : PageExtentAllocator}

/-- An exception about the caller's arguments or the capacity. -/
def Refusal (x : Exn) : Prop := x.kind = .invalidArgument ∨ x.kind = .runtimeError

/-- One call keeps the allocator well formed. -/
theorem call_keeps (h : a.WF) {c : AllocatorCall} (hc : c.Fits) :
    (a.call c).2.WF ∧ (a.call c).2.totalPageCount = a.totalPageCount ∧
    ∀ x, (a.call c).1 = .error x → Refusal x := by
  cases c with
  | allocate n => exact allocate_keeps h n
  | release es =>
    obtain ⟨h1, h2, h3⟩ := release_keeps h hc
    refine ⟨h1, h2, fun x hx => ?_⟩
    cases hr : (a.release es).1 with
    | error y =>
      simp only [call, hr, Except.map] at hx
      cases hx
      exact .inl (h3 _ hr)
    | ok u => simp [call, hr, Except.map] at hx

/-- So does every sequence of them. -/
theorem calls_keep : ∀ {cs : List AllocatorCall} {a : PageExtentAllocator}, a.WF → (∀ c ∈ cs, c.Fits) →
    (a.calls cs).2.WF ∧ (a.calls cs).2.totalPageCount = a.totalPageCount ∧
    ∀ x, .error x ∈ (a.calls cs).1 → Refusal x
  | [], _, h, _ => ⟨h, rfl, nofun⟩
  | c :: cs, a, h, hcs => by
    obtain ⟨h1, h2, h3⟩ := call_keeps h (hcs c (by simp))
    have htail : ∀ d ∈ cs, d.Fits := fun d hd => hcs d (List.mem_cons_of_mem c hd)
    obtain ⟨h4, h5, h6⟩ := calls_keep h1 htail
    refine ⟨h4, h5.trans h2, fun x hx => ?_⟩
    rcases List.mem_cons.1 hx with hx | hx
    · exact h3 x hx.symm
    · exact h6 x hx

/-- The page behind a free extent is not free. -/
theorem WF.gap (h : a.WF) {e : PageExtent} (he : e ∈ a.freeExtents) : ¬ Covers a.freeExtents e.stop := by
  rintro ⟨x, hx, hp⟩
  have hsym : a.freeExtents.Pairwise (fun x y => x.stop < y.firstPage ∨ y.stop < x.firstPage) :=
    h.sorted.imp .inl
  have : Std.Symm fun x y : PageExtent => x.stop < y.firstPage ∨ y.stop < x.firstPage := ⟨fun _ _ h => h.symm⟩
  by_cases hne : x = e
  · subst hne
    simp only [PageExtent.Has] at hp
    omega
  · have hpos := h.pos e he
    have := hsym.forall hx he hne
    simp only [PageExtent.Has, PageExtent.stop] at hp this
    omega

end PageExtentAllocator

/-- The free map as the allocator means it: positive extents of the pages below `n`, in increasing order
with a page between consecutive ones, which is not free, and the count of its pages. -/
structure FreeMapExact (n : Nat) (a : PageExtentAllocator) : Prop where
  total : a.totalPageCount = n
  pos : ∀ e ∈ a.freeExtents, 0 < e.pageCount
  bound : ∀ e ∈ a.freeExtents, e.stop ≤ n
  sorted : a.freeExtents.Pairwise (fun x y => x.stop < y.firstPage)
  gap : ∀ e ∈ a.freeExtents, ¬ Covers a.freeExtents e.stop
  count : a.freePageCount = pageSum a.freeExtents
  count_le : a.freePageCount ≤ n

/-- **The representation invariant**: after every sequence of calls, with any arguments, the free map is
exact, and no call ever threw a `std::logic_error` or a `std::overflow_error`. -/
theorem allocator_invariant {n : Nat} {a : PageExtentAllocator} (hn : n < 2 ^ 64)
    (hnew : PageExtentAllocator.new n = .ok a) {cs : List AllocatorCall} (hcs : ∀ c ∈ cs, c.Fits) :
    FreeMapExact n (a.calls cs).2 ∧
    ∀ x, .error x ∈ (a.calls cs).1 → x.kind ≠ .logicError ∧ x.kind ≠ .overflowError := by
  obtain ⟨hwf, htotal, -⟩ := new_wf hn hnew
  obtain ⟨h1, h2, h3⟩ := PageExtentAllocator.calls_keep hwf hcs
  rw [htotal] at h2
  refine ⟨⟨h2, h1.pos, h2 ▸ h1.bound, h1.sorted, fun e he => h1.gap he, h1.count, ?_⟩, fun x hx => ?_⟩
  · rw [h1.count, ← h2]
    exact h1.free_le
  · rcases h3 x hx with hk | hk <;> simp [hk]

theorem allocator_invariant_four :
    FreeMapExact 4 ((⟨[⟨0, 4⟩], 4, 4⟩ : PageExtentAllocator).calls
      [.allocate 3, .release [⟨1, 1⟩, ⟨1, 1⟩], .allocate 2, .release [⟨0, 1⟩], .allocate 9]).2 :=
  (allocator_invariant (n := 4) (a := ⟨[⟨0, 4⟩], 4, 4⟩) (by decide) rfl (by decide)).1

end SpdkConnector
