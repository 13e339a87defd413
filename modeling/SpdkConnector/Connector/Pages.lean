import SpdkConnector.Connector.Refinement
import Mathlib.Order.Interval.Finset.Nat

/-!
# Page ownership

Every page of the device is, at every moment of every run, in exactly one of three places: the
allocator's free map, the entry of one key state, or the private hands of one running operation. So no
release is refused and, when nothing runs, the free count is what the bound keys leave.
-/

namespace SpdkConnector

open Interleaving

variable {g : StorageGeometry}

/-- The free pages, the pages of each published entry and those each operation holds privately: disjoint,
each counted once, and together all the pages. -/
structure PagesPartitioned (n : Nat) (s : Shared) : Prop where
  cover : ∀ p, p < n ↔ Covers s.allocator.freeExtents p ∨ (∃ q, Covers (extentsOf (s.entry q)) p) ∨
    ∃ t, Covers (s.held t) p
  free_published : ∀ q p, ¬ (Covers s.allocator.freeExtents p ∧ Covers (extentsOf (s.entry q)) p)
  free_held : ∀ t p, ¬ (Covers s.allocator.freeExtents p ∧ Covers (s.held t) p)
  published_held : ∀ q t p, ¬ (Covers (extentsOf (s.entry q)) p ∧ Covers (s.held t) p)
  published_apart : ∀ q q' p, q ≠ q' → ¬ (Covers (extentsOf (s.entry q)) p ∧ Covers (extentsOf (s.entry q')) p)
  held_apart : ∀ t u p, t ≠ u → ¬ (Covers (s.held t) p ∧ Covers (s.held u) p)
  free_once : Owned n s.allocator.freeExtents
  published_once : ∀ q, Owned n (extentsOf (s.entry q))
  held_once : ∀ t, Owned n (s.held t)

theorem PageExtentAllocator.WF.owned {a : PageExtentAllocator} (h : a.WF) :
    Owned a.totalPageCount a.freeExtents :=
  ⟨h.pos, h.bound, h.sorted.imp fun h => .inl (Nat.le_of_lt h)⟩

/-- The owner of each page is one of the three. -/
theorem Inv.partitioned {s : Shared} {γ : Ghost} (hi : Inv g s γ) : PagesPartitioned g.pageCount s where
  cover p := by
    simp only [hi.free_page, hi.entry_page, hi.held_page]
    constructor
    · intro hp
      cases ho : γ.page p with
      | free => exact .inl ⟨hp, rfl⟩
      | entry q => exact .inr (.inl ⟨q, hp, rfl⟩)
      | task t => exact .inr (.inr ⟨t, hp, rfl⟩)
    · rintro (⟨hp, -⟩ | ⟨q, hp, -⟩ | ⟨t, hp, -⟩) <;> exact hp
  free_published q p h := by
    rw [hi.free_page, hi.entry_page] at h
    have := h.1.2.symm.trans h.2.2
    cases this
  free_held t p h := by
    rw [hi.free_page, hi.held_page] at h
    have := h.1.2.symm.trans h.2.2
    cases this
  published_held q t p h := by
    rw [hi.entry_page, hi.held_page] at h
    have := h.1.2.symm.trans h.2.2
    cases this
  published_apart q q' p hne h := by
    rw [hi.entry_page, hi.entry_page] at h
    exact hne (PageOwner.entry.inj (h.1.2.symm.trans h.2.2))
  held_apart t u p hne h := by
    rw [hi.held_page, hi.held_page] at h
    exact hne (PageOwner.task.inj (h.1.2.symm.trans h.2.2))
  free_once := hi.total ▸ hi.alloc.owned
  published_once := hi.extents_owned
  held_once := hi.held_owned

/-! ## Counting -/

open Classical in
/-- Owned extents list each of their pages once. -/
theorem pageSum_eq_card {n : Nat} : ∀ {es : List PageExtent}, Owned n es →
    pageSum es = ((Finset.range n).filter (Covers es)).card
  | [], _ => by simp
  | e :: es, h => by
    have hrange : (Finset.range n).filter e.Has = Finset.Ico e.firstPage e.stop := by
      have hb := h.bound e (by simp)
      ext p
      simp only [Finset.mem_filter, Finset.mem_range, Finset.mem_Ico, PageExtent.Has]
      omega
    have hsplit : (Finset.range n).filter (Covers (e :: es)) =
        (Finset.range n).filter e.Has ∪ (Finset.range n).filter (Covers es) := by
      ext p
      simp only [Finset.mem_filter, Finset.mem_union, covers_cons]
      tauto
    have hdisj : Disjoint ((Finset.range n).filter e.Has) ((Finset.range n).filter (Covers es)) := by
      refine Finset.disjoint_left.2 fun p hp hp' => ?_
      exact owned_head_apart h p ⟨(Finset.mem_filter.1 hp).2, (Finset.mem_filter.1 hp').2⟩
    rw [hsplit, Finset.card_union_of_disjoint hdisj, ← pageSum_eq_card (owned_tail h), hrange, Nat.card_Ico,
      pageSum_cons, PageExtent.stop]
    omega

/-- Extents that own every page sum to the page count. -/
theorem pageSum_all {n : Nat} {es : List PageExtent} (h : Owned n es) (hall : ∀ p < n, Covers es p) :
    pageSum es = n := by
  classical
  rw [pageSum_eq_card h, Finset.filter_true_of_mem fun p hp => hall p (Finset.mem_range.1 hp), Finset.card_range]

/-- The pages of the entries of some key states. -/
theorem entries_owned {n : Nat} {s : Shared} (hp : PagesPartitioned n s) :
    ∀ {qs : List Nat}, qs.Nodup → Owned n (qs.flatMap fun q => extentsOf (s.entry q))
  | [], _ => ⟨by simp, by simp, .nil⟩
  | q :: qs, hn => by
    obtain ⟨hq, hn'⟩ := List.nodup_cons.1 hn
    rw [List.flatMap_cons]
    refine (hp.published_once q).append (entries_owned hp hn') fun p ⟨h1, h2⟩ => ?_
    obtain ⟨e, he, hep⟩ := h2
    obtain ⟨q', hq', he'⟩ := List.mem_flatMap.1 he
    exact hp.published_apart q q' p (by rintro rfl; exact hq hq') ⟨h1, e, he', hep⟩

/-- The pages a bound key needs: `PagesForBytes` of its logical size. -/
def pagesNeeded (g : StorageGeometry) (e : Option Entry) : Nat :=
  match e with
  | none => 0
  | some e => (pagesForBytes g e.logicalSize).toOption.getD 0

/-- The pages all the bound keys need. -/
def boundPages (g : StorageGeometry) (s : Shared) : Nat :=
  (s.keyStates.map fun x => pagesNeeded g (s.entry x.2)).sum

theorem Inv.pagesNeeded_eq {s : Shared} {γ : Ghost} (hi : Inv g s γ) (q : Nat) :
    pagesNeeded g (s.entry q) = pageSum (extentsOf (s.entry q)) := by
  cases he : s.entry q with
  | none => rfl
  | some e => simp [pagesNeeded, (hi.entry_ok q e he).needs, Except.toOption, extentsOf]

theorem pageSum_flatMap (f : Nat → List PageExtent) : ∀ qs : List Nat,
    pageSum (qs.flatMap f) = (qs.map fun q => pageSum (f q)).sum
  | [] => rfl
  | q :: qs => by simp [pageSum_flatMap f qs]

/-- When nobody holds a page privately, the free pages and the bound keys' pages are all the pages. -/
theorem Inv.count {s : Shared} {γ : Ghost} (hi : Inv g s γ) (hheld : ∀ t, s.held t = []) :
    s.allocator.freePageCount + boundPages g s = g.pageCount := by
  have hp := hi.partitioned
  have hsum : boundPages g s =
      pageSum ((s.keyStates.map Prod.snd).flatMap fun q => extentsOf (s.entry q)) := by
    simp only [boundPages, pageSum_flatMap, List.map_map, hi.pagesNeeded_eq, Function.comp_def]
  have howned : Owned g.pageCount (s.allocator.freeExtents ++
      (s.keyStates.map Prod.snd).flatMap fun q => extentsOf (s.entry q)) := by
    refine hp.free_once.append (entries_owned hp hi.states_nodup) fun p ⟨h1, e, he, hep⟩ => ?_
    obtain ⟨q, -, he'⟩ := List.mem_flatMap.1 he
    exact hp.free_published q p ⟨h1, e, he', hep⟩
  rw [hi.alloc.count, hsum, ← pageSum_append]
  refine pageSum_all howned fun p hlt => ?_
  rcases (hp.cover p).1 hlt with h | ⟨q, e, he, hep⟩ | ⟨t, h⟩
  · exact covers_append.2 (.inl h)
  · refine covers_append.2 (.inr ⟨e, List.mem_flatMap.2 ⟨q, ?_, he⟩, hep⟩)
    -- an address nobody knows has no entry
    by_contra hq
    rw [(hi.unknown_state q hq).1] at he
    simp [extentsOf] at he
  · rw [hheld t] at h; simp at h

/-! ## Every reachable state -/

/-- A thread that is not in a call holds no page. -/
theorem not_running_held (hg : g.Valid) {pool : Pool Shared Call Cmd Answer Exn Ret} {γ : Ghost}
    (h : LocalLogic.PoolOk (connectorLogic hg) (fun _ => View.idle) Done pool γ) {t : Nat}
    (ht : pool.tasks t = none) : pool.shared.held t = [] := by
  by_cases hd : ∃ d ∈ pool.done, d.1 = t
  · obtain ⟨⟨t, c, o⟩, hd, rfl⟩ := hd
    obtain ⟨v, hv, -, hp, -⟩ := h.done _ c o hd
    exact hv.held.trans hp
  · exact (h.fresh t ht fun d hd' e => hd ⟨d, hd', e⟩).held

/-- The release a thread is about to make is accepted. -/
theorem next_release_accepted (hg : g.Valid) {pool : Pool Shared Call Cmd Answer Exn Ret} {γ : Ghost}
    (h : LocalLogic.PoolOk (connectorLogic hg) (fun _ => View.idle) Done pool γ) {t : Nat} {c : Call}
    {es : List PageExtent} {k : Except Exn Unit → P Ret} (ht : pool.tasks t = some ⟨c, .call (.release es) k⟩) :
    ∃ a', pool.shared.allocator.release es = (.ok (), a') := by
  obtain ⟨v, hv, -, v1, hm, hw⟩ := h.running t c _ ht
  obtain ⟨γ1, ⟨hi1, -⟩, hv1, -⟩ := LocalLogic.moves_sound h.inv hv hm
  obtain ⟨a', ha', -⟩ := release_accepted hi1 hv1 (hw (hv1.wf hi1)).1
  exact ⟨a', ha'⟩

/-- **Page ownership**: in every reachable state the pages are partitioned, only running operations hold
pages privately, the release a thread is about to make is accepted, and when nothing runs no page is
missing. -/
theorem pages_owned {nb bs wu ba seg mx bc : Nat} {a : PageExtentAllocator}
    (hgeo : buildStorageGeometry nb bs wu ba seg mx bc = .ok g)
    (ha : PageExtentAllocator.new g.pageCount = .ok a) {dev : Nat → UInt8} {acts : List (Act Call Choice)}
    {pool : Pool Shared Call Cmd Answer Exn Ret}
    (hrun : (Pool.init (Shared.init a dev)).run (connector g) acts = some pool) :
    PagesPartitioned g.pageCount pool.shared ∧
    (∀ t, pool.tasks t = none → pool.shared.held t = []) ∧
    (∀ t c es k, pool.tasks t = some ⟨c, .call (.release es) k⟩ →
      ∃ a', pool.shared.allocator.release es = (.ok (), a')) ∧
    ((∀ t, pool.tasks t = none) →
      pool.shared.allocator.freePageCount + boundPages g pool.shared = g.pageCount) := by
  have hg := buildStorageGeometry_valid hgeo
  obtain ⟨γ, h⟩ := pool_ok hg ha hrun
  exact ⟨h.inv.partitioned, fun t => not_running_held hg h, fun t c es k ht => next_release_accepted hg h ht,
    fun hidle => h.inv.count fun t => not_running_held hg h (hidle t)⟩

/-- After two sets and a get of one key nobody holds a page, and none is missing. -/
theorem pages_owned_three : ∃ pool,
    (Pool.init (Shared.init ⟨[⟨0, 4⟩], 4, 4⟩ fun _ => 0)).run (connector ⟨8, 8, 2, 4, 2, 0, 2, 1, 1, 1⟩)
      threeCalls = some pool ∧ pool.done = threeOutcomes ∧ PagesPartitioned 4 pool.shared ∧
    (∀ t, pool.shared.held t = []) ∧
    pool.shared.allocator.freePageCount + boundPages ⟨8, 8, 2, 4, 2, 0, 2, 1, 1, 1⟩ pool.shared = 4 := by
  obtain ⟨pool, hrun, hdone, hidle⟩ := threeCalls_run
  obtain ⟨hparts, hheld, -, hcount⟩ := pages_owned (g := ⟨8, 8, 2, 4, 2, 0, 2, 1, 1, 1⟩) (a := ⟨[⟨0, 4⟩], 4, 4⟩)
    (show buildStorageGeometry 4 2 1 1 2 0 1 = .ok _ from rfl) rfl hrun
  exact ⟨pool, hrun, hdone, hparts, fun t => hheld t (hidle t), hcount hidle⟩

end SpdkConnector
