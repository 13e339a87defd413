import SpdkConnector.Connector.BatchSet

/-!
# The connector is a map

`do_single_*` and `do_batch_*` refine the partial map of `MapSpec`, one call after the other
(`calls_refine_map`) and in any interleaving of their steps (`calls_serializable`). Both rest on the same
verified bodies (`body_verified`); the order that serialises a run is the order of the commits.
-/

namespace SpdkConnector

open Interleaving

variable {g : StorageGeometry}

theorem body_verified (hg : g.Valid) (c : Call) :
    (connectorLogic hg).always c View.idle ∧ (connectorLogic hg).wp c (body g c) View.idle (Done c) := by
  refine ⟨by rintro c' o ⟨⟩, ?_⟩
  cases c with
  | get key buffer => exact wp_doSingleGet hg key buffer
  | set key value => exact wp_doSingleSet hg key value
  | exists' key => exact wp_doSingleExists hg key
  | delete key => exact wp_doSingleDelete hg key
  | batchGet slots startIdx res => exact wp_doBatchGet hg slots startIdx res
  | batchSet slots => exact wp_doBatchSet hg slots

/-- Nothing stored, every page free. -/
def Ghost.init : Ghost := ⟨fun _ => none, [], fun _ => .free⟩

theorem init_inv (hg : g.Valid) {a : PageExtentAllocator}
    (ha : PageExtentAllocator.new g.pageCount = .ok a) (dev : Nat → UInt8) :
    Inv g (Shared.init a dev) Ghost.init ∧ ∀ t, Sees g t View.idle (Shared.init a dev) Ghost.init := by
  have hps := hg.pageSize_pos
  have hlt : g.pageCount < 2 ^ 64 := by
    have h1 := hg.usable_eq
    have h2 := hg.usable_le
    have h3 := hg.capacity_lt
    have h4 := Nat.le_mul_of_pos_right g.pageCount hps
    omega
  obtain ⟨hwf, htotal, hfree⟩ := new_wf hlt ha
  have none_owned : Owned g.pageCount [] := ⟨by simp, by simp, .nil⟩
  refine ⟨⟨hwf, htotal, fun p => by simp [Shared.init, Ghost.init, hfree],
    fun q p => by simp [Shared.init, Ghost.init, extentsOf], fun t p => by simp [Shared.init, Ghost.init],
    fun _ => none_owned, fun q e h => by simp [Shared.init] at h, by simp [Shared.init], by simp [Shared.init],
    fun _ _ => rfl, fun _ _ => ⟨rfl, rfl⟩, fun k q h => by simp [Shared.init] at h, rfl,
    by simp [Ghost.init]⟩, fun t => ?_⟩
  exact ⟨fun m => by simp [Shared.init, View.idle], by simp [View.idle], by simp [View.idle],
    by simp [View.idle], by simp [View.idle], by simp [View.idle], rfl,
    fun a h => by simp [View.Access, View.idle] at h, fun c o => by simp [Ghost.init, View.idle]⟩

/-- The bytes stored under a key: those of the entry of its key state. -/
def storedValue (g : StorageGeometry) (s : Shared) (key : Key) : Option Bytes :=
  ((s.keyStates.lookup key).bind s.entry).map (contents g.pageSize s.dev)

/-- When no mutex is held the stored values are the map. -/
theorem Inv.stored {s : Shared} {γ : Ghost} (hi : Inv g s γ) (hfree : ∀ m, s.owner m = none) (k : Key) :
    storedValue g s k = γ.map k := by
  unfold storedValue
  cases hl : s.keyStates.lookup k with
  | none => exact (hi.unknown_key k (lookup_none hl)).symm
  | some q => exact hi.settled k q (lookup_mem hl) (hfree _)

/-! ## One call after the other -/

/-- A sequence of calls, each with the choices its commands meet. The calls are numbered from `t`. -/
def runCalls (g : StorageGeometry) : Nat → List (Call × (Nat → Choice)) → Shared →
    Option (List (Nat × Call × Outcome) × Shared)
  | _, [], s => some ([], s)
  | t, (c, choose) :: calls, s =>
    match (body g c).run (connector g) t choose 0 s with
    | none => none
    | some (o, _, s') =>
      match runCalls g (t + 1) calls s' with
      | none => none
      | some (outs, s'') => some ((t, c, o) :: outs, s'')

/-- No other thread can block `t`. -/
def quiet (t : Nat) (s : Shared) : Prop := ∀ m u, s.owner m = some u → u = t

theorem Mutex.lt_irrefl (m : Mutex) : ¬ m.lt m := by
  cases m <;> simp [Mutex.lt]

/-- A thread that nobody blocks can execute its next command. -/
theorem exec_quiet {t : Nat} {c : Cmd} {v : View} {s : Shared} {γ : Ghost} (ch : Choice)
    (hv : Sees g t v s γ) (hpre : cmdPre g c v) (hq : quiet t s) :
    ∃ r s', exec g t c ch s = some (r, s') ∧ quiet t s' := by
  cases c with
  | lock m =>
    have hfree : s.owner m = none := by
      cases ho : s.owner m with
      | none => rfl
      | some u =>
        rw [hq m u ho, hv.owner] at ho
        exact (m.lt_irrefl (hpre.1 m ho)).elim
    refine ⟨(), _, if_pos hfree, fun m' u h => ?_⟩
    by_cases e : m' = m
    · subst e; simpa using h.symm
    · exact hq m' u (by simpa [Function.update_of_ne e] using h)
  | unlock m =>
    refine ⟨(), _, if_pos ((hv.owner m).2 hpre.1), fun m' u h => ?_⟩
    by_cases e : m' = m
    · subst e; simp at h
    · exact hq m' u (by simpa [Function.update_of_ne e] using h)
  | stateFor key =>
    simp only [exec]
    split
    · exact ⟨_, _, rfl, hq⟩
    · exact ⟨_, _, rfl, hq⟩
  | allocate n =>
    simp only [exec]
    split <;> exact ⟨_, _, rfl, hq⟩
  | release es =>
    simp only [exec]
    split <;> exact ⟨_, _, rfl, hq⟩
  | enqueue =>
    simp only [exec]
    split <;> exact ⟨_, _, rfl, hq⟩
  | getEntry q => exact ⟨_, _, rfl, hq⟩
  | setEntry q e => exact ⟨_, _, rfl, hq⟩
  | pick n => exact ⟨_, _, rfl, hq⟩
  | writeSegment it staged => exact ⟨_, _, rfl, hq⟩
  | readSegment it => exact ⟨_, _, rfl, hq⟩

/-- Between two calls: no mutex is held, and the calls to come know nothing. -/
structure Between (g : StorageGeometry) (t : Nat) (s : Shared) (γ : Ghost) : Prop where
  inv : Inv g s γ
  free : ∀ m, s.owner m = none
  views : ∀ u, ∃ w, Sees g u w s γ
  idle : ∀ u, t ≤ u → Sees g u View.idle s γ

/-- A log that grew by nothing but one call of `t`. -/
theorem log_append {log log' : List (Nat × Call × Outcome)} {t : Nat} {c : Call} {o : Outcome}
    (hp : log <+: log') (hn : (log'.map Prod.fst).Nodup) (hmem : (t, c, o) ∈ log')
    (hnew : ∀ x ∈ log, x.1 ≠ t) (hall : ∀ x ∈ log', x ∉ log → x.1 = t) : log' = log ++ [(t, c, o)] := by
  obtain ⟨more, rfl⟩ := hp
  rw [List.map_append] at hn
  obtain ⟨-, hn2, hn3⟩ := List.nodup_append.1 hn
  have hfst : ∀ x ∈ more, x.1 = t := fun x hx => hall x (List.mem_append_right _ hx) fun h =>
    hn3 _ (List.mem_map_of_mem h) _ (List.mem_map_of_mem hx) rfl
  have hm : (t, c, o) ∈ more := (List.mem_append.1 hmem).resolve_left fun h => hnew _ h rfl
  match more with
  | [x] => rw [List.mem_singleton.1 hm]
  | x :: y :: rest =>
    simp only [List.map_cons, List.nodup_cons, List.mem_cons] at hn2
    exact (hn2.1 (.inl ((hfst x (by simp)).trans (hfst y (by simp)).symm))).elim

/-- **One call** returns, and takes the map's step. -/
theorem call_between (hg : g.Valid) {t : Nat} {s : Shared} {γ : Ghost} (h : Between g t s γ) (c : Call)
    (choose : Nat → Choice) : ∃ o n s' γ', (body g c).run (connector g) t choose 0 s = some (o, n, s') ∧
      Between g (t + 1) s' γ' ∧ γ'.log = γ.log ++ [(t, c, o)] := by
  have hquiet : quiet t s := fun m u hm => by rw [h.free] at hm; cases hm
  have hidle := h.idle t (Nat.le_refl t)
  obtain ⟨o, n, s', γ', v', hrun, ⟨hi', hgrow⟩, hv', hq', ⟨hlocks, -, hfin⟩, hframe⟩ :=
    LocalLogic.run_sound (L := connectorLogic hg)
      (fun ch hi hv hpre hq => exec_quiet ch hv hpre hq) choose 0 h.inv hidle hquiet (body_verified hg c).2
  refine ⟨o, n, s', γ', hrun, ⟨hi', fun m => ?_, fun u => ?_, fun u hu => hframe u _ (by omega) (h.idle u (by omega))⟩, ?_⟩
  · cases ho : s'.owner m with
    | none => rfl
    | some u =>
      obtain rfl := hq' m u ho
      have hm := (hv'.owner m).1 ho
      rw [hlocks] at hm
      simp at hm
  · by_cases hu : u = t
    · subst hu; exact ⟨v', hv'⟩
    · obtain ⟨w, hw⟩ := h.views u
      exact ⟨w, hframe u w hu hw⟩
  · refine log_append hgrow hi'.names ((hv'.fin c o).2 hfin) (fun x hx e => ?_) fun x hx hx' => ?_
    · have := (hidle.fin x.2.1 x.2.2).1 (e ▸ hx)
      cases this
    · by_contra hne
      obtain ⟨w, hw⟩ := h.views x.1
      exact hx' ((hw.fin x.2.1 x.2.2).2 (((hframe x.1 w hne hw).fin x.2.1 x.2.2).1 hx))

theorem calls_between (hg : g.Valid) : ∀ (calls : List (Call × (Nat → Choice))) {t : Nat} {s : Shared}
    {γ : Ghost}, Between g t s γ → ∃ outs s' γ', runCalls g t calls s = some (outs, s') ∧
      outs.map (fun x => x.2.1) = calls.map Prod.fst ∧ Between g (t + calls.length) s' γ' ∧
      γ'.log = γ.log ++ outs
  | [], t, s, γ, h => ⟨[], s, γ, rfl, rfl, h, by simp⟩
  | (c, choose) :: calls, t, s, γ, h => by
    obtain ⟨o, n, s1, γ1, h1, hb1, hl1⟩ := call_between hg h c choose
    obtain ⟨outs, s2, γ2, h2, hc, hb2, hl2⟩ := calls_between hg calls hb1
    refine ⟨(t, c, o) :: outs, s2, γ2, by simp only [runCalls, h1, h2], by simp [hc], ?_, by rw [hl2, hl1]; simp⟩
    rw [show t + ((c, choose) :: calls).length = t + 1 + calls.length by simp; omega]
    exact hb2

/-- **The connector refines the map**: every sequence of calls on a fresh connector returns, the outcomes
are those of the map, and in the end every key's stored bytes are the map's. -/
theorem calls_refine_map {nb bs wu ba seg mx bc : Nat} {a : PageExtentAllocator}
    (hgeo : buildStorageGeometry nb bs wu ba seg mx bc = .ok g)
    (ha : PageExtentAllocator.new g.pageCount = .ok a) (dev : Nat → UInt8)
    (calls : List (Call × (Nat → Choice))) :
    ∃ outs s m, runCalls g 0 calls (Shared.init a dev) = some (outs, s) ∧
      outs.map (fun x => x.2.1) = calls.map Prod.fst ∧ Replays (fun _ => none) outs m ∧
      ∀ key, storedValue g s key = m key := by
  have hg := buildStorageGeometry_valid hgeo
  obtain ⟨hi, hv⟩ := init_inv hg ha dev
  obtain ⟨outs, s, γ, h1, h2, h3, h4⟩ := calls_between hg calls
    ⟨hi, fun _ => rfl, fun u => ⟨_, hv u⟩, fun u _ => hv u⟩
  refine ⟨outs, s, γ.map, h1, h2, ?_, h3.inv.stored h3.free⟩
  have hr := h3.inv.replays
  rwa [h4] at hr

/-- A geometry of four pages of two bytes, one page a segment, and its allocator. -/
theorem calls_refine_map_four :
    ∃ outs s m, runCalls ⟨8, 8, 2, 4, 2, 0, 2, 1, 1, 1⟩ 0
        [(.set [7] [1, 2, 3], fun _ => {}), (.get [7] [0, 0, 0], fun _ => {}),
          (.batchSet [⟨[7], [4, 5, 6]⟩, ⟨[8], [9]⟩], fun _ => { success := false })]
        (Shared.init ⟨[⟨0, 4⟩], 4, 4⟩ fun _ => 0) = some (outs, s) ∧
      outs.map (fun x => x.2.1) = [.set [7] [1, 2, 3], .get [7] [0, 0, 0],
        .batchSet [⟨[7], [4, 5, 6]⟩, ⟨[8], [9]⟩]] ∧
      Replays (fun _ => none) outs m ∧
      ∀ key, storedValue ⟨8, 8, 2, 4, 2, 0, 2, 1, 1, 1⟩ s key = m key :=
  calls_refine_map (g := ⟨8, 8, 2, 4, 2, 0, 2, 1, 1, 1⟩) (a := ⟨[⟨0, 4⟩], 4, 4⟩)
    (show buildStorageGeometry 4 2 1 1 2 0 1 = .ok _ from rfl) rfl (fun _ => 0) _

/-! ## Any number of calls at once -/

/-- `order` puts the calls of a pool in sequence: every call that has returned, with its outcome, and
some of those in progress. -/
structure Serializes (g : StorageGeometry) (pool : Pool Shared Call Cmd Answer Exn Ret)
    (order : List (Nat × Call × Outcome)) (m : KeyMap) : Prop where
  once : (order.map Prod.fst).Nodup
  returned : ∀ x ∈ pool.done, x ∈ order
  only : ∀ x ∈ order, x ∈ pool.done ∨ ∃ p, pool.tasks x.1 = some ⟨x.2.1, p⟩
  replays : Replays (fun _ => none) order m
  /-- When nothing runs the stored bytes are the map. -/
  stored : (∀ t, pool.tasks t = none) → ∀ key, storedValue g pool.shared key = m key

theorem pool_ok (hg : g.Valid) {a : PageExtentAllocator} (ha : PageExtentAllocator.new g.pageCount = .ok a)
    {dev : Nat → UInt8} {acts : List (Act Call Choice)} {pool : Pool Shared Call Cmd Answer Exn Ret}
    (hrun : (Pool.init (Shared.init a dev)).run (connector g) acts = some pool) :
    ∃ γ, LocalLogic.PoolOk (connectorLogic hg) (fun _ => View.idle) Done pool γ := by
  obtain ⟨hi, hv⟩ := init_inv hg ha dev
  obtain ⟨γ, h, -⟩ := LocalLogic.run_ok (fun _ c => body_verified hg c) (LocalLogic.init_ok hi hv) hrun
  exact ⟨γ, h⟩

/-- The commits of a verified pool put its calls in sequence. -/
theorem pool_serializes (hg : g.Valid) {pool : Pool Shared Call Cmd Answer Exn Ret} {γ : Ghost}
    (h : LocalLogic.PoolOk (connectorLogic hg) (fun _ => View.idle) Done pool γ) :
    Serializes g pool γ.log γ.map where
  once := h.inv.names
  returned x hx := by
    obtain ⟨v, hv, -, -, hfin⟩ := h.done x.1 x.2.1 x.2.2 hx
    exact (hv.fin _ _).2 hfin
  only x hx := by
    cases ht : pool.tasks x.1 with
    | some task =>
      obtain ⟨v, hv, ha, -⟩ := h.running x.1 task.job task.prog ht
      have : x.2.1 = task.job := ha _ _ ((hv.fin _ _).1 hx)
      exact .inr ⟨task.prog, by rw [this]⟩
    | none =>
      by_cases hd : ∃ d ∈ pool.done, d.1 = x.1
      · obtain ⟨⟨t, c, o⟩, hd, rfl⟩ := hd
        obtain ⟨v, hv, -, -, hfin⟩ := h.done _ c o hd
        have := (hv.fin _ _).1 hx
        rw [hfin] at this
        cases this
        exact .inl hd
      · have hv := h.fresh x.1 ht fun d hd' e => hd ⟨d, hd', e⟩
        have := (hv.fin _ _).1 hx
        cases this
  replays := h.inv.replays
  stored hidle key := by
    refine h.inv.stored (fun m => ?_) key
    cases ho : pool.shared.owner m with
    | none => rfl
    | some t =>
      have hlocks : ∃ v, Sees g t v pool.shared γ ∧ v.locks = [] := by
        by_cases hd : ∃ d ∈ pool.done, d.1 = t
        · obtain ⟨⟨t, c, o⟩, hd, rfl⟩ := hd
          obtain ⟨v, hv, hl, -⟩ := h.done _ c o hd
          exact ⟨v, hv, hl⟩
        · exact ⟨_, h.fresh t (hidle t) fun d hd' e => hd ⟨d, hd', e⟩, rfl⟩
      obtain ⟨v, hv, hl⟩ := hlocks
      have := (hv.owner m).1 ho
      rw [hl] at this
      simp at this

/-- **Any interleaving is serializable**: the outcomes and, when nothing runs, the stored bytes are those
of the same calls one at a time against the map; a batch is seen whole or not at all, and no read mixes
two values. -/
theorem calls_serializable {nb bs wu ba seg mx bc : Nat} {a : PageExtentAllocator}
    (hgeo : buildStorageGeometry nb bs wu ba seg mx bc = .ok g)
    (ha : PageExtentAllocator.new g.pageCount = .ok a) {dev : Nat → UInt8} {acts : List (Act Call Choice)}
    {pool : Pool Shared Call Cmd Answer Exn Ret}
    (hrun : (Pool.init (Shared.init a dev)).run (connector g) acts = some pool) :
    ∃ order m, Serializes g pool order m ∧ AllOrNone order ∧ ReadsWhole order := by
  have hg := buildStorageGeometry_valid hgeo
  obtain ⟨γ, h⟩ := pool_ok hg ha hrun
  exact ⟨γ.log, γ.map, pool_serializes hg h, replays_allOrNone h.inv.replays, replays_readsWhole h.inv.replays⟩

/-- Two sets and a get of one key, interleaved, each to its end. -/
def threeCalls : List (Act Call Choice) :=
  [.start 1 (.set [7] [1]), .start 2 (.set [7] [2]), .start 3 (.get [7] [0])] ++
    List.replicate 3 (.step 1 {}) ++ List.replicate 3 (.step 2 {}) ++ List.replicate 8 (.step 1 {}) ++
    List.replicate 2 (.step 3 {}) ++ List.replicate 3 (.step 1 {}) ++ .finish 1 ::
    List.replicate 7 (.step 3 {}) ++ .finish 3 :: List.replicate 14 (.step 2 {}) ++ [.finish 2]

/-- What the three give back: the get is after the first set and before the second. -/
def threeOutcomes : List (Nat × Call × Outcome) :=
  [(1, .set [7] [1], .ok .unit), (3, .get [7] [0], .ok (.bytes [1])), (2, .set [7] [2], .ok .unit)]

theorem threeCalls_run : ∃ pool, (Pool.init (Shared.init ⟨[⟨0, 4⟩], 4, 4⟩ fun _ => 0)).run
    (connector ⟨8, 8, 2, 4, 2, 0, 2, 1, 1, 1⟩) threeCalls = some pool ∧ pool.done = threeOutcomes ∧
    ∀ t, pool.tasks t = none := by
  have hend : ((Pool.init (Shared.init ⟨[⟨0, 4⟩], 4, 4⟩ fun _ => 0)).run (connector ⟨8, 8, 2, 4, 2, 0, 2, 1, 1, 1⟩)
      threeCalls).any (fun pool => decide (pool.done = threeOutcomes) && (pool.tasks 1).isNone &&
        (pool.tasks 2).isNone && (pool.tasks 3).isNone) = true := by decide +kernel
  obtain ⟨pool, hrun, htest⟩ := (Option.any_eq_true _ _).1 hend
  simp only [Bool.and_eq_true, decide_eq_true_eq, Option.isNone_iff_eq_none] at htest
  obtain ⟨⟨⟨hdone, h1⟩, h2⟩, h3⟩ := htest
  refine ⟨pool, hrun, hdone, fun t => ?_⟩
  by_cases ht : t = 1 ∨ t = 2 ∨ t = 3
  · rcases ht with rfl | rfl | rfl
    · exact h1
    · exact h2
    · exact h3
  · refine Pool.run_tasks hrun rfl fun j hstart => ht ?_
    simp only [threeCalls, List.mem_append, List.mem_cons, List.mem_replicate, Act.start.injEq, reduceCtorEq,
      List.not_mem_nil, and_false, or_false] at hstart
    tauto

/-- All three have their place in the sequence, and the stored bytes are what it leaves. -/
theorem calls_serializable_three : ∃ pool order m,
    (Pool.init (Shared.init ⟨[⟨0, 4⟩], 4, 4⟩ fun _ => 0)).run (connector ⟨8, 8, 2, 4, 2, 0, 2, 1, 1, 1⟩)
      threeCalls = some pool ∧ Serializes ⟨8, 8, 2, 4, 2, 0, 2, 1, 1, 1⟩ pool order m ∧
    AllOrNone order ∧ ReadsWhole order ∧ (∀ x ∈ threeOutcomes, x ∈ order) ∧
    ∀ key, storedValue ⟨8, 8, 2, 4, 2, 0, 2, 1, 1, 1⟩ pool.shared key = m key := by
  obtain ⟨pool, hrun, hdone, hidle⟩ := threeCalls_run
  obtain ⟨order, m, h, hall, hwhole⟩ := calls_serializable (g := ⟨8, 8, 2, 4, 2, 0, 2, 1, 1, 1⟩)
    (a := ⟨[⟨0, 4⟩], 4, 4⟩) (show buildStorageGeometry 4 2 1 1 2 0 1 = .ok _ from rfl) rfl hrun
  exact ⟨pool, order, m, hrun, h, hall, hwhole, fun x hx => h.returned x (hdone ▸ hx), h.stored hidle⟩

end SpdkConnector
