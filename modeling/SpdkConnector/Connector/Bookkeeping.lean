import SpdkConnector.Connector.Atomicity

/-!
# What a batch load reports

`do_batch_get` (spdk_connector.cpp:135) flattens the segments of the keys it can read into one list and maps
the outcomes back through `item_to_key`. `outcomesOf` is the part of the outcome vector that belongs to a
key; the flags depend on nothing else. `readBatch` is a parameter of the first part, so that every outcome
vector is covered, also one of the wrong length.
-/

namespace SpdkConnector

open Interleaving

variable {g : StorageGeometry} {t : Nat} {s s' : Shared} {ℓ : Log}

/-- `do_batch_get` over any `read_batch`. -/
def doBatchGetWith (g : StorageGeometry) (readBatch : List IoBatchItem → List Bytes → P (List IoResult × List Bytes))
    (slots : List Slot) (startIdx : Nat) (perKeyResults : List UInt8) : P Ret := do
  let states ← statesFor (slots.map Slot.key)
  withStates states do
    let (items, itemToKey, success) ← gatherGets g (locate slots states)
    let buffers := slots.map Slot.buffer
    let r ← Prog.tryCatch
      (do
        let r ← readBatch items buffers
        if r.1.length ≠ items.length then
          .throw ⟨.runtimeError, "bdev read batch returned an unexpected result count"⟩
        else pure (markFailures success (r.1.zip itemToKey), r.2))
      (fun _ => pure (success.map fun _ => false, buffers))
    pure (.batch (writeResults perKeyResults startIdx r.1) r.2)

theorem doBatchGet_eq : doBatchGet g = doBatchGetWith g (readBatch g) := rfl

/-- The segments a key contributes: those of its entry, when the entry has the requested length. -/
def segmentsOf (g : StorageGeometry) (entry : Option Entry) (index : Nat) (buffer : Bytes) :
    Option (List IoBatchItem) :=
  entry.bind fun e => if buffer.length = e.logicalSize then (appendSegments g e index).toOption else none

def segmentCount (segments : Option (List IoBatchItem)) : Nat := (segments.getD []).length

/-- The part of the outcome vector that belongs to key `i`. -/
def outcomesOf (segments : List (Option (List IoBatchItem))) (results : List IoResult) (i : Nat) :
    List IoResult :=
  (results.drop ((segments.take i).map segmentCount).sum).take (segmentCount (segments.getD i none))

/-- `item_to_key` for the keys from `k` on. -/
def itemToKeyFrom : Nat → List (Option (List IoBatchItem)) → List Nat
  | _, [] => []
  | k, x :: xs => List.replicate (segmentCount x) k ++ itemToKeyFrom (k + 1) xs

theorem itemToKeyFrom_ge {k : Nat} {xs : List (Option (List IoBatchItem))} {i : Nat} (h : i ∈ itemToKeyFrom k xs) :
    k ≤ i := by
  induction xs generalizing k with
  | nil => cases h
  | cons x xs ih =>
    rcases List.mem_append.1 h with h | h
    · exact (List.eq_of_mem_replicate h).ge
    · exact Nat.le_of_succ_le (ih h)

/-- **Alignment**: the outcomes mapped to a key are those of its own segments. -/
theorem mem_zip_itemToKey {k i : Nat} {xs : List (Option (List IoBatchItem))} {results : List IoResult}
    {r : IoResult} (hlen : results.length = (xs.map segmentCount).sum) (hi : i < xs.length) :
    (r, k + i) ∈ results.zip (itemToKeyFrom k xs) ↔ r ∈ outcomesOf xs results i := by
  induction xs generalizing k i results with
  | nil => cases hi
  | cons x xs ih =>
    have hsum : results.length = segmentCount x + (xs.map segmentCount).sum := by simpa using hlen
    have hsplit : results.zip (itemToKeyFrom k (x :: xs)) =
        (results.take (segmentCount x)).zip (List.replicate (segmentCount x) k) ++
          (results.drop (segmentCount x)).zip (itemToKeyFrom (k + 1) xs) := by
      conv_lhs => rw [← List.take_append_drop (segmentCount x) results]
      exact List.zip_append (by simp; omega)
    rw [hsplit, List.mem_append]
    cases i with
    | zero =>
      have hhead : (r, k + 0) ∈ (results.take (segmentCount x)).zip (List.replicate (segmentCount x) k) ↔
          r ∈ results.take (segmentCount x) := by
        constructor
        · exact fun h => (List.of_mem_zip h).1
        · intro h
          obtain ⟨n, hn⟩ := List.mem_iff_getElem?.1 h
          obtain ⟨hlt, -⟩ := List.getElem?_eq_some_iff.1 hn
          apply List.mem_of_getElem? (i := n)
          simp only [List.length_take] at hlt
          simp only [List.zip, List.getElem?_zipWith, hn, List.getElem?_replicate, if_pos (show n < segmentCount x by omega)]
          rfl
      have htail : ¬ (r, k + 0) ∈ (results.drop (segmentCount x)).zip (itemToKeyFrom (k + 1) xs) := by
        intro h
        have := itemToKeyFrom_ge (List.of_mem_zip h).2
        omega
      rw [hhead, or_iff_left htail]
      simp [outcomesOf]
    | succ i =>
      have hhead : ¬ (r, k + (i + 1)) ∈ (results.take (segmentCount x)).zip (List.replicate (segmentCount x) k) := by
        intro h
        have := List.eq_of_mem_replicate (List.of_mem_zip h).2
        omega
      have hrest : (results.drop (segmentCount x)).length = (xs.map segmentCount).sum := by
        rw [List.length_drop]
        omega
      have hlt : i < xs.length := Nat.lt_of_succ_lt_succ hi
      have ih' := ih (k := k + 1) hrest hlt
      rw [show k + 1 + i = k + (i + 1) by omega] at ih'
      simp only [hhead, false_or, ih', outcomesOf, List.take_succ_cons, List.map_cons, List.sum_cons,
        List.drop_drop, List.getD_cons_succ]

/-! ## The gathering loop -/

/-- The segments of the keys `ls` when the entries are `E`. -/
def segmentsAt (g : StorageGeometry) (E : Nat → Option Entry) (ls : List Located) :
    List (Option (List IoBatchItem)) :=
  ls.map fun l => segmentsOf g (E l.state) l.index l.slot.buffer

/-- The entries that can be read can be cut into segments. -/
def Cuttable (g : StorageGeometry) (E : Nat → Option Entry) (ls : List Located) : Prop :=
  ∀ l ∈ ls, ∀ e, E l.state = some e → ∃ xs, appendSegments g e l.index = .ok xs

/-- A program that only looks at entries. -/
def Cmd.Looks : Cmd → Prop
  | .getEntry _ => True
  | _ => False

theorem only_gatherGets (ls : List Located) : Only Cmd.Looks (gatherGets g ls) := by
  induction ls with
  | nil => trivial
  | cons l ls ih =>
    refine ⟨trivial, fun (entry : Option Entry) => ?_⟩
    simp only [Prog.bind]
    split
    · exact ih.bind fun _ => trivial
    · split
      · exact ih.bind fun _ => trivial
      · exact (Only.ofExcept _).bind fun _ => ih.bind fun _ => trivial

theorem bindings_of_looks (h : ∀ ev ∈ ℓ, ev.1.Looks) : bindings ℓ = [] := by
  rw [bindings, List.filterMap_eq_nil_iff]
  rintro ⟨c, r⟩ hev
  have hc : c.Looks := h _ hev
  cases c <;> first | rfl | exact hc.elim

/-- The loop collects the segments of the readable keys, in order. -/
theorem gatherGets_yields {E : Nat → Option Entry} {ls : List Located}
    {o : Except Exn (List IoBatchItem × List Nat × List Bool)} (hcut : Cuttable g E ls)
    (h : Yields (gatherGets g ls) ℓ o) (hE : ∀ x ∈ looked ℓ, x.2 = E x.1) :
    o = .ok ((segmentsAt g E ls).flatMap (fun x => x.getD []),
      ls.flatMap (fun l => List.replicate (segmentCount (segmentsOf g (E l.state) l.index l.slot.buffer)) l.index),
      (segmentsAt g E ls).map Option.isSome) := by
  induction ls generalizing ℓ o with
  | nil =>
    obtain ⟨rfl, rfl⟩ := Yields.of_pure h
    rfl
  | cons l ls ih =>
    obtain ⟨entry, ℓ1, rfl, h1⟩ := Yields.of_perform h
    have hsplit : looked (⟨.getEntry l.state, entry⟩ :: ℓ1) = (l.state, entry) :: looked ℓ1 := rfl
    rw [hsplit] at hE
    have hentry : entry = E l.state := hE _ List.mem_cons_self
    have hcut' : Cuttable g E ls := fun l' hl' => hcut l' (List.mem_cons_of_mem _ hl')
    have hE' : ∀ x ∈ looked ℓ1, x.2 = E x.1 := fun x hx => hE x (List.mem_cons_of_mem _ hx)
    have skip : ∀ {ℓ2 : Log} {o : Except Exn (List IoBatchItem × List Nat × List Bool)},
        (∀ x ∈ looked ℓ2, x.2 = E x.1) →
        Yields (gatherGets g ls >>= fun r => pure (r.1, r.2.1, false :: r.2.2)) ℓ2 o →
        segmentsOf g (E l.state) l.index l.slot.buffer = none →
        o = .ok ((segmentsAt g E (l :: ls)).flatMap (fun x => x.getD []),
          (l :: ls).flatMap (fun l => List.replicate (segmentCount (segmentsOf g (E l.state) l.index l.slot.buffer)) l.index),
          (segmentsAt g E (l :: ls)).map Option.isSome) := by
      intro ℓ2 o hE2 h2 hnone
      obtain ⟨x, -, h3⟩ | ⟨r, ℓ3, ℓ4, rfl, h3, h4⟩ := Yields.of_bind h2
      · cases ih hcut' h3 hE2
      · rw [looked_append] at hE2
        have hr := ih hcut' h3 fun x hx => hE2 x (List.mem_append_left _ hx)
        obtain ⟨rfl, rfl⟩ := Yields.of_pure h4
        cases hr
        simp [segmentsAt, hnone, segmentCount]
    split at h1
    · exact skip hE' h1 (by simp [segmentsOf, ← hentry])
    · rename_i e
      split at h1
      · rename_i hlen
        exact skip hE' h1 (by simp [segmentsOf, ← hentry, hlen])
      · rename_i hlen
        simp only [ne_eq, not_not] at hlen
        obtain ⟨xs, hxs⟩ := hcut l List.mem_cons_self e hentry.symm
        have hsome : segmentsOf g (E l.state) l.index l.slot.buffer = some xs := by
          simp [segmentsOf, ← hentry, hlen, hxs, Except.toOption]
        rw [hxs] at h1
        obtain ⟨x, -, h3⟩ | ⟨r, ℓ3, ℓ4, rfl, h3, h4⟩ :=
          Yields.of_bind (p := gatherGets g ls)
            (f := fun r => pure (xs ++ r.1, xs.map (fun _ => l.index) ++ r.2.1, true :: r.2.2)) h1
        · cases ih hcut' h3 hE'
        · rw [looked_append] at hE'
          have hr := ih hcut' h3 fun x hx => hE' x (List.mem_append_left _ hx)
          obtain ⟨rfl, rfl⟩ := Yields.of_pure h4
          cases hr
          simp [segmentsAt, hsome, segmentCount]

/-- The keys of a request are numbered by their positions. -/
theorem itemToKey_eq {E : Nat → Option Entry} {ls : List Located} {k : Nat}
    (h : ∀ n l, ls[n]? = some l → l.index = k + n) :
    ls.flatMap (fun l => List.replicate (segmentCount (segmentsOf g (E l.state) l.index l.slot.buffer)) l.index) =
      itemToKeyFrom k (segmentsAt g E ls) := by
  induction ls generalizing k with
  | nil => rfl
  | cons l ls ih =>
    have hl : l.index = k := h 0 l rfl
    rw [List.flatMap_cons, ih (k := k + 1) fun n l' hn => by rw [h (n + 1) l' hn]; omega]
    simp [segmentsAt, itemToKeyFrom, hl]

/-! ## The whole call -/

/-- The segments of each key of a request. -/
def keySegments (g : StorageGeometry) (s : Shared) (slots : List Slot) : List (Option (List IoBatchItem)) :=
  slots.zipIdx.map fun x => segmentsOf g (entryOf s x.1.key) x.2 x.1.buffer

/-- The list `do_batch_get` hands to `read_batch`. -/
def requestItems (g : StorageGeometry) (s : Shared) (slots : List Slot) : List IoBatchItem :=
  (keySegments g s slots).flatMap fun x => x.getD []

theorem requestItems_length (s : Shared) (slots : List Slot) :
    (requestItems g s slots).length = ((keySegments g s slots).map segmentCount).sum := by
  rw [requestItems, List.length_flatMap]
  rfl

/-- The flags of a request, given what `read_batch` did: a key is reported when it has an entry of the
requested length and every outcome of its own segments is a success. -/
structure Reported (g : StorageGeometry) (s : Shared) (slots : List Slot)
    (outcome : Except Exn (List IoResult × List Bytes)) (flags : List Bool) : Prop where
  length : flags.length = slots.length
  loaded : ∀ (i : Nat) (x : Slot), slots[i]? = some x → (flags[i]? = some true ↔
    (∃ e, entryOf s x.key = some e ∧ e.logicalSize = x.buffer.length) ∧
    ∃ rs bufs, outcome = .ok (rs, bufs) ∧ rs.length = (requestItems g s slots).length ∧
      ∀ r ∈ outcomesOf (keySegments g s slots) rs i, r.success = true)
  failed : (∀ rs bufs, outcome = .ok (rs, bufs) → rs.length ≠ (requestItems g s slots).length) →
    ∀ b ∈ flags, b = false

/-- Exactly the positions of the request are written, each with its key's flag. -/
def Marks (startIdx : Nat) (flags : List Bool) (res res' : List UInt8) : Prop :=
  ∀ k, res'[k]? = if startIdx ≤ k ∧ k < startIdx + flags.length then
    res[k]?.map fun _ => if flags.getD (k - startIdx) false then 1 else 0 else res[k]?

theorem writeResults_marks {startIdx : Nat} {flags : List Bool} {res : List UInt8} :
    Marks startIdx flags res (writeResults res startIdx flags) := by
  induction flags generalizing startIdx res with
  | nil =>
    intro k
    rw [writeResults, if_neg (by simp only [List.length_nil]; omega)]
  | cons b flags ih =>
    intro k
    rw [writeResults, ih k]
    have hcons : (b :: flags).length = flags.length + 1 := rfl
    by_cases hk : k = startIdx
    · subst hk
      have hin : k ≤ k ∧ k < k + (b :: flags).length := by omega
      rw [if_neg (by omega), if_pos hin, List.getElem?_set_self', Nat.sub_self, List.getD_cons_zero]
      rfl
    · rw [List.getElem?_set_ne (Ne.symm hk)]
      by_cases hin : startIdx + 1 ≤ k ∧ k < startIdx + 1 + flags.length
      · have hin' : startIdx ≤ k ∧ k < startIdx + (b :: flags).length := by omega
        rw [if_pos hin, if_pos hin', show k - startIdx = (k - (startIdx + 1)) + 1 by omega, List.getD_cons_succ]
      · have hout : ¬ (startIdx ≤ k ∧ k < startIdx + (b :: flags).length) := by omega
        rw [if_neg hin, if_neg hout]

/-- The flags after a read of the right length. -/
theorem markFailures_reported {slots : List Slot} {rs : List IoResult} {bufs : List Bytes}
    (hread : ∀ (i : Nat) (x : Slot), slots[i]? = some x → ((keySegments g s slots)[i]? = some none ∨
      ∃ xs, (keySegments g s slots)[i]? = some (some xs)) ∧
      ((∃ xs, (keySegments g s slots)[i]? = some (some xs)) ↔
        ∃ e, entryOf s x.key = some e ∧ e.logicalSize = x.buffer.length))
    (hlen : rs.length = (requestItems g s slots).length) :
    Reported g s slots (.ok (rs, bufs))
      (markFailures ((keySegments g s slots).map Option.isSome)
        (rs.zip (itemToKeyFrom 0 (keySegments g s slots)))) := by
  have hn : (keySegments g s slots).length = slots.length := by simp [keySegments]
  refine ⟨by rw [markFailures_length, List.length_map, hn], fun i x hi => ?_, fun hbad => absurd hlen (hbad rs bufs rfl)⟩
  obtain ⟨hlt, -⟩ := List.getElem?_eq_some_iff.1 hi
  obtain ⟨hsome, hiff⟩ := hread i x hi
  rw [markFailures_iff, ← hiff, List.getElem?_map]
  have hzip : ∀ r, (r, i) ∈ rs.zip (itemToKeyFrom 0 (keySegments g s slots)) ↔
      r ∈ outcomesOf (keySegments g s slots) rs i := fun r => by
    have h := mem_zip_itemToKey (k := 0) (r := r) (by rw [hlen, requestItems_length]) (hn.symm ▸ hlt)
    rwa [Nat.zero_add] at h
  constructor
  · rintro ⟨h1, h2⟩
    refine ⟨?_, rs, bufs, rfl, hlen, fun r hr => h2 (r, i) ((hzip r).2 hr) rfl⟩
    rcases hsome with hnone | hsome
    · rw [hnone] at h1
      cases h1
    · exact hsome
  · rintro ⟨⟨xs, hxs⟩, rs', bufs', hok, -, hall⟩
    cases hok
    refine ⟨by rw [hxs]; rfl, ?_⟩
    rintro ⟨r, k⟩ hx rfl
    exact hall r ((hzip r).1 hx)

/-- The segments the loop collected are those of the request's keys. -/
theorem segmentsAt_locate {states : List Nat} {slots : List Slot} (hlen : states.length = slots.length)
    (hentry : ∀ l ∈ locate slots states, entryOf s l.slot.key = s.entry l.state) :
    segmentsAt g s.entry (locate slots states) = keySegments g s slots := by
  apply List.ext_getElem?
  intro n
  simp only [segmentsAt, keySegments, List.getElem?_map, List.getElem?_zipIdx]
  cases hs : slots[n]? with
  | none =>
    have hnone : (locate slots states)[n]? = none := by
      rw [List.getElem?_eq_none_iff] at hs ⊢
      rw [locate_length hlen]
      exact hs
    rw [hnone]
    rfl
  | some x =>
    obtain ⟨hlt, -⟩ := List.getElem?_eq_some_iff.1 hs
    obtain ⟨q, hq⟩ : ∃ q, states[n]? = some q := ⟨_, List.getElem?_eq_getElem (hlen ▸ hlt)⟩
    have hl := locate_get.2 ⟨x, q, hs, hq, rfl⟩
    rw [hl]
    simp only [Option.map_some, Nat.zero_add]
    rw [← hentry _ (List.mem_of_getElem? hl)]

/-- What the `try` block of `do_batch_get` makes of `read_batch`. -/
theorem readBlock_yields {readBatch : List IoBatchItem → List Bytes → P (List IoResult × List Bytes)}
    {items : List IoBatchItem} {itemToKey : List Nat} {success : List Bool} {buffers : List Bytes}
    {o : Except Exn (List Bool × List Bytes)}
    (h : Yields (Prog.tryCatch
      (do
        let r ← readBatch items buffers
        if r.1.length ≠ items.length then
          .throw ⟨.runtimeError, "bdev read batch returned an unexpected result count"⟩
        else pure (markFailures success (r.1.zip itemToKey), r.2))
      (fun _ => pure (success.map fun _ => false, buffers))) ℓ o) :
    ∃ outcome ℓ1 ℓ2, ℓ = ℓ1 ++ ℓ2 ∧ Yields (readBatch items buffers) ℓ1 outcome ∧
      ((∃ rs bufs, outcome = .ok (rs, bufs) ∧ rs.length = items.length ∧
          o = .ok (markFailures success (rs.zip itemToKey), bufs)) ∨
        (∀ rs bufs, outcome = .ok (rs, bufs) → rs.length ≠ items.length) ∧
          o = .ok (success.map fun _ => false, buffers)) := by
  obtain ⟨a, rfl, h1⟩ | ⟨e, ℓ1, ℓ2, rfl, h1, h2⟩ := Yields.of_tryCatch h
  · obtain ⟨x, hbad, -⟩ | ⟨⟨rs, bufs⟩, ℓ3, ℓ4, rfl, h3, h4⟩ := Yields.of_bind h1
    · cases hbad
    · split at h4
      · cases (Yields.of_throw h4).2
      · rename_i hlen
        obtain ⟨rfl, ha⟩ := Yields.of_pure h4
        exact ⟨_, ℓ3, [], by simp, h3, .inl ⟨rs, bufs, rfl, by simpa using hlen, ha⟩⟩
  · obtain ⟨rfl, rfl⟩ := Yields.of_pure h2
    obtain ⟨x, -, h3⟩ | ⟨⟨rs, bufs⟩, ℓ3, ℓ4, rfl, h3, h4⟩ := Yields.of_bind h1
    · exact ⟨_, ℓ1, [], by simp, h3, .inr ⟨nofun, rfl⟩⟩
    · split at h4
      · rename_i hlen
        refine ⟨_, ℓ3, ℓ4, by simp, h3, .inr ⟨?_, rfl⟩⟩
        rintro rs' bufs' hok
        cases hok
        exact hlen
      · cases (Yields.of_pure h4).2

/-- **One batch load**, over any `read_batch`, on a state whose entries can be cut. -/
theorem doBatchGetWith_reported {readBatch : List IoBatchItem → List Bytes → P (List IoResult × List Bytes)}
    {slots : List Slot} {startIdx : Nat} {res : List UInt8} {o : Except Exn Ret}
    (hcut : ∀ q e, s.entry q = some e → ∀ i, ∃ xs, appendSegments g e i = .ok xs)
    (hentry : ∀ k q, Visits ℓ k q → entryOf s k = s.entry q)
    (hy : Yields (doBatchGetWith g readBatch slots startIdx res) ℓ o) (hx : Execs (connector g) t s ℓ s') :
    ∃ outcome flags bufs,
      (∃ ℓ1 s1 s2, Yields (readBatch (requestItems g s slots) (slots.map Slot.buffer)) ℓ1 outcome ∧
        Execs (connector g) t s1 ℓ1 s2) ∧
      Reported g s slots outcome flags ∧ o = .ok (.batch (writeResults res startIdx flags) bufs) := by
  obtain ⟨states, ℓ1, ℓ2, ℓ3, rfl, ha, h2, -, -⟩ := onStates_yields hy
  obtain ⟨s1, hx1, hx2⟩ := hx.append_inv
  obtain ⟨s2, hx2, -⟩ := hx2.append_inv
  have hs1 : s1.entry = s.entry := by
    rw [execs_entry hx1, ha.idle.bindings]
    rfl
  have hlen : states.length = slots.length := by simpa using ha.length
  have hlocated : ∀ l ∈ locate slots states, entryOf s l.slot.key = s.entry l.state := by
    intro l hl
    obtain ⟨n, hn⟩ := List.mem_iff_getElem?.1 hl
    obtain ⟨x, q, hs, hq, rfl⟩ := locate_get.1 hn
    refine hentry _ _ ((ha.visits (x := (x.key, q)) ?_).append _)
    apply List.mem_of_getElem? (i := n)
    simp [List.zip, List.getElem?_zipWith, hs, hq]
  have hcut' : Cuttable g s.entry (locate slots states) := fun l _ e he => hcut l.state e he l.index
  have hlooked : ∀ {ℓ4 : Log} {r : Except Exn (List IoBatchItem × List Nat × List Bool)} {s3 : Shared},
      Yields (gatherGets g (locate slots states)) ℓ4 r → Execs (connector g) t s1 ℓ4 s3 →
      ∀ x ∈ looked ℓ4, x.2 = s.entry x.1 := fun hg4 hx4 x hxm => by
    rw [← hs1]
    exact execs_looked hx4 (bindings_of_looks ((only_gatherGets _).yields hg4)) x hxm
  obtain ⟨x, -, h4⟩ | ⟨⟨items, itemToKey, success⟩, ℓ4, ℓ5, rfl, h4, h5⟩ := Yields.of_bind h2
  · cases gatherGets_yields hcut' h4 (hlooked h4 hx2)
  obtain ⟨s3, hx4, hx5⟩ := hx2.append_inv
  have hgather := gatherGets_yields hcut' h4 (hlooked h4 hx4)
  rw [itemToKey_eq (k := 0) fun n l hn => by
    obtain ⟨x, q, -, -, rfl⟩ := locate_get.1 hn
    exact (Nat.zero_add n).symm, segmentsAt_locate hlen hlocated] at hgather
  cases hgather
  obtain ⟨x, -, h6⟩ | ⟨r, ℓ6, ℓ7, rfl, h6, h7⟩ := Yields.of_bind h5
  · obtain ⟨_, _, _, -, -, ⟨_, _, -, -, hbad⟩ | ⟨-, hbad⟩⟩ := readBlock_yields h6 <;> cases hbad
  obtain ⟨s4, hx6, -⟩ := hx5.append_inv
  obtain ⟨rfl, rfl⟩ := Yields.of_pure h7
  obtain ⟨outcome, ℓ8, ℓ9, rfl, h8, hcase⟩ := readBlock_yields h6
  obtain ⟨s5, hx8, -⟩ := hx6.append_inv
  have hreadable : ∀ (i : Nat) (x : Slot), slots[i]? = some x → ((keySegments g s slots)[i]? = some none ∨
      ∃ xs, (keySegments g s slots)[i]? = some (some xs)) ∧
      ((∃ xs, (keySegments g s slots)[i]? = some (some xs)) ↔
        ∃ e, entryOf s x.key = some e ∧ e.logicalSize = x.buffer.length) := by
    intro i x hi
    have hkey : (keySegments g s slots)[i]? = some (segmentsOf g (entryOf s x.key) i x.buffer) := by
      simp [keySegments, List.getElem?_zipIdx, hi]
    rw [hkey]
    cases he : entryOf s x.key with
    | none => simp [segmentsOf]
    | some e =>
      by_cases hsize : x.buffer.length = e.logicalSize
      · obtain ⟨q, hq⟩ := Option.bind_eq_some_iff.1 he
        obtain ⟨xs, hxs⟩ := hcut q e hq.2 i
        simp [segmentsOf, hsize, hxs, Except.toOption]
      · simp [segmentsOf, hsize, Ne.symm hsize]
  rcases hcase with ⟨rs, bufs, rfl, hcount, hr⟩ | ⟨hbad, hr⟩
  · cases hr
    exact ⟨_, _, _, ⟨ℓ8, s3, s5, h8, hx8⟩, markFailures_reported hreadable hcount, rfl⟩
  · cases hr
    refine ⟨_, _, _, ⟨ℓ8, s3, s5, h8, hx8⟩, ⟨by simp [keySegments], fun i x hi => ?_, fun _ b hb => ?_⟩, rfl⟩
    · constructor
      · intro hflag
        have := List.mem_of_getElem? hflag
        simp at this
      · rintro ⟨-, rs, bufs, hok, hcount, -⟩
        exact absurd hcount (hbad rs bufs hok)
    · simp only [List.map_map, List.mem_map] at hb
      obtain ⟨_, -, rfl⟩ := hb
      rfl

/-- What `read_batch` was asked and what it did, in the call of thread `t` from `s`. -/
def Read (g : StorageGeometry) (readBatch : List IoBatchItem → List Bytes → P (List IoResult × List Bytes)) (t : Nat)
    (s : Shared) (slots : List Slot) (outcome : Except Exn (List IoResult × List Bytes)) : Prop :=
  ∃ ℓ s1 s2, Yields (readBatch (requestItems g s slots) (slots.map Slot.buffer)) ℓ outcome ∧
    Execs (connector g) t s1 ℓ s2

/-- **Batch load bookkeeping**, in every reachable state, for every request and whatever `read_batch` does. The
positions of the request are written and no others; a key's result is 1 exactly when it has an entry of the
requested length and its own segments succeeded, and no result is 1 when `read_batch` throws or returns the
wrong number of outcomes. With the context's `read_batch`, a key reported 1 has its whole value in its buffer. -/
theorem batch_get_bookkeeping {nb bs wu ba seg mx bc : Nat} {a : PageExtentAllocator}
    (hgeo : buildStorageGeometry nb bs wu ba seg mx bc = .ok g)
    (ha : PageExtentAllocator.new g.pageCount = .ok a) {dev : Nat → UInt8} {before : List (Act Call Choice)}
    {pool : Pool Shared Call Cmd Answer Exn Ret}
    (hrun : (Pool.init (Shared.init a dev)).run (connector g) before = some pool)
    (ht : pool.tasks t = none) (hd : ∀ d ∈ pool.done, d.1 ≠ t) (slots : List Slot) (startIdx : Nat)
    (res : List UInt8) (choose : Nat → Choice) (n : Nat) :
    (∀ readBatch o n' s',
      (doBatchGetWith g readBatch slots startIdx res).run (connector g) t choose n pool.shared = some (o, n', s') →
      ∃ outcome flags res' bufs, Read g readBatch t pool.shared slots outcome ∧
        Reported g pool.shared slots outcome flags ∧ o = .ok (.batch res' bufs) ∧ Marks startIdx flags res res') ∧
    (∀ o n' s', (doBatchGet g slots startIdx res).run (connector g) t choose n pool.shared = some (o, n', s') →
      ∃ res' bufs, o = .ok (.batch res' bufs) ∧
        ∀ (i : Nat) (x : Slot), slots[i]? = some x → res'[startIdx + i]? = some 1 →
          ∃ e, entryOf pool.shared x.key = some e ∧ e.logicalSize = x.buffer.length ∧
            bufs[i]? = some (contents g.pageSize pool.shared.dev e)) := by
  have hg := buildStorageGeometry_valid hgeo
  obtain ⟨γ, hok⟩ := pool_ok hg ha hrun
  have hcut : ∀ q e, pool.shared.entry q = some e → ∀ i, ∃ xs, appendSegments g e i = .ok xs := fun q e he i =>
    let ⟨xs, hxs, _⟩ := appendSegments_spec hg (hok.inv.entry_ok q e he) i
    ⟨xs, hxs⟩
  have hreported : ∀ {readBatch o n' s'},
      (doBatchGetWith g readBatch slots startIdx res).run (connector g) t choose n pool.shared = some (o, n', s') →
      ∃ outcome flags bufs, Read g readBatch t pool.shared slots outcome ∧
        Reported g pool.shared slots outcome flags ∧ o = .ok (.batch (writeResults res startIdx flags) bufs) := by
    intro readBatch o n' s' hr
    obtain ⟨ℓ, hy, hx⟩ := Prog.run_log hr
    exact doBatchGetWith_reported hcut
      (fun k q hv => entryOf_before hok.inv hx (execs_stateFor hx hv.found)) hy hx
  constructor
  · intro readBatch o n' s' hr
    obtain ⟨outcome, flags, bufs, hread, hrep, ho⟩ := hreported hr
    exact ⟨outcome, flags, _, bufs, hread, hrep, ho, writeResults_marks⟩
  · intro o n' s' hr
    obtain ⟨outcome, flags, bufs, -, hrep, rfl⟩ := @hreported (readBatch g) o n' s' hr
    obtain ⟨ℓ, hy, hx⟩ := Prog.run_log hr
    obtain ⟨γ', hc⟩ := call_alone hg hok ht hd (c := .batchGet slots startIdx res) hy hx
    refine ⟨_, bufs, rfl, fun i x hi hone => ?_⟩
    obtain ⟨hlt, -⟩ := List.getElem?_eq_some_iff.1 hi
    have hflag : flags[i]? = some true := writeResults_get (hrep.length.symm ▸ hlt) hone
    obtain ⟨⟨e, he, hsize⟩, -⟩ := (hrep.loaded i x hi).1 hflag
    obtain ⟨flags', hl⟩ := hc.allows
    have hflag' : flags'[i]? = some true :=
      writeResults_get (hl.flags_length.symm ▸ hlt) (hl.written ▸ hone)
    obtain ⟨b, hb, hmap, -⟩ := hl.loaded i x hi hflag'
    obtain ⟨states, ℓ1, ℓ2, ℓ3, rfl, hacq, -, -, -⟩ := onStates_yields hy
    obtain ⟨q, hq⟩ : ∃ q, states[i]? = some q :=
      ⟨_, List.getElem?_eq_getElem (by rw [hacq.length, List.length_map]; exact hlt)⟩
    have hvisit : Visits (ℓ1 ++ (ℓ2 ++ ℓ3)) x.key q := by
      refine (hacq.visits (x := (x.key, q)) ?_).append _
      apply List.mem_of_getElem? (i := i)
      simp [List.zip, List.getElem?_zipWith, hi, hq]
    have hset := (hc.settled hx hvisit).1
    rw [he, hmap] at hset
    exact ⟨e, he, hsize, hb.trans hset.symm⟩

/-- The state after one set of three bytes, which takes two segments. -/
def oneSet : List (Act Call Choice) :=
  .start 0 (.set [7] [1, 2, 3]) :: List.replicate 16 (.step 0 {}) ++ [.finish 0]

/-- A key with two segments between an absent one and one of the wrong length. -/
def mixedRequest : List Slot := [⟨[8], [0]⟩, ⟨[7], [0, 0, 0]⟩, ⟨[7], [0]⟩]

theorem batch_get_bookkeeping_mixed : ∃ pool n' s' flags,
    (Pool.init (Shared.init ⟨[⟨0, 4⟩], 4, 4⟩ fun _ => 0)).run (connector ⟨8, 8, 2, 4, 2, 0, 2, 1, 1, 1⟩) oneSet = some pool ∧
    (doBatchGet ⟨8, 8, 2, 4, 2, 0, 2, 1, 1, 1⟩ mixedRequest 1 [5, 5, 5, 5, 5]).run
      (connector ⟨8, 8, 2, 4, 2, 0, 2, 1, 1, 1⟩) 1 (fun _ => {}) 0 pool.shared =
        some (.ok (.batch [5, 0, 1, 0, 5] [[0], [1, 2, 3], [0]]), n', s') ∧
    Marks 1 flags [5, 5, 5, 5, 5] [5, 0, 1, 0, 5] ∧
    ∃ e, entryOf pool.shared [7] = some e ∧ [1, 2, 3] = contents 2 pool.shared.dev e := by
  have hend : ((Pool.init (Shared.init ⟨[⟨0, 4⟩], 4, 4⟩ fun _ => 0)).run
      (connector ⟨8, 8, 2, 4, 2, 0, 2, 1, 1, 1⟩) oneSet).bind (fun pool =>
        if (pool.tasks 1).isNone ∧ (∀ d ∈ pool.done, d.1 ≠ 1) then
          ((doBatchGet ⟨8, 8, 2, 4, 2, 0, 2, 1, 1, 1⟩ mixedRequest 1 [5, 5, 5, 5, 5]).run
            (connector ⟨8, 8, 2, 4, 2, 0, 2, 1, 1, 1⟩) 1 (fun _ => {}) 0 pool.shared).map fun x => x.1
        else none) = some (.ok (.batch [5, 0, 1, 0, 5] [[0], [1, 2, 3], [0]])) := by decide
  obtain ⟨pool, hrun, hres⟩ := Option.bind_eq_some_iff.1 hend
  split at hres
  · rename_i hfresh
    obtain ⟨⟨o, n', s'⟩, hcall, rfl⟩ := Option.map_eq_some_iff.1 hres
    obtain ⟨h1, h2⟩ := batch_get_bookkeeping (g := ⟨8, 8, 2, 4, 2, 0, 2, 1, 1, 1⟩) (a := ⟨[⟨0, 4⟩], 4, 4⟩) (t := 1)
      (show buildStorageGeometry 4 2 1 1 2 0 1 = .ok _ from rfl) rfl hrun (Option.isNone_iff_eq_none.1 hfresh.1)
      hfresh.2 mixedRequest 1 [5, 5, 5, 5, 5] (fun _ => {}) 0
    obtain ⟨outcome, flags, res', bufs, -, -, ho, hmarks⟩ := h1 (readBatch _) _ n' s' hcall
    obtain ⟨res'', bufs', ho', hwhole⟩ := h2 _ n' s' hcall
    cases ho
    cases ho'
    obtain ⟨e, he, -, hb⟩ := hwhole 1 ⟨[7], [0, 0, 0]⟩ rfl rfl
    exact ⟨pool, n', s', flags, hrun, hcall, hmarks, e, he, Option.some.inj hb⟩
  · cases hres

end SpdkConnector
