import SpdkConnector.Connector.Pages
import SpdkConnector.Interleaving.Handle

/-!
# The batches the connector submits

Every operation is followed along its program (`along_body`): where it submits a batch, the items are valid, lie in
the caller's buffers, and do not meet, a write's on the device and a read's in the buffers. What the operation has
taken from the allocator is followed with it (`Follows`), as two reservations of one batch store must not share a
page.
-/

namespace SpdkConnector

open Interleaving

variable {g : StorageGeometry} {α : Type}

/-- `p` is about to call `submit_batch_and_wait` with items the call accepts, in buffers that have room for them;
`rest` is what follows the call. -/
structure AtBatch (g : StorageGeometry) (p : P α) (op : Operation) (items : List IoBatchItem) (bufs : List Bytes)
    (rest : Except Exn (List IoResult × List Bytes) → P α) : Prop where
  prog : p = (submitBatchAndWait g op items bufs).handle rest
  nonempty : items ≠ []
  ok : ∀ it ∈ items, it.Ok g
  fits : ∀ it ∈ items, Fits bufs it

/-- The items do not meet where the operation writes. -/
def ItemsApart : Operation → List IoBatchItem → Prop
  | .write, items => items.Pairwise DeviceApart
  | .read, items => items.Pairwise BufferApart

/-- What an answer says of the extents a thread has taken. -/
def Follows (g : StorageGeometry) : (c : Cmd) → List PageExtent → Answer c → List PageExtent → Prop
  | .getEntry _, v, (r : Option Entry), v' => (∀ e, r = some e → e.Ok g) ∧ v' = v
  | .allocate n, v, (r : Except Exn (List PageExtent)), v' =>
    match r with
    | .ok es => pageSum es = n ∧ v' = v ++ es ∧ Owned g.pageCount v'
    | .error _ => v' = v
  | .setEntry _ _, _, _, _ | .release _, _, _, _ => True
  | _, v, _, v' => v' = v

/-- A batch starts only at a call whose items are apart. -/
def batchWatch (g : StorageGeometry) : Watch (List PageExtent) Cmd Answer Exn where
  next := Follows g
  fine _ c k := c = .enqueue → ∃ op items bufs rest, AtBatch g (.call c k) op items bufs rest ∧ ItemsApart op items
  fine_handle := by
    intro α β v c k f h hc
    obtain ⟨op, items, bufs, rest, hat, hapart⟩ := h hc
    refine ⟨op, items, bufs, fun o => (rest o).handle f, ⟨?_, hat.nonempty, hat.ok, hat.fits⟩, hapart⟩
    rw [← Prog.handle_handle, ← hat.prog]
    rfl

/-! ## Commands, locks and lookups -/

section
variable {v : List PageExtent}

theorem along_perform {c : Cmd} {k : Answer c → P α} {Q : Except Exn α → List PageExtent → Prop} (hc : c ≠ .enqueue)
    (h : ∀ r v', Follows g c v r v' → Along (batchWatch g) (k r) v' Q) :
    Along (batchWatch g) (perform c >>= k) v Q :=
  ⟨fun hq => absurd hq hc, h⟩

theorem along_withLock {m : Mutex} {p : P α} {Q : Except Exn α → List PageExtent → Prop}
    (h : Along (batchWatch g) p v Q) : Along (batchWatch g) (withLock m p) v Q := by
  refine along_perform (by simp) ?_
  rintro - v' rfl
  refine Along.guarded (h.mono fun o v' ho => along_perform (by simp) ?_)
  rintro - v'' rfl
  exact ho

theorem along_stateFor {key : Key} {Q : Except Exn Nat → List PageExtent → Prop} (h : ∀ q, Q (.ok q) v) :
    Along (batchWatch g) (stateFor key) v Q := by
  refine along_withLock ⟨fun hq => absurd hq (by simp), ?_⟩
  rintro q v' rfl
  exact h q

theorem along_statesFor {keys : List Key} {Q : Except Exn (List Nat) → List PageExtent → Prop} (h : ∀ qs, Q (.ok qs) v) :
    Along (batchWatch g) (statesFor keys) v Q := by
  induction keys generalizing Q with
  | nil => exact h []
  | cons key keys ih => exact Along.seq (along_stateFor fun q => Along.seq (ih fun qs => h (q :: qs)))

theorem along_lockStates {ps : List Nat} {Q : Except Exn Unit → List PageExtent → Prop} (h : Q (.ok ()) v) :
    Along (batchWatch g) (lockStates ps) v Q := by
  induction ps with
  | nil => exact h
  | cons p ps ih =>
    refine along_perform (by simp) ?_
    rintro - v' rfl
    exact ih

theorem along_unlockStates {ps : List Nat} {Q : Except Exn Unit → List PageExtent → Prop} (h : Q (.ok ()) v) :
    Along (batchWatch g) (unlockStates ps) v Q := by
  induction ps with
  | nil => exact h
  | cons p ps ih =>
    refine along_perform (by simp) ?_
    rintro - v' rfl
    exact ih

theorem along_withStates {states : List Nat} {p : P α} {Q : Except Exn α → List PageExtent → Prop}
    (h : Along (batchWatch g) p v Q) : Along (batchWatch g) (withStates states p) v Q :=
  Along.seq (along_lockStates (Along.guarded (h.mono fun _ _ ho => along_unlockStates ho)))

/-! ## The allocator and the entries -/

/-- A granted entry is well formed, and apart from what the thread had. -/
theorem along_allocateEntry (hg : g.Valid) {length : Nat} {Q : Except Exn Entry → List PageExtent → Prop}
    (hlen : 0 < length) (herr : ∀ x, Q (.error x) v)
    (hok : ∀ e : Entry, e.Ok g → e.logicalSize = length → Owned g.pageCount (v ++ e.extents) → Q (.ok e) (v ++ e.extents)) :
    Along (batchWatch g) (allocateEntry g length) v Q := by
  refine Along.seq (Along.ofExcept ?_)
  cases hpages : pagesForBytes g length with
  | error x => exact herr x
  | ok n =>
    refine Along.seq (along_withLock (along_perform (by simp) ?_))
    rintro (r : Except Exn (List PageExtent)) v' hnext
    cases r with
    | error x =>
      obtain rfl : v' = v := hnext
      exact herr x
    | ok es =>
      obtain ⟨hsum, rfl, howned⟩ : pageSum es = n ∧ v' = v ++ es ∧ Owned g.pageCount v' := hnext
      exact hok ⟨length, es⟩ (entry_ok hg hpages hlen howned.of_append.2.1 hsum) rfl howned

theorem along_allocatorRelease {es : List PageExtent} {Q : Except Exn Unit → List PageExtent → Prop}
    (h : ∀ o v', Q o v') : Along (batchWatch g) (allocatorRelease es) v Q := by
  refine along_withLock (along_perform (by simp) ?_)
  rintro r v' -
  exact Along.ofExcept (h r v')

theorem along_releaseAll {ess : List (List PageExtent)} {Q : Except Exn Unit → List PageExtent → Prop}
    (h : ∀ o v', Q o v') : Along (batchWatch g) (releaseAll ess) v Q := by
  induction ess generalizing v with
  | nil => exact h _ _
  | cons es ess ih =>
    refine Along.seq (along_allocatorRelease fun o v' => ?_)
    cases o with
    | ok u => exact ih
    | error x => exact h _ _

theorem along_publishAll {rs : List Reservation} {Q : Except Exn Unit → List PageExtent → Prop}
    (h : ∀ v', Q (.ok ()) v') : Along (batchWatch g) (publishAll rs) v Q := by
  induction rs generalizing v with
  | nil => exact h _
  | cons r rs ih =>
    refine along_perform (by simp) ?_
    rintro - v' -
    exact ih

/-! ## Batches -/

theorem along_runSegments {op : Operation} {n : Nat} {pending : List (IoBatchItem × Nat)} {results : List IoResult}
    {bufs : List Bytes} {Q : Except Exn (List IoResult × List Bytes) → List PageExtent → Prop} (h : ∀ o, Q o v) :
    Along (batchWatch g) (runSegments op n pending results bufs) v Q := by
  induction n generalizing pending results bufs with
  | zero => exact h _
  | succ n ih =>
    refine along_perform (by simp) ?_
    rintro (i : Nat) v' rfl
    cases hi : pending[i]? with
    | none => exact h _
    | some x =>
      obtain ⟨it, index⟩ := x
      cases op with
      | write =>
        refine along_perform (by simp) ?_
        rintro r v'' rfl
        exact ih
      | read =>
        refine along_perform (by simp) ?_
        rintro r v'' rfl
        exact ih

theorem along_submit {op : Operation} {items : List IoBatchItem} {bufs : List Bytes}
    {Q : Except Exn (List IoResult × List Bytes) → List PageExtent → Prop} (hok : ∀ it ∈ items, it.Ok g)
    (hfits : ∀ it ∈ items, Fits bufs it) (hapart : ItemsApart op items) (h : ∀ o, Q o v) :
    Along (batchWatch g) (submitBatchAndWait g op items bufs) v Q := by
  by_cases hne : items = []
  · rw [submitBatchAndWait, if_pos hne]
    exact h _
  · have hprog : ∃ k, submitBatchAndWait g op items bufs = .call .enqueue k ∧
        ∀ r, Along (batchWatch g) (k r) v Q := by
      refine ⟨_, if_neg hne, fun r => Along.seq (Along.pure (Along.seq (Along.ofExcept ?_)))⟩
      cases r with
      | error x => exact h _
      | ok u =>
        refine Along.seq (Along.ofExcept ?_)
        cases items.forM (validateItem g) with
        | error x => exact h _
        | ok u => exact along_runSegments h
    obtain ⟨k, hk, hrest⟩ := hprog
    rw [hk]
    refine ⟨fun _ => ⟨op, items, bufs, Prog.ofExcept, ⟨?_, hne, hok, hfits⟩, hapart⟩, ?_⟩
    · rw [Prog.handle_ofExcept, hk]
    · rintro r v' rfl
      exact hrest r

/-- The segments of some entries, each with the buffer of its key. -/
structure Laid (g : StorageGeometry) (ls : List Located) (parts : List (Entry × Nat)) (items : List IoBatchItem) :
    Prop where
  segmented : Segmented g parts items
  ok : ∀ p ∈ parts, p.1.Ok g
  found : ∀ p ∈ parts, ∃ l ∈ ls, p.2 = l.index ∧ l.slot.buffer.length = p.1.logicalSize
  sub : (parts.map Prod.snd).Sublist (ls.map Located.index)

theorem Segmented.ok {parts : List (Entry × Nat)} {items : List IoBatchItem} (h : Segmented g parts items) :
    ∀ it ∈ items, it.Ok g := fun it hit => by
  obtain ⟨e, b, o, -, ho⟩ := segmented_mem h hit
  exact ho.ok

theorem Segmented.fits {parts : List (Entry × Nat)} {items : List IoBatchItem} {bufs : List Bytes}
    (h : Segmented g parts items) (hb : ∀ p ∈ parts, (bufs.getD p.2 []).length = p.1.logicalSize) :
    ∀ it ∈ items, Fits bufs it := fun it hit => by
  obtain ⟨i, hi⟩ := List.mem_iff_getElem?.1 hit
  have hready := segmented_ready (R := fun _ _ => True) (List.pairwise_of_forall fun _ _ => trivial) h hb
  exact hready.fits (it, i) (List.mk_mem_zipIdx_iff_getElem?.2 hi)

theorem Laid.buffers {slots : List Slot} {states : List Nat} {parts : List (Entry × Nat)} {items : List IoBatchItem}
    (h : Laid g (locate slots states) parts items) :
    ∀ p ∈ parts, ((slots.map Slot.buffer).getD p.2 []).length = p.1.logicalSize := fun p hp => by
  obtain ⟨l, hl, hindex, hlen⟩ := h.found p hp
  obtain ⟨n, hn⟩ := List.mem_iff_getElem?.1 hl
  obtain ⟨s, q, hs, -, rfl⟩ := locate_get.1 hn
  rw [hindex, ← hlen]
  simp [List.getD_eq_getElem?_getD, hs]

theorem Laid.indexes {slots : List Slot} {states : List Nat} {parts : List (Entry × Nat)} {items : List IoBatchItem}
    (h : Laid g (locate slots states) parts items) : (parts.map Prod.snd).Nodup :=
  h.sub.nodup locate_indexes

/-- One more entry in front. -/
theorem Laid.cons {ls : List Located} {l : Located} {parts : List (Entry × Nat)} {items xs : List IoBatchItem} {e : Entry}
    (h : Laid g ls parts items) (he : e.Ok g) (hlen : l.slot.buffer.length = e.logicalSize)
    (ht : Tiles g (devAddr g.pageSize e.extents) e.logicalSize l.index 0 xs (pageSum e.extents * g.pageSize)) :
    Laid g (l :: ls) ((e, l.index) :: parts) (xs ++ items) where
  segmented := ⟨xs, items, rfl, ht, h.segmented⟩
  ok := List.forall_mem_cons.2 ⟨he, h.ok⟩
  found := by
    refine List.forall_mem_cons.2 ⟨⟨l, List.mem_cons_self, rfl, hlen⟩, fun p hp => ?_⟩
    obtain ⟨l', hl', hfound⟩ := h.found p hp
    exact ⟨l', List.mem_cons_of_mem _ hl', hfound⟩
  sub := h.sub.cons_cons _

/-- One more key, not used. -/
theorem Laid.skip {ls : List Located} {l : Located} {parts : List (Entry × Nat)} {items : List IoBatchItem}
    (h : Laid g ls parts items) : Laid g (l :: ls) parts items :=
  { h with
    found := fun p hp => by
      obtain ⟨l', hl', hfound⟩ := h.found p hp
      exact ⟨l', List.mem_cons_of_mem _ hl', hfound⟩
    sub := h.sub.cons _ }

/-- More keys, not used. -/
theorem Laid.weaken {ls more : List Located} {parts : List (Entry × Nat)} {items : List IoBatchItem}
    (h : Laid g ls parts items) : Laid g (ls ++ more) parts items :=
  { h with
    found := fun p hp => by
      obtain ⟨l', hl', hfound⟩ := h.found p hp
      exact ⟨l', List.mem_append_left _ hl', hfound⟩
    sub := h.sub.trans (by simp) }

/-- One more entry at the end. -/
theorem Laid.snoc {ls : List Located} {l : Located} {parts : List (Entry × Nat)} {items xs : List IoBatchItem} {e : Entry}
    (h : Laid g ls parts items) (he : e.Ok g) (hlen : l.slot.buffer.length = e.logicalSize)
    (ht : Tiles g (devAddr g.pageSize e.extents) e.logicalSize l.index 0 xs (pageSum e.extents * g.pageSize)) :
    Laid g (ls ++ [l]) (parts ++ [(e, l.index)]) (items ++ xs) where
  segmented := segmented_snoc ht h.segmented
  ok p hp := by
    rcases List.mem_append.1 hp with hp | hp
    · exact h.ok p hp
    · rw [List.mem_singleton.1 hp]
      exact he
  found p hp := by
    rcases List.mem_append.1 hp with hp | hp
    · exact h.weaken.found p hp
    · rw [List.mem_singleton.1 hp]
      exact ⟨l, by simp, rfl, hlen⟩
  sub := by
    rw [List.map_append, List.map_append]
    exact h.sub.append (.refl _)

/-- `write` and `read` on one entry: its segments alone. -/
theorem along_write (hg : g.Valid) {e : Entry} {value : Bytes} {Q : Except Exn Unit → List PageExtent → Prop}
    (he : e.Ok g) (hlen : value.length = e.logicalSize) (h : ∀ o, Q o v) : Along (batchWatch g) (write g e value) v Q := by
  obtain ⟨items, hitems, htiles⟩ := appendSegments_spec hg he 0
  have hs : Segmented g [(e, 0)] items := ⟨items, [], by simp, htiles, rfl⟩
  unfold write
  rw [hitems]
  refine Along.seq (Along.ofExcept (Along.seq (along_submit hs.ok (hs.fits (by simpa using hlen))
    (segmented_deviceApart hg (by simpa using he.owned) hs) fun o => ?_)))
  cases o with
  | ok r => exact Along.ofExcept (h _)
  | error x => exact h _

theorem along_read (hg : g.Valid) {e : Entry} {buffer : Bytes} {Q : Except Exn Bytes → List PageExtent → Prop}
    (he : e.Ok g) (hlen : buffer.length = e.logicalSize) (h : ∀ o, Q o v) : Along (batchWatch g) (read g e buffer) v Q := by
  obtain ⟨items, hitems, htiles⟩ := appendSegments_spec hg he 0
  have hs : Segmented g [(e, 0)] items := ⟨items, [], by simp, htiles, rfl⟩
  unfold read
  rw [hitems]
  refine Along.seq (Along.ofExcept (Along.seq (along_submit hs.ok (hs.fits (by simpa using hlen))
    (segmented_bufferApart (by simp) hs) fun o => ?_)))
  cases o with
  | error x => exact h _
  | ok r =>
    refine Along.seq (Along.ofExcept ?_)
    cases requireSuccess "bdev read" r.1 with
    | ok u => exact h _
    | error x => exact h _

/-! ## The loops of the batch operations -/

theorem along_gatherGets (hg : g.Valid) {ls : List Located}
    {Q : Except Exn (List IoBatchItem × List Nat × List Bool) → List PageExtent → Prop}
    (h : ∀ parts items keys success, Laid g ls parts items → Q (.ok (items, keys, success)) v) :
    Along (batchWatch g) (gatherGets g ls) v Q := by
  induction ls generalizing Q with
  | nil => exact h [] [] [] [] ⟨rfl, by simp, by simp, .slnil⟩
  | cons l ls ih =>
    have hskip : Along (batchWatch g) (gatherGets g ls >>= fun r => pure (r.1, r.2.1, false :: r.2.2)) v Q :=
      Along.seq (ih fun parts items keys success hl => h _ _ _ _ hl.skip)
    refine along_perform (by simp) ?_
    rintro (entry : Option Entry) v' ⟨hentry, rfl⟩
    cases entry with
    | none => exact hskip
    | some e =>
      dsimp only
      split
      · exact hskip
      · rename_i hlen
        obtain ⟨xs, hxs, ht⟩ := appendSegments_spec hg (hentry e rfl) l.index
        rw [hxs]
        refine Along.seq (Along.ofExcept (Along.seq (ih fun parts items keys success hl => ?_)))
        exact h _ _ _ _ (hl.cons (hentry e rfl) (by simpa using hlen) ht)

/-- What the reservation loop has: the pages of its reservations, and their segments. -/
structure HasReserved (g : StorageGeometry) (ls : List Located) (v : List PageExtent) (rs : List Reservation)
    (items : List IoBatchItem) : Prop where
  laid : Laid g ls (rs.map fun r => (r.entry, r.index)) items
  pages : v = rs.flatMap fun r => r.entry.extents
  owned : Owned g.pageCount v

theorem along_reserveAll (hg : g.Valid) {ls done : List Located} {keys : List Key} {rs : List Reservation}
    {items : List IoBatchItem} {Q : Except Exn (Option Exn × List Reservation × List IoBatchItem) → List PageExtent → Prop}
    (hr : HasReserved g done v rs items)
    (h : ∀ x rs' items' v', HasReserved g (done ++ ls) v' rs' items' → Q (.ok (x, rs', items')) v') :
    Along (batchWatch g) (reserveAll g ls keys rs items) v Q := by
  induction ls generalizing done keys rs items v with
  | nil => exact h none rs items v (by simpa using hr)
  | cons l ls ih =>
    have happ : done ++ l :: ls = (done ++ [l]) ++ ls := by simp
    have hstop : ∀ x, Q (.ok (x, rs, items)) v := fun x => h x rs items v { hr with laid := hr.laid.weaken }
    rw [happ] at h
    unfold reserveAll
    split
    · exact hstop _
    split
    · exact hstop _
    rename_i hpos
    refine along_perform (by simp) ?_
    rintro (current : Option Entry) v' ⟨-, rfl⟩
    split
    · exact ih { hr with laid := hr.laid.weaken } h
    refine Along.seq (Along.tryCatch (Along.seq (along_allocateEntry hg (Nat.pos_of_ne_zero hpos) (fun x => ?_)
      fun e he hlen howned => ?_)))
    · exact hstop (some x)
    · obtain ⟨xs, hxs, ht⟩ := appendSegments_spec hg he l.index
      refine Along.pure ?_
      simp only [hxs]
      have hr' : HasReserved g (done ++ [l]) (v' ++ e.extents) (rs ++ [⟨l.index, l.state, e, current⟩]) (items ++ xs) := by
        refine ⟨?_, ?_, howned⟩
        · rw [List.map_append]
          exact hr.laid.snoc he hlen.symm ht
        · rw [List.flatMap_append, ← hr.pages]
          simp
      exact ih hr' h

/-! ## The operations -/

theorem along_onKey {key : Key} {p : Nat → P Ret} {Q : Except Exn Ret → List PageExtent → Prop}
    (h : ∀ q, Along (batchWatch g) (p q) v Q) :
    Along (batchWatch g) (stateFor key >>= fun state => withLock (.key state) (p state)) v Q :=
  Along.seq (along_stateFor fun q => along_withLock (h q))

theorem along_doSingleGet (hg : g.Valid) (key : Key) (buffer : Bytes) :
    Along (batchWatch g) (doSingleGet g key buffer) v fun _ _ => True := by
  refine along_onKey fun q => along_perform (by simp) ?_
  rintro (entry : Option Entry) v' ⟨hentry, rfl⟩
  cases entry with
  | none => trivial
  | some e =>
    dsimp only
    split
    · trivial
    · rename_i hlen
      refine Along.seq (along_read hg (hentry e rfl) (by simpa using hlen) fun o => ?_)
      cases o <;> trivial

theorem along_doSingleSet (hg : g.Valid) (key : Key) (value : Bytes) :
    Along (batchWatch g) (doSingleSet g key value) v fun _ _ => True := by
  unfold doSingleSet
  split
  · trivial
  rename_i hne
  refine along_onKey fun q => along_perform (by simp) ?_
  rintro (entry : Option Entry) v' ⟨-, rfl⟩
  split
  · trivial
  refine Along.seq (along_allocateEntry hg (Nat.pos_of_ne_zero hne) (fun x => trivial) fun e he hlen _ => ?_)
  refine Along.seq (Along.tryCatch (along_write hg he hlen.symm fun o => ?_))
  cases o with
  | error x =>
    refine Along.seq (along_allocatorRelease fun o v' => ?_)
    cases o <;> trivial
  | ok u =>
    refine along_perform (by simp) ?_
    rintro (previous : Option Entry) v' ⟨-, rfl⟩
    refine along_perform (by simp) ?_
    rintro - v'' -
    cases previous with
    | none => trivial
    | some p =>
      refine Along.seq (along_allocatorRelease fun o v' => ?_)
      cases o <;> trivial

theorem along_doSingleExists (key : Key) : Along (batchWatch g) (doSingleExists key) v fun _ _ => True := by
  refine along_onKey fun q => along_perform (by simp) ?_
  rintro entry v' -
  trivial

theorem along_doSingleDelete (key : Key) : Along (batchWatch g) (doSingleDelete key) v fun _ _ => True := by
  refine along_onKey fun q => along_perform (by simp) ?_
  rintro (entry : Option Entry) v' -
  cases entry with
  | none => trivial
  | some e =>
    refine along_perform (by simp) ?_
    rintro - v'' -
    refine Along.seq (along_allocatorRelease fun o v' => ?_)
    cases o <;> trivial

theorem along_doBatchGet (hg : g.Valid) (slots : List Slot) (startIdx : Nat) (perKeyResults : List UInt8) :
    Along (batchWatch g) (doBatchGet g slots startIdx perKeyResults) v fun _ _ => True := by
  refine Along.seq (along_statesFor fun states => along_withStates ?_)
  refine Along.seq (along_gatherGets hg fun parts items keys success hl => ?_)
  refine Along.seq (Along.tryCatch (Along.seq (along_submit hl.segmented.ok (hl.segmented.fits hl.buffers)
    (segmented_bufferApart hl.indexes hl.segmented) fun o => ?_)))
  cases o with
  | error x => trivial
  | ok r =>
    dsimp only
    split <;> trivial

theorem along_unreserve {x : Exn} {rs : List Reservation} {Q : Except Exn Unit → List PageExtent → Prop}
    (h : ∀ x v', Q (.error x) v') :
    Along (batchWatch g) (releaseAll (rs.map fun r => r.entry.extents) >>= fun _ => .throw x) v Q := by
  refine Along.seq (along_releaseAll fun o v' => ?_)
  cases o <;> exact h _ _

theorem along_doBatchSet (hg : g.Valid) (slots : List Slot) :
    Along (batchWatch g) (doBatchSet g slots) [] fun _ _ => True := by
  have hpublish : ∀ (rs : List Reservation) (old : List (List PageExtent)) (v : List PageExtent),
      Along (batchWatch g) (publishAll rs >>= fun _ => releaseAll old >>= fun _ => pure Ret.unit) v fun _ _ => True := by
    intro rs old v
    refine Along.seq (along_publishAll fun v' => Along.seq (along_releaseAll fun o v'' => ?_))
    cases o <;> trivial
  refine Along.seq (along_statesFor fun states => along_withStates ?_)
  have hr0 : HasReserved g [] [] [] [] := ⟨⟨rfl, by simp, by simp, .slnil⟩, rfl, ⟨by simp, by simp, .nil⟩⟩
  refine Along.seq (along_reserveAll hg hr0 fun failed rs items v hr => ?_)
  rw [List.nil_append] at hr
  cases failed with
  | some x => exact Along.seq (along_unreserve fun x v' => trivial)
  | none =>
    have hs := hr.laid.segmented
    refine Along.seq (Along.tryCatch ?_)
    unfold writeAll
    split
    · exact hpublish _ _ _
    refine Along.seq (along_submit hs.ok (hs.fits hr.laid.buffers) (segmented_deviceApart hg ?_ hs) fun o => ?_)
    · rw [flatMap_parts, ← hr.pages]
      exact hr.owned
    · cases o with
      | error x => exact along_unreserve fun x v' => trivial
      | ok r =>
        dsimp only
        split
        · exact along_unreserve fun x v' => trivial
        · refine Along.ofExcept ?_
          cases requireSuccess "bdev write batch" r.1 with
          | ok u => exact hpublish _ _ _
          | error x => exact along_unreserve fun x v' => trivial

/-- **Every operation** submits only batches whose items are valid, in bounds and apart. -/
theorem along_body (hg : g.Valid) (c : Call) : Along (batchWatch g) (body g c) [] fun _ _ => True := by
  cases c with
  | get key buffer => exact along_doSingleGet hg key buffer
  | set key value => exact along_doSingleSet hg key value
  | exists' key => exact along_doSingleExists key
  | delete key => exact along_doSingleDelete key
  | batchGet slots startIdx res => exact along_doBatchGet hg slots startIdx res
  | batchSet slots => exact along_doBatchSet hg slots

end

/-! ## Every reachable pool -/

/-- A command moves the extents its thread has taken as the program is followed, and no other thread's. -/
theorem exec_follows {s s' : Shared} {γ γ' : Ghost} {t : Nat} {c : Cmd} {ch : Choice} {r : Answer c}
    (hi : Inv g s γ) (hi' : Inv g s' γ') (he : exec g t c ch s = some (r, s')) :
    Follows g c (s.held t) r (s'.held t) ∧ ∀ u, u ≠ t → s'.held u = s.held u := by
  cases c with
  | lock m =>
    simp only [exec] at he
    split at he
    · cases he
      exact ⟨rfl, fun _ _ => rfl⟩
    · cases he
  | unlock m =>
    simp only [exec] at he
    split at he
    · cases he
      exact ⟨rfl, fun _ _ => rfl⟩
    · cases he
  | stateFor key =>
    simp only [exec] at he
    split at he
    · cases he
      exact ⟨rfl, fun _ _ => rfl⟩
    · cases he
      exact ⟨rfl, fun _ _ => rfl⟩
  | getEntry p =>
    cases he
    exact ⟨⟨hi.entry_ok p, rfl⟩, fun _ _ => rfl⟩
  | setEntry p e =>
    cases he
    exact ⟨trivial, fun u hu => Function.update_of_ne hu _ _⟩
  | allocate n =>
    rcases allocate_spec hi.alloc n with ⟨x, hx, -⟩ | ⟨es, a', hx, -, -, hal⟩
    · simp only [exec, hx] at he
      cases he
      exact ⟨rfl, fun _ _ => rfl⟩
    · simp only [exec, hx] at he
      cases he
      exact ⟨⟨hal.sum, by simp, hi'.held_owned t⟩, fun u hu => Function.update_of_ne hu _ _⟩
  | release es =>
    simp only [exec] at he
    split at he
    · cases he
      exact ⟨trivial, fun u hu => Function.update_of_ne hu _ _⟩
    · cases he
      exact ⟨trivial, fun _ _ => rfl⟩
  | enqueue =>
    simp only [exec] at he
    split at he
    · cases he
      exact ⟨rfl, fun _ _ => rfl⟩
    · cases he
      exact ⟨rfl, fun _ _ => rfl⟩
  | pick n =>
    cases he
    exact ⟨rfl, fun _ _ => rfl⟩
  | writeSegment it staged =>
    cases he
    exact ⟨rfl, fun _ _ => rfl⟩
  | readSegment it =>
    cases he
    exact ⟨rfl, fun _ _ => rfl⟩

/-- A verified pool whose threads are followed along their programs. -/
structure Followed (hg : g.Valid) (P : Pool Shared Call Cmd Answer Exn Ret) (γ : Ghost) : Prop where
  ok : LocalLogic.PoolOk (connectorLogic hg) (fun _ => View.idle) Done P γ
  along : ∀ t j p, P.tasks t = some ⟨j, p⟩ → Along (batchWatch g) p (P.shared.held t) fun _ _ => True

theorem act_followed {hg : g.Valid} {P P' : Pool Shared Call Cmd Answer Exn Ret} {γ : Ghost} {a : Act Call Choice}
    (h : Followed hg P γ) (ha : P.act (connector g) a = some P') :
    ∃ γ', Followed hg P' γ' ∧ γ.log <+: γ'.log := by
  obtain ⟨γ', hok, hgrows⟩ := LocalLogic.act_sound (fun _ c => body_verified hg c) h.ok ha
  refine ⟨γ', ⟨hok, ?_⟩, hgrows⟩
  obtain ⟨t, j, -, ht, -, rfl⟩ | ⟨t, ch, j, c, k, r, s, -, ht, he, rfl⟩ | ⟨t, j, p, o, -, ht, -, rfl⟩ := Pool.act_cases ha
  · intro u j' p hu
    by_cases hut : u = t
    · subst hut
      simp only [Function.update_self, Option.some.injEq, Task.mk.injEq] at hu
      obtain ⟨rfl, rfl⟩ := hu
      rw [not_running_held hg h.ok ht]
      exact along_body hg j
    · exact h.along u j' p (by simpa [Function.update_of_ne hut] using hu)
  · obtain ⟨hfollows, hothers⟩ := exec_follows h.ok.inv hok.inv he
    intro u j' p hu
    by_cases hut : u = t
    · subst hut
      simp only [Function.update_self, Option.some.injEq, Task.mk.injEq] at hu
      obtain ⟨rfl, rfl⟩ := hu
      exact (h.along u _ _ ht).2 r _ hfollows
    · show Along (batchWatch g) p (s.held u) _
      rw [hothers u hut]
      exact h.along u j' p (by simpa [Function.update_of_ne hut] using hu)
  · intro u j' p' hu
    have hut : u ≠ t := by
      rintro rfl
      simp at hu
    exact h.along u j' p' (by simpa [Function.update_of_ne hut] using hu)

theorem run_followed {hg : g.Valid} {P P' : Pool Shared Call Cmd Answer Exn Ret} {γ : Ghost} {as : List (Act Call Choice)}
    (h : Followed hg P γ) (hrun : P.run (connector g) as = some P') :
    ∃ γ', Followed hg P' γ' ∧ γ.log <+: γ'.log := by
  induction as generalizing P γ with
  | nil =>
    cases hrun
    exact ⟨γ, h, List.prefix_rfl⟩
  | cons a as ih =>
    simp only [Pool.run, Option.bind_eq_some_iff] at hrun
    obtain ⟨P1, h1, h2⟩ := hrun
    obtain ⟨γ1, hf1, hgrows1⟩ := act_followed h h1
    obtain ⟨γ2, hf2, hgrows2⟩ := ih hf1 h2
    exact ⟨γ2, hf2, hgrows1.trans hgrows2⟩

theorem init_followed (hg : g.Valid) {a : PageExtentAllocator} (ha : PageExtentAllocator.new g.pageCount = .ok a)
    (dev : Nat → UInt8) : Followed hg (Pool.init (Shared.init a dev)) Ghost.init := by
  obtain ⟨hi, hv⟩ := init_inv hg ha dev
  exact ⟨LocalLogic.init_ok hi hv, fun t j p ht => by simp [Pool.init] at ht⟩

/-! ## The segments of a call -/

section
variable {β : Type}

/-- The segment a program is about to transfer. -/
def transferred : P α → Option (Operation × IoBatchItem)
  | .call (.writeSegment it _) _ => some (.write, it)
  | .call (.readSegment it) _ => some (.read, it)
  | _ => none

theorem transferred_handle {p : P α} {f : Except Exn α → P β} {x : Operation × IoBatchItem} (h : transferred p = some x) :
    transferred (p.handle f) = some x := by
  cases p with
  | call c k => cases c <;> simp_all [transferred, Prog.handle]
  | pure a => cases h
  | throw x => cases h

/-- Where a batch call leads: it is admitted, a segment is picked, and that segment is transferred. -/
theorem submit_opened {op : Operation} {items : List IoBatchItem} {bufs : List Bytes} (hne : items ≠ [])
    (hok : ∀ it ∈ items, it.Ok g) :
    ∃ (k : Except Exn Unit → P (List IoResult × List Bytes)) (k' : Nat → P (List IoResult × List Bytes)),
      submitBatchAndWait g op items bufs = .call .enqueue k ∧ (∀ x, k (.error x) = .throw x) ∧
      k (.ok ()) = .call (.pick items.length) k' ∧
      ∀ i it, items[i]? = some it → transferred (k' i) = some (op, it) := by
  obtain ⟨n, hn⟩ := Nat.exists_eq_succ_of_ne_zero (mt List.length_eq_zero_iff.1 hne)
  have hrun : ∀ results, ∃ k' : Nat → P (List IoResult × List Bytes),
      runSegments op items.length items.zipIdx results bufs = .call (.pick items.length) k' ∧
      ∀ i it, items[i]? = some it → transferred (k' i) = some (op, it) := by
    intro results
    rw [hn]
    refine ⟨_, rfl, fun i it hi => ?_⟩
    have hz : items.zipIdx[i]? = some (it, i) := by simp [List.getElem?_zipIdx, hi]
    simp only [Prog.bind, hz]
    cases op <;> rfl
  obtain ⟨k', hk', hsegments⟩ := hrun (items.map fun _ => ⟨false, ""⟩)
  refine ⟨_, k', if_neg hne, fun x => rfl, ?_, hsegments⟩
  show (Prog.ofExcept (items.forM (validateItem g)) >>= fun _ => _) = _
  rw [validate_all hok]
  exact hk'

/-- The same of a thread at its call. -/
theorem AtBatch.opened {p : P α} {op : Operation} {items : List IoBatchItem} {bufs : List Bytes}
    {rest : Except Exn (List IoResult × List Bytes) → P α} (h : AtBatch g p op items bufs rest) :
    ∃ (k : Except Exn Unit → P α) (k' : Nat → P α), p = .call .enqueue k ∧ (∀ x, k (.error x) = rest (.error x)) ∧
      k (.ok ()) = .call (.pick items.length) k' ∧
      ∀ i it, items[i]? = some it → transferred (k' i) = some (op, it) := by
  obtain ⟨k, k', hk, herror, hok, hsegments⟩ := @submit_opened g op items bufs h.nonempty h.ok
  refine ⟨fun r => (k r).handle rest, fun i => (k' i).handle rest, ?_, fun x => ?_, ?_, fun i it hi => ?_⟩
  · rw [h.prog, hk]
    rfl
  · dsimp only
    rw [herror]
    rfl
  · dsimp only
    rw [hok]
    rfl
  · exact transferred_handle (hsegments i it hi)

/-- A thread is at one call only. -/
theorem AtBatch.unique {p : P α} {op op' : Operation} {items items' : List IoBatchItem} {bufs bufs' : List Bytes}
    {rest rest' : Except Exn (List IoResult × List Bytes) → P α} (h : AtBatch g p op items bufs rest)
    (h' : AtBatch g p op' items' bufs' rest') : op = op' ∧ items = items' := by
  obtain ⟨k, l, rfl, -, hl, hsegments⟩ := h.opened
  obtain ⟨k', l', hk, -, hl', hsegments'⟩ := h'.opened
  injection hk with _ hk
  subst hk
  have hlength : items.length = items'.length := by
    injection hl.symm.trans hl' with hlength
    injection hlength
  rw [hlength] at hl
  injection hl.symm.trans hl' with _ hsame
  subst hsame
  have hitem : ∀ (i : Nat) (it it' : IoBatchItem), items[i]? = some it → items'[i]? = some it' → op = op' ∧ it = it' := by
    intro i it it' hi hi'
    simpa [hsegments i it hi] using hsegments' i it' hi'
  have hpos := List.length_pos_iff.2 h.nonempty
  refine ⟨(hitem 0 _ _ (List.getElem?_eq_getElem hpos) (List.getElem?_eq_getElem (hlength ▸ hpos))).1,
    List.ext_getElem hlength fun i hi hi' => ?_⟩
  exact (hitem i _ _ (List.getElem?_eq_getElem hi) (List.getElem?_eq_getElem hi')).2

end

/-! ## Batches of different threads -/

section
variable {hg : g.Valid} {pool : Pool Shared Call Cmd Answer Exn Ret} {γ : Ghost} {t u : Nat} {j : Call}

/-- A thread that is at a call has its items apart. -/
theorem Followed.apart (h : Followed hg pool γ) {p : P Ret} {op : Operation} {items : List IoBatchItem}
    {bufs : List Bytes} {rest : Except Exn (List IoResult × List Bytes) → P Ret} (ht : pool.tasks t = some ⟨j, p⟩)
    (hat : AtBatch g p op items bufs rest) : ItemsApart op items := by
  obtain ⟨k, -, rfl, -⟩ := hat.opened
  obtain ⟨op', items', bufs', rest', hat', hapart⟩ := (h.along t j _ ht).1 rfl
  obtain ⟨rfl, rfl⟩ := hat.unique hat'
  exact hapart

/-- Ghost moves change no page in view. -/
theorem moves_same {v v' : View} (h : (connectorLogic hg).moves j v v') : ∃ fin bound, v' = { v with fin, bound } := by
  induction h with
  | refl => exact ⟨_, _, rfl⟩
  | tail _ hlast ih =>
    obtain ⟨fin, bound, rfl⟩ := ih
    obtain ⟨-, o, -, -, rfl⟩ := hlast
    exact ⟨_, _, rfl⟩

/-- A verified program that is about to transfer a segment has its pages. -/
theorem wp_transferred {p : P α} {v : View} {Q : Except Exn α → View → Prop} {op : Operation} {it : IoBatchItem}
    (hp : transferred p = some (op, it)) (hwf : v.WF g) (h : (connectorLogic hg).wp j p v Q) {a : Nat} (ha : InRange it a) :
    v.Access g.pageSize a ∧ (op = .write → Covers v.priv (a / g.pageSize)) := by
  cases p with
  | pure a => cases hp
  | throw x => cases hp
  | call c k =>
    obtain ⟨v', hm, h⟩ := h
    obtain ⟨fin, bound, rfl⟩ := moves_same hm
    obtain ⟨hpre, -⟩ := h { hwf with }
    cases c with
    | writeSegment it' staged =>
      obtain ⟨rfl, rfl⟩ : Operation.write = op ∧ it' = it := by simpa [transferred] using hp
      exact ⟨.inl (hpre.2.2 a ha), fun _ => hpre.2.2 a ha⟩
    | readSegment it' =>
      obtain ⟨rfl, rfl⟩ : Operation.read = op ∧ it' = it := by simpa [transferred] using hp
      exact ⟨hpre.2 a ha, by simp⟩
    | _ => simp [transferred] at hp

/-- A verified program at a call has the pages of its items. -/
theorem wp_access {p : P α} {v : View} {Q : Except Exn α → View → Prop} {op : Operation} {items : List IoBatchItem}
    {bufs : List Bytes} {rest : Except Exn (List IoResult × List Bytes) → P α} (hat : AtBatch g p op items bufs rest)
    (hwf : v.WF g) (h : (connectorLogic hg).wp j p v Q) {it : IoBatchItem} (hit : it ∈ items) {a : Nat}
    (ha : InRange it a) : v.Access g.pageSize a ∧ (op = .write → Covers v.priv (a / g.pageSize)) := by
  obtain ⟨k, k', rfl, -, hk, hsegments⟩ := hat.opened
  obtain ⟨i, hi⟩ := List.mem_iff_getElem?.1 hit
  obtain ⟨v1, hm1, h1⟩ := h
  obtain ⟨fin1, bound1, rfl⟩ := moves_same hm1
  have hwf1 : ({ v with fin := fin1, bound := bound1 } : View).WF g := { hwf with }
  have hnext := (h1 hwf1).2 (.ok ()) _ hwf1 rfl
  rw [hk] at hnext
  obtain ⟨v2, hm2, h2⟩ := hnext
  obtain ⟨fin2, bound2, rfl⟩ := moves_same hm2
  have hlt : i < items.length := (List.getElem?_eq_some_iff.1 hi).1
  have hwf2 : ({ v with fin := fin2, bound := bound2 } : View).WF g := { hwf with }
  exact wp_transferred (hsegments i it hi) hwf2 ((h2 hwf2).2 i _ hwf2 ⟨fun _ => hlt, rfl⟩) ha

/-- **Batches of different threads** do not meet on the device if one of them writes. -/
theorem batches_apart (h : LocalLogic.PoolOk (connectorLogic hg) (fun _ => View.idle) Done pool γ) (hne : t ≠ u)
    {j' : Call} {p p' : P Ret} {op op' : Operation} {items items' : List IoBatchItem} {bufs bufs' : List Bytes}
    {rest rest' : Except Exn (List IoResult × List Bytes) → P Ret} (ht : pool.tasks t = some ⟨j, p⟩)
    (hat : AtBatch g p op items bufs rest) (hu : pool.tasks u = some ⟨j', p'⟩) (hat' : AtBatch g p' op' items' bufs' rest')
    (hwrite : op = .write ∨ op' = .write) {it it' : IoBatchItem} (hit : it ∈ items) (hit' : it' ∈ items') {a : Nat} :
    ¬ (InRange it a ∧ InRange it' a) := by
  rintro ⟨ha, ha'⟩
  obtain ⟨v, hv, -, hw⟩ := h.running t j p ht
  obtain ⟨v', hv', -, hw'⟩ := h.running u j' p' hu
  obtain ⟨haccess, hpriv⟩ := wp_access hat (hv.wf h.inv) hw hit ha
  obtain ⟨haccess', hpriv'⟩ := wp_access hat' (hv'.wf h.inv) hw' hit' ha'
  have howner : ∀ {t v}, Sees g t v pool.shared γ → Covers v.priv (a / g.pageSize) → γ.page (a / g.pageSize) = .task t :=
    fun hv hc => ((h.inv.held_page _ _).1 (hv.held ▸ hc)).2
  rcases hwrite with rfl | rfl
  · have hpage := howner hv (hpriv rfl)
    rcases (hv'.access_page h.inv haccess').2 with hpage' | ⟨q, hpage', -⟩
    · exact hne (PageOwner.task.inj (hpage.symm.trans hpage'))
    · cases hpage.symm.trans hpage'
  · have hpage' := howner hv' (hpriv' rfl)
    rcases (hv.access_page h.inv haccess).2 with hpage | ⟨q, hpage, -⟩
    · exact hne (PageOwner.task.inj (hpage.symm.trans hpage'))
    · cases hpage.symm.trans hpage'

end

end SpdkConnector
