import SpdkConnector.Connector.SingleOps

/-!
# Multi-key operations and `do_batch_get`

A batch operation holds every key of its request from before the first look at an entry until after the
last change (`wp_onKeys`), so it takes the map's step at one moment. `Gathered` describes the gathering
loop of `do_batch_get`: the segments of the keys that can be read, and which key each belongs to.
-/

namespace SpdkConnector

open Interleaving

variable {g : StorageGeometry} (hg : g.Valid)

/-! ## Keys and their states -/

theorem locate_get {slots : List Slot} {states : List Nat} {n : Nat} {l : Located} :
    (locate slots states)[n]? = some l ↔
      ∃ s q, slots[n]? = some s ∧ states[n]? = some q ∧ l = ⟨n, q, s⟩ := by
  simp only [locate, List.getElem?_map, List.getElem?_zipIdx, Nat.zero_add, Option.map_map]
  cases hs : slots[n]? with
  | none => simp [List.zip, List.getElem?_zipWith, hs]
  | some s =>
    cases hq : states[n]? with
    | none => simp [List.zip, List.getElem?_zipWith, hs, hq]
    | some q =>
      simp only [List.zip, List.getElem?_zipWith, hs, hq, Option.map_some, Option.some.injEq, Function.comp]
      constructor
      · rintro rfl; exact ⟨s, q, rfl, rfl, rfl⟩
      · rintro ⟨_, _, rfl, rfl, rfl⟩; rfl

/-- The requests' keys with their states, as `StatesFor` left them in view. -/
structure Locates (v : View) (slots : List Slot) (states : List Nat) : Prop where
  length : states.length = slots.length
  view : v.states = ((slots.map Slot.key).zip states).reverse

theorem Locates.mem_view {v : View} {slots : List Slot} {states : List Nat} (h : Locates v slots states)
    {k : Key} {q : Nat} : (k, q) ∈ v.states ↔ ∃ l ∈ locate slots states, k = l.slot.key ∧ q = l.state := by
  rw [h.view, List.mem_reverse]
  constructor
  · intro hm
    obtain ⟨n, hn⟩ := List.mem_iff_getElem?.1 hm
    simp only [List.zip, List.getElem?_zipWith, List.getElem?_map] at hn
    cases hs : slots[n]? with
    | none => simp [hs] at hn
    | some s =>
      cases hq : states[n]? with
      | none => simp [hs, hq] at hn
      | some q' =>
        simp only [hs, hq, Option.map_some, Option.some.injEq, Prod.mk.injEq] at hn
        exact ⟨⟨n, q', s⟩, List.mem_of_getElem? (locate_get.2 ⟨s, q', hs, hq, rfl⟩), hn.1.symm, hn.2.symm⟩
  · rintro ⟨l, hl, rfl, rfl⟩
    obtain ⟨n, hn⟩ := List.mem_iff_getElem?.1 hl
    obtain ⟨s, q, hs, hq, rfl⟩ := locate_get.1 hn
    refine List.mem_of_getElem? (i := n) ?_
    simp [List.zip, List.getElem?_zipWith, hs, hq]

theorem Locates.mem_states {v : View} {slots : List Slot} {states : List Nat} (h : Locates v slots states)
    {q : Nat} : q ∈ states ↔ ∃ l ∈ locate slots states, l.state = q := by
  constructor
  · intro hm
    obtain ⟨n, hn⟩ := List.mem_iff_getElem?.1 hm
    obtain ⟨hlt, -⟩ := List.getElem?_eq_some_iff.1 hn
    have hs := List.getElem?_eq_getElem (h.length ▸ hlt)
    exact ⟨_, List.mem_of_getElem? (locate_get.2 ⟨_, q, hs, hn, rfl⟩), rfl⟩
  · rintro ⟨l, hl, rfl⟩
    obtain ⟨n, hn⟩ := List.mem_iff_getElem?.1 hl
    obtain ⟨s, q, -, hq, rfl⟩ := locate_get.1 hn
    exact List.mem_of_getElem? hq

theorem Locates.get_slot {v : View} {slots : List Slot} {states : List Nat} (h : Locates v slots states)
    {n : Nat} {s : Slot} (hs : slots[n]? = some s) : ∃ q, (locate slots states)[n]? = some ⟨n, q, s⟩ := by
  obtain ⟨hlt, -⟩ := List.getElem?_eq_some_iff.1 hs
  exact ⟨_, locate_get.2 ⟨s, _, hs, List.getElem?_eq_getElem (h.length.symm ▸ hlt), rfl⟩⟩

theorem locate_length {slots : List Slot} {states : List Nat} (h : states.length = slots.length) :
    (locate slots states).length = slots.length := by
  simp [locate, h]

theorem locate_indexes {slots : List Slot} {states : List Nat} :
    ((locate slots states).map Located.index).Nodup := by
  refine List.nodup_iff_getElem?_ne_getElem?.2 fun i j hij hj h => ?_
  simp only [List.getElem?_map] at h
  simp only [List.length_map] at hj
  have hi : i < (locate slots states).length := Nat.lt_trans hij hj
  rw [List.getElem?_eq_getElem hi, List.getElem?_eq_getElem hj] at h
  obtain ⟨_, _, _, _, e1⟩ := locate_get.1 (List.getElem?_eq_getElem hi)
  obtain ⟨_, _, _, _, e2⟩ := locate_get.1 (List.getElem?_eq_getElem hj)
  rw [e1, e2] at h
  simp at h
  omega

/-- What the block of a batch operation leaves, before the call is counted: the entries already hold
the map's values after it. -/
structure BatchEnd (g : StorageGeometry) (c : Call) (v : View) (o : Outcome) (v' : View) : Prop where
  locks : v'.locks = v.locks
  states : v'.states = v.states
  fin : v'.fin = none
  priv : v'.priv = []
  allows : c.Allows v'.bound o
  settled : ∀ k q, (k, q) ∈ v.states →
    (v'.entry q).map (contents g.pageSize v'.mem) = c.effect v'.bound o k

/-- A batch operation: look the states up, lock them, run `p`. -/
theorem wp_onKeys {c : Call} {slots : List Slot} {p : List Nat → P Ret} (hk : c.keys = slots.map Slot.key)
    (h : ∀ states v, Locates v slots states → (∀ q, .key q ∈ v.locks ↔ q ∈ states) →
      (∀ m ∈ v.locks, m.lt .allocator) → v.priv = [] → v.fin = none → v.WF g →
      (∀ q ∈ states, v.Settled g q) → (connectorLogic hg).wp c (p states) v (BatchEnd g c v)) :
    (connectorLogic hg).wp c (statesFor (slots.map Slot.key) >>= fun states => withStates states (p states))
      View.idle (Done c) := by
  refine LocalLogic.wp_seq (wp_statesFor hg rfl fun states hlen => ?_)
  have hloc : ∀ v : View, v.states = ((slots.map Slot.key).zip states).reverse ++ [] → Locates v slots states :=
    fun v hv => ⟨by simpa using hlen, by rw [hv, List.append_nil]⟩
  have hknown : ∀ q ∈ states, ∃ k, (k, q) ∈ ((slots.map Slot.key).zip states).reverse ++ [] := fun q hq => by
    have hL := hloc { View.idle with states := ((slots.map Slot.key).zip states).reverse ++ [] } rfl
    obtain ⟨l, hl, rfl⟩ := hL.mem_states.1 hq
    exact ⟨l.slot.key, hL.mem_view.2 ⟨l, hl, rfl, rfl⟩⟩
  refine wp_withStates hg rfl hknown fun v hlocks hlt hstates hpriv hfin hset => LocalLogic.wp_wf fun hwf => ?_
  have hL := hloc v hstates
  refine LocalLogic.wp_post_moves (LocalLogic.wp_mono (fun o v' he => ?_)
    (h states v hL hlocks hlt hpriv hfin hwf hset))
  have hcommit : commit c v' { v' with fin := some (c, o), bound := c.effect v'.bound o } := by
    refine ⟨he.fin, o, he.allows, fun k hkm => ?_, rfl⟩
    rw [hk] at hkm
    obtain ⟨s, hs, rfl⟩ := List.mem_map.1 hkm
    obtain ⟨n, hn⟩ := List.mem_iff_getElem?.1 hs
    obtain ⟨q, hq⟩ := hL.get_slot hn
    have hm := List.mem_of_getElem? hq
    exact ⟨q, by rw [he.states]; exact hL.mem_view.2 ⟨_, hm, rfl, rfl⟩,
      by rw [he.locks]; exact (hlocks q).2 (hL.mem_states.2 ⟨_, hm, rfl⟩)⟩
  refine ⟨_, .single hcommit, he.locks, fun q _ k hkq => ?_, rfl, he.priv, rfl⟩
  exact he.settled k q (by rw [← he.states]; exact hkq)

/-! ## `do_batch_get` -/

/-- A flag stays set iff it was set and no segment of its key failed. -/
theorem markFailures_iff {i : Nat} : ∀ {rs : List (IoResult × Nat)} {success : List Bool},
    (markFailures success rs)[i]? = some true ↔
      success[i]? = some true ∧ ∀ x ∈ rs, x.2 = i → x.1.success = true
  | [], success => by simp [markFailures]
  | (r, key) :: rs, success => by
    rw [markFailures, markFailures_iff, List.forall_mem_cons]
    by_cases hr : r.success = true
    · simp [hr]
    · by_cases hk : key = i
      · subst hk
        simp only [if_neg hr]
        constructor
        · rintro ⟨h, -⟩
          by_cases hlt : key < success.length
          · rw [List.getElem?_set_self hlt] at h; simp at h
          · rw [List.getElem?_eq_none (by simpa using hlt)] at h; cases h
        · rintro ⟨-, h, -⟩; exact (hr (h trivial)).elim
      · simp [hr, hk, List.getElem?_set_ne hk]

theorem markFailures_length : ∀ {rs : List (IoResult × Nat)} {success : List Bool},
    (markFailures success rs).length = success.length
  | [], _ => rfl
  | (r, key) :: rs, success => by
    rw [markFailures, markFailures_length]; split <;> simp

/-- The outcome of the gathering loop over `ls`. -/
structure Gathered (g : StorageGeometry) (v : View) (ls : List Located) (parts : List (Entry × Nat))
    (items : List IoBatchItem) (itemToKey : List Nat) (success : List Bool) : Prop where
  segmented : Segmented g parts items
  keys : itemToKey = items.map itemKey
  length : success.length = ls.length
  found : ∀ p ∈ parts, ∃ l ∈ ls, p.2 = l.index ∧ v.entry l.state = some p.1 ∧
    l.slot.buffer.length = p.1.logicalSize
  sub : (parts.map Prod.snd).Sublist (ls.map Located.index)
  flagged : ∀ (n : Nat) (l : Located), ls[n]? = some l → success[n]? = some true →
    ∃ e, v.entry l.state = some e ∧ (e, l.index) ∈ parts

/-- A key that cannot be read. -/
theorem Gathered.skip {v : View} {l : Located} {ls : List Located} {parts : List (Entry × Nat)}
    {items : List IoBatchItem} {itemToKey : List Nat} {success : List Bool}
    (h : Gathered g v ls parts items itemToKey success) :
    Gathered g v (l :: ls) parts items itemToKey (false :: success) :=
  ⟨h.segmented, h.keys, by simp [h.length], fun p hp => by
    obtain ⟨l', hl', h'⟩ := h.found p hp
    exact ⟨l', List.mem_cons_of_mem _ hl', h'⟩, h.sub.cons _, fun n l' hn hs => by
    cases n with
    | zero => simp at hs
    | succ n => exact h.flagged n l' (by simpa using hn) (by simpa using hs)⟩

/-- A key whose segments are read. -/
theorem Gathered.take {v : View} {l : Located} {ls : List Located} {parts : List (Entry × Nat)}
    {items xs : List IoBatchItem} {itemToKey : List Nat} {success : List Bool} {e : Entry}
    (h : Gathered g v ls parts items itemToKey success) (he : v.entry l.state = some e)
    (hlen : l.slot.buffer.length = e.logicalSize)
    (ht : Tiles g (devAddr g.pageSize e.extents) e.logicalSize l.index 0 xs (pageSum e.extents * g.pageSize)) :
    Gathered g v (l :: ls) ((e, l.index) :: parts) (xs ++ items) (xs.map (fun _ => l.index) ++ itemToKey)
      (true :: success) :=
  ⟨⟨xs, items, rfl, ht, h.segmented⟩, by
    rw [h.keys, List.map_append]
    congr 1
    refine List.map_congr_left fun it hit => ?_
    obtain ⟨o, ho⟩ := tiles_mem ht hit
    simp [itemKey, ho.buffer], by simp [h.length], fun p hp => by
    rcases List.mem_cons.1 hp with rfl | hp
    · exact ⟨l, List.mem_cons_self, rfl, he, hlen⟩
    · obtain ⟨l', hl', h'⟩ := h.found p hp
      exact ⟨l', List.mem_cons_of_mem _ hl', h'⟩, h.sub.cons_cons _, fun n l' hn hs => by
    cases n with
    | zero =>
      simp only [List.getElem?_cons_zero, Option.some.injEq] at hn
      subst hn
      exact ⟨e, he, List.mem_cons_self⟩
    | succ n =>
      obtain ⟨e', h1, h2⟩ := h.flagged n l' (by simpa using hn) (by simpa using hs)
      exact ⟨e', h1, List.mem_cons_of_mem _ h2⟩⟩

theorem wp_gatherGets {j : Call} {v : View} (hwf : v.WF g) :
    ∀ {ls : List Located} {Q : Except Exn (List IoBatchItem × List Nat × List Bool) → View → Prop},
      (∀ l ∈ ls, .key l.state ∈ v.locks) →
      (∀ parts items itemToKey success, Gathered g v ls parts items itemToKey success →
        Q (.ok (items, itemToKey, success)) v) →
      (connectorLogic hg).wp j (gatherGets g ls) v Q
  | [], Q, _, h => LocalLogic.wp_pure (h [] [] [] [] ⟨rfl, rfl, rfl, by simp, .slnil, by simp⟩)
  | l :: ls, Q, hl, h => by
    have hq := hl l List.mem_cons_self
    have hls : ∀ l' ∈ ls, .key l'.state ∈ v.locks := fun l' hl' => hl l' (List.mem_cons_of_mem _ hl')
    refine wp_perform hg fun _ => ⟨hq, ?_⟩
    rintro _ v' _ ⟨rfl, hv'⟩
    obtain rfl : v = v' := hv'.symm
    have skip : (connectorLogic hg).wp j (gatherGets g ls >>= fun r => pure (r.1, r.2.1, false :: r.2.2)) v Q :=
      LocalLogic.wp_seq (wp_gatherGets hwf hls fun _ _ _ _ hr => LocalLogic.wp_pure (h _ _ _ _ hr.skip))
    split
    · exact skip
    · rename_i e he
      have he : v.entry l.state = some e := he
      split
      · exact skip
      · rename_i hlen
        obtain ⟨xs, hx, ht⟩ := appendSegments_spec hg (hwf.entry_ok _ e hq he) l.index
        refine wp_ofExcept hg (fun a ha => ?_) fun x hx' => by rw [hx] at hx'; cases hx'
        obtain rfl : xs = a := by rw [hx] at ha; exact Except.ok.inj ha
        exact LocalLogic.wp_seq (wp_gatherGets hwf hls fun _ _ _ _ hr =>
          LocalLogic.wp_pure (h _ _ _ _ (hr.take he (by omega) ht)))

theorem wp_doBatchGet (slots : List Slot) (startIdx : Nat) (perKeyResults : List UInt8) :
    (connectorLogic hg).wp (.batchGet slots startIdx perKeyResults) (doBatchGet g slots startIdx perKeyResults)
      View.idle (Done (.batchGet slots startIdx perKeyResults)) := by
  refine wp_onKeys hg rfl fun states v hL hlocks hlt hpriv hfin hwf hset => ?_
  have hlock : ∀ l ∈ locate slots states, .key l.state ∈ v.locks := fun l hl =>
    (hlocks _).2 (hL.mem_states.2 ⟨l, hl, rfl⟩)
  have hbytes : ∀ l ∈ locate slots states, (v.entry l.state).map (contents g.pageSize v.mem) =
      v.bound l.slot.key := fun l hl =>
    hset l.state (hL.mem_states.2 ⟨l, hl, rfl⟩) l.slot.key (hL.mem_view.2 ⟨l, hl, rfl, rfl⟩)
  refine LocalLogic.wp_seq (wp_gatherGets hg hwf hlock fun parts items itemToKey success hG => ?_)
  have hslot : ∀ l ∈ locate slots states, (slots.map Slot.buffer).getD l.index [] = l.slot.buffer := fun l hl => by
    obtain ⟨n, hn⟩ := List.mem_iff_getElem?.1 hl
    obtain ⟨s, q, hs, -, rfl⟩ := locate_get.1 hn
    simp [List.getD_eq_getElem?_getD, hs]
  have finish : ∀ flags bufs, BatchLoaded v.bound slots startIdx perKeyResults
      (writeResults perKeyResults startIdx flags) bufs flags →
      BatchEnd g (.batchGet slots startIdx perKeyResults) v
        (.ok (.batch (writeResults perKeyResults startIdx flags) bufs)) v := fun flags bufs hb => by
    refine ⟨rfl, rfl, hfin, hpriv, ⟨flags, hb⟩, fun k q hkq => ?_⟩
    obtain ⟨l, hl, rfl, rfl⟩ := hL.mem_view.1 hkq
    exact hbytes l hl
  -- whatever goes wrong inside the `try`, no key is reported
  have caught : (connectorLogic hg).wp (.batchGet slots startIdx perKeyResults)
      (pure (success.map fun _ => false, slots.map Slot.buffer) : P (List Bool × List Bytes)) v fun r v' => match r with
        | .ok a => (connectorLogic hg).wp (.batchGet slots startIdx perKeyResults)
          (pure (.batch (writeResults perKeyResults startIdx a.1) a.2)) v'
          (BatchEnd g (.batchGet slots startIdx perKeyResults) v)
        | .error e => (connectorLogic hg).wp (.batchGet slots startIdx perKeyResults) (.throw e) v'
          (BatchEnd g (.batchGet slots startIdx perKeyResults) v) := by
    refine LocalLogic.wp_pure (LocalLogic.wp_pure (finish _ _ ⟨?_, by simp, rfl, fun i s _ hi => ?_⟩))
    · rw [List.length_map, hG.length, locate_length hL.length]
    · have := List.mem_of_getElem? hi
      simp at this
  refine LocalLogic.wp_seq (LocalLogic.wp_tryCatch (LocalLogic.wp_seq (wp_readBatch hg ?_ ?_ hG.segmented
    ?_ ?_ (fun x => LocalLogic.wp_throw caught) fun rs bufs' hlen hbl hread => ?_)))
  · intro p hp
    obtain ⟨l, hl, -, he, -⟩ := hG.found p hp
    exact hwf.entry_ok _ p.1 (hlock l hl) he
  · exact hG.sub.nodup locate_indexes
  · intro p hp
    obtain ⟨l, hl, hi, -, hlen⟩ := hG.found p hp
    rw [hi, hslot l hl, hlen]
  · intro p hp a ha
    obtain ⟨l, hl, -, he, -⟩ := hG.found p hp
    exact .inr ⟨l.state, hlock l hl, by rw [he]; exact ha⟩
  · simp only [ne_eq, hlen, not_true_eq_false, if_false]
    refine LocalLogic.wp_pure (LocalLogic.wp_pure (finish _ _ ⟨?_, by simpa using hbl, rfl, fun i s hs hi => ?_⟩))
    · rw [markFailures_length, hG.length, locate_length hL.length]
    · obtain ⟨hsuc, hall⟩ := markFailures_iff.1 hi
      obtain ⟨q, hl⟩ := hL.get_slot hs
      obtain ⟨e, he, hm⟩ := hG.flagged i _ hl hsuc
      have hlm := List.mem_of_getElem? hl
      have hbuf := hread (e, i) hm fun n it r hn hr hkey => hall (r, itemKey it) (by
        refine List.mem_of_getElem? (i := n) ?_
        simp [List.zip, List.getElem?_zipWith, hG.keys, hn, hr]) hkey
      obtain ⟨l', hl', hi', he', hlen'⟩ := hG.found _ hm
      have hsame : l' = ⟨i, q, s⟩ := List.inj_on_of_nodup_map locate_indexes hl' hlm hi'.symm
      subst hsame
      have hlt' : i < bufs'.length := by
        obtain ⟨h1, -⟩ := List.getElem?_eq_some_iff.1 hs
        simpa [hbl] using h1
      refine ⟨contents g.pageSize v.mem e, ?_, ?_, ?_⟩
      · rw [List.getElem?_eq_getElem hlt', ← hbuf, List.getD_eq_getElem?_getD, List.getElem?_eq_getElem hlt']
        rfl
      · have := hbytes _ hlm
        rw [he] at this
        exact this.symm
      · rw [contents_length]; exact hlen'.symm

end SpdkConnector
