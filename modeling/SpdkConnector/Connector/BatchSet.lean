import SpdkConnector.Connector.BatchGet

/-!
# `do_batch_set`

`Reserving`: the reservations so far; the entries are untouched, the new pages are private. `Complete`:
what the reservation loop has checked when it ends without an exception. Publication then swaps old
pages for new ones key by key, and the old ones are released.
-/

namespace SpdkConnector

open Interleaving

variable {g : StorageGeometry} (hg : g.Valid)

/-- Where a reservation comes from. -/
structure FromLocated (v : View) (done : List Located) (r : Reservation) : Prop where
  origin : ∃ l ∈ done, r.index = l.index ∧ r.state = l.state ∧ r.entry.logicalSize = l.slot.buffer.length ∧
    sizeDiffers (v.entry l.state) l.slot.buffer.length = false
  previous : r.previous = v.entry r.state

/-- The state of the reservation loop after the keys `done`; `v0` is the view it started with. -/
structure Reserving (g : StorageGeometry) (v0 : View) (done : List Located) (v : View)
    (reservations : List Reservation) (items : List IoBatchItem) : Prop where
  locks : v.locks = v0.locks
  states : v.states = v0.states
  fin : v.fin = v0.fin
  bound : v.bound = v0.bound
  entry : v.entry = v0.entry
  priv : v.priv = reservations.flatMap fun r => r.entry.extents
  settled : ∀ q, .key q ∈ v0.locks → v.Settled g q
  ok : ∀ r ∈ reservations, r.entry.Ok g
  segmented : Segmented g (reservations.map fun r => (r.entry, r.index)) items
  found : ∀ r ∈ reservations, FromLocated v0 done r
  index : (reservations.map Reservation.index).Sublist (done.map Located.index)
  state : (reservations.map Reservation.state).Sublist (done.map Located.state)

/-- Every key passed its checks, and is reserved unless its binding has another length. -/
structure Complete (v0 : View) (done : List Located) (reservations : List Reservation) : Prop where
  keys : (done.map fun l => l.slot.key).Nodup
  nonempty : ∀ l ∈ done, l.slot.buffer ≠ []
  reserved : ∀ l ∈ done, sizeDiffers (v0.entry l.state) l.slot.buffer.length = true ∨
    ∃ r ∈ reservations, r.index = l.index

theorem Reserving.weaken {v0 v : View} {done more : List Located} {reservations : List Reservation}
    {items : List IoBatchItem} (h : Reserving g v0 done v reservations items) :
    Reserving g v0 (done ++ more) v reservations items :=
  { h with
    found := fun r hr => by
      obtain ⟨⟨l, hl, h'⟩, hp⟩ := h.found r hr
      exact ⟨⟨l, List.mem_append_left _ hl, h'⟩, hp⟩
    index := h.index.trans (by simp)
    state := h.state.trans (by simp) }

/-- One more reservation. -/
theorem Reserving.reserve (hg : g.Valid) {v0 v : View} {done : List Located} {l : Located}
    {reservations : List Reservation} {items xs : List IoBatchItem} {e : Entry} {d : Nat → UInt8}
    (h : Reserving g v0 done v reservations items) (hwf : (v.grant g e.extents d).WF g) (he : e.Ok g)
    (hlen : e.logicalSize = l.slot.buffer.length)
    (hsize : sizeDiffers (v.entry l.state) l.slot.buffer.length = false)
    (ht : Tiles g (devAddr g.pageSize e.extents) e.logicalSize l.index 0 xs (pageSum e.extents * g.pageSize)) :
    Reserving g v0 (done ++ [l]) (v.grant g e.extents d)
      (reservations ++ [⟨l.index, l.state, e, v.entry l.state⟩]) (items ++ xs) where
  locks := h.locks
  states := h.states
  fin := h.fin
  bound := h.bound
  entry := h.entry
  priv := by simp [View.grant, h.priv]
  settled q hq := by
    intro k hk
    have hq' : Mutex.key q ∈ (v.grant g e.extents d).locks := by
      show Mutex.key q ∈ v.locks
      rw [h.locks]; exact hq
    rw [show (v.grant g e.extents d).bound k = v.bound k from rfl, ← h.settled q hq k hk]
    refine map_contents_congr hg (fun x hx => hwf.entry_ok q x hq' hx) fun a ha => onPages_not_mem fun hc => ?_
    exact hwf.priv_apart q _ hq' ⟨by simp [View.grant, hc], ha⟩
  ok r hr := by
    rcases List.mem_append.1 hr with hr | hr
    · exact h.ok r hr
    · rw [List.mem_singleton.1 hr]; exact he
  segmented := by
    rw [List.map_append]
    exact segmented_snoc ht h.segmented
  found r hr := by
    rcases List.mem_append.1 hr with hr | hr
    · exact h.weaken.found r hr
    · rw [List.mem_singleton.1 hr]
      exact ⟨⟨l, by simp, rfl, rfl, hlen, h.entry ▸ hsize⟩, by rw [h.entry]⟩
  index := by
    rw [List.map_append, List.map_append]
    exact h.index.append (.refl _)
  state := by
    rw [List.map_append, List.map_append]
    exact h.state.append (.refl _)

/-- The reservation loop. -/
theorem wp_reserveAll {j : Call} {v0 : View} (hlt : ∀ m ∈ v0.locks, m.lt .allocator) :
    ∀ {ls done : List Located} {keys : List Key} {reservations : List Reservation} {items : List IoBatchItem}
      {v : View} {Q : Except Exn (Option Exn × List Reservation × List IoBatchItem) → View → Prop},
      (∀ l ∈ ls, .key l.state ∈ v0.locks) → keys = (done.map fun l => l.slot.key).reverse →
      Reserving g v0 done v reservations items → Complete v0 done reservations →
      (∀ x rs its v', Reserving g v0 (done ++ ls) v' rs its → Q (.ok (some x, rs, its)) v') →
      (∀ rs its v', Reserving g v0 (done ++ ls) v' rs its → Complete v0 (done ++ ls) rs →
        Q (.ok (none, rs, its)) v') →
      (connectorLogic hg).wp j (reserveAll g ls keys reservations items) v Q
  | [], done, keys, reservations, items, v, Q, _, _, hr, hc, _, hok =>
    LocalLogic.wp_pure (hok _ _ _ (by simpa using hr) (by simpa using hc))
  | l :: ls, done, keys, reservations, items, v, Q, hl, hkeys, hr, hc, herr, hok => by
    have hq : .key l.state ∈ v.locks := by rw [hr.locks]; exact hl l List.mem_cons_self
    have hls : ∀ l' ∈ ls, .key l'.state ∈ v0.locks := fun l' hl' => hl l' (List.mem_cons_of_mem _ hl')
    have happ : done ++ l :: ls = (done ++ [l]) ++ ls := by simp
    have stop : ∀ x, (connectorLogic hg).wp j (pure (some x, reservations, items)) v Q := fun x =>
      LocalLogic.wp_pure (herr x _ _ _ hr.weaken)
    unfold reserveAll
    split
    · exact stop _
    rename_i hnew
    split
    · exact stop _
    rename_i hpos
    have hkeys' : l.slot.key :: keys = ((done ++ [l]).map fun l => l.slot.key).reverse := by simp [hkeys]
    have hnodup : ((done ++ [l]).map fun l => l.slot.key).Nodup := by
      rw [← List.nodup_reverse, ← hkeys']
      exact List.nodup_cons.2 ⟨hnew, by rw [hkeys, List.nodup_reverse]; exact hc.keys⟩
    have hne : ∀ l' ∈ done ++ [l], l'.slot.buffer ≠ [] := fun l' hl' => by
      rcases List.mem_append.1 hl' with hl' | hl'
      · exact hc.nonempty l' hl'
      · rw [List.mem_singleton.1 hl']
        exact fun h => hpos (by simp [h])
    refine wp_perform hg fun _ => ⟨hq, ?_⟩
    rintro _ v' _ ⟨rfl, hv'⟩
    obtain rfl : v = v' := hv'.symm
    split
    · -- the binding has another length: the key is skipped
      rename_i hsize
      refine wp_reserveAll hlt hls hkeys' hr.weaken ⟨hnodup, hne, fun l' hl' => ?_⟩ ?_ ?_
      · rcases List.mem_append.1 hl' with hl' | hl'
        · exact hc.reserved l' hl'
        · rw [List.mem_singleton.1 hl', ← hr.entry]; exact .inl hsize
      · rw [← happ]; exact herr
      · rw [← happ]; exact hok
    · rename_i hsize
      have hsize : sizeDiffers (v.entry l.state) l.slot.buffer.length = false := by simpa using hsize
      refine LocalLogic.wp_seq (LocalLogic.wp_tryCatch (LocalLogic.wp_seq (wp_allocateEntry hg
        (Nat.pos_of_ne_zero hpos) (by rw [hr.locks]; exact hlt)
        (fun x => LocalLogic.wp_throw (LocalLogic.wp_pure (stop x))) fun e d he hlen hwf =>
          LocalLogic.wp_pure ?_)))
      obtain ⟨xs, hx, ht⟩ := appendSegments_spec hg he l.index
      have hr' := hr.reserve hg hwf he hlen hsize ht
      simp only [hx]
      refine wp_reserveAll hlt hls hkeys' hr' ⟨hnodup, hne, fun l' hl' => ?_⟩ ?_ ?_
      · rcases List.mem_append.1 hl' with hl' | hl'
        · refine (hc.reserved l' hl').imp id fun h => h.imp fun r hr => ⟨List.mem_append_left _ hr.1, hr.2⟩
        · rw [List.mem_singleton.1 hl']
          exact .inr ⟨_, List.mem_append_right _ List.mem_cons_self, rfl⟩
      · rw [← happ]; exact herr
      · rw [← happ]; exact hok

/-! ## Giving pages back -/

theorem wp_releaseAll {j : Call} : ∀ {ess : List (List PageExtent)} {v : View}
    {Q : Except Exn Unit → View → Prop}, (∀ m ∈ v.locks, m.lt .allocator) → v.priv = ess.flatten →
    Q (.ok ()) { v with priv := [] } → (connectorLogic hg).wp j (releaseAll ess) v Q
  | [], v, Q, _, hp, h => by
    have : v = { v with priv := [] } := by simp only [List.flatten_nil] at hp; rw [← hp]
    exact LocalLogic.wp_pure (this ▸ h)
  | es :: ess, v, Q, hlt, hp, h =>
    LocalLogic.wp_seq (wp_allocatorRelease hg ess.flatten hlt (by simpa using hp) (wp_releaseAll hlt rfl h))

/-! ## The writes -/

theorem flatMap_parts (reservations : List Reservation) :
    ((reservations.map fun r => (r.entry, r.index)).flatMap fun p => p.1.extents) =
      reservations.flatMap fun r => r.entry.extents := by
  simp [List.flatMap_map]

/-- A change of private pages leaves every held key's bytes in place. -/
theorem settled_withMem (hg : g.Valid) {v : View} (hwf : v.WF g) {q : Nat} (hq : .key q ∈ v.locks)
    (hset : v.Settled g q) {d : Nat → UInt8} (hd : ∀ a, ¬ Covers v.priv (a / g.pageSize) → d a = v.mem a) :
    (v.withMem d).Settled g q := fun k hk => by
  rw [show (v.withMem d).bound k = v.bound k from rfl, ← hset k hk]
  exact entry_untouched hg hwf hq hd

theorem wp_writeAll {j : Call} {v0 v : View} {done : List Located} {reservations : List Reservation}
    {items : List IoBatchItem} {buffers : List Bytes} {Q : Except Exn Unit → View → Prop}
    (hr : Reserving g v0 done v reservations items) (hwf : v.WF g)
    (hb : ∀ r ∈ reservations, (buffers.getD r.index []).length = r.entry.logicalSize)
    (herr : ∀ x d, Reserving g v0 done (v.withMem d) reservations items → Q (.error x) (v.withMem d))
    (hok : ∀ d, Reserving g v0 done (v.withMem d) reservations items →
      (∀ r ∈ reservations, contents g.pageSize d r.entry = buffers.getD r.index []) → Q (.ok ()) (v.withMem d)) :
    (connectorLogic hg).wp j (writeAll g items buffers) v Q := by
  have keep : ∀ d, (∀ a, ¬ Covers v.priv (a / g.pageSize) → d a = v.mem a) →
      Reserving g v0 done (v.withMem d) reservations items := fun d hd =>
    { hr with settled := fun q hq => settled_withMem hg hwf (by rw [hr.locks]; exact hq) (hr.settled q hq) hd }
  unfold writeAll
  split
  · rename_i hnil
    refine LocalLogic.wp_pure (hok v.mem hr fun r hrm => ?_)
    have hpos := (hr.ok r hrm).size_pos
    obtain ⟨it, hit, -⟩ := segmented_cover hr.segmented (e := r.entry) (b := r.index)
      (List.mem_map.2 ⟨r, hrm, rfl⟩) (Nat.lt_of_lt_of_le hpos ((hr.ok r hrm).size_le hg).1)
    simp [hnil] at hit
  · have hcover : ∀ {x}, Covers v.priv x ↔ ∃ r ∈ reservations, Covers r.entry.extents x := by
      intro x
      rw [hr.priv, ← flatMap_parts, covers_flatMap]
      simp
    refine LocalLogic.wp_seq (wp_writeBatch hg (by simpa using hr.ok)
      (by rw [flatMap_parts, ← hr.priv]; exact hwf.priv_owned) hr.segmented (by simpa using hb)
      (fun p hp x hx => ?_) (fun x => LocalLogic.wp_throw (herr x v.mem hr)) fun rs d hlen hframe hall => ?_)
    · obtain ⟨r, hrm, rfl⟩ := List.mem_map.1 hp
      exact hcover.2 ⟨r, hrm, hx⟩
    · have hd : ∀ a, ¬ Covers v.priv (a / g.pageSize) → d a = v.mem a := fun a ha =>
        hframe a fun p hp hc => by
          obtain ⟨r, hrm, rfl⟩ := List.mem_map.1 hp
          exact ha (hcover.2 ⟨r, hrm, hc⟩)
      simp only [ne_eq, hlen, not_true_eq_false, if_false]
      cases hreq : requireSuccess "bdev write batch" rs with
      | ok u =>
        refine LocalLogic.wp_pure (hok d (keep d hd) fun r hrm => ?_)
        exact hall (requireSuccess_ok hreq) (r.entry, r.index) (List.mem_map.2 ⟨r, hrm, rfl⟩)
      | error x => exact LocalLogic.wp_throw (herr x d (keep d hd))

/-! ## Publication -/

/-- The entry of a key state after publication. -/
def publishedEntry (entry : Nat → Option Entry) (reservations : List Reservation) (q : Nat) : Option Entry :=
  (reservations.find? (·.state == q)).elim (entry q) fun r => some r.entry

theorem publishedEntry_of_mem {entry : Nat → Option Entry} {r : Reservation} :
    ∀ {reservations : List Reservation}, (reservations.map Reservation.state).Nodup → r ∈ reservations →
      publishedEntry entry reservations r.state = some r.entry
  | x :: rs, hn, hr => by
    obtain ⟨h1, h2⟩ := List.nodup_cons.1 hn
    rcases List.mem_cons.1 hr with rfl | hr
    · simp [publishedEntry]
    · have hne : x.state ≠ r.state := fun e => h1 (e ▸ List.mem_map_of_mem hr)
      have tail : publishedEntry entry rs r.state = some r.entry := publishedEntry_of_mem h2 hr
      simpa [publishedEntry, List.find?_cons, hne] using tail

theorem publishedEntry_of_not_mem {entry : Nat → Option Entry} {reservations : List Reservation} {q : Nat}
    (h : ∀ r ∈ reservations, r.state ≠ q) : publishedEntry entry reservations q = entry q := by
  have : reservations.find? (·.state == q) = none := by simpa using h
  simp [publishedEntry, this]

/-- `states[...]->entry = std::move(...)` for every reservation: each swaps its new pages for the old. -/
theorem wp_publishAll {j : Call} : ∀ {rs : List Reservation} {v : View} (old : List PageExtent)
    {Q : Except Exn Unit → View → Prop}, (rs.map Reservation.state).Nodup →
    (∀ r ∈ rs, .key r.state ∈ v.locks) → (∀ r ∈ rs, r.entry.Ok g) → (∀ r ∈ rs, r.previous = v.entry r.state) →
    v.priv = (rs.flatMap fun r => r.entry.extents) ++ old →
    Q (.ok ()) { v with
      entry := publishedEntry v.entry rs
      priv := old ++ rs.flatMap fun r => extentsOf r.previous } →
    (connectorLogic hg).wp j (publishAll rs) v Q
  | [], v, old, Q, _, _, _, _, hp, h => by
    have : v = { v with entry := publishedEntry v.entry [], priv := old ++ [] } := by
      simp only [List.flatMap_nil, List.nil_append] at hp
      rw [List.append_nil, ← hp]
      rfl
    exact LocalLogic.wp_pure (this ▸ h)
  | r :: rs, v, old, Q, hn, hl, hok, hprev, hp, h => by
    obtain ⟨hr, hn'⟩ := List.nodup_cons.1 hn
    have hne : ∀ x ∈ rs, x.state ≠ r.state := fun x hx e => hr (e ▸ List.mem_map_of_mem hx)
    have hp' : v.priv = extentsOf (some r.entry) ++ ((rs.flatMap fun r => r.entry.extents) ++ old) := by
      rw [hp, List.flatMap_cons, List.append_assoc]; rfl
    refine wp_perform hg fun _ => ⟨⟨hl r (by simp), fun x hx => Option.some.inj hx ▸ hok r (by simp), _, hp'⟩, ?_⟩
    rintro _ _ _ rfl
    refine wp_publishAll (old ++ extentsOf (v.entry r.state)) hn' (fun x hx => hl x (by simp [hx]))
      (fun x hx => hok x (by simp [hx])) (fun x hx => ?_) ?_ ?_
    · rw [hprev x (by simp [hx])]
      exact (Function.update_of_ne (hne x hx) _ _).symm
    · simp only [View.publish, hp', diff_append_left, List.append_assoc]
    · have hentry : publishedEntry (v.publish r.state (some r.entry)).entry rs =
          publishedEntry v.entry (r :: rs) := by
        funext q
        by_cases hq : r.state = q
        · subst hq
          rw [publishedEntry_of_not_mem hne, publishedEntry_of_mem hn (by simp)]
          simp [View.publish]
        · simp [publishedEntry, View.publish, hq, Function.update_of_ne (Ne.symm hq)]
      rw [hentry]
      simpa [hprev r (by simp), View.publish] using h

/-- The superseded pages as the code lists them. -/
theorem flatMap_previous (rs : List Reservation) :
    (rs.flatMap fun r => extentsOf r.previous) =
      (rs.filterMap fun r => r.previous.map Entry.extents).flatten := by
  induction rs with
  | nil => rfl
  | cons r rs ih =>
    cases hp : r.previous with
    | none => simp [hp, ← ih, extentsOf_none]
    | some e => simp [hp, ← ih, extentsOf_some]

/-- Rolling back gives the new pages back and leaves every key as it was. -/
theorem wp_unreserve {slots : List Slot} {v v' : View} {done : List Located} {rs : List Reservation}
    {items : List IoBatchItem} {β : Type} {Q : Except Exn β → View → Prop} {x : Exn}
    (hr : Reserving g v done v' rs items) (hlt : ∀ m ∈ v.locks, m.lt .allocator)
    (hfin : v.fin = none) (hlock : ∀ k q, (k, q) ∈ v.states → .key q ∈ v.locks)
    (h : ∀ v'', BatchEnd g (.batchSet slots) v (.error x) v'' → Q (.error x) v'') :
    (connectorLogic hg).wp (.batchSet slots)
      (releaseAll (rs.map fun r => r.entry.extents) >>= fun _ => .throw x) v' Q := by
  refine LocalLogic.wp_seq (wp_releaseAll hg (by rw [hr.locks]; exact hlt)
    (by rw [hr.priv, List.flatMap_def]) (LocalLogic.wp_throw (h _ ⟨hr.locks, hr.states, hr.fin.trans hfin, rfl, trivial,
      fun k q hkq => ?_⟩)))
  exact hr.settled q (hlock k q hkq) k (by rw [hr.states]; exact hkq)

/-- The request passed the checks as a whole. -/
theorem Complete.slots {slots : List Slot} {states : List Nat} {v : View} {rs : List Reservation}
    (hc : Complete v (locate slots states) rs) (hL : Locates v slots states) :
    (slots.map Slot.key).Nodup ∧ ∀ s ∈ slots, s.buffer ≠ [] := by
  refine ⟨List.nodup_iff_getElem?_ne_getElem?.2 fun i j hij hj h => ?_, fun s hs => ?_⟩
  · have hj' : j < slots.length := by simpa using hj
    obtain ⟨q1, h1⟩ := hL.get_slot (List.getElem?_eq_getElem (Nat.lt_trans hij hj'))
    obtain ⟨q2, h2⟩ := hL.get_slot (List.getElem?_eq_getElem hj')
    refine List.nodup_iff_getElem?_ne_getElem?.1 hc.keys i j hij ?_ ?_
    · rw [List.length_map, locate_length hL.length]; exact hj'
    · simp only [List.getElem?_map, h1, h2, Option.map_some]
      simpa [List.getElem?_eq_getElem hj', List.getElem?_eq_getElem (Nat.lt_trans hij hj')] using h
  · obtain ⟨n, hn⟩ := List.mem_iff_getElem?.1 hs
    obtain ⟨q, hq⟩ := hL.get_slot hn
    exact hc.nonempty _ (List.mem_of_getElem? hq)

/-- After the writes every key's new entry holds what the map will. -/
theorem published_settled {slots : List Slot} {states : List Nat} {v v' : View} {rs : List Reservation}
    {items : List IoBatchItem} (hL : Locates v slots states) (hwf : v.WF g)
    (hlock : ∀ l ∈ locate slots states, .key l.state ∈ v.locks)
    (hr : Reserving g v (locate slots states) v' rs items) (hc : Complete v (locate slots states) rs)
    (hn : (rs.map Reservation.state).Nodup)
    (hw : ∀ r ∈ rs, contents g.pageSize v'.mem r.entry = (slots.map Slot.buffer).getD r.index []) :
    ∀ k q, (k, q) ∈ v.states →
      (publishedEntry v'.entry rs q).map (contents g.pageSize v'.mem) = bindAll v'.bound slots k := by
  intro k q hkq
  obtain ⟨l, hl, rfl, rfl⟩ := hL.mem_view.1 hkq
  obtain ⟨n, hln⟩ := List.mem_iff_getElem?.1 hl
  obtain ⟨s, q, hs, -, rfl⟩ := locate_get.1 hln
  have hold : (v.entry q).map (contents g.pageSize v'.mem) = v'.bound s.key := by
    rw [← hr.entry]
    exact hr.settled q (hlock _ hl) s.key (by rw [hr.states]; exact hkq)
  have hkeys := (hc.slots hL).1
  rw [bindAll_bound hkeys (List.mem_of_getElem? hs), bindKey, any_length hold]
  rcases hc.reserved _ hl with hsize | ⟨r, hrm, hri⟩
  · -- skipped: no reservation has this state
    rw [if_pos hsize, publishedEntry_of_not_mem fun r hrm e => ?_, hr.entry]
    · exact hold
    · obtain ⟨⟨l', hl', -, h2, -, h4⟩, -⟩ := hr.found r hrm
      have hkey := hwf.key_unique l'.slot.key s.key q
        (hL.mem_view.2 ⟨l', hl', rfl, (h2.symm.trans e).symm⟩) (hL.mem_view.2 ⟨_, hl, rfl, rfl⟩)
      have : l' = ⟨n, q, s⟩ := List.inj_on_of_nodup_map hc.keys hl' hl hkey
      subst this
      rw [hsize] at h4; cases h4
  · obtain ⟨⟨l', hl', h1, h2, h3, h4⟩, -⟩ := hr.found r hrm
    have : l' = ⟨n, q, s⟩ := List.inj_on_of_nodup_map locate_indexes hl' hl (h1.symm.trans hri)
    subst this
    have hb : (slots.map Slot.buffer).getD r.index [] = s.buffer := by
      rw [h1]; simp [List.getD_eq_getElem?_getD, hs]
    have hq : r.state = q := h2
    rw [if_neg (by simp [h4]), ← hq, publishedEntry_of_mem hn hrm, Option.map_some, hw r hrm, hb]
    simp

/-- **`do_batch_set`** binds every key it may or, with an exception, none. -/
theorem wp_doBatchSet (slots : List Slot) :
    (connectorLogic hg).wp (.batchSet slots) (doBatchSet g slots) View.idle (Done (.batchSet slots)) := by
  refine wp_onKeys hg rfl fun states v hL hlocks hlt hpriv hfin hwf hset => ?_
  have hlock : ∀ l ∈ locate slots states, .key l.state ∈ v.locks := fun l hl =>
    (hlocks _).2 (hL.mem_states.2 ⟨l, hl, rfl⟩)
  have hlock' : ∀ k q, (k, q) ∈ v.states → .key q ∈ v.locks := fun k q hkq => by
    obtain ⟨l, hl, -, rfl⟩ := hL.mem_view.1 hkq
    exact hlock l hl
  have start : Reserving g v [] v [] [] :=
    ⟨rfl, rfl, rfl, rfl, rfl, by simpa using hpriv, fun q hq => hset q ((hlocks q).1 hq), by simp, rfl, by simp,
      .slnil, .slnil⟩
  refine LocalLogic.wp_seq (wp_reserveAll hg hlt hlock rfl start ⟨by simp, by simp, by simp⟩
    (fun x rs its v' hr => ?_) fun rs its v' hr hc => LocalLogic.wp_wf fun hwf' => ?_)
  · exact LocalLogic.wp_seq (wp_unreserve hg hr hlt hfin hlock' fun v'' he => LocalLogic.wp_throw he)
  simp only [List.nil_append] at hr hc
  have hb : ∀ r ∈ rs, ((slots.map Slot.buffer).getD r.index []).length = r.entry.logicalSize := fun r hrm => by
    obtain ⟨⟨l, hl, h1, -, h3, -⟩, -⟩ := hr.found r hrm
    obtain ⟨n, hn⟩ := List.mem_iff_getElem?.1 hl
    obtain ⟨s, q, hs, -, rfl⟩ := locate_get.1 hn
    rw [h1, h3]; simp [List.getD_eq_getElem?_getD, hs]
  have hn : (rs.map Reservation.state).Nodup := by
    refine hr.state.nodup (List.nodup_iff_pairwise_ne.2 ?_)
    refine (List.pairwise_map.2 ((List.pairwise_map.1 (List.nodup_iff_pairwise_ne.1 hc.keys)).imp_of_mem ?_))
    intro a b ha hb hne e
    exact hne (hwf.key_unique _ _ a.state (hL.mem_view.2 ⟨a, ha, rfl, rfl⟩) (hL.mem_view.2 ⟨b, hb, rfl, e⟩))
  refine LocalLogic.wp_seq (LocalLogic.wp_tryCatch (wp_writeAll hg hr hwf' hb (fun x d hr' => ?_) fun d hr' hw => ?_))
  · exact wp_unreserve hg hr' hlt hfin hlock' fun v'' he => LocalLogic.wp_throw he
  · refine LocalLogic.wp_seq (wp_publishAll hg [] hn (fun r hrm => ?_) hr'.ok (fun r hrm => ?_)
      (by rw [List.append_nil]; exact hr'.priv) (LocalLogic.wp_seq (wp_releaseAll hg ?_ ?_ (LocalLogic.wp_pure ?_))))
    · obtain ⟨⟨l, hl, -, h2, -⟩, -⟩ := hr'.found r hrm
      rw [h2, hr'.locks]
      exact hlock l hl
    · rw [hr'.entry]; exact (hr'.found r hrm).previous
    · show ∀ m ∈ (v'.withMem d).locks, _
      rw [hr'.locks]; exact hlt
    · simp only [List.nil_append, flatMap_previous]
    · exact ⟨hr'.locks, hr'.states, hr'.fin.trans hfin, rfl, hc.slots hL,
        published_settled hL hwf hlock hr' hc hn hw⟩

end SpdkConnector
