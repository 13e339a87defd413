import SpdkConnector.Connector.Steps

/-!
# Batches of segments

What a batch does to the device and to the caller buffers, whatever the order of its segments and
whichever of them fail. `Segmented` describes the items of several entries at once; their device ranges
and their ranges of the caller buffers are pairwise apart, so the outcome of each segment stands.
-/

namespace SpdkConnector

open Interleaving

variable {g : StorageGeometry}

/-! ## The items of several entries -/

/-- Byte `x` of buffer `b` is one the item moves. -/
def Target (it : IoBatchItem) (b x : Nat) : Prop :=
  ∃ p, it.buffer = some p ∧ p.buffer = b ∧ p.offset ≤ x ∧ x < p.offset + it.logicalLength

/-- The items do not meet on the device. -/
def DeviceApart (x y : IoBatchItem) : Prop := ∀ a, ¬ (InRange x a ∧ InRange y a)

/-- The items do not meet in the caller buffers. -/
def BufferApart (x y : IoBatchItem) : Prop := ∀ b z, ¬ (Target x b z ∧ Target y b z)

theorem DeviceApart.symm {x y : IoBatchItem} (h : DeviceApart x y) : DeviceApart y x :=
  fun a ha => h a ⟨ha.2, ha.1⟩

theorem BufferApart.symm {x y : IoBatchItem} (h : BufferApart x y) : BufferApart y x :=
  fun b z hz => h b z ⟨hz.2, hz.1⟩

/-- One item of a tiling, at linear position `o`. -/
structure TileAt (g : StorageGeometry) (addr : Nat → Nat) (L buffer lo hi : Nat) (it : IoBatchItem)
    (o : Nat) : Prop where
  ok : it.Ok g
  buffer : it.buffer = some ⟨buffer, o⟩
  logical : it.logicalLength = min it.physicalLength (L - o)
  lo_le : lo ≤ o
  le_hi : o + it.physicalLength ≤ hi
  addr : ∀ k < it.physicalLength, addr (o + k) = it.byteOffset + k

theorem tiles_mem {addr : Nat → Nat} {L buffer : Nat} {it : IoBatchItem} :
    ∀ {items : List IoBatchItem} {x y : Nat}, Tiles g addr L buffer x items y → it ∈ items →
      ∃ o, TileAt g addr L buffer x y it o
  | i :: items, x, y, ⟨h1, h2, h3, h4, h5, h6⟩, hm => by
    rcases List.mem_cons.1 hm with rfl | hm
    · exact ⟨x, h1, h2, h3, Nat.le_refl _, h4, h5⟩
    · obtain ⟨o, ho⟩ := tiles_mem h6 hm
      exact ⟨o, { ho with lo_le := Nat.le_trans (Nat.le_add_right _ _) ho.lo_le }⟩

/-- Later items lie behind earlier ones. -/
theorem tiles_pairwise {addr : Nat → Nat} {L buffer : Nat} :
    ∀ {items : List IoBatchItem} {x y : Nat}, Tiles g addr L buffer x items y →
      items.Pairwise fun i j => ∃ o o', TileAt g addr L buffer x y i o ∧ TileAt g addr L buffer x y j o' ∧
        o + i.physicalLength ≤ o'
  | [], _, _, _ => .nil
  | i :: items, x, y, ⟨h1, h2, h3, h4, h5, h6⟩ => by
    have weaken : ∀ {j o}, TileAt g addr L buffer (x + i.physicalLength) y j o → TileAt g addr L buffer x y j o :=
      fun h => { h with lo_le := Nat.le_trans (Nat.le_add_right _ _) h.lo_le }
    refine List.pairwise_cons.2 ⟨fun j hj => ?_, (tiles_pairwise h6).imp ?_⟩
    · obtain ⟨o, ho⟩ := tiles_mem h6 hj
      exact ⟨x, o, ⟨h1, h2, h3, Nat.le_refl _, h4, h5⟩, weaken ho, ho.lo_le⟩
    · rintro a b ⟨o, o', ha, hb, h⟩
      exact ⟨o, o', weaken ha, weaken hb, h⟩

theorem tiles_cover {addr : Nat → Nat} {L buffer z : Nat} :
    ∀ {items : List IoBatchItem} {x y : Nat}, Tiles g addr L buffer x items y → x ≤ z → z < y →
      ∃ it ∈ items, ∃ o, TileAt g addr L buffer x y it o ∧ o ≤ z ∧ z < o + it.physicalLength
  | [], x, y, h, h1, h2 => by simp only [Tiles] at h; omega
  | i :: items, x, y, ⟨h1, h2, h3, h4, h5, h6⟩, hx, hy => by
    by_cases hz : z < x + i.physicalLength
    · exact ⟨i, by simp, x, ⟨h1, h2, h3, Nat.le_refl _, h4, h5⟩, hx, hz⟩
    · obtain ⟨it, hit, o, ho, h⟩ := tiles_cover h6 (Nat.le_of_not_lt hz) hy
      exact ⟨it, by simp [hit], o, { ho with lo_le := Nat.le_trans (Nat.le_add_right _ _) ho.lo_le }, h⟩

/-- The items of the entries, one entry after the other; each entry has a buffer of its own. -/
def Segmented (g : StorageGeometry) : List (Entry × Nat) → List IoBatchItem → Prop
  | [], items => items = []
  | (e, b) :: parts, items => ∃ xs ys, items = xs ++ ys ∧
      Tiles g (devAddr g.pageSize e.extents) e.logicalSize b 0 xs (pageSum e.extents * g.pageSize) ∧
      Segmented g parts ys

theorem segmented_snoc {e : Entry} {b : Nat} {xs : List IoBatchItem}
    (h : Tiles g (devAddr g.pageSize e.extents) e.logicalSize b 0 xs (pageSum e.extents * g.pageSize)) :
    ∀ {parts : List (Entry × Nat)} {items : List IoBatchItem}, Segmented g parts items →
      Segmented g (parts ++ [(e, b)]) (items ++ xs)
  | [], items, hi => by
    simp only [Segmented] at hi
    subst hi
    exact ⟨xs, [], by simp, h, rfl⟩
  | (e', b') :: parts, items, ⟨us, ws, hi, ht, hs⟩ =>
    ⟨us, ws ++ xs, by rw [hi, List.append_assoc], ht, segmented_snoc h hs⟩

theorem segmented_mem {it : IoBatchItem} : ∀ {parts : List (Entry × Nat)} {items : List IoBatchItem},
    Segmented g parts items → it ∈ items → ∃ e b o, (e, b) ∈ parts ∧
      TileAt g (devAddr g.pageSize e.extents) e.logicalSize b 0 (pageSum e.extents * g.pageSize) it o
  | [], items, h, hm => by simp only [Segmented] at h; simp [h] at hm
  | (e, b) :: parts, items, ⟨xs, ys, hi, ht, hs⟩, hm => by
    rw [hi] at hm
    rcases List.mem_append.1 hm with hm | hm
    · obtain ⟨o, ho⟩ := tiles_mem ht hm
      exact ⟨e, b, o, by simp, ho⟩
    · obtain ⟨e', b', o, hp, ho⟩ := segmented_mem hs hm
      exact ⟨e', b', o, by simp [hp], ho⟩

/-- Every byte of every entry is moved by one of the items. -/
theorem segmented_cover {e : Entry} {b x : Nat} :
    ∀ {parts : List (Entry × Nat)} {items : List IoBatchItem}, Segmented g parts items → (e, b) ∈ parts →
      x < pageSum e.extents * g.pageSize → ∃ it ∈ items, ∃ o,
        TileAt g (devAddr g.pageSize e.extents) e.logicalSize b 0 (pageSum e.extents * g.pageSize) it o ∧
        o ≤ x ∧ x < o + it.physicalLength
  | (e', b') :: parts, items, ⟨xs, ys, hi, ht, hs⟩, hp, hx => by
    rcases List.mem_cons.1 hp with h | hp
    · cases h
      obtain ⟨it, hit, o, h⟩ := tiles_cover ht (Nat.zero_le x) hx
      exact ⟨it, by rw [hi]; simp [hit], o, h⟩
    · obtain ⟨it, hit, o, h⟩ := segmented_cover hs hp hx
      exact ⟨it, by rw [hi]; simp [hit], o, h⟩

/-- An item writes on its entry's pages only. -/
theorem TileAt.range (hg : g.Valid) {e : Entry} {L b o : Nat} {it : IoBatchItem}
    (h : TileAt g (devAddr g.pageSize e.extents) L b 0 (pageSum e.extents * g.pageSize) it o)
    {a : Nat} (ha : InRange it a) : ∃ k, k < it.physicalLength ∧ a = it.byteOffset + k ∧
      a = devAddr g.pageSize e.extents (o + k) ∧ Covers e.extents (a / g.pageSize) := by
  have hk : a - it.byteOffset < it.physicalLength := by have := ha.1; have := ha.2; omega
  have hle := h.le_hi
  have haddr := h.addr _ hk
  have he : it.byteOffset + (a - it.byteOffset) = a := by have := ha.1; omega
  refine ⟨a - it.byteOffset, hk, he.symm, by rw [haddr, he], ?_⟩
  rw [← he, ← haddr]
  exact devAddr_covers hg.pageSize_pos (by omega)

theorem covers_flatMap {parts : List (Entry × Nat)} {p : Nat} :
    Covers (parts.flatMap fun x => x.1.extents) p ↔ ∃ x ∈ parts, Covers x.1.extents p := by
  simp only [Covers, List.mem_flatMap]
  constructor
  · rintro ⟨e, ⟨x, hx, he⟩, hp⟩; exact ⟨x, hx, e, he, hp⟩
  · rintro ⟨x, hx, e, he, hp⟩; exact ⟨e, ⟨x, hx, he⟩, hp⟩

/-- **Entries that own their pages together have items that do not meet on the device.** -/
theorem segmented_deviceApart (hg : g.Valid) : ∀ {parts : List (Entry × Nat)} {items : List IoBatchItem},
    Owned g.pageCount (parts.flatMap fun p => p.1.extents) → Segmented g parts items →
      items.Pairwise DeviceApart
  | [], items, _, h => by simp only [Segmented] at h; simp [h]
  | (e, b) :: parts, items, ho, ⟨xs, ys, hi, ht, hs⟩ => by
    obtain ⟨howned, hrest, hpages⟩ := ho.of_append
    rw [hi]
    refine List.pairwise_append.2 ⟨(tiles_pairwise ht).imp ?_, segmented_deviceApart hg hrest hs,
      fun i him j hjm a ⟨ha, ha'⟩ => ?_⟩
    · rintro i j ⟨o, o', hi, hj, hle⟩ a ⟨ha, ha'⟩
      obtain ⟨k, hk, -, hak, -⟩ := hi.range hg ha
      obtain ⟨k', hk', -, hak', -⟩ := hj.range hg ha'
      have := hi.le_hi; have := hj.le_hi
      have : o + k = o' + k' := devAddr_inj hg.pageSize_pos howned
        (show _ < pageSum e.extents * _ by omega) (show _ < pageSum e.extents * _ by omega) (hak.symm.trans hak')
      omega
    · obtain ⟨o, ho⟩ := tiles_mem ht him
      obtain ⟨e', b', o', hm, ho'⟩ := segmented_mem hs hjm
      obtain ⟨-, -, -, -, hc⟩ := ho.range hg ha
      obtain ⟨-, -, -, -, hc'⟩ := ho'.range hg ha'
      exact hpages _ ⟨hc, covers_flatMap.2 ⟨_, hm, hc'⟩⟩

/-- Entries with a buffer each have items that do not meet in the caller buffers. -/
theorem segmented_bufferApart : ∀ {parts : List (Entry × Nat)} {items : List IoBatchItem},
    (parts.map Prod.snd).Nodup → Segmented g parts items → items.Pairwise BufferApart
  | [], items, _, h => by simp only [Segmented] at h; simp [h]
  | (e, b) :: parts, items, hn, ⟨xs, ys, hi, ht, hs⟩ => by
    obtain ⟨hbuf, hrest⟩ := List.nodup_cons.1 hn
    rw [hi]
    refine List.pairwise_append.2 ⟨(tiles_pairwise ht).imp ?_, segmented_bufferApart hrest hs,
      fun i him j hjm z _ ⟨⟨p, hq, hb, _⟩, p', hq', hb', _⟩ => ?_⟩
    · rintro i j ⟨o, o', hi, hj, hle⟩ z x ⟨⟨p, hp, -, h1, h2⟩, p', hp', -, h3, h4⟩
      rw [hi.buffer] at hp
      rw [hj.buffer] at hp'
      cases hp; cases hp'
      have := hi.logical
      simp only at h2 h3
      omega
    · obtain ⟨o, ho⟩ := tiles_mem ht him
      obtain ⟨e', b', o', hm, ho'⟩ := segmented_mem hs hjm
      rw [ho.buffer] at hq
      rw [ho'.buffer] at hq'
      cases hq; cases hq'
      simp only at hb hb'
      exact hbuf (List.mem_map.2 ⟨_, hm, by simp only; omega⟩)

/-! ## Caller buffers -/

theorem getElem?_overwrite {buf bytes : Bytes} {off : Nat} (h : off + bytes.length ≤ buf.length) (x : Nat) :
    (overwrite buf off bytes)[x]? =
      if off ≤ x ∧ x < off + bytes.length then bytes[x - off]? else buf[x]? := by
  have hlen : (buf.take off ++ bytes).length = off + bytes.length := by simp; omega
  have htake : (buf.take off).length = off := by simp; omega
  unfold overwrite
  by_cases h1 : x < off
  · rw [if_neg (by omega), List.getElem?_append_left (by omega), List.getElem?_append_left (by omega),
      List.getElem?_take_of_lt h1]
  · by_cases h2 : x < off + bytes.length
    · rw [if_pos ⟨by omega, h2⟩, List.getElem?_append_left (by omega), List.getElem?_append_right (by omega), htake]
    · rw [if_neg (by omega), List.getElem?_append_right (by omega), hlen, List.getElem?_drop]
      congr 1; omega

theorem length_overwrite {buf bytes : Bytes} {off : Nat} (h : off + bytes.length ≤ buf.length) :
    (overwrite buf off bytes).length = buf.length := by
  simp [overwrite]; omega

/-- The item's caller range lies in its buffer. -/
def Fits (bufs : List Bytes) (it : IoBatchItem) : Prop :=
  ∃ p, it.buffer = some p ∧ p.offset + it.logicalLength ≤ (bufs.getD p.buffer []).length

/-- The item's caller range holds its device bytes. -/
def Copied (mem : Nat → UInt8) (bufs : List Bytes) (it : IoBatchItem) : Prop :=
  ∀ p, it.buffer = some p → ∀ k < it.logicalLength,
    (bufs.getD p.buffer [])[p.offset + k]? = some (mem (it.byteOffset + k))

theorem copyOut_getD {bufs : List Bytes} {it : IoBatchItem} {p : CallerPtr} {bytes : Bytes}
    (hp : it.buffer = some p) (h : p.buffer < bufs.length) (b : Nat) :
    (copyOut bufs it bytes).getD b [] =
      if b = p.buffer then overwrite (bufs.getD b []) p.offset bytes else bufs.getD b [] := by
  simp only [copyOut, hp, Option.elim_some, List.getD_eq_getElem?_getD, List.getElem?_modify]
  by_cases hb : b = p.buffer
  · subst hb; simp [h]
  · simp [hb, Ne.symm hb]

theorem stage_length {bufs : List Bytes} {it : IoBatchItem} (h : Fits bufs it) (ho : it.Ok g) :
    (stage bufs it).length = it.physicalLength := by
  obtain ⟨p, hp, hle⟩ := h
  have := ho.logical_le
  simp only [stage, itemBuffer, itemOffset, hp, Option.elim_some, List.length_append, List.length_take,
    List.length_drop, List.length_replicate]
  omega

/-- Staging puts the item's caller bytes in front. -/
theorem stage_getD {bufs : List Bytes} {it : IoBatchItem} {p : CallerPtr} (hp : it.buffer = some p) {k : Nat}
    (hk : k < it.logicalLength) (hle : p.offset + it.logicalLength ≤ (bufs.getD p.buffer []).length) :
    (bufs.getD p.buffer [])[p.offset + k]? = some ((stage bufs it).getD k 0) := by
  simp only [stage, itemBuffer, itemOffset, hp, Option.elim_some]
  generalize bufs.getD p.buffer [] = buf at hle
  have hin : p.offset + k < buf.length := by omega
  have hlen : ((buf.drop p.offset).take it.logicalLength).length = it.logicalLength := by
    simp; omega
  rw [List.getD_eq_getElem?_getD, List.getElem?_append_left (by omega), List.getElem?_take_of_lt hk,
    List.getElem?_drop, List.getElem?_eq_getElem hin]
  rfl

/-! ## Running the segments -/

/-- The results of the segments of `pending`, each at its index; a success tells `P`. -/
structure Outcomes (pending : List (IoBatchItem × Nat)) (results rs : List IoResult)
    (P : IoBatchItem → Prop) : Prop where
  length : rs.length = results.length
  stays : ∀ i, i ∉ pending.map Prod.snd → rs[i]? = results[i]?
  outcome : ∀ p ∈ pending, ∃ r, rs[p.2]? = some r ∧ (r.success = true → P p.1)

theorem Outcomes.cons {pending rest : List (IoBatchItem × Nat)} {results rs : List IoResult}
    {P : IoBatchItem → Prop} {it : IoBatchItem} {i : Nat} {r : IoResult}
    (hperm : pending.Perm ((it, i) :: rest)) (hlt : i < results.length) (hi : i ∉ rest.map Prod.snd)
    (hr : r.success = true → P it) (h : Outcomes rest (results.set i r) rs P) :
    Outcomes pending results rs P where
  length := h.length.trans (by simp)
  stays k hk := by
    have hk' : k ≠ i ∧ k ∉ rest.map Prod.snd := by
      have := mt ((hperm.map Prod.snd).mem_iff (a := k)).2 hk
      simpa using this
    rw [h.stays k hk'.2, List.getElem?_set_ne (Ne.symm hk'.1)]
  outcome p hp := by
    rcases List.mem_cons.1 (hperm.mem_iff.1 hp) with rfl | hp
    · exact ⟨r, by rw [h.stays i hi, List.getElem?_set_self hlt], hr⟩
    · exact h.outcome p hp

/-- The device after the writes of `pending`. -/
structure Wrote (bufs : List Bytes) (pending : List (IoBatchItem × Nat)) (results rs : List IoResult)
    (mem d : Nat → UInt8) : Prop where
  outcomes : Outcomes pending results rs fun it =>
    ∀ k < it.physicalLength, d (it.byteOffset + k) = (stage bufs it).getD k 0
  frame : ∀ a, (∀ p ∈ pending, ¬ InRange p.1 a) → d a = mem a

/-- The caller buffers after the reads of `pending`. -/
structure ReadIn (bufs bufs' : List Bytes) (pending : List (IoBatchItem × Nat)) (results rs : List IoResult)
    (mem : Nat → UInt8) : Prop where
  outcomes : Outcomes pending results rs (Copied mem bufs')
  length : bufs'.length = bufs.length
  lengths : ∀ b, (bufs'.getD b []).length = (bufs.getD b []).length
  frame : ∀ b x, (∀ p ∈ pending, ¬ Target p.1 b x) → (bufs'.getD b [])[x]? = (bufs.getD b [])[x]?

/-- What `runSegments` needs of the outstanding segments: they are apart in the sense of `R`. -/
structure PendingOk (g : StorageGeometry) (R : IoBatchItem → IoBatchItem → Prop) (bufs : List Bytes)
    (pending : List (IoBatchItem × Nat))
    (results : List IoResult) : Prop where
  ok : ∀ p ∈ pending, p.1.Ok g
  fits : ∀ p ∈ pending, Fits bufs p.1
  apart : (pending.map Prod.fst).Pairwise R
  indexes : (pending.map Prod.snd).Nodup
  lt : ∀ p ∈ pending, p.2 < results.length

/-- Choosing a segment: it is apart from those left. -/
theorem PendingOk.pick {R : IoBatchItem → IoBatchItem → Prop} (hR : ∀ {x y}, R x y → R y x)
    {bufs : List Bytes} {pending : List (IoBatchItem × Nat)} {results : List IoResult}
    (h : PendingOk g R bufs pending results) {i : Nat} (hi : i < pending.length) :
    ∃ it index, pending[i]? = some (it, index) ∧ pending.Perm ((it, index) :: pending.eraseIdx i) ∧
      (∀ p ∈ pending.eraseIdx i, R it p.1) ∧ index ∉ (pending.eraseIdx i).map Prod.snd ∧
      ∀ r, PendingOk g R bufs (pending.eraseIdx i) (results.set index r) := by
  have hperm := (List.getElem_cons_eraseIdx_perm hi).symm
  have hsub : ∀ p ∈ pending.eraseIdx i, p ∈ pending := fun p hp => List.mem_of_mem_eraseIdx hp
  have hu := ((hperm.map Prod.fst).pairwise_iff hR).1 h.apart
  have hn := (hperm.map Prod.snd).nodup_iff.1 h.indexes
  rw [List.map_cons] at hu hn
  obtain ⟨hu1, hu2⟩ := List.pairwise_cons.1 hu
  obtain ⟨hn1, hn2⟩ := List.nodup_cons.1 hn
  exact ⟨pending[i].1, pending[i].2, List.getElem?_eq_getElem hi, hperm,
    fun p hp => hu1 _ (List.mem_map_of_mem hp), hn1, fun r => ⟨fun p hp => h.ok p (hsub p hp),
      fun p hp => h.fits p (hsub p hp), hu2, hn2, fun p hp => by simpa using h.lt p (hsub p hp)⟩⟩

def View.withMem (v : View) (d : Nat → UInt8) : View := { v with mem := d }

/-- **Writes**: every successful segment's range holds its staged bytes. -/
theorem wp_runWrites (hg : g.Valid) {j : Call} {bufs : List Bytes}
    {Q : Except Exn (List IoResult × List Bytes) → View → Prop} :
    ∀ {n : Nat} {pending : List (IoBatchItem × Nat)} {results : List IoResult} {v : View},
      pending.length = n → PendingOk g DeviceApart bufs pending results →
      (∀ p ∈ pending, ∀ a, InRange p.1 a → Covers v.priv (a / g.pageSize)) →
      (∀ rs d, Wrote bufs pending results rs v.mem d → Q (.ok (rs, bufs)) (v.withMem d)) →
      (connectorLogic hg).wp j (runSegments .write n pending results bufs) v Q
  | 0, pending, results, v, hn, _, _, hQ => by
    have : pending = [] := List.length_eq_zero_iff.1 hn
    subst this
    exact LocalLogic.wp_pure (hQ results v.mem ⟨⟨rfl, fun _ _ => rfl, by simp⟩, fun _ _ => rfl⟩)
  | n + 1, pending, results, v, hn, hok, hpriv, hQ => by
    refine wp_perform hg fun _ => ⟨trivial, ?_⟩
    rintro (i : Nat) _ _ ⟨hi, rfl⟩
    have hlt : i < pending.length := by rw [hn]; exact hi (Nat.succ_pos n)
    obtain ⟨it, index, hget, hperm, hu, hidx, hrest⟩ := hok.pick DeviceApart.symm hlt
    have hmem : (it, index) ∈ pending := hperm.mem_iff.2 (by simp)
    have hsub : ∀ p ∈ pending.eraseIdx i, p ∈ pending := fun p hp => List.mem_of_mem_eraseIdx hp
    simp only [hget]
    refine wp_perform hg fun _ => ⟨⟨hok.ok _ hmem, stage_length (hok.fits _ hmem) (hok.ok _ hmem),
      hpriv _ hmem⟩, ?_⟩
    rintro r _ _ ⟨d, rfl, hr⟩
    refine wp_runWrites hg (by rw [List.length_eraseIdx_of_lt hlt]; omega) (hrest r)
      (fun p hp => hpriv p (hsub p hp)) fun rs d' hw => hQ rs d' ⟨?_, fun a ha => ?_⟩
    · refine hw.outcomes.cons hperm (hok.lt _ hmem) hidx fun hs k hk => ?_
      -- the later writes leave this segment's range alone
      have hin : InRange it (it.byteOffset + k) := ⟨Nat.le_add_right _ _, Nat.add_lt_add_left hk _⟩
      rw [hw.frame _ fun p hp hpa => hu p hp _ ⟨hin, hpa⟩]
      exact (if_pos hin).trans (hr hs k hk)
    · rw [hw.frame a fun p hp => ha p (hsub p hp)]
      exact if_neg (ha _ hmem)

/-- What one successful read leaves in the buffers. -/
theorem copyOut_spec {bufs : List Bytes} {it : IoBatchItem} (hfit : Fits bufs it) (hpos : 0 < it.logicalLength)
    (mem : Nat → UInt8) :
    let bufs' := copyOut bufs it ((List.range it.logicalLength).map fun k => mem (it.byteOffset + k))
    Copied mem bufs' it ∧ bufs'.length = bufs.length ∧
    (∀ b, (bufs'.getD b []).length = (bufs.getD b []).length) ∧
    ∀ b x, ¬ Target it b x → (bufs'.getD b [])[x]? = (bufs.getD b [])[x]? := by
  intro bufs'
  obtain ⟨p, hp, hle⟩ := hfit
  have hlt : p.buffer < bufs.length := by
    by_contra h
    rw [List.getD_eq_getElem?_getD, List.getElem?_eq_none (Nat.le_of_not_lt h)] at hle
    simp at hle; omega
  have hget : ∀ b, bufs'.getD b [] = if b = p.buffer then overwrite (bufs.getD b []) p.offset
      ((List.range it.logicalLength).map fun k => mem (it.byteOffset + k)) else bufs.getD b [] :=
    copyOut_getD hp hlt
  have hfit' : p.offset + ((List.range it.logicalLength).map fun k => mem (it.byteOffset + k)).length ≤
      (bufs.getD p.buffer []).length := by simpa using hle
  refine ⟨fun p' hp' k hk => ?_, by simp [bufs', copyOut, hp], fun b => ?_, fun b x hx => ?_⟩
  · rw [hp] at hp'; cases hp'
    rw [hget, if_pos rfl, getElem?_overwrite hfit', if_pos (by simp; omega)]
    simp [hk]
  · rw [hget]; split
    · rename_i h; subst h; exact length_overwrite hfit'
    · rfl
  · rw [hget]; split
    · rename_i h; subst h
      rw [getElem?_overwrite hfit', if_neg]
      rintro ⟨h1, h2⟩
      exact hx ⟨p, hp, rfl, h1, by simpa using h2⟩
    · rfl

/-- The same for a read that may have failed. -/
theorem copyOut_if {bufs : List Bytes} {it : IoBatchItem} (hfit : Fits bufs it) (hpos : 0 < it.logicalLength)
    (mem : Nat → UInt8) (success : Bool) {bufs' : List Bytes}
    (h : bufs' = if success then
      copyOut bufs it ((List.range it.logicalLength).map fun k => mem (it.byteOffset + k)) else bufs) :
    (success = true → Copied mem bufs' it) ∧ bufs'.length = bufs.length ∧
    (∀ b, (bufs'.getD b []).length = (bufs.getD b []).length) ∧
    ∀ b x, ¬ Target it b x → (bufs'.getD b [])[x]? = (bufs.getD b [])[x]? := by
  cases success with
  | true =>
    simp only [if_true] at h
    subst h
    obtain ⟨c1, c2, c3, c4⟩ := copyOut_spec hfit hpos mem
    exact ⟨fun _ => c1, c2, c3, c4⟩
  | false =>
    simp only [Bool.false_eq_true, if_false] at h
    subst h
    exact ⟨by simp, rfl, fun _ => rfl, fun _ _ _ => rfl⟩

theorem Fits.congr {bufs bufs' : List Bytes} {it : IoBatchItem} (h : Fits bufs it)
    (hl : ∀ b, (bufs'.getD b []).length = (bufs.getD b []).length) : Fits bufs' it := by
  obtain ⟨p, hp, hle⟩ := h
  exact ⟨p, hp, by rw [hl]; exact hle⟩

/-- **Reads**: every successful segment's bytes are in its caller range. -/
theorem wp_runReads (hg : g.Valid) {j : Call} {Q : Except Exn (List IoResult × List Bytes) → View → Prop}
    {v : View} : ∀ {n : Nat} {pending : List (IoBatchItem × Nat)} {results : List IoResult} {bufs : List Bytes},
      pending.length = n → PendingOk g BufferApart bufs pending results →
      (∀ p ∈ pending, ∀ a, InRange p.1 a → v.Access g.pageSize a) →
      (∀ rs bufs', ReadIn bufs bufs' pending results rs v.mem → Q (.ok (rs, bufs')) v) →
      (connectorLogic hg).wp j (runSegments .read n pending results bufs) v Q
  | 0, pending, results, bufs, hn, _, _, hQ => by
    have : pending = [] := List.length_eq_zero_iff.1 hn
    subst this
    exact LocalLogic.wp_pure (hQ results bufs ⟨⟨rfl, fun _ _ => rfl, by simp⟩, rfl, fun _ => rfl, fun _ _ _ => rfl⟩)
  | n + 1, pending, results, bufs, hn, hok, hacc, hQ => by
    refine wp_perform hg fun _ => ⟨trivial, ?_⟩
    rintro (i : Nat) v' _ ⟨hi, hv'⟩
    obtain rfl : v = v' := hv'.symm
    have hlt : i < pending.length := by rw [hn]; exact hi (Nat.succ_pos n)
    obtain ⟨it, index, hget, hperm, hu, hidx, hrest⟩ := hok.pick BufferApart.symm hlt
    have hmem : (it, index) ∈ pending := hperm.mem_iff.2 (by simp)
    have hsub : ∀ p ∈ pending.eraseIdx i, p ∈ pending := fun p hp => List.mem_of_mem_eraseIdx hp
    simp only [hget]
    refine wp_perform hg fun _ => ⟨⟨hok.ok _ hmem, hacc _ hmem⟩, ?_⟩
    rintro ⟨r, bytes⟩ v' _ ⟨hbytes, hv'⟩
    obtain rfl : v = v' := hv'.symm
    simp only at hbytes ⊢
    subst hbytes
    generalize hb : (if r.success then copyOut bufs it ((List.range it.logicalLength).map fun k =>
      v.mem (it.byteOffset + k)) else bufs) = bufs1
    obtain ⟨k1, k2, k3, k4⟩ := copyOut_if (hok.fits _ hmem) (hok.ok _ hmem).logical_pos v.mem r.success hb.symm
    have hok1 : PendingOk g BufferApart bufs1 (pending.eraseIdx i) (results.set index r) :=
      { hrest r with fits := fun p hp => ((hrest r).fits p hp).congr k3 }
    refine wp_runReads hg (by rw [List.length_eraseIdx_of_lt hlt]; omega) hok1
      (fun p hp => hacc p (hsub p hp)) fun rs bufs' hr => hQ rs bufs' ⟨?_, hr.length.trans k2,
        fun b => (hr.lengths b).trans (k3 b), fun b x hx => ?_⟩
    · refine hr.outcomes.cons hperm (hok.lt _ hmem) hidx fun hs p hp k hk => ?_
      rw [hr.frame _ _ fun q hq ht => hu q hq _ _ ⟨⟨p, hp, rfl, Nat.le_add_right _ _, Nat.add_lt_add_left hk _⟩, ht⟩]
      exact k1 hs p hp k hk
    · rw [hr.frame b x fun p hp => hx p (hsub p hp), k4 b x (hx _ hmem)]

/-! ## Whole batches -/

theorem wp_ofExcept (hg : g.Valid) {j : Call} {α β : Type} {r : Except Exn α} {f : α → P β} {v : View}
    {Q : Except Exn β → View → Prop} (hok : ∀ a, r = .ok a → (connectorLogic hg).wp j (f a) v Q)
    (herr : ∀ x, r = .error x → Q (.error x) v) :
    (connectorLogic hg).wp j (Prog.ofExcept r >>= f) v Q := by
  cases r with
  | ok a => exact hok a rfl
  | error x => exact LocalLogic.wp_throw (herr x rfl)

theorem validate_all : ∀ {items : List IoBatchItem}, (∀ it ∈ items, it.Ok g) →
    items.forM (validateItem g) = Except.ok ()
  | [], _ => rfl
  | it :: items, h => by
    have h1 := validateItem_ok_iff.2 (h it (by simp))
    have h2 : items.forM (validateItem g) = Except.ok () := validate_all fun x hx => h x (by simp [hx])
    simp only [List.forM_eq_forM, List.forM_cons, h1] at h2 ⊢
    exact h2

theorem segmented_ready {R : IoBatchItem → IoBatchItem → Prop} {parts : List (Entry × Nat)}
    {items : List IoBatchItem} {bufs : List Bytes} (hR : items.Pairwise R) (hs : Segmented g parts items)
    (hb : ∀ p ∈ parts, (bufs.getD p.2 []).length = p.1.logicalSize) :
    PendingOk g R bufs items.zipIdx (items.map fun _ => ⟨false, ""⟩) where
  ok p hm := by
    obtain ⟨e, b, o, -, ho⟩ := segmented_mem hs (List.fst_mem_of_mem_zipIdx hm)
    exact ho.ok
  fits p hm := by
    obtain ⟨e, b, o, hpm, ho⟩ := segmented_mem hs (List.fst_mem_of_mem_zipIdx hm)
    have hl := ho.logical
    have hpos := ho.ok.logical_pos
    refine ⟨_, ho.buffer, ?_⟩
    rw [hb _ hpm]
    show o + p.1.logicalLength ≤ e.logicalSize
    omega
  apart := by rwa [List.zipIdx_map_fst]
  indexes := by
    rw [List.zipIdx_map_snd]
    exact List.nodup_range'
  lt p hm := by
    have := List.snd_lt_of_mem_zipIdx hm
    simpa using this

/-- The result of the item at a position of the batch. -/
theorem Outcomes.at {items : List IoBatchItem} {results rs : List IoResult} {P : IoBatchItem → Prop}
    (h : Outcomes items.zipIdx results rs P) {i : Nat} {it : IoBatchItem} (hi : items[i]? = some it) :
    ∃ r, rs[i]? = some r ∧ (r.success = true → P it) := by
  obtain ⟨hlt, rfl⟩ := List.getElem?_eq_some_iff.1 hi
  exact h.outcome (items[i], i) (List.mk_mem_zipIdx_iff_getElem?.2 hi)

/-- **`write_batch`** on reserved entries: either nothing was submitted, or every entry whose segments
all succeeded holds its buffer, and no byte outside the entries' pages changed. -/
theorem wp_writeBatch (hg : g.Valid) {j : Call} {parts : List (Entry × Nat)} {items : List IoBatchItem}
    {bufs : List Bytes} {v : View} {Q : Except Exn (List IoResult × List Bytes) → View → Prop}
    (hp : ∀ p ∈ parts, p.1.Ok g) (ho : Owned g.pageCount (parts.flatMap fun p => p.1.extents))
    (hs : Segmented g parts items)
    (hb : ∀ p ∈ parts, (bufs.getD p.2 []).length = p.1.logicalSize)
    (hpriv : ∀ p ∈ parts, ∀ x, Covers p.1.extents x → Covers v.priv x)
    (herr : ∀ x, Q (.error x) v)
    (hok : ∀ rs d, rs.length = items.length →
      (∀ a, (∀ p ∈ parts, ¬ Covers p.1.extents (a / g.pageSize)) → d a = v.mem a) →
      ((∀ r ∈ rs, r.success = true) → ∀ p ∈ parts, contents g.pageSize d p.1 = bufs.getD p.2 []) →
      Q (.ok (rs, bufs)) (v.withMem d)) :
    (connectorLogic hg).wp j (writeBatch g items bufs) v Q := by
  unfold writeBatch submitBatchAndWait
  have hpages : ∀ p ∈ parts, 0 < pageSum p.1.extents * g.pageSize := fun p hm => by
    have := (hp p hm).size_pos
    have := ((hp p hm).size_le hg).1
    omega
  split
  · rename_i he
    subst he
    refine LocalLogic.wp_pure (hok [] v.mem rfl (fun _ _ => rfl) fun _ p hm => ?_)
    obtain ⟨it, hit, -⟩ := segmented_cover hs (e := p.1) (b := p.2) hm (hpages p hm)
    simp at hit
  · refine wp_perform hg fun _ => ⟨trivial, ?_⟩
    rintro (r : Except Exn Unit) v' _ hv'
    obtain rfl : v = v' := hv'.symm
    refine wp_ofExcept hg (fun _ _ => ?_) fun x _ => herr x
    have hall : ∀ it ∈ items, it.Ok g := fun it hm => by
      obtain ⟨e, b, o, -, ho⟩ := segmented_mem hs hm
      exact ho.ok
    rw [validate_all hall]
    refine wp_runWrites hg (by simp) (segmented_ready (segmented_deviceApart hg ho hs) hs hb) (fun p hm a ha => ?_)
      fun rs d hw => ?_
    · obtain ⟨e, b, o, hpm, ho⟩ := segmented_mem hs (List.fst_mem_of_mem_zipIdx hm)
      obtain ⟨-, -, -, -, hc⟩ := ho.range hg ha
      exact hpriv _ hpm _ hc
    · refine hok rs d (by simpa using hw.outcomes.length) (fun a ha => hw.frame a fun p hm hr => ?_) fun hall p hm => ?_
      · obtain ⟨e, b, o, hpm, ho⟩ := segmented_mem hs (List.fst_mem_of_mem_zipIdx hm)
        obtain ⟨-, -, -, -, hc⟩ := ho.range hg hr
        exact ha _ hpm hc
      · -- byte `x` of the entry was staged by the item that covers it
        refine List.ext_getElem? fun x => ?_
        by_cases hx : x < p.1.logicalSize
        · have hxp := Nat.lt_of_lt_of_le hx ((hp p hm).size_le hg).1
          obtain ⟨it, hit, o, ho, h1, h2⟩ := segmented_cover hs (e := p.1) (b := p.2) hm hxp
          obtain ⟨i, hi⟩ := List.mem_iff_getElem?.1 hit
          obtain ⟨r, hr, hsuc⟩ := hw.outcomes.at hi
          have hd := hsuc (hall r (List.mem_of_getElem? hr)) (x - o) (by omega)
          have hk : x - o < it.logicalLength := by rw [ho.logical]; omega
          have hfit : o + it.logicalLength ≤ (bufs.getD p.2 []).length := by
            rw [hb p hm, ho.logical]; omega
          have haddr := ho.addr (x - o) (by omega)
          have hst := stage_getD ho.buffer hk hfit
          rw [show o + (x - o) = x by omega] at haddr
          simp only [show o + (x - o) = x by omega] at hst
          rw [hst, ← hd, ← haddr]
          simp [contents, hx]
        · rw [List.getElem?_eq_none (by simp [contents]; omega), List.getElem?_eq_none (by rw [hb p hm]; omega)]

/-- The buffer an item belongs to. -/
def itemKey (it : IoBatchItem) : Nat := it.buffer.elim 0 CallerPtr.buffer

/-- **`read_batch`** on entries in view: every entry whose segments all succeeded is in its buffer. -/
theorem wp_readBatch (hg : g.Valid) {j : Call} {parts : List (Entry × Nat)} {items : List IoBatchItem}
    {bufs : List Bytes} {v : View} {Q : Except Exn (List IoResult × List Bytes) → View → Prop}
    (hp : ∀ p ∈ parts, p.1.Ok g) (hn : (parts.map Prod.snd).Nodup)
    (hs : Segmented g parts items)
    (hb : ∀ p ∈ parts, (bufs.getD p.2 []).length = p.1.logicalSize)
    (hacc : ∀ p ∈ parts, ∀ a, Covers p.1.extents (a / g.pageSize) → v.Access g.pageSize a)
    (herr : ∀ x, Q (.error x) v)
    (hok : ∀ rs bufs', rs.length = items.length → bufs'.length = bufs.length →
      (∀ p ∈ parts, (∀ (i : Nat) (it : IoBatchItem) (r : IoResult), items[i]? = some it → rs[i]? = some r →
          itemKey it = p.2 → r.success = true) →
        bufs'.getD p.2 [] = contents g.pageSize v.mem p.1) →
      Q (.ok (rs, bufs')) v) :
    (connectorLogic hg).wp j (readBatch g items bufs) v Q := by
  unfold readBatch submitBatchAndWait
  split
  · rename_i he
    subst he
    refine LocalLogic.wp_pure (hok [] bufs rfl rfl fun p hm _ => ?_)
    have := (hp p hm).size_pos
    obtain ⟨it, hit, -⟩ := segmented_cover hs (e := p.1) (b := p.2) hm
      (Nat.lt_of_lt_of_le this ((hp p hm).size_le hg).1)
    simp at hit
  · refine wp_perform hg fun _ => ⟨trivial, ?_⟩
    rintro (r : Except Exn Unit) v' _ hv'
    obtain rfl : v = v' := hv'.symm
    refine wp_ofExcept hg (fun _ _ => ?_) fun x _ => herr x
    have hall : ∀ it ∈ items, it.Ok g := fun it hm => by
      obtain ⟨e, b, o, -, ho⟩ := segmented_mem hs hm
      exact ho.ok
    rw [validate_all hall]
    refine wp_runReads hg (by simp) (segmented_ready (segmented_bufferApart hn hs) hs hb) (fun p hm a ha => ?_)
      fun rs bufs' hr => ?_
    · obtain ⟨e, b, o, hpm, ho⟩ := segmented_mem hs (List.fst_mem_of_mem_zipIdx hm)
      obtain ⟨-, -, -, -, hc⟩ := ho.range hg ha
      exact hacc _ hpm _ hc
    · refine hok rs bufs' (by simpa using hr.outcomes.length) hr.length fun p hm hall => ?_
      refine List.ext_getElem? fun x => ?_
      by_cases hx : x < p.1.logicalSize
      · have hxp := Nat.lt_of_lt_of_le hx ((hp p hm).size_le hg).1
        obtain ⟨it, hit, o, ho, h1, h2⟩ := segmented_cover hs (e := p.1) (b := p.2) hm hxp
        obtain ⟨i, hi⟩ := List.mem_iff_getElem?.1 hit
        obtain ⟨r, hri, hsuc⟩ := hr.outcomes.at hi
        have hk : x - o < it.logicalLength := by rw [ho.logical]; omega
        have hcopy := hsuc (hall i it r hi hri (by simp [itemKey, ho.buffer])) _ ho.buffer (x - o) hk
        have haddr := ho.addr (x - o) (by omega)
        rw [show o + (x - o) = x by omega] at haddr
        simp only [show o + (x - o) = x by omega] at hcopy
        rw [hcopy, ← haddr]
        simp [contents, hx]
      · rw [List.getElem?_eq_none (by rw [hr.lengths, hb p hm]; omega),
          List.getElem?_eq_none (by simp [contents]; omega)]

theorem requireSuccess_ok {operation : String} : ∀ {rs : List IoResult},
    requireSuccess operation rs = .ok () → ∀ r ∈ rs, r.success = true
  | [], _, r, hr => by simp at hr
  | x :: rs, h, r, hr => by
    unfold requireSuccess at h
    split at h
    · rename_i hx
      rcases List.mem_cons.1 hr with rfl | hr
      · exact hx
      · exact requireSuccess_ok h r hr
    · cases h

theorem parts_single {e : Entry} (he : e.Ok g) : ∀ p ∈ [(e, 0)], p.1.Ok g := by simpa using he

theorem wp_write (hg : g.Valid) {j : Call} {e : Entry} {value : Bytes} {v : View}
    {Q : Except Exn Unit → View → Prop} (he : e.Ok g) (hlen : value.length = e.logicalSize)
    (hpriv : ∀ x, Covers e.extents x → Covers v.priv x)
    (herr : ∀ x d, (∀ a, ¬ Covers e.extents (a / g.pageSize) → d a = v.mem a) → Q (.error x) (v.withMem d))
    (hok : ∀ d, (∀ a, ¬ Covers e.extents (a / g.pageSize) → d a = v.mem a) →
      contents g.pageSize d e = value → Q (.ok ()) (v.withMem d)) :
    (connectorLogic hg).wp j (write g e value) v Q := by
  unfold write
  obtain ⟨items, hi, ht⟩ := appendSegments_spec hg he 0
  refine wp_ofExcept hg (fun a ha => ?_) fun x hx => by rw [hi] at hx; cases hx
  obtain rfl : items = a := by rw [hi] at ha; exact Except.ok.inj ha
  refine LocalLogic.wp_bind (wp_writeBatch hg (parts_single he) (by simpa using he.owned) ⟨items, [], by simp, ht, rfl⟩
    (by simpa using hlen) (by simpa using hpriv)
    (fun x => LocalLogic.wp_throw (herr x v.mem fun _ _ => rfl)) fun rs d _ hframe hall => ?_)
  have hframe' : ∀ a, ¬ Covers e.extents (a / g.pageSize) → d a = v.mem a := fun a ha =>
    hframe a (by simpa using ha)
  cases hr : requireSuccess "bdev write" rs with
  | ok u =>
    simp only [Prog.ofExcept, Prog.bind, hr]
    exact LocalLogic.wp_pure (hok d hframe' (by simpa using hall (requireSuccess_ok hr)))
  | error x =>
    simp only [Prog.ofExcept, Prog.bind, hr]
    exact LocalLogic.wp_throw (herr x d hframe')

theorem wp_read (hg : g.Valid) {j : Call} {e : Entry} {buffer : Bytes} {v : View}
    {Q : Except Exn Bytes → View → Prop} (he : e.Ok g) (hlen : buffer.length = e.logicalSize)
    (hacc : ∀ a, Covers e.extents (a / g.pageSize) → v.Access g.pageSize a)
    (herr : ∀ x, Q (.error x) v) (hok : Q (.ok (contents g.pageSize v.mem e)) v) :
    (connectorLogic hg).wp j (read g e buffer) v Q := by
  unfold read
  obtain ⟨items, hi, ht⟩ := appendSegments_spec hg he 0
  refine wp_ofExcept hg (fun a ha => ?_) fun x hx => by rw [hi] at hx; cases hx
  obtain rfl : items = a := by rw [hi] at ha; exact Except.ok.inj ha
  refine LocalLogic.wp_bind (wp_readBatch hg (parts_single he) (by simp) ⟨items, [], by simp, ht, rfl⟩
    (by simpa using hlen) (by simpa using hacc)
    (fun x => LocalLogic.wp_throw (herr x)) fun rs bufs' _ hbl hall => ?_)
  show (connectorLogic hg).wp j (Prog.ofExcept (requireSuccess "bdev read" rs) >>= fun _ => pure (bufs'.getD 0 [])) v Q
  refine wp_ofExcept hg (fun _ hr => ?_) fun x _ => herr x
  have := hall (e, 0) (by simp) fun i it r _ hri _ => requireSuccess_ok hr r (List.mem_of_getElem? hri)
  refine LocalLogic.wp_pure ?_
  simp only at this ⊢
  rw [this]
  exact hok

end SpdkConnector
