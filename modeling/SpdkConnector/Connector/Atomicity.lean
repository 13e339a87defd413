import SpdkConnector.Connector.Alone
import SpdkConnector.Allocator.Canonical
import SpdkConnector.Context.Completion

/-!
# A batch store is all or nothing

`do_batch_set` (spdk_connector.cpp:170) publishes after the last thing that can fail, and its rollback gives
back the extents of the reservations made so far. That is read off the call's log, so it holds whatever
the other threads do meanwhile. When they do nothing, a store that throws leaves every entry and the
allocator as they were: the free map is canonical, so the merges restore its shape.
-/

namespace SpdkConnector

open Interleaving

variable {g : StorageGeometry} {t : Nat} {s s' : Shared} {ℓ : Log}

/-- Entries and free pages are what they were. -/
structure Unchanged (s s' : Shared) : Prop where
  entries : ∀ k, entryOf s' k = entryOf s k
  allocator : s'.allocator = s.allocator

/-- The store binds this key: it is absent or has the value's length. -/
def Binds (s : Shared) (x : Slot) : Prop := sizeDiffers (entryOf s x.key) x.buffer.length = false

/-- The keys that may be bound are, the others keep their entries, and the free pages have lost the new
extents and regained the superseded ones. -/
structure Stored (g : StorageGeometry) (slots : List Slot) (s s' : Shared) : Prop where
  bound : ∀ x ∈ slots, Binds s x → ∃ e, entryOf s' x.key = some e ∧ contents g.pageSize s'.dev e = x.buffer
  kept : ∀ x ∈ slots, ¬ Binds s x → entryOf s' x.key = entryOf s x.key ∧
    (entryOf s' x.key).map (contents g.pageSize s'.dev) = (entryOf s x.key).map (contents g.pageSize s.dev)
  others : ∀ k, k ∉ slots.map Slot.key → entryOf s' k = entryOf s k
  pages : ∀ p, Covers s'.allocator.freeExtents p ↔
    (Covers s.allocator.freeExtents p ∨ ∃ x ∈ slots, Binds s x ∧ Covers (extentsOf (entryOf s x.key)) p) ∧
    ¬ ∃ x ∈ slots, Binds s x ∧ Covers (extentsOf (entryOf s' x.key)) p

/-! ## A store that throws -/

theorem RolledBack.unchanged {c : Call} {o : Outcome} {γ γ' : Ghost} (h : RolledBack ℓ)
    (hx : Execs (connector g) t s ℓ s') (hc : Completed g t c o s s' γ γ') : Unchanged s s' := by
  have hf := execs_frame hx
  have hentry : s'.entry = s.entry := by
    rw [execs_entry hx, h.bindings]
    rfl
  refine ⟨fun k => entryOf_congr hc.inv hx fun q _ => by rw [hentry], ?_⟩
  apply hc.inv'.alloc.unique hc.inv.alloc (hc.inv'.total.trans hc.inv.total.symm)
  intro p
  rw [hc.inv'.free_iff, hc.inv.free_iff, hentry]
  simp only [hc.held_eq hf]

/-! ## A store that returns -/

/-- Each reservation is for a key that may be bound. -/
theorem Reserves.origin {E : Nat → Option Entry} {ls : List Located} {qs : List (Nat × Option Entry)}
    {rs : List Reservation} (h : Reserves ls qs rs) (hE : ∀ x ∈ qs, x.2 = E x.1) {r : Reservation} (hr : r ∈ rs) :
    ∃ l ∈ ls, r.state = l.state ∧ r.previous = E l.state ∧ sizeDiffers (E l.state) l.slot.buffer.length = false := by
  induction h with
  | nil => cases hr
  | skip _ _ ih =>
    obtain ⟨l, hl, h'⟩ := ih (fun x hx => hE x (List.mem_cons_of_mem _ hx)) hr
    exact ⟨l, List.mem_cons_of_mem _ hl, h'⟩
  | take hs _ _ ih =>
    have hcur := hE _ List.mem_cons_self
    rcases List.mem_cons.1 hr with rfl | hr
    · exact ⟨_, List.mem_cons_self, rfl, hcur, hcur ▸ hs⟩
    · obtain ⟨l, hl, h'⟩ := ih (fun x hx => hE x (List.mem_cons_of_mem _ hx)) hr
      exact ⟨l, List.mem_cons_of_mem _ hl, h'⟩

/-- And each key that may be bound has one. -/
theorem Reserves.covers {E : Nat → Option Entry} {ls : List Located} {qs : List (Nat × Option Entry)}
    {rs : List Reservation} (h : Reserves ls qs rs) (hE : ∀ x ∈ qs, x.2 = E x.1) {l : Located} (hl : l ∈ ls)
    (hs : sizeDiffers (E l.state) l.slot.buffer.length = false) : ∃ r ∈ rs, r.state = l.state := by
  induction h with
  | nil => cases hl
  | @skip l' ls cur qs rs hs' _ ih =>
    have hcur : cur = E l'.state := hE _ List.mem_cons_self
    rcases List.mem_cons.1 hl with rfl | hl
    · rw [hcur, hs] at hs'
      cases hs'
    · exact ih (fun x hx => hE x (List.mem_cons_of_mem _ hx)) hl
  | take hs' _ _ ih =>
    rcases List.mem_cons.1 hl with rfl | hl
    · exact ⟨_, List.mem_cons_self, rfl⟩
    · obtain ⟨r, hr, h'⟩ := ih (fun x hx => hE x (List.mem_cons_of_mem _ hx)) hl
      exact ⟨r, List.mem_cons_of_mem _ hr, h'⟩

theorem Reserves.states {ls : List Located} {qs : List (Nat × Option Entry)} {rs : List Reservation}
    (h : Reserves ls qs rs) : (rs.map Reservation.state).Sublist (ls.map Located.state) := by
  induction h with
  | nil => exact .slnil
  | skip _ _ ih => exact ih.cons _
  | take _ _ _ ih => exact ih.cons_cons _

/-- The entries after the bindings of a log. -/
def rebind (E : Nat → Option Entry) (bs : List (Nat × Option Entry)) : Nat → Option Entry :=
  bs.foldl (fun f x => Function.update f x.1 x.2) E

theorem rebind_of_not_mem {rs : List Reservation} {E : Nat → Option Entry} {q : Nat} (h : ∀ r ∈ rs, r.state ≠ q) :
    rebind E (rs.map fun r => (r.state, some r.entry)) q = E q := by
  induction rs generalizing E with
  | nil => rfl
  | cons r rs ih =>
    rw [List.map_cons, rebind, List.foldl_cons, ← rebind, ih fun r' hr' => h r' (List.mem_cons_of_mem _ hr')]
    exact Function.update_of_ne (h r List.mem_cons_self).symm _ _

theorem rebind_of_mem {rs : List Reservation} {E : Nat → Option Entry} (hn : (rs.map Reservation.state).Nodup)
    {r : Reservation} (hr : r ∈ rs) : rebind E (rs.map fun r => (r.state, some r.entry)) r.state = some r.entry := by
  induction rs generalizing E with
  | nil => cases hr
  | cons x rs ih =>
    obtain ⟨hx, hn'⟩ := List.nodup_cons.1 hn
    rw [List.map_cons, rebind, List.foldl_cons, ← rebind]
    rcases List.mem_cons.1 hr with rfl | hr
    · rw [rebind_of_not_mem fun r' hr' e => hx (by rw [← e]; exact List.mem_map_of_mem hr')]
      exact Function.update_self _ _ _
    · exact ih hn' hr

/-- A published store in terms of keys: which of them were bound, and to what. -/
structure Rebound (slots : List Slot) (rs : List Reservation) (ℓ : Log) (s s' : Shared) : Prop where
  entry : s'.entry = rebind s.entry (rs.map fun r => (r.state, some r.entry))
  states : (rs.map Reservation.state).Nodup
  visits : ∀ x ∈ slots, ∃ q, Visits ℓ x.key q ∧ (Binds s x ↔ ∃ r ∈ rs, r.state = q)
  reserved : ∀ r ∈ rs, ∃ x ∈ slots, Binds s x ∧ Visits ℓ x.key r.state

theorem Published.rebound {states : List Nat} {rs : List Reservation} {ℓ1 ℓ2 : Log} {slots : List Slot}
    {γ γ' : Ghost} {c : Call} {o : Outcome} (hp : Published slots states rs (ℓ1 ++ ℓ2))
    (ha : Acquires (slots.map Slot.key) states ℓ1) (hx : Execs (connector g) t s (ℓ1 ++ ℓ2) s')
    (hc : Completed g t c o s s' γ γ') : Rebound slots rs (ℓ1 ++ ℓ2) s s' := by
  have hf := execs_frame hx
  -- every look came before the first binding, so it saw the entries as they were
  have hE : ∀ x ∈ looked (ℓ1 ++ ℓ2), x.2 = s.entry x.1 := by
    obtain ⟨pre, post, hsplit, hb, hl⟩ := hp.looks_first
    rw [hsplit] at hx ⊢
    obtain ⟨s1, h1, -⟩ := hx.append_inv
    rw [looked_append, hl, List.append_nil]
    exact execs_looked h1 hb
  have hvisit : ∀ l ∈ locate slots states, l.slot ∈ slots ∧ Visits (ℓ1 ++ ℓ2) l.slot.key l.state := by
    intro l hl
    obtain ⟨n, hn⟩ := List.mem_iff_getElem?.1 hl
    obtain ⟨x, q, hs, hq, rfl⟩ := locate_get.1 hn
    refine ⟨List.mem_of_getElem? hs, (ha.visits (x := (x.key, q)) ?_).append ℓ2⟩
    apply List.mem_of_getElem? (i := n)
    simp [List.zip, List.getElem?_zipWith, hs, hq]
  have hentry : ∀ l ∈ locate slots states, entryOf s l.slot.key = s.entry l.state := fun l hl =>
    entryOf_before hc.inv hx (execs_stateFor hx (hvisit l hl).2.found)
  have hsame : ∀ l ∈ locate slots states, ∀ l' ∈ locate slots states, l.state = l'.state → l = l' := by
    intro l hl l' hl' he
    have hk := lookup_mem (execs_stateFor hx (hvisit l hl).2.found)
    have hk' := lookup_mem (execs_stateFor hx (hvisit l' hl').2.found)
    rw [he] at hk
    have hnodup : ((locate slots states).map fun l => l.slot.key).Nodup := locate_keys hp.length ▸ hp.keys
    exact List.inj_on_of_nodup_map hnodup hl hl' (hc.inv'.key_unique hk hk')
  have hnodup : ((locate slots states).map Located.state).Nodup :=
    (List.nodup_map_iff_inj_on (List.Nodup.of_map _ locate_indexes)).2 fun l hl l' hl' he => hsame l hl l' hl' he
  refine ⟨?_, hp.reserves.states.nodup hnodup, fun x hx' => ?_, fun r hr => ?_⟩
  · rw [execs_entry hx, hp.bindings]
    rfl
  · obtain ⟨n, hn⟩ := List.mem_iff_getElem?.1 hx'
    obtain ⟨hlt, -⟩ := List.getElem?_eq_some_iff.1 hn
    obtain ⟨q, hq⟩ : ∃ q, states[n]? = some q := ⟨_, List.getElem?_eq_getElem (hp.length ▸ hlt)⟩
    have hl : (⟨n, q, x⟩ : Located) ∈ locate slots states := List.mem_of_getElem? (locate_get.2 ⟨x, q, hn, hq, rfl⟩)
    have he : entryOf s x.key = s.entry q := hentry _ hl
    refine ⟨q, (hvisit _ hl).2, fun hb => hp.reserves.covers hE hl (he ▸ hb), ?_⟩
    rintro ⟨r, hr, hrq⟩
    obtain ⟨l', hl', h1, -, h3⟩ := hp.reserves.origin hE hr
    obtain rfl := hsame _ hl' _ hl (h1.symm.trans hrq)
    rw [Binds, he]
    exact h3
  · obtain ⟨l, hl, h1, -, h3⟩ := hp.reserves.origin hE hr
    refine ⟨l.slot, (hvisit l hl).1, ?_, h1 ▸ (hvisit l hl).2⟩
    rw [Binds, hentry l hl]
    exact h3

theorem Rebound.stored {slots : List Slot} {rs : List Reservation} {γ γ' : Ghost} (h : Rebound slots rs ℓ s s')
    (hx : Execs (connector g) t s ℓ s') (hc : Completed g t (.batchSet slots) (.ok .unit) s s' γ γ')
    (hkeys : (slots.map Slot.key).Nodup) : Stored g slots s s' := by
  have hf := execs_frame hx
  have hnew : ∀ r ∈ rs, s'.entry r.state = some r.entry := fun r hr => h.entry ▸ rebind_of_mem h.states hr
  have hold : ∀ q, (∀ r ∈ rs, r.state ≠ q) → s'.entry q = s.entry q := fun q hq => h.entry ▸ rebind_of_not_mem hq
  have hbefore : ∀ {k q}, Visits ℓ k q → entryOf s k = s.entry q := fun hv =>
    entryOf_before hc.inv hx (execs_stateFor hx hv.found)
  have hafter : ∀ {k q}, Visits ℓ k q → entryOf s' k = s'.entry q := fun hv =>
    entryOf_after (execs_stateFor hx hv.found)
  have hmap : ∀ x ∈ slots, γ'.map x.key = bindKey γ.map x.key x.buffer x.key := fun x hxs => by
    rw [hc.map]
    exact bindAll_bound hkeys hxs
  refine ⟨fun x hxs hb => ?_, fun x hxs hb => ?_, fun k hk => ?_, fun p => ?_⟩
  · obtain ⟨q, hv, hq⟩ := h.visits x hxs
    obtain ⟨r, hr, rfl⟩ := hq.1 hb
    obtain ⟨h1, h2⟩ := hc.settled hx hv
    have hsize : ((γ.map x.key).any fun b => b.length != x.buffer.length) = false := (any_length h1).trans hb
    rw [hmap x hxs, bindKey, hsize, hafter hv, hnew r hr] at h2
    refine ⟨r.entry, (hafter hv).trans (hnew r hr), ?_⟩
    simpa using h2
  · obtain ⟨q, hv, hq⟩ := h.visits x hxs
    have hnone : ∀ r ∈ rs, r.state ≠ q := fun r hr hrq => hb (hq.2 ⟨r, hr, hrq⟩)
    obtain ⟨h1, h2⟩ := hc.settled hx hv
    have hsize : ((γ.map x.key).any fun b => b.length != x.buffer.length) = true :=
      (any_length h1).trans (by simpa [Binds] using hb)
    refine ⟨by rw [hafter hv, hbefore hv, hold q hnone], ?_⟩
    rw [h2, h1, hmap x hxs, bindKey, hsize]
    rfl
  · refine entryOf_congr hc.inv hx fun q hq => hold q fun r hr hrq => ?_
    obtain ⟨x, hxs, -, hv⟩ := h.reserved r hr
    have hkx := lookup_mem (execs_stateFor hx hv.found)
    rw [hrq] at hkx
    exact hk (hc.inv'.key_unique (lookup_mem hq) hkx ▸ List.mem_map_of_mem hxs)
  · have hp := hc.inv.partitioned
    rw [hc.inv'.free_iff]
    simp only [hc.held_eq hf]
    constructor
    · rintro ⟨hlt, hent, hheld⟩
      refine ⟨?_, ?_⟩
      · by_cases hsup : ∃ x ∈ slots, Binds s x ∧ Covers (extentsOf (entryOf s x.key)) p
        · exact .inr hsup
        refine .inl ((hc.inv.free_iff p).2 ⟨hlt, fun q hq => ?_, hheld⟩)
        by_cases hr : ∃ r ∈ rs, r.state = q
        · obtain ⟨r, hr, rfl⟩ := hr
          obtain ⟨x, hxs, hb, hv⟩ := h.reserved r hr
          exact hsup ⟨x, hxs, hb, by rwa [hbefore hv]⟩
        · exact hent q (by rwa [hold q fun r hr' hrq => hr ⟨r, hr', hrq⟩])
      · rintro ⟨x, hxs, -, hcov⟩
        obtain ⟨q, hv, -⟩ := h.visits x hxs
        exact hent q (hafter hv ▸ hcov)
    · rintro ⟨hfree, hnot⟩
      have hkept : ∀ q, Covers (extentsOf (s'.entry q)) p →
          (∀ r ∈ rs, r.state ≠ q) ∧ Covers (extentsOf (s.entry q)) p := fun q hq => by
        have hnone : ∀ r ∈ rs, r.state ≠ q := by
          rintro r hr rfl
          obtain ⟨x, hxs, hb, hv⟩ := h.reserved r hr
          exact hnot ⟨x, hxs, hb, by rwa [hafter hv]⟩
        exact ⟨hnone, by rwa [hold q hnone] at hq⟩
      rcases hfree with hfree | ⟨x, hxs, hb, hcov⟩
      · obtain ⟨hlt, hent, hheld⟩ := (hc.inv.free_iff p).1 hfree
        exact ⟨hlt, fun q hq => hent q (hkept q hq).2, hheld⟩
      · obtain ⟨q0, hv, hq0⟩ := h.visits x hxs
        obtain ⟨r, hr, hrq⟩ := hq0.1 hb
        rw [hbefore hv] at hcov
        refine ⟨(hp.cover p).2 (.inr (.inl ⟨q0, hcov⟩)), fun q hq => ?_, fun u hu => hp.published_held q0 u p ⟨hcov, hu⟩⟩
        obtain ⟨hnone, hcov'⟩ := hkept q hq
        exact hp.published_apart q0 q p (fun e => hnone r hr (hrq.trans e)) ⟨hcov, hcov'⟩

/-! ## Every batch store -/

/-- Thread `t` calls `c` in `pool` and has come to its end in `pool'`, with other threads' steps in between. -/
structure Calls (g : StorageGeometry) (pool : Pool Shared Call Cmd Answer Exn Ret) (t : Nat) (c : Call)
    (acts : List (Act Call Choice)) (o : Outcome) (pool' : Pool Shared Call Cmd Answer Exn Ret) : Prop where
  run : pool.run (connector g) (.start t c :: acts) = some pool'
  ended : (pool'.tasks t).bind (fun task => task.prog.result?) = some o

/-- The commands of the call. -/
def callLog (g : StorageGeometry) (pool : Pool Shared Call Cmd Answer Exn Ret) (t : Nat) (c : Call)
    (acts : List (Act Call Choice)) : Log := Pool.commands (connector g) t pool (.start t c :: acts)

/-- No other thread moves during the call. -/
def Alone (t : Nat) (acts : List (Act Call Choice)) : Prop := ∀ a ∈ acts, ∃ ch, a = .step t ch

variable {pool pool' : Pool Shared Call Cmd Answer Exn Ret} {c : Call} {acts : List (Act Call Choice)} {o : Outcome}

/-- The call started fresh, its log is one of its program, and alone it is what happened to the state. -/
theorem Calls.log (h : Calls g pool t c acts o pool') : pool.tasks t = none ∧ (∀ d ∈ pool.done, d.1 ≠ t) ∧
    Yields (body g c) (callLog g pool t c acts) o ∧
    (Alone t acts → Execs (connector g) t pool.shared (callLog g pool t c acts) pool'.shared) := by
  have hrun := h.run
  simp only [Pool.run, Option.bind_eq_some_iff] at hrun
  obtain ⟨pool1, h1, h2⟩ := hrun
  have hlog : callLog g pool t c acts = Pool.commands (connector g) t pool1 acts := by
    simp [callLog, Pool.commands, h1]
  obtain ⟨task, ht, ho⟩ := Option.bind_eq_some_iff.1 h.ended
  obtain ⟨u, c', ha, htask, hdone, rfl⟩ | ⟨_, _, _, _, _, _, _, ha, -⟩ | ⟨_, _, _, _, ha, -⟩ := Pool.act_cases h1
  · cases ha
    obtain ⟨-, hf⟩ := Pool.run_follows (t := t) (j := c) (p := body g c) (by simp [connector]) h2 ht
    rw [hlog]
    exact ⟨htask, hdone, hf.yields ho, fun halone => Pool.run_alone halone h2⟩
  · cases ha
  · cases ha

/-- **A batch store is atomic**, in every reachable state and for every cause and position of a failure. Whatever
the other threads do, a store that throws has bound no entry and given back exactly the pages it took, and
one that returns has taken the pages of the entries it bound and given back those of the entries it replaced.
No segment is written once pages are given back, nor has the bdev a command of a batch whose call returned.
Alone, a store that throws leaves the entries and the allocator as they were. -/
theorem batch_set_atomic {nb bs wu ba seg mx bc : Nat} {a : PageExtentAllocator}
    (hgeo : buildStorageGeometry nb bs wu ba seg mx bc = .ok g)
    (ha : PageExtentAllocator.new g.pageCount = .ok a) {dev : Nat → UInt8} {before : List (Act Call Choice)}
    (hrun : (Pool.init (Shared.init a dev)).run (connector g) before = some pool) {slots : List Slot}
    (hcall : Calls g pool t (.batchSet slots) acts o pool') :
    (∀ x, o = .error x → RolledBack (callLog g pool t (.batchSet slots) acts) ∧
      (Alone t acts → Unchanged pool.shared pool'.shared)) ∧
    (∀ r, o = .ok r → (∃ states rs, Published slots states rs (callLog g pool t (.batchSet slots) acts)) ∧
      (Alone t acts → Stored g slots pool.shared pool'.shared)) ∧
    WritesFirst (callLog g pool t (.batchSet slots) acts) ∧
    ∀ {e : SpdkBdevContext.Env} {device as s b}, runFrom (SpdkBdevContext.step e) (.init device) as = some s →
      (s.batch b).caller = .returning ∨ (s.batch b).caller = .returned →
      ∀ w, ∀ cmd ∈ (s.reactor w).inFlight, cmd.request.1 ≠ b := by
  have hg := buildStorageGeometry_valid hgeo
  obtain ⟨γ, hok⟩ := pool_ok hg ha hrun
  obtain ⟨ht, hd, hy, hx⟩ := hcall.log
  have hrefused : refused (callLog g pool t (.batchSet slots) acts) = [] := refused_nil hg hok hcall.run
  obtain ⟨hbooks, hwrites⟩ := doBatchSet_books hy
  refine ⟨?_, ?_, hwrites, fun hs hb w cmd hf => SpdkBdevContext.nothing_in_flight hs hb hf⟩
  · rintro x rfl
    rcases hbooks with hr | ⟨-, hroll⟩ | ⟨hbad, -⟩
    · exact absurd hrefused hr
    · refine ⟨hroll, fun halone => ?_⟩
      obtain ⟨γ', hc⟩ := call_alone hg hok ht hd hy (hx halone)
      exact hroll.unchanged (hx halone) hc
    · cases hbad
  · rintro r rfl
    rcases hbooks with hr | ⟨⟨x, hbad⟩, -⟩ | ⟨hr, states, rs, ℓ1, ℓ2, hsplit, hacq, hpub⟩
    · exact absurd hrefused hr
    · cases hbad
    · cases hr
      refine ⟨⟨states, rs, hpub⟩, fun halone => ?_⟩
      obtain ⟨γ', hc⟩ := call_alone hg hok ht hd hy (hx halone)
      have hx' := hx halone
      have hkeys := hpub.keys
      rw [hsplit] at hx' hpub
      exact (hpub.rebound hacq hx' hc).stored hx' hc hkeys

/-- The second key repeats the first, after a page was reserved. -/
theorem batch_set_atomic_duplicate : ∃ pool',
    Calls ⟨8, 8, 2, 4, 2, 0, 2, 1, 1, 1⟩ (Pool.init (Shared.init ⟨[⟨0, 4⟩], 4, 4⟩ fun _ => 0)) 0
      (.batchSet [⟨[1], [7]⟩, ⟨[1], [8]⟩]) (List.replicate 15 (.step 0 {})) (.error duplicateKey) pool' ∧
    Unchanged (Shared.init ⟨[⟨0, 4⟩], 4, 4⟩ fun _ => 0) pool'.shared := by
  have hend : ((Pool.init (Shared.init ⟨[⟨0, 4⟩], 4, 4⟩ fun _ => 0)).run
      (connector ⟨8, 8, 2, 4, 2, 0, 2, 1, 1, 1⟩) (.start 0 (.batchSet [⟨[1], [7]⟩, ⟨[1], [8]⟩]) ::
        List.replicate 15 (.step 0 {}))).bind (fun pool => (pool.tasks 0).bind fun task => task.prog.result?) =
      some (.error duplicateKey) := by decide
  obtain ⟨pool', hrun, hres⟩ := Option.bind_eq_some_iff.1 hend
  have hstart : (Pool.init (Shared.init ⟨[⟨0, 4⟩], 4, 4⟩ fun _ => 0)).run
      (connector ⟨8, 8, 2, 4, 2, 0, 2, 1, 1, 1⟩) [] = some _ := rfl
  refine ⟨pool', ⟨hrun, hres⟩, ?_⟩
  obtain ⟨h, -⟩ := batch_set_atomic (g := ⟨8, 8, 2, 4, 2, 0, 2, 1, 1, 1⟩) (a := ⟨[⟨0, 4⟩], 4, 4⟩)
    (show buildStorageGeometry 4 2 1 1 2 0 1 = .ok _ from rfl) rfl hstart ⟨hrun, hres⟩
  exact (h duplicateKey rfl).2 fun a ha => ⟨{}, List.eq_of_mem_replicate ha⟩

end SpdkConnector
