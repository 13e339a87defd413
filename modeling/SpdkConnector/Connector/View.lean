import SpdkConnector.Connector.MapSpec

/-!
# Ownership: what a connector thread knows of the shared state

Every page of the device has one owner: the free map, the entry of a key state, or a running
operation. `Inv` ties the owner of each page to the three places the code keeps extents in, and the
map of the specification to the entries of the key states nobody holds (a thread that holds a key's
mutex may have them differ).

A `View` is what one thread may rely on: the mutexes it holds, the key states it has looked up, the
entries and bindings of the key states it holds, its private extents, and the device bytes of its own
and its entries' pages. `cmdPre` and `cmdPost` say what each command needs of it and makes of it.
-/

namespace SpdkConnector

open Interleaving

/-- The bytes of an entry on the device. -/
def contents (pageSize : Nat) (dev : Nat → UInt8) (e : Entry) : Bytes :=
  (List.range e.logicalSize).map fun x => dev (devAddr pageSize e.extents x)

inductive PageOwner where
  | free
  | entry (state : Nat)
  | task (t : Nat)
deriving DecidableEq

/-- What the proof keeps beside the state: the map, the calls counted as done so far in their order,
and the owner of each page. -/
structure Ghost where
  map : KeyMap
  log : List (Nat × Call × Outcome)
  page : Nat → PageOwner

structure Inv (g : StorageGeometry) (s : Shared) (γ : Ghost) : Prop where
  alloc : s.allocator.WF
  total : s.allocator.totalPageCount = g.pageCount
  free_page : ∀ p, Covers s.allocator.freeExtents p ↔ p < g.pageCount ∧ γ.page p = .free
  entry_page : ∀ q p, Covers (extentsOf (s.entry q)) p ↔ p < g.pageCount ∧ γ.page p = .entry q
  held_page : ∀ t p, Covers (s.held t) p ↔ p < g.pageCount ∧ γ.page p = .task t
  held_owned : ∀ t, Owned g.pageCount (s.held t)
  entry_ok : ∀ q e, s.entry q = some e → e.Ok g
  keys_nodup : (s.keyStates.map Prod.fst).Nodup
  states_nodup : (s.keyStates.map Prod.snd).Nodup
  unknown_key : ∀ k, k ∉ s.keyStates.map Prod.fst → γ.map k = none
  unknown_state : ∀ q, q ∉ s.keyStates.map Prod.snd → s.entry q = none ∧ s.owner (.key q) = none
  settled : ∀ k q, (k, q) ∈ s.keyStates → s.owner (.key q) = none →
    (s.entry q).map (contents g.pageSize s.dev) = γ.map k
  replays : Replays (fun _ => none) γ.log γ.map
  names : (γ.log.map Prod.fst).Nodup

structure View where
  locks : List Mutex
  states : List (Key × Nat)
  entry : Nat → Option Entry
  bound : KeyMap
  priv : List PageExtent
  mem : Nat → UInt8
  /-- The thread's own call, once it is counted as done. -/
  fin : Option (Call × Outcome)

/-- A thread that has not started. -/
def View.idle : View := ⟨[], [], fun _ => none, fun _ => none, [], fun _ => 0, none⟩

/-- The device bytes the view covers. -/
def View.Access (v : View) (pageSize a : Nat) : Prop :=
  Covers v.priv (a / pageSize) ∨ ∃ q, .key q ∈ v.locks ∧ Covers (extentsOf (v.entry q)) (a / pageSize)

structure Sees (g : StorageGeometry) (t : Nat) (v : View) (s : Shared) (γ : Ghost) : Prop where
  owner : ∀ m, s.owner m = some t ↔ m ∈ v.locks
  locks_nodup : v.locks.Nodup
  states : ∀ x ∈ v.states, x ∈ s.keyStates
  known : ∀ q, .key q ∈ v.locks → ∃ k, (k, q) ∈ v.states
  entry : ∀ q, .key q ∈ v.locks → s.entry q = v.entry q
  bound : ∀ k q, (k, q) ∈ v.states → .key q ∈ v.locks → γ.map k = v.bound k
  held : s.held t = v.priv
  mem : ∀ a, v.Access g.pageSize a → s.dev a = v.mem a
  fin : ∀ c o, (t, c, o) ∈ γ.log ↔ v.fin = some (c, o)

/-- What is true of every view. -/
structure View.WF (g : StorageGeometry) (v : View) : Prop where
  entry_ok : ∀ q e, .key q ∈ v.locks → v.entry q = some e → e.Ok g
  priv_owned : Owned g.pageCount v.priv
  priv_apart : ∀ q p, .key q ∈ v.locks → ¬ (Covers v.priv p ∧ Covers (extentsOf (v.entry q)) p)
  entries_apart : ∀ q q' p, .key q ∈ v.locks → .key q' ∈ v.locks → q ≠ q' →
    ¬ (Covers (extentsOf (v.entry q)) p ∧ Covers (extentsOf (v.entry q')) p)
  state_unique : ∀ k q q', (k, q) ∈ v.states → (k, q') ∈ v.states → q = q'
  key_unique : ∀ k k' q, (k, q) ∈ v.states → (k', q) ∈ v.states → k = k'

/-! ## Commands -/

/-- The bytes of a key state's entry are the binding of its key. -/
def View.Settled (g : StorageGeometry) (v : View) (q : Nat) : Prop :=
  ∀ k, (k, q) ∈ v.states → (v.entry q).map (contents g.pageSize v.mem) = v.bound k

def InRange (it : IoBatchItem) (a : Nat) : Prop :=
  it.byteOffset ≤ a ∧ a < it.byteOffset + it.physicalLength

instance (it : IoBatchItem) (a : Nat) : Decidable (InRange it a) := inferInstanceAs (Decidable (_ ∧ _))

def cmdPre (g : StorageGeometry) : Cmd → View → Prop
  | .lock m, v => (∀ m' ∈ v.locks, m'.lt m) ∧ ∀ q, m = .key q → ∃ k, (k, q) ∈ v.states
  | .unlock m, v => m ∈ v.locks ∧ ∀ q, m = .key q → v.Settled g q
  | .stateFor _, v => .keyStates ∈ v.locks
  | .getEntry q, v => .key q ∈ v.locks
  | .setEntry q e, v => .key q ∈ v.locks ∧ (∀ x, e = some x → x.Ok g) ∧
      ∃ rest, v.priv = extentsOf e ++ rest
  | .allocate _, v => .allocator ∈ v.locks
  | .release es, v => .allocator ∈ v.locks ∧ ∃ rest, v.priv = es ++ rest
  | .enqueue, _ | .pick _, _ => True
  | .writeSegment it staged, v => it.Ok g ∧ staged.length = it.physicalLength ∧
      ∀ a, InRange it a → Covers v.priv (a / g.pageSize)
  | .readSegment it, v => it.Ok g ∧ ∀ a, InRange it a → v.Access g.pageSize a

open Classical in
/-- `d` on the bytes of the extents, `mem` elsewhere. -/
noncomputable def onPages (pageSize : Nat) (es : List PageExtent) (d mem : Nat → UInt8) : Nat → UInt8 :=
  fun a => if Covers es (a / pageSize) then d a else mem a

def View.withLock (v : View) (m : Mutex) : View := { v with locks := m :: v.locks }
def View.withoutLock (v : View) (m : Mutex) : View := { v with locks := v.locks.erase m }

/-- Taking a key state's mutex: its entry, its binding and its bytes come into view. -/
noncomputable def View.acquire (g : StorageGeometry) (v : View) (q : Nat) (e : Option Entry)
    (d : Nat → UInt8) (b : KeyMap) : View :=
  { v with
    locks := .key q :: v.locks
    entry := Function.update v.entry q e
    bound := fun k => if (k, q) ∈ v.states then b k else v.bound k
    mem := onPages g.pageSize (extentsOf e) d v.mem }

def View.publish (v : View) (q : Nat) (e : Option Entry) : View :=
  { v with
    entry := Function.update v.entry q e
    priv := v.priv.diff (extentsOf e) ++ extentsOf (v.entry q) }

noncomputable def View.grant (g : StorageGeometry) (v : View) (es : List PageExtent)
    (d : Nat → UInt8) : View :=
  { v with priv := v.priv ++ es, mem := onPages g.pageSize es d v.mem }

def View.give (v : View) (es : List PageExtent) : View := { v with priv := v.priv.diff es }

def View.written (v : View) (it : IoBatchItem) (d : Nat → UInt8) : View :=
  { v with mem := fun a => if InRange it a then d a else v.mem a }

def cmdPost (g : StorageGeometry) : (c : Cmd) → View → Answer c → View → Prop
  | .lock (.key q), v, _, v' => ∃ e d b, v' = v.acquire g q e d b ∧ v'.Settled g q
  | .lock m, v, _, v' => v' = v.withLock m
  | .unlock m, v, _, v' => v' = v.withoutLock m
  | .stateFor key, v, (q : Nat), v' => v' = { v with states := (key, q) :: v.states }
  | .getEntry q, v, (e : Option Entry), v' => e = v.entry q ∧ v' = v
  | .setEntry q e, v, _, v' => v' = v.publish q e
  | .allocate n, v, (r : Except Exn (List PageExtent)), v' =>
    match r with
    | .ok es => pageSum es = n ∧ ∃ d, v' = v.grant g es d
    | .error _ => v' = v
  | .release es, v, (r : Except Exn Unit), v' => r = .ok () ∧ v' = v.give es
  | .enqueue, v, _, v' => v' = v
  | .pick n, v, (i : Nat), v' => (0 < n → i < n) ∧ v' = v
  | .writeSegment it staged, v, (r : IoResult), v' => ∃ d, v' = v.written it d ∧
      (r.success = true → ∀ k < it.physicalLength, d (it.byteOffset + k) = staged.getD k 0)
  | .readSegment it, v, (r : IoResult × Bytes), v' =>
    r.2 = (List.range it.logicalLength).map (fun k => v.mem (it.byteOffset + k)) ∧ v' = v

/-- Counting the call as done: the map takes its step. The thread holds the locks of the call's keys,
so its own bindings are the map's. -/
def commit (c : Call) (v v' : View) : Prop :=
  v.fin = none ∧ ∃ o, c.Allows v.bound o ∧
    (∀ k ∈ c.keys, ∃ q, (k, q) ∈ v.states ∧ .key q ∈ v.locks) ∧
    v' = { v with fin := some (c, o), bound := c.effect v.bound o }

/-! ## Entries, extents and pages -/

theorem extentsOf_some (e : Entry) : extentsOf (some e) = e.extents := rfl
theorem extentsOf_none : extentsOf none = [] := rfl

theorem diff_append_left : ∀ (es rest : List PageExtent), (es ++ rest).diff es = rest
  | [], rest => by simp
  | e :: es, rest => by simp [List.diff_cons, diff_append_left es rest]

theorem Owned.append {n : Nat} {xs ys : List PageExtent} (hx : Owned n xs) (hy : Owned n ys)
    (h : ∀ p, ¬ (Covers xs p ∧ Covers ys p)) : Owned n (xs ++ ys) := by
  refine ⟨fun e he => ?_, fun e he => ?_, List.pairwise_append.2 ⟨hx.apart, hy.apart, fun x hxm y hym => ?_⟩⟩
  · exact (List.mem_append.1 he).elim (hx.pos e) (hy.pos e)
  · exact (List.mem_append.1 he).elim (hx.bound e) (hy.bound e)
  · exact (apart_iff (hx.pos x hxm) (hy.pos y hym)).2 fun p hp => h p ⟨⟨x, hxm, hp.1⟩, ⟨y, hym, hp.2⟩⟩

theorem Owned.of_append {n : Nat} {xs ys : List PageExtent} (h : Owned n (xs ++ ys)) :
    Owned n xs ∧ Owned n ys ∧ ∀ p, ¬ (Covers xs p ∧ Covers ys p) := by
  obtain ⟨h1, h2, h3⟩ := List.pairwise_append.1 h.apart
  refine ⟨⟨fun e he => h.pos e (by simp [he]), fun e he => h.bound e (by simp [he]), h1⟩,
    ⟨fun e he => h.pos e (by simp [he]), fun e he => h.bound e (by simp [he]), h2⟩, ?_⟩
  rintro p ⟨⟨x, hx, hxp⟩, y, hy, hyp⟩
  exact (apart_iff (h.pos x (by simp [hx])) (h.pos y (by simp [hy]))).1 (h3 x hx y hy) p ⟨hxp, hyp⟩

theorem Owned.lt {n p : Nat} {es : List PageExtent} (h : Owned n es) (hp : Covers es p) : p < n := by
  obtain ⟨e, he, hep⟩ := hp
  have := h.bound e he
  exact Nat.lt_of_lt_of_le hep.2 this

theorem contents_congr {g : StorageGeometry} (hg : g.Valid) {e : Entry} (he : e.Ok g)
    {d d' : Nat → UInt8} (h : ∀ a, Covers e.extents (a / g.pageSize) → d a = d' a) :
    contents g.pageSize d e = contents g.pageSize d' e := by
  refine List.map_congr_left fun x hx => h _ (devAddr_covers hg.pageSize_pos ?_)
  exact Nat.lt_of_lt_of_le (List.mem_range.1 hx) (he.size_le hg).1

theorem map_contents_congr {g : StorageGeometry} (hg : g.Valid) {e : Option Entry}
    (he : ∀ x, e = some x → x.Ok g) {d d' : Nat → UInt8}
    (h : ∀ a, Covers (extentsOf e) (a / g.pageSize) → d a = d' a) :
    e.map (contents g.pageSize d) = e.map (contents g.pageSize d') := by
  cases e with
  | none => rfl
  | some x => simp only [Option.map_some, contents_congr hg (he x rfl) h]

theorem onPages_mem {ps a : Nat} {es : List PageExtent} {d mem : Nat → UInt8} (h : Covers es (a / ps)) :
    onPages ps es d mem a = d a := if_pos h

theorem onPages_not_mem {ps a : Nat} {es : List PageExtent} {d mem : Nat → UInt8}
    (h : ¬ Covers es (a / ps)) : onPages ps es d mem a = mem a := if_neg h

/-! ## Where a view's pages are -/

variable {g : StorageGeometry} {s s' : Shared} {γ γ' : Ghost} {t : Nat} {v : View}

theorem Inv.key_unique (hi : Inv g s γ) {k k' : Key} {q : Nat} (h : (k, q) ∈ s.keyStates)
    (h' : (k', q) ∈ s.keyStates) : k = k' :=
  congrArg Prod.fst (List.inj_on_of_nodup_map hi.states_nodup h h' rfl)

theorem Inv.state_unique (hi : Inv g s γ) {k : Key} {q q' : Nat} (h : (k, q) ∈ s.keyStates)
    (h' : (k, q') ∈ s.keyStates) : q = q' :=
  congrArg Prod.snd (List.inj_on_of_nodup_map hi.keys_nodup h h' rfl)

theorem Inv.extents_owned (hi : Inv g s γ) (q : Nat) : Owned g.pageCount (extentsOf (s.entry q)) := by
  cases h : s.entry q with
  | none => exact ⟨by simp [extentsOf], by simp [extentsOf], by simp [extentsOf]⟩
  | some e => exact (hi.entry_ok q e h).owned

/-- A page in view belongs to the thread or to an entry it holds. -/
theorem Sees.access_page (hi : Inv g s γ) (hv : Sees g t v s γ) {a : Nat} (h : v.Access g.pageSize a) :
    a / g.pageSize < g.pageCount ∧ (γ.page (a / g.pageSize) = .task t ∨
      ∃ q, γ.page (a / g.pageSize) = .entry q ∧ s.owner (.key q) = some t) := by
  rcases h with h | ⟨q, hq, h⟩
  · obtain ⟨h1, h2⟩ := (hi.held_page t _).1 (hv.held ▸ h)
    exact ⟨h1, .inl h2⟩
  · rw [← hv.entry q hq] at h
    obtain ⟨h1, h2⟩ := (hi.entry_page q _).1 h
    exact ⟨h1, .inr ⟨q, h2, (hv.owner _).2 hq⟩⟩

theorem Sees.wf (hi : Inv g s γ) (hv : Sees g t v s γ) : v.WF g where
  entry_ok q e hq he := hi.entry_ok q e ((hv.entry q hq).trans he)
  priv_owned := hv.held ▸ hi.held_owned t
  priv_apart q p hq := by
    rintro ⟨h1, h2⟩
    rw [← hv.held] at h1
    rw [← hv.entry q hq] at h2
    have := ((hi.held_page t p).1 h1).2.symm.trans ((hi.entry_page q p).1 h2).2
    cases this
  entries_apart q q' p hq hq' hne := by
    rintro ⟨h1, h2⟩
    rw [← hv.entry q hq] at h1
    rw [← hv.entry q' hq'] at h2
    have := ((hi.entry_page q p).1 h1).2.symm.trans ((hi.entry_page q' p).1 h2).2
    exact hne (PageOwner.entry.inj this)
  state_unique k q q' h h' := hi.state_unique (hv.states _ h) (hv.states _ h')
  key_unique k k' q h h' := hi.key_unique (hv.states _ h) (hv.states _ h')

/-- **Frame**: what a step has to leave alone for another thread's view to stay true. -/
theorem Sees.frame {u : Nat} {w : View} (hi : Inv g s γ) (hw : Sees g u w s γ)
    (howner : ∀ m, s'.owner m = some u ↔ s.owner m = some u)
    (hstates : ∀ x ∈ s.keyStates, x ∈ s'.keyStates)
    (hentry : ∀ q, s.owner (.key q) = some u → s'.entry q = s.entry q)
    (hmap : ∀ k q, (k, q) ∈ s.keyStates → s.owner (.key q) = some u → γ'.map k = γ.map k)
    (hheld : s'.held u = s.held u)
    (hdev : ∀ a, (γ.page (a / g.pageSize) = .task u ∨
      ∃ q, γ.page (a / g.pageSize) = .entry q ∧ s.owner (.key q) = some u) → s'.dev a = s.dev a)
    (hlog : ∀ c o, (u, c, o) ∈ γ'.log ↔ (u, c, o) ∈ γ.log) : Sees g u w s' γ' where
  owner m := (howner m).trans (hw.owner m)
  locks_nodup := hw.locks_nodup
  states x hx := hstates x (hw.states x hx)
  known := hw.known
  entry q hq := (hentry q ((hw.owner _).2 hq)).trans (hw.entry q hq)
  bound k q hkq hq := (hmap k q (hw.states _ hkq) ((hw.owner _).2 hq)).trans (hw.bound k q hkq hq)
  held := hheld.trans hw.held
  mem a ha := (hdev a (hw.access_page hi ha).2).trans (hw.mem a ha)
  fin c o := (hlog c o).trans (hw.fin c o)

end SpdkConnector
