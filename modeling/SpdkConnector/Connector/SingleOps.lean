import SpdkConnector.Connector.Locking

/-!
# The single-key operations

`do_single_get`, `do_single_set`, `do_single_exists` and `do_single_delete` each run inside the mutex of
their key. Each ends, whatever the I/O does, by taking the map's step for its own outcome (`wp_finish`)
with the key's bytes in place and no page left in private hands.
-/

namespace SpdkConnector

open Interleaving

variable {g : StorageGeometry} (hg : g.Valid)

/-- After the call: no mutex, no private page, and the call counted with its outcome. -/
def Done (c : Call) (o : Outcome) (v : View) : Prop :=
  v.locks = [] ∧ v.priv = [] ∧ v.fin = some (c, o)

/-- The thread holds one key state and its call is still to be counted. -/
structure Holds (v : View) (key : Key) (q : Nat) : Prop where
  locks : v.locks = [.key q]
  states : v.states = [(key, q)]
  fin : v.fin = none

theorem Holds.mem {v : View} {key : Key} {q : Nat} (h : Holds v key q) : .key q ∈ v.locks := by
  rw [h.locks]; exact List.mem_singleton_self _

theorem Holds.lt_allocator {v : View} {key : Key} {q : Nat} (h : Holds v key q) :
    ∀ m ∈ v.locks, m.lt .allocator := by
  rw [h.locks]; simp [Mutex.lt]

/-- What a guarded block leaves. -/
def AtEnd (g : StorageGeometry) (q : Nat) (c : Call) (o : Outcome) (v : View) : Prop :=
  .key q ∈ v.locks ∧ v.Settled g q ∧ Done c o (v.withoutLock (.key q))

/-- **The end of a guarded block**: the entry's bytes are what the map holds after the call. -/
theorem wp_finish {c : Call} {o : Outcome} {v : View} {key : Key} {q : Nat} {p : P Ret}
    (hp : p = Prog.ofExcept o) (hv : Holds v key q) (hpriv : v.priv = []) (hk : ∀ k ∈ c.keys, k = key)
    (ha : c.Allows v.bound o)
    (hset : (v.entry q).map (contents g.pageSize v.mem) = c.effect v.bound o key) :
    (connectorLogic hg).wp c p v (AtEnd g q c) := by
  have hcommit : commit c v { v with fin := some (c, o), bound := c.effect v.bound o } :=
    ⟨hv.fin, o, ha, fun k hkm => ⟨q, by rw [hk k hkm, hv.states]; simp, hv.mem⟩, rfl⟩
  have hend : AtEnd g q c o { v with fin := some (c, o), bound := c.effect v.bound o } := by
    refine ⟨hv.mem, fun k hkq => ?_, ?_, hpriv, rfl⟩
    · have hkey : k = key := by
        have h : (k, q) ∈ v.states := hkq
        rw [hv.states] at h
        simpa using h
      subst hkey
      exact hset
    · simp [View.withoutLock, hv.locks]
  subst hp
  cases o with
  | ok r => exact LocalLogic.wp_moves (.single hcommit) (LocalLogic.wp_pure hend)
  | error x => exact LocalLogic.wp_moves (.single hcommit) (LocalLogic.wp_throw hend)

/-- An operation on one key: look its state up, lock it, run `p`. -/
theorem wp_onKey {c : Call} {key : Key} {p : Nat → P Ret}
    (h : ∀ q v, Holds v key q → v.priv = [] → v.WF g →
      (v.entry q).map (contents g.pageSize v.mem) = v.bound key →
      (connectorLogic hg).wp c (p q) v (AtEnd g q c)) :
    (connectorLogic hg).wp c (stateFor key >>= fun state => withLock (.key state) (p state)) View.idle
      (Done c) := by
  refine LocalLogic.wp_seq (wp_stateFor hg rfl fun q => ?_)
  refine wp_withKey hg ⟨key, by simp⟩ (by simp [View.idle]) fun e d b hwf hset => ?_
  exact h q _ ⟨rfl, rfl, rfl⟩ rfl hwf (hset key (by simp [View.acquire]))

theorem contents_length (ps : Nat) (d : Nat → UInt8) (e : Entry) : (contents ps d e).length = e.logicalSize := by
  simp [contents]

/-- The size check of the code is the length check of the specification. -/
theorem any_length {ps : Nat} {d : Nat → UInt8} {entry : Option Entry} {b : Option Bytes} {n : Nat}
    (h : entry.map (contents ps d) = b) : b.any (fun b => b.length != n) = sizeDiffers entry n := by
  subst h
  cases entry <;> simp [sizeDiffers, contents_length]

theorem isSome_bound {ps : Nat} {d : Nat → UInt8} {entry : Option Entry} {b : Option Bytes}
    (h : entry.map (contents ps d) = b) : entry.isSome = b.isSome := by
  subst h; simp

theorem wp_doSingleExists (key : Key) :
    (connectorLogic hg).wp (.exists' key) (doSingleExists key) View.idle (Done (.exists' key)) := by
  refine wp_onKey hg fun q v hv hpriv hwf hset => wp_perform hg fun _ => ⟨hv.mem, ?_⟩
  rintro _ v' _ ⟨rfl, hv'⟩
  obtain rfl : v = v' := hv'.symm
  exact wp_finish hg (o := .ok (.bool (v.entry q).isSome)) rfl hv hpriv (by simp [Call.keys]) (isSome_bound hset)
    (by simpa [Call.effect] using hset)

theorem wp_doSingleGet (key : Key) (buffer : Bytes) :
    (connectorLogic hg).wp (.get key buffer) (doSingleGet g key buffer) View.idle (Done (.get key buffer)) := by
  refine wp_onKey hg fun q v hv hpriv hwf hset => wp_perform hg fun _ => ⟨hv.mem, ?_⟩
  rintro _ v' _ ⟨rfl, hv'⟩
  obtain rfl : v = v' := hv'.symm
  have fails : ∀ x, (connectorLogic hg).wp (.get key buffer) (.throw x) v (AtEnd g q (.get key buffer)) := fun x =>
    wp_finish hg (o := .error x) rfl hv hpriv (by simp [Call.keys]) trivial (by simpa [Call.effect] using hset)
  split
  · exact fails _
  · rename_i e he
    split
    · exact fails _
    · rename_i hlen
      have hlen : buffer.length = e.logicalSize := by omega
      rw [he] at hset
      refine LocalLogic.wp_seq (wp_read hg (hwf.entry_ok q e hv.mem he) hlen
        (fun a ha => .inr ⟨q, hv.mem, by rw [he]; exact ha⟩) (fun x => fails x) ?_)
      exact wp_finish hg (o := .ok (.bytes (contents g.pageSize v.mem e))) rfl hv hpriv (by simp [Call.keys])
        ⟨hset.symm, by rw [contents_length, hlen]⟩ (by rw [he]; simpa [Call.effect] using hset)

theorem wp_doSingleDelete (key : Key) :
    (connectorLogic hg).wp (.delete key) (doSingleDelete key) View.idle (Done (.delete key)) := by
  refine wp_onKey hg fun q v hv hpriv hwf hset => wp_perform hg fun _ => ⟨hv.mem, ?_⟩
  rintro _ v' _ ⟨rfl, hv'⟩
  obtain rfl : v = v' := hv'.symm
  split
  · rename_i he
    rw [he] at hset
    refine wp_finish hg (o := .ok (.bool false)) rfl hv hpriv (by simp [Call.keys]) (isSome_bound hset) ?_
    simp [he, Call.effect]
  · rename_i e he
    rw [he] at hset
    refine wp_perform hg fun _ => ⟨⟨hv.mem, by simp, v.priv, rfl⟩, ?_⟩
    rintro _ _ _ rfl
    have hp : (v.publish q none).priv = e.extents ++ [] := by
      simp [View.publish, hpriv, he, extentsOf]
    refine LocalLogic.wp_seq (wp_allocatorRelease hg [] hv.lt_allocator hp ?_)
    refine wp_finish hg (o := .ok (.bool true)) rfl ⟨hv.locks, hv.states, hv.fin⟩ rfl (by simp [Call.keys])
      (isSome_bound hset) ?_
    simp [View.publish, Call.effect]

/-- Bytes of the held entry, when only other pages changed. -/
theorem entry_untouched (hg : g.Valid) {v : View} {q : Nat} (hwf : v.WF g) (hq : .key q ∈ v.locks) {d : Nat → UInt8}
    (h : ∀ a, ¬ Covers v.priv (a / g.pageSize) → d a = v.mem a) :
    (v.entry q).map (contents g.pageSize d) = (v.entry q).map (contents g.pageSize v.mem) :=
  map_contents_congr hg (fun x hx => hwf.entry_ok q x hq hx) fun a ha =>
    h a fun hp => hwf.priv_apart q _ hq ⟨hp, ha⟩

theorem wp_doSingleSet (key : Key) (value : Bytes) :
    (connectorLogic hg).wp (.set key value) (doSingleSet g key value) View.idle (Done (.set key value)) := by
  unfold doSingleSet
  split
  · -- no bytes: the call throws before it looks the key up
    rename_i h0
    have h0 : value = [] := List.length_eq_zero_iff.1 h0
    have hcommit : commit (.set key value) View.idle
        { View.idle with fin := some (.set key value, .error emptyValue) } :=
      ⟨rfl, .error emptyValue, .inl h0, by simp [Call.keys, h0], rfl⟩
    exact LocalLogic.wp_moves (.single hcommit) (LocalLogic.wp_throw ⟨rfl, rfl, rfl⟩)
  rename_i hne
  have hval : value ≠ [] := fun h => hne (by simp [h])
  refine wp_onKey hg fun q v hv hpriv hwf hset => wp_perform hg fun _ => ⟨hv.mem, ?_⟩
  rintro _ v' _ ⟨rfl, hv'⟩
  obtain rfl : v = v' := hv'.symm
  have hkeys : ∀ k ∈ (Call.set key value).keys, k = key := by simp [Call.keys, hval]
  have hany := any_length (n := value.length) hset
  split
  · -- bound with another length
    rename_i hsize
    refine wp_finish hg (o := .ok .unit) rfl hv hpriv hkeys hval ?_
    rw [hset]
    simp [Call.effect, bindKey, hany, hsize]
  rename_i hsize
  have hsize : sizeDiffers (v.entry q) value.length = false := by simpa using hsize
  have hallow : ∀ x, (Call.set key value).Allows v.bound (.error x) := fun _ => .inr (hany.trans hsize)
  refine LocalLogic.wp_seq (wp_allocateEntry hg (Nat.pos_of_ne_zero hne) hv.lt_allocator
    (fun x => wp_finish hg (o := .error x) rfl hv hpriv hkeys (hallow x) (by simpa [Call.effect] using hset))
    fun e d he hlen hwf1 => ?_)
  -- the thread now owns the new entry's pages, and the old entry's bytes are where they were
  have hv1 : Holds (v.grant g e.extents d) key q := ⟨hv.locks, hv.states, hv.fin⟩
  have hp1 : (v.grant g e.extents d).priv = e.extents := by simp [View.grant, hpriv]
  have hset1 : ((v.grant g e.extents d).entry q).map (contents g.pageSize (v.grant g e.extents d).mem) =
      v.bound key := by
    rw [← hset]
    refine map_contents_congr hg (fun x hx => hwf.entry_ok q x hv.mem hx) fun a ha => onPages_not_mem fun hc => ?_
    exact hwf1.priv_apart q _ hv1.mem ⟨by rw [hp1]; exact hc, ha⟩
  have hset2 : ∀ d', (∀ a, ¬ Covers e.extents (a / g.pageSize) → d' a = (v.grant g e.extents d).mem a) →
      ((v.grant g e.extents d).entry q).map (contents g.pageSize d') = v.bound key := fun d' hd' =>
    (entry_untouched hg hwf1 hv1.mem fun a ha => hd' a (by rwa [hp1] at ha)).trans hset1
  refine LocalLogic.wp_seq (LocalLogic.wp_tryCatch (wp_write hg he hlen.symm (fun x hx => by rw [hp1]; exact hx)
    (fun x d' hd' => ?_) fun d' hd' hcontents => ?_))
  · -- roll back
    refine LocalLogic.wp_seq (wp_allocatorRelease hg [] hv1.lt_allocator (by simpa [View.withMem] using hp1) ?_)
    refine LocalLogic.wp_throw (wp_finish hg (o := .error x) rfl ⟨hv.locks, hv.states, hv.fin⟩ rfl hkeys (hallow x) ?_)
    exact hset2 d' hd'
  · -- publish
    refine wp_perform hg fun _ => ⟨hv1.mem, ?_⟩
    rintro _ v' _ ⟨rfl, hv'⟩
    obtain rfl : (v.grant g e.extents d).withMem d' = v' := hv'.symm
    refine wp_perform hg fun _ => ⟨⟨hv1.mem, fun x hx => Option.some.inj hx ▸ he, [],
      by simpa [View.withMem, extentsOf] using hp1⟩, ?_⟩
    rintro _ _ _ rfl
    have hp3 : (((v.grant g e.extents d).withMem d').publish q (some e)).priv = extentsOf (v.entry q) := by
      have : e.extents.diff e.extents = [] := by simpa using diff_append_left e.extents []
      simp only [View.publish, View.withMem, hp1, extentsOf_some, this, List.nil_append]
      rfl
    have hv3 : Holds (((v.grant g e.extents d).withMem d').publish q (some e)) key q := ⟨hv.locks, hv.states, hv.fin⟩
    have heffect : (Call.set key value).effect v.bound (.ok .unit) key = some value := by
      simp [Call.effect, bindKey, hany, hsize]
    have hnew : ((((v.grant g e.extents d).withMem d').publish q (some e)).entry q).map
        (contents g.pageSize d') = (Call.set key value).effect v.bound (.ok .unit) key := by
      rw [heffect, ← hcontents]
      simp [View.publish]
    split
    · rename_i hnone
      have hnone : v.entry q = none := hnone
      exact wp_finish hg (o := .ok .unit) rfl hv3 (by rw [hp3, hnone]; rfl) hkeys hval hnew
    · rename_i p hsome
      have hsome : v.entry q = some p := hsome
      refine LocalLogic.wp_seq (wp_allocatorRelease hg [] hv3.lt_allocator (by rw [hp3, hsome]; simp [extentsOf]) ?_)
      exact wp_finish hg (o := .ok .unit) rfl ⟨hv.locks, hv.states, hv.fin⟩ rfl hkeys hval hnew

end SpdkConnector
