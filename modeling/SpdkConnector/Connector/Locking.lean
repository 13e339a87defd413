import SpdkConnector.Connector.Transfers

/-!
# Locks, lookups and the allocator

The rules for the pieces the operations share: a guarded block, `StateFor` / `StatesFor`, `LockStates`
and its release, `AllocateEntry` and the allocator's critical sections. A thread takes mutexes in
the order of `Mutex.lt` only.
-/

namespace SpdkConnector

open Interleaving

variable {g : StorageGeometry} (hg : g.Valid) {j : Call} {v : View}

@[simp] theorem withoutLock_withLock (v : View) (m : Mutex) : (v.withLock m).withoutLock m = v := by
  simp [View.withLock, View.withoutLock]

theorem wp_unlock {m : Mutex} {Q : Except Exn Unit → View → Prop} (hm : m ∈ v.locks)
    (hset : ∀ q, m = .key q → v.Settled g q) (h : Q (.ok ()) (v.withoutLock m)) :
    (connectorLogic hg).wp j (perform (.unlock m)) v Q :=
  LocalLogic.wp_call fun _ => ⟨⟨hm, hset⟩, fun _ _ _ hp => LocalLogic.wp_pure (by rw [hp]; exact h)⟩

/-- A block guarded by a mutex that guards no entry. -/
theorem wp_withLock {α : Type} {m : Mutex} {p : P α} {Q : Except Exn α → View → Prop}
    (hm : ∀ q, m ≠ .key q) (hlt : ∀ m' ∈ v.locks, m'.lt m)
    (h : (connectorLogic hg).wp j p (v.withLock m) fun r v' => m ∈ v'.locks ∧ Q r (v'.withoutLock m)) :
    (connectorLogic hg).wp j (withLock m p) v Q := by
  refine wp_perform hg fun _ => ⟨⟨hlt, fun q hq => (hm q hq).elim⟩, fun _ v' _ hv' => ?_⟩
  have hv' : v' = v.withLock m := by
    cases m with
    | key q => exact (hm q rfl).elim
    | keyStates => exact hv'
    | allocator => exact hv'
  subst hv'
  refine LocalLogic.wp_finally (LocalLogic.wp_mono ?_ h)
  rintro r v' ⟨h1, h2⟩
  exact wp_unlock hg h1 (fun q hq => (hm q hq).elim) ⟨⟨(), rfl⟩, h2⟩

/-- A block guarded by the mutex of a key state: it starts and ends with the key's bytes in place. -/
theorem wp_withKey {α : Type} {q : Nat} {p : P α} {Q : Except Exn α → View → Prop}
    (hk : ∃ k, (k, q) ∈ v.states) (hlt : ∀ m' ∈ v.locks, m'.lt (.key q))
    (h : ∀ e d b, (v.acquire g q e d b).WF g → (v.acquire g q e d b).Settled g q →
      (connectorLogic hg).wp j p (v.acquire g q e d b) fun r v' =>
        .key q ∈ v'.locks ∧ v'.Settled g q ∧ Q r (v'.withoutLock (.key q))) :
    (connectorLogic hg).wp j (withLock (.key q) p) v Q := by
  refine wp_perform hg fun _ => ⟨⟨hlt, fun q' hq' => by cases hq'; exact hk⟩, ?_⟩
  rintro _ v' hwf ⟨e, d, b, rfl, hset⟩
  refine LocalLogic.wp_finally (LocalLogic.wp_mono ?_ (h e d b hwf hset))
  rintro r v' ⟨h1, h2, h3⟩
  exact wp_unlock hg h1 (fun q' hq' => by cases hq'; exact h2) ⟨⟨(), rfl⟩, h3⟩

theorem wp_stateFor {key : Key} {Q : Except Exn Nat → View → Prop} (hl : v.locks = [])
    (h : ∀ q, Q (.ok q) { v with states := (key, q) :: v.states }) :
    (connectorLogic hg).wp j (stateFor key) v Q := by
  refine wp_withLock hg (by simp) (by simp [hl]) ?_
  refine LocalLogic.wp_call fun _ => ⟨List.mem_cons_self, fun q v' _ hv' => LocalLogic.wp_pure ?_⟩
  obtain rfl : v' = { v.withLock .keyStates with states := (key, q) :: v.states } := hv'
  refine ⟨List.mem_cons_self, ?_⟩
  simpa [View.withLock, View.withoutLock] using h q

theorem wp_statesFor : ∀ {keys : List Key} {v : View} {Q : Except Exn (List Nat) → View → Prop},
    v.locks = [] → (∀ qs : List Nat, qs.length = keys.length →
      Q (.ok qs) { v with states := (keys.zip qs).reverse ++ v.states }) →
    (connectorLogic hg).wp j (statesFor keys) v Q
  | [], v, Q, _, h => LocalLogic.wp_pure (h [] rfl)
  | key :: keys, v, Q, hl, h => by
    refine LocalLogic.wp_bind (wp_stateFor hg hl fun q => ?_)
    show (connectorLogic hg).wp j ((statesFor keys).bind fun qs => .pure (q :: qs)) _ Q
    refine LocalLogic.wp_bind (wp_statesFor hl fun qs hqs => ?_)
    exact LocalLogic.wp_pure (by simpa using h (q :: qs) (by simp [hqs]))

/-! ## The locks of a batch -/

theorem mem_lockOrder {states : List Nat} {q : Nat} : q ∈ lockOrder states ↔ q ∈ states := by
  simp [lockOrder]

theorem lockOrder_sorted (states : List Nat) : (lockOrder states).Pairwise (· < ·) := by
  have hle : (lockOrder states).Pairwise (· ≤ ·) :=
    (List.pairwise_insertionSort (· ≤ ·) states).sublist (List.dedup_sublist _)
  have hne : (lockOrder states).Pairwise (· ≠ ·) := List.nodup_iff_pairwise_ne.1 (List.nodup_dedup _)
  exact (hle.and hne).imp fun h => Nat.lt_of_le_of_ne h.1 h.2

/-- A newly locked key state's bytes do not disturb those of the others. -/
theorem acquire_settled (hg : g.Valid) {q q' : Nat} {e : Option Entry} {d : Nat → UInt8} {b : KeyMap}
    (hwf : (v.acquire g q e d b).WF g) (hq' : .key q' ∈ v.locks) (hne : q' ≠ q) (h : v.Settled g q') :
    (v.acquire g q e d b).Settled g q' := by
  intro k hk'
  have hkq : (k, q) ∉ v.states := fun hc => hne (hwf.state_unique k q' q hk' hc)
  have hlock : Mutex.key q' ∈ (v.acquire g q e d b).locks := List.mem_cons_of_mem _ hq'
  have hent : (v.acquire g q e d b).entry q' = v.entry q' := by simp [View.acquire, hne]
  have hb : (v.acquire g q e d b).bound k = v.bound k := by simp [View.acquire, hkq]
  rw [hent, hb, ← h k hk']
  refine map_contents_congr hg (fun x hx => hwf.entry_ok q' x hlock (hent.trans hx)) fun a ha => ?_
  have hq : (v.acquire g q e d b).entry q = e := by simp [View.acquire]
  exact onPages_not_mem fun hc => hwf.entries_apart q' q (a / g.pageSize) hlock List.mem_cons_self hne
    ⟨hent ▸ ha, hq.symm ▸ hc⟩

/-- `LockStates`: the locks of `ps` in ascending order. -/
theorem wp_lockStates : ∀ {ps : List Nat} {v : View} {Q : Except Exn Unit → View → Prop},
    ps.Pairwise (· < ·) → (∀ p ∈ ps, ∀ m ∈ v.locks, m.lt (.key p)) →
    (∀ p ∈ ps, ∃ k, (k, p) ∈ v.states) → (∀ q, .key q ∈ v.locks → v.Settled g q) →
    (∀ v' : View, v'.locks = (ps.map Mutex.key).reverse ++ v.locks → v'.states = v.states →
      v'.priv = v.priv → v'.fin = v.fin → (∀ q, .key q ∈ v'.locks → v'.Settled g q) → Q (.ok ()) v') →
    (connectorLogic hg).wp j (lockStates ps) v Q
  | [], v, Q, _, _, _, hset, h =>
    LocalLogic.wp_pure (h v rfl rfl rfl rfl hset)
  | p :: ps, v, Q, hs, hlt, hk, hset, h => by
    obtain ⟨hp, hs'⟩ := List.pairwise_cons.1 hs
    refine wp_perform hg fun _ => ⟨⟨hlt p (by simp), fun q hq => by cases hq; exact hk p (by simp)⟩, ?_⟩
    rintro _ v' hwf ⟨e, d, b, rfl, hnew⟩
    have hold : ∀ q, Mutex.key q ∈ v.locks → q ≠ p := by
      rintro q hq rfl
      exact Nat.lt_irrefl q (hlt q (by simp) _ hq)
    refine wp_lockStates hs' (fun q hq m hm => ?_) (fun q hq => hk q (by simp [hq])) (fun q hq => ?_)
      fun v' h1 h2 h3 h4 h5 => h v' (by rw [h1]; simp [View.acquire]) h2 h3 h4 h5
    · rcases List.mem_cons.1 hm with rfl | hm
      · exact hp q hq
      · exact hlt q (by simp [hq]) m hm
    · rcases List.mem_cons.1 hq with e | hq
      · cases e; exact hnew
      · exact acquire_settled hg hwf hq (hold q hq) (hset q hq)

theorem wp_unlockStates : ∀ {ps : List Nat} {v : View} {Q : Except Exn Unit → View → Prop},
    ps.Nodup → (∀ p ∈ ps, .key p ∈ v.locks ∧ v.Settled g p) →
    Q (.ok ()) { v with locks := v.locks.diff (ps.map Mutex.key) } →
    (connectorLogic hg).wp j (unlockStates ps) v Q
  | [], v, Q, _, _, h => LocalLogic.wp_pure (by simpa using h)
  | p :: ps, v, Q, hn, hset, h => by
    obtain ⟨hp, hn'⟩ := List.nodup_cons.1 hn
    refine wp_perform hg fun _ => ⟨⟨(hset p (by simp)).1, fun q hq => by cases hq; exact (hset p (by simp)).2⟩, ?_⟩
    rintro _ _ _ rfl
    refine wp_unlockStates hn' (fun q hq => ?_) (by simpa [View.withoutLock, List.diff_cons] using h)
    obtain ⟨h1, h2⟩ := hset q (by simp [hq])
    have hne : Mutex.key q ≠ .key p := by simp; rintro rfl; exact hp hq
    exact ⟨(List.mem_erase_of_ne hne).2 h1, h2⟩

theorem reverse_diff_self (l : List Mutex) : l.reverse.diff l = [] := by
  have h := (List.reverse_perm l).diff_right l
  have h' : l.diff l = [] := by
    induction l with
    | nil => rfl
    | cons x l ih => simpa [List.diff_cons] using ih (by simpa using (List.reverse_perm l).diff_right l)
  rw [h'] at h
  exact h.eq_nil

/-- The block of a batch operation: it starts with the bytes of all its keys in place and ends so. -/
theorem wp_withStates {α : Type} {states : List Nat} {p : P α} {Q : Except Exn α → View → Prop}
    (hl : v.locks = []) (hk : ∀ q ∈ states, ∃ k, (k, q) ∈ v.states)
    (h : ∀ v1 : View, (∀ q, .key q ∈ v1.locks ↔ q ∈ states) → (∀ m ∈ v1.locks, m.lt .allocator) →
      v1.states = v.states → v1.priv = v.priv → v1.fin = v.fin → (∀ q ∈ states, v1.Settled g q) →
      (connectorLogic hg).wp j p v1 fun r v' => v'.locks = v1.locks ∧ (∀ q ∈ states, v'.Settled g q) ∧
        Q r { v' with locks := [] }) :
    (connectorLogic hg).wp j (withStates states p) v Q := by
  have hsorted := lockOrder_sorted states
  refine LocalLogic.wp_bind (wp_lockStates hg hsorted (by simp [hl])
    (fun q hq => hk q (mem_lockOrder.1 hq)) (by simp [hl]) fun v1 h1 h2 h3 h4 h5 => ?_)
  rw [hl, List.append_nil] at h1
  have hmem : ∀ q, Mutex.key q ∈ v1.locks ↔ q ∈ states := fun q => by
    rw [h1]; simp [mem_lockOrder]
  refine LocalLogic.wp_finally (LocalLogic.wp_mono ?_ (h v1 hmem (by rw [h1]; simp [Mutex.lt]) h2 h3 h4
    fun q hq => h5 q ((hmem q).2 hq)))
  rintro r v' ⟨k1, k2, k3⟩
  refine wp_unlockStates hg (hsorted.imp (fun h => Nat.ne_of_lt h)) (fun q hq => ?_) ⟨⟨(), rfl⟩, ?_⟩
  · rw [k1]
    exact ⟨(hmem q).2 (mem_lockOrder.1 hq), k2 q (mem_lockOrder.1 hq)⟩
  · rw [k1, h1, reverse_diff_self]
    exact k3

/-! ## The allocator -/

theorem wp_allocatorRelease {es : List PageExtent} (rest : List PageExtent) {Q : Except Exn Unit → View → Prop}
    (hlt : ∀ m ∈ v.locks, m.lt .allocator) (hp : v.priv = es ++ rest) (h : Q (.ok ()) { v with priv := rest }) :
    (connectorLogic hg).wp j (allocatorRelease es) v Q := by
  refine wp_withLock hg (by simp) hlt ?_
  refine wp_perform hg fun _ => ⟨⟨List.mem_cons_self, rest, hp⟩, ?_⟩
  rintro (r : Except Exn Unit) _ _ ⟨rfl, rfl⟩
  refine LocalLogic.wp_pure ⟨List.mem_cons_self, ?_⟩
  simpa [View.give, View.withLock, View.withoutLock, hp, diff_append_left] using h

theorem withoutLock_wf {m : Mutex} (h : v.WF g) : (v.withoutLock m).WF g :=
  have hsub : ∀ x ∈ (v.withoutLock m).locks, x ∈ v.locks := fun _ hx => List.mem_of_mem_erase hx
  ⟨fun q e hq => h.entry_ok q e (hsub _ hq), h.priv_owned, fun q p hq => h.priv_apart q p (hsub _ hq),
    fun q q' p hq hq' => h.entries_apart q q' p (hsub _ hq) (hsub _ hq'), h.state_unique, h.key_unique⟩

/-- `AllocateEntry` grants a well-formed entry or changes nothing. -/
theorem wp_allocateEntry {length : Nat} {Q : Except Exn Entry → View → Prop} (hlen : 0 < length)
    (hlt : ∀ m ∈ v.locks, m.lt .allocator) (herr : ∀ x, Q (.error x) v)
    (hok : ∀ e d, e.Ok g → e.logicalSize = length → (v.grant g e.extents d).WF g →
      Q (.ok e) (v.grant g e.extents d)) :
    (connectorLogic hg).wp j (allocateEntry g length) v Q := by
  refine wp_ofExcept hg (fun n hn => ?_) fun x _ => herr x
  refine LocalLogic.wp_bind (wp_withLock hg (by simp) hlt ?_)
  refine wp_perform hg fun _ => ⟨List.mem_cons_self, ?_⟩
  rintro (r : Except Exn (List PageExtent)) v' hwf hpost
  cases r with
  | error x =>
    obtain rfl : v' = v.withLock .allocator := hpost
    refine LocalLogic.wp_throw ⟨List.mem_cons_self, LocalLogic.wp_throw ?_⟩
    simpa using herr x
  | ok es =>
    obtain ⟨hsum, d, rfl⟩ : pageSum es = n ∧ ∃ d, v' = (v.withLock .allocator).grant g es d := hpost
    refine LocalLogic.wp_pure ⟨List.mem_cons_self, LocalLogic.wp_pure ?_⟩
    have hv : ((v.withLock .allocator).grant g es d).withoutLock .allocator = v.grant g es d := by
      simp [View.grant, View.withLock, View.withoutLock]
    rw [hv]
    refine hok ⟨length, es⟩ d (entry_ok hg hn hlen (hwf.priv_owned).of_append.2.1 hsum) rfl ?_
    rw [← hv]
    exact withoutLock_wf hwf

end SpdkConnector
