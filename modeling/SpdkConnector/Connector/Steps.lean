import SpdkConnector.Connector.View
import SpdkConnector.Interleaving.Logic

/-!
# Every command keeps the ownership invariant

One soundness lemma for each command (`lock_sound` … `read_sound`) and one for the step of the
specification (`commit_sound`), assembled into `connectorLogic`.
-/

namespace SpdkConnector

open Interleaving

/-- The command took the state to `s'`: the invariant holds again, the log only grew, the thread's new view is the one
`cmdPost` describes, and no other thread's view is disturbed. -/
def Sound (g : StorageGeometry) (t : Nat) (c : Cmd) (v : View) (s : Shared) (γ : Ghost) (r : Answer c)
    (s' : Shared) : Prop :=
  ∃ γ' v', (Inv g s' γ' ∧ γ.log <+: γ'.log) ∧ Sees g t v' s' γ' ∧ cmdPost g c v r v' ∧
    ∀ u w, u ≠ t → Sees g u w s γ → Sees g u w s' γ'

variable {g : StorageGeometry} {s s' : Shared} {γ : Ghost} {t : Nat} {v : View}

theorem owner_update_other {o : Mutex → Option Nat} {m : Mutex} {x : Option Nat} {u : Nat}
    (h : o m ≠ some u) (hx : x ≠ some u) (m' : Mutex) :
    Function.update o m x m' = some u ↔ o m' = some u := by
  by_cases e : m' = m
  · subst e; simp [h, hx]
  · rw [Function.update_of_ne e]

/-! ## Mutexes -/

/-- What taking a mutex does to the invariant. -/
theorem lock_inv (hi : Inv g s γ) (hv : Sees g t v s γ) {m : Mutex} (hfree : s.owner m = none)
    (hknown : ∀ q, m = .key q → ∃ k, (k, q) ∈ v.states) :
    Inv g { s with owner := Function.update s.owner m (some t) } γ := by
  have unowned : ∀ m', Function.update s.owner m (some t) m' = none → s.owner m' = none := fun m' h => by
    by_cases e : m' = m
    · subst e; simp at h
    · rwa [Function.update_of_ne e] at h
  exact { hi with
    unknown_state := fun q hq => by
      obtain ⟨h1, h2⟩ := hi.unknown_state q hq
      refine ⟨h1, ?_⟩
      have : Mutex.key q ≠ m := by
        rintro rfl
        obtain ⟨k, hk⟩ := hknown q rfl
        exact hq (List.mem_map.2 ⟨_, hv.states _ hk, rfl⟩)
      simpa [Function.update_of_ne this] using h2
    settled := fun k q hkq h => hi.settled k q hkq (unowned _ h) }

theorem lock_frame (hi : Inv g s γ) {m : Mutex} (hfree : s.owner m = none) {u : Nat} {w : View}
    (hu : u ≠ t) (hw : Sees g u w s γ) :
    Sees g u w { s with owner := Function.update s.owner m (some t) } γ :=
  hw.frame hi (owner_update_other (by simp [hfree]) (by simpa using hu.symm)) (fun _ h => h)
    (fun _ _ => rfl) (fun _ _ _ _ => rfl) rfl (fun _ _ => rfl) (fun _ _ => Iff.rfl)

theorem lock_owner (hv : Sees g t v s γ) (m m' : Mutex) :
    Function.update s.owner m (some t) m' = some t ↔ m' ∈ m :: v.locks := by
  by_cases e : m' = m
  · subst e; simp
  · simp [e, hv.owner]

theorem lock_not_mem (hv : Sees g t v s γ) {m : Mutex} (hfree : s.owner m = none) : m ∉ v.locks :=
  fun h => by
    have := (hv.owner m).2 h
    rw [hfree] at this; cases this

/-- A mutex that guards no entry. -/
theorem lock_plain (hv : Sees g t v s γ) {m : Mutex} (hm : ∀ q, m ≠ .key q)
    (hfree : s.owner m = none) :
    Sees g t (v.withLock m) { s with owner := Function.update s.owner m (some t) } γ := by
  have hkey : ∀ q, Mutex.key q ∈ (v.withLock m).locks → Mutex.key q ∈ v.locks := fun q h =>
    (List.mem_cons.1 h).resolve_left (hm q).symm
  refine ⟨lock_owner hv m, List.nodup_cons.2 ⟨lock_not_mem hv hfree, hv.locks_nodup⟩, hv.states,
    fun q h => hv.known q (hkey q h), fun q h => hv.entry q (hkey q h),
    fun k q hk h => hv.bound k q hk (hkey q h), hv.held, fun a ha => hv.mem a ?_, hv.fin⟩
  exact ha.imp id fun ⟨q, hq, h⟩ => ⟨q, hkey q hq, h⟩

/-- The entry, the binding and the bytes of the key state come into view. -/
theorem lock_key (hv : Sees g t v s γ) {q : Nat} (hknown : ∃ k, (k, q) ∈ v.states)
    (hfree : s.owner (.key q) = none) :
    Sees g t (v.acquire g q (s.entry q) s.dev γ.map)
      { s with owner := Function.update s.owner (.key q) (some t) } γ := by
  have hold : ∀ q', q' ≠ q → Mutex.key q' ∈ .key q :: v.locks → Mutex.key q' ∈ v.locks := fun q' e h =>
    (List.mem_cons.1 h).resolve_left (by simpa using e)
  refine ⟨lock_owner hv _, List.nodup_cons.2 ⟨lock_not_mem hv hfree, hv.locks_nodup⟩, hv.states,
    fun q' hq' => ?_, fun q' hq' => ?_, fun k q' hkq hq' => ?_, hv.held, fun a ha => ?_, hv.fin⟩
  · by_cases e : q' = q
    · subst e; exact hknown
    · exact hv.known q' (hold q' e hq')
  · by_cases e : q' = q
    · subst e; simp [View.acquire]
    · simpa [View.acquire, Function.update_of_ne e] using hv.entry q' (hold q' e hq')
  · by_cases e : (k, q) ∈ v.states
    · simp [View.acquire, e]
    · have hne : q' ≠ q := by rintro rfl; exact e hkq
      simpa [View.acquire, e] using hv.bound k q' hkq (hold q' hne hq')
  · by_cases hc : Covers (extentsOf (s.entry q)) (a / g.pageSize)
    · exact (onPages_mem hc).symm
    · refine Eq.trans (hv.mem a ?_) (onPages_not_mem hc).symm
      refine ha.imp id fun ⟨q', hq', h⟩ => ?_
      by_cases e : q' = q
      · subst e; exact (hc (by simpa [View.acquire] using h)).elim
      · exact ⟨q', hold q' e hq', by simpa [View.acquire, Function.update_of_ne e] using h⟩

theorem lock_settled (hg : g.Valid) (hi : Inv g s γ) (hv : Sees g t v s γ) {q : Nat}
    (hfree : s.owner (.key q) = none) : (v.acquire g q (s.entry q) s.dev γ.map).Settled g q := by
  intro k hk
  have hk' : (k, q) ∈ v.states := hk
  simp only [View.acquire, Function.update_self, if_pos hk', ← hi.settled k q (hv.states _ hk') hfree]
  exact map_contents_congr hg (hi.entry_ok q) fun a ha => onPages_mem ha

theorem lock_sound (hg : g.Valid) (hi : Inv g s γ) (hv : Sees g t v s γ) {m : Mutex}
    (hpre : cmdPre g (.lock m) v) (hfree : s.owner m = none) :
    Sound g t (.lock m) v s γ () { s with owner := Function.update s.owner m (some t) } := by
  have hi' := lock_inv hi hv hfree hpre.2
  have hframe := fun u w hu => lock_frame (t := t) (u := u) (w := w) hi hfree hu
  cases m with
  | key q =>
    exact ⟨γ, _, ⟨hi', List.prefix_rfl⟩, lock_key hv (hpre.2 q rfl) hfree, ⟨_, _, _, rfl, lock_settled hg hi hv hfree⟩, hframe⟩
  | keyStates => exact ⟨γ, _, ⟨hi', List.prefix_rfl⟩, lock_plain hv (by simp) hfree, rfl, hframe⟩
  | allocator => exact ⟨γ, _, ⟨hi', List.prefix_rfl⟩, lock_plain hv (by simp) hfree, rfl, hframe⟩

/-- A key state is left settled: its entry's bytes are the binding of its key. -/
theorem unlock_sound (hg : g.Valid) (hi : Inv g s γ) (hv : Sees g t v s γ) {m : Mutex}
    (hpre : cmdPre g (.unlock m) v) :
    Sound g t (.unlock m) v s γ () { s with owner := Function.update s.owner m none } := by
  have hmine : s.owner m = some t := (hv.owner m).2 hpre.1
  have hsub : ∀ m', m' ∈ v.locks.erase m → m' ∈ v.locks := fun m' h => List.mem_of_mem_erase h
  refine ⟨γ, v.withoutLock m, ⟨?_, List.prefix_rfl⟩, ?_, rfl, fun u w hu hw => hw.frame hi
    (owner_update_other (by simpa [hmine] using hu.symm) (by simp)) (fun _ h => h) (fun _ _ => rfl)
    (fun _ _ _ _ => rfl) rfl (fun _ _ => rfl) (fun _ _ => Iff.rfl)⟩
  · exact { hi with
      unknown_state := fun q hq => by
        obtain ⟨h1, h2⟩ := hi.unknown_state q hq
        refine ⟨h1, ?_⟩
        by_cases e : Mutex.key q = m
        · simp [e]
        · simpa [Function.update_of_ne e] using h2
      settled := fun k q hkq h => by
        by_cases e : Mutex.key q = m
        · obtain ⟨k', hk'⟩ := hv.known q (e ▸ hpre.1)
          obtain rfl := hi.key_unique (hv.states _ hk') hkq
          have hq : Mutex.key q ∈ v.locks := e ▸ hpre.1
          rw [hv.bound k' q hk' hq, ← hpre.2 q e.symm k' hk', hv.entry q hq]
          exact map_contents_congr hg (fun x hx => hi.entry_ok q x ((hv.entry q hq).trans hx))
            fun a ha => hv.mem a (.inr ⟨q, hq, ha⟩)
        · exact hi.settled k q hkq (by simpa [Function.update_of_ne e] using h) }
  · refine ⟨fun m' => ?_, hv.locks_nodup.erase m, hv.states, fun q h => hv.known q (hsub _ h),
      fun q h => hv.entry q (hsub _ h), fun k q hk h => hv.bound k q hk (hsub _ h), hv.held,
      fun a ha => hv.mem a (ha.imp id fun ⟨q, hq, h⟩ => ⟨q, hsub _ hq, h⟩), hv.fin⟩
    rw [View.withoutLock, hv.locks_nodup.mem_erase_iff, ← hv.owner]
    by_cases e : m' = m
    · subst e; simp
    · simp [e]

/-! ## Key states -/

theorem le_foldr_max : ∀ {l : List Nat} {x : Nat}, x ∈ l → x ≤ l.foldr max 0
  | y :: l, x, h => by
    rcases List.mem_cons.1 h with rfl | h
    · exact Nat.le_max_left _ _
    · exact Nat.le_trans (le_foldr_max h) (Nat.le_max_right _ _)

theorem freshState_not_mem (ks : List (Key × Nat)) (a : Nat) : freshState ks a ∉ ks.map Prod.snd := by
  unfold freshState
  split
  · intro h
    have := le_foldr_max h
    omega
  · assumption

theorem lookup_mem {k : Key} {q : Nat} : ∀ {ks : List (Key × Nat)}, ks.lookup k = some q → (k, q) ∈ ks
  | (k', q') :: ks, h => by
    rw [List.lookup_cons] at h
    by_cases e : k = k'
    · subst e
      simp at h
      subst h; simp
    · rw [beq_eq_false_iff_ne.2 e] at h
      exact List.mem_cons_of_mem _ (lookup_mem h)

theorem lookup_none {k : Key} : ∀ {ks : List (Key × Nat)}, ks.lookup k = none → k ∉ ks.map Prod.fst
  | [], _ => by simp
  | (k', q') :: ks, h => by
    rw [List.lookup_cons] at h
    by_cases e : k = k'
    · subst e; simp at h
    · rw [beq_eq_false_iff_ne.2 e] at h
      simpa [e] using lookup_none h

/-- A key state with its address comes into view. -/
theorem look_sees (hi : Inv g s' γ) (hv : Sees g t v s' γ) {k : Key} {q : Nat} (h : (k, q) ∈ s'.keyStates) :
    Sees g t { v with states := (k, q) :: v.states } s' γ := by
  refine ⟨hv.owner, hv.locks_nodup, fun x hx => ?_, fun q' hq' => ?_, hv.entry, fun k' q' hkq hq' => ?_, hv.held,
    hv.mem, hv.fin⟩
  · rcases List.mem_cons.1 hx with rfl | hx
    · exact h
    · exact hv.states x hx
  · obtain ⟨k', hk'⟩ := hv.known q' hq'
    exact ⟨k', List.mem_cons_of_mem _ hk'⟩
  · rcases List.mem_cons.1 hkq with e | hkq
    · cases e
      obtain ⟨k', hk'⟩ := hv.known q hq'
      obtain rfl := hi.key_unique (hv.states _ hk') h
      exact hv.bound k' q hk' hq'
    · exact hv.bound k' q' hkq hq'

theorem stateFor_sound (hi : Inv g s γ) (hv : Sees g t v s γ) {key : Key} {ch : Choice} {q : Nat}
    (he : exec g t (.stateFor key) ch s = some (q, s')) : Sound g t (.stateFor key) v s γ q s' := by
  simp only [exec] at he
  split at he
  · rename_i p hp
    cases he
    exact ⟨γ, _, ⟨hi, List.prefix_rfl⟩, look_sees hi hv (lookup_mem hp), rfl, fun _ _ _ h => h⟩
  · rename_i hp
    have hfresh := freshState_not_mem s.keyStates ch.address
    have hkey := lookup_none hp
    cases he
    generalize freshState s.keyStates ch.address = q at hfresh
    obtain ⟨h1, h2⟩ := hi.unknown_state q hfresh
    have hi' : Inv g { s with keyStates := (key, q) :: s.keyStates } γ := { hi with
      keys_nodup := List.nodup_cons.2 ⟨hkey, hi.keys_nodup⟩
      states_nodup := List.nodup_cons.2 ⟨hfresh, hi.states_nodup⟩
      unknown_key := fun k hk => hi.unknown_key k fun h => hk (List.mem_cons_of_mem _ h)
      unknown_state := fun q' hq' => hi.unknown_state q' fun h => hq' (List.mem_cons_of_mem _ h)
      settled := fun k q' hkq ho => by
        rcases List.mem_cons.1 hkq with e | hkq
        · cases e
          simp only [h1, Option.map_none, hi.unknown_key key hkey]
        · exact hi.settled k q' hkq ho }
    have frame : ∀ u w, Sees g u w s γ → Sees g u w { s with keyStates := (key, q) :: s.keyStates } γ :=
      fun u w hw => hw.frame hi (fun _ => Iff.rfl) (fun x hx => List.mem_cons_of_mem _ hx) (fun _ _ => rfl)
        (fun _ _ _ _ => rfl) rfl (fun _ _ => rfl) (fun _ _ => Iff.rfl)
    exact ⟨γ, _, ⟨hi', List.prefix_rfl⟩, look_sees hi' (frame t v hv) (by simp), rfl, fun u w _ => frame u w⟩

/-! ## Entries -/

open Classical in
/-- `setEntry`: the new extents go from the thread to the entry, the old ones the other way. -/
noncomputable def swapPages (t q : Nat) (new : List PageExtent) (page : Nat → PageOwner) : Nat → PageOwner :=
  fun p => if Covers new p then .entry q else if page p = .entry q then .task t else page p

theorem setEntry_sound (hi : Inv g s γ) (hv : Sees g t v s γ) {q : Nat} {e : Option Entry}
    (hpre : cmdPre g (.setEntry q e) v) : Sound g t (.setEntry q e) v s γ () { s with
      entry := Function.update s.entry q e
      held := Function.update s.held t ((s.held t).diff (extentsOf e) ++ extentsOf (s.entry q)) } := by
  obtain ⟨hq, hok, rest, hpriv⟩ := hpre
  have hmine : s.owner (.key q) = some t := (hv.owner _).2 hq
  have hheld : s.held t = extentsOf e ++ rest := hv.held.trans hpriv
  have hdiff : (s.held t).diff (extentsOf e) = rest := by rw [hheld, diff_append_left]
  obtain ⟨hnew, hrest, hsep⟩ := (hheld ▸ hi.held_owned t).of_append
  have hpage : ∀ p, Covers (extentsOf e) p → p < g.pageCount ∧ γ.page p = .task t := fun p hp =>
    (hi.held_page t p).1 (by rw [hheld]; simp [hp])
  have hrestp : ∀ p, Covers rest p ↔ p < g.pageCount ∧ γ.page p = .task t ∧ ¬ Covers (extentsOf e) p := fun p => by
    have := hi.held_page t p
    rw [hheld, covers_append] at this
    constructor
    · intro h; exact ⟨(this.1 (.inr h)).1, (this.1 (.inr h)).2, fun h' => hsep p ⟨h', h⟩⟩
    · rintro ⟨h1, h2, h3⟩; exact (this.2 ⟨h1, h2⟩).resolve_left h3
  refine ⟨{ γ with page := swapPages t q (extentsOf e) γ.page }, v.publish q e, ⟨?_, List.prefix_rfl⟩, ?_, rfl, ?_⟩
  · refine { hi with
      free_page := fun p => ?_, entry_page := fun q' p => ?_, held_page := fun u p => ?_, held_owned := fun u => ?_,
      entry_ok := fun q' x hx => ?_, unknown_state := fun q' hq' => ?_, settled := fun k q' hkq ho => ?_ }
    · rw [hi.free_page p]
      unfold swapPages
      by_cases hc : Covers (extentsOf e) p
      · simp [hc, (hpage p hc).2]
      · by_cases hp : γ.page p = .entry q <;> simp [hc, hp]
    · by_cases eq : q' = q
      · subst eq
        simp only [Function.update_self, swapPages]
        by_cases hc : Covers (extentsOf e) p
        · simp [hc, (hpage p hc).1]
        · by_cases hp : γ.page p = .entry q' <;> simp [hc, hp]
      · simp only [Function.update_of_ne eq, hi.entry_page q' p, swapPages]
        by_cases hc : Covers (extentsOf e) p
        · simp [hc, (hpage p hc).2, Ne.symm eq]
        · by_cases hp : γ.page p = .entry q <;> simp [hc, hp, Ne.symm eq]
    · by_cases eu : u = t
      · subst eu
        simp only [Function.update_self, hdiff, covers_append, hrestp, hi.entry_page, swapPages]
        by_cases hc : Covers (extentsOf e) p
        · simp [hc, (hpage p hc).2]
        · by_cases hp : γ.page p = .entry q <;> simp [hc, hp]
      · simp only [Function.update_of_ne eu, hi.held_page u p, swapPages]
        by_cases hc : Covers (extentsOf e) p
        · simp [hc, (hpage p hc).2, Ne.symm eu]
        · by_cases hp : γ.page p = .entry q <;> simp [hc, hp, Ne.symm eu]
    · by_cases eu : u = t
      · subst eu
        simp only [Function.update_self, hdiff]
        refine hrest.append (hi.extents_owned q) fun p hp => ?_
        have h1 := ((hrestp p).1 hp.1).2.1
        have h2 := ((hi.entry_page q p).1 hp.2).2
        rw [h1] at h2; cases h2
      · simpa [Function.update_of_ne eu] using hi.held_owned u
    · by_cases eq : q' = q
      · subst eq; exact hok x (by simpa using hx)
      · exact hi.entry_ok q' x (by simpa [Function.update_of_ne eq] using hx)
    · have eq : q' ≠ q := by
        rintro rfl
        have := (hi.unknown_state q' hq').2
        rw [hmine] at this; cases this
      simpa [Function.update_of_ne eq] using hi.unknown_state q' hq'
    · have eq : q' ≠ q := by
        rintro rfl
        rw [show s.owner (.key q') = none from ho] at hmine; cases hmine
      simpa [Function.update_of_ne eq] using hi.settled k q' hkq ho
  · refine ⟨hv.owner, hv.locks_nodup, hv.states, hv.known, fun q' hq' => ?_, hv.bound, ?_, fun a ha => ?_, hv.fin⟩
    · by_cases eq : q' = q
      · subst eq; simp [View.publish]
      · simpa [View.publish, Function.update_of_ne eq] using hv.entry q' hq'
    · simp [View.publish, hv.held, hv.entry q hq]
    · refine hv.mem a ?_
      rcases ha with h | ⟨q', hq', h⟩
      · simp only [View.publish, hpriv, diff_append_left, covers_append] at h
        rcases h with h | h
        · exact .inl (by rw [hpriv]; simp [h])
        · exact .inr ⟨q, hq, h⟩
      · by_cases eq : q' = q
        · subst eq
          simp only [View.publish, Function.update_self] at h
          exact .inl (by rw [hpriv]; simp [h])
        · exact .inr ⟨q', hq', by simpa [View.publish, Function.update_of_ne eq] using h⟩
  · intro u w hu hw
    refine hw.frame hi (fun _ => Iff.rfl) (fun _ h => h) (fun q' hq' => ?_) (fun _ _ _ _ => rfl) ?_ (fun _ _ => rfl)
      (fun _ _ => Iff.rfl)
    · have eq : q' ≠ q := by rintro rfl; rw [hmine] at hq'; exact hu (Option.some.inj hq').symm
      simp [Function.update_of_ne eq]
    · simp [Function.update_of_ne hu]

/-! ## The allocator -/

open Classical in
noncomputable def movePages (es : List PageExtent) (o : PageOwner) (page : Nat → PageOwner) : Nat → PageOwner :=
  fun p => if Covers es p then o else page p

theorem allocate_sound (hi : Inv g s γ) (hv : Sees g t v s γ) {n : Nat} {ch : Choice}
    {r : Except Exn (List PageExtent)} (he : exec g t (.allocate n) ch s = some (r, s')) :
    Sound g t (.allocate n) v s γ r s' := by
  rcases allocate_spec hi.alloc n with ⟨x, hx, -⟩ | ⟨es, a', hx, -, -, hal⟩
  · simp only [exec, hx] at he
    cases he
    exact ⟨γ, v, ⟨hi, List.prefix_rfl⟩, hv, rfl, fun _ _ _ h => h⟩
  · simp only [exec, hx] at he
    cases he
    have hfree : ∀ p, Covers es p → p < g.pageCount ∧ γ.page p = .free := fun p hp =>
      (hi.free_page p).1 ((hal.split p).2 (.inl hp))
    have howned : Owned g.pageCount es := hi.total ▸ hal.owned
    refine ⟨{ γ with page := movePages es (.task t) γ.page }, v.grant g es s.dev, ⟨?_, List.prefix_rfl⟩, ?_,
      ⟨hal.sum, _, rfl⟩, ?_⟩
    · refine { hi with
        alloc := hal.wf, total := hal.total.trans hi.total, free_page := fun p => ?_, entry_page := fun q p => ?_,
        held_page := fun u p => ?_, held_owned := fun u => ?_ }
      · simp only [movePages]
        by_cases hc : Covers es p
        · have := hal.fresh p
          simp only [hc, true_and] at this
          simp [hc, this]
        · have := hal.split p
          simp only [hc, false_or] at this
          simp [hc, ← this, hi.free_page]
      · rw [hi.entry_page q p]
        by_cases hc : Covers es p <;> simp [movePages, hc, fun h => (hfree p h).2]
      · by_cases eu : u = t
        · subst eu
          simp only [Function.update_self, covers_append, hi.held_page, movePages]
          by_cases hc : Covers es p
          · simp [hc, (hfree p hc).1]
          · simp [hc]
        · simp only [Function.update_of_ne eu, hi.held_page u p, movePages]
          by_cases hc : Covers es p
          · simp [hc, (hfree p hc).2, Ne.symm eu]
          · simp [hc]
      · by_cases eu : u = t
        · subst eu
          simp only [Function.update_self]
          refine (hi.held_owned u).append howned fun p hp => ?_
          have h1 := ((hi.held_page u p).1 hp.1).2
          rw [(hfree p hp.2).2] at h1; cases h1
        · simpa [Function.update_of_ne eu] using hi.held_owned u
    · refine ⟨hv.owner, hv.locks_nodup, hv.states, hv.known, hv.entry, hv.bound, ?_, fun a ha => ?_, hv.fin⟩
      · simp [View.grant, hv.held]
      · by_cases hc : Covers es (a / g.pageSize)
        · exact (onPages_mem hc).symm
        · refine Eq.trans (hv.mem a ?_) (onPages_not_mem hc).symm
          refine ha.imp (fun h => ?_) id
          simp only [View.grant, covers_append] at h
          exact h.resolve_right hc
    · intro u w hu hw
      exact hw.frame hi (fun _ => Iff.rfl) (fun _ h => h) (fun _ _ => rfl) (fun _ _ _ _ => rfl)
        (by simp [Function.update_of_ne hu]) (fun _ _ => rfl) (fun _ _ => Iff.rfl)

/-- What a thread releases was its own, so the allocator accepts it. -/
theorem release_accepted (hi : Inv g s γ) (hv : Sees g t v s γ) {es : List PageExtent}
    (hpre : cmdPre g (.release es) v) :
    ∃ a', s.allocator.release es = (.ok (), a') ∧ Released s.allocator es a' := by
  obtain ⟨-, rest, hpriv⟩ := hpre
  have hheld : s.held t = es ++ rest := hv.held.trans hpriv
  refine release_spec hi.alloc (hi.total ▸ (hheld ▸ hi.held_owned t).of_append.1) fun p hp => ?_
  have h1 := ((hi.held_page t p).1 (by rw [hheld]; simp [hp.1])).2
  rw [((hi.free_page p).1 hp.2).2] at h1; cases h1

theorem release_sound (hi : Inv g s γ) (hv : Sees g t v s γ) {es : List PageExtent} {ch : Choice}
    {r : Except Exn Unit} (hpre : cmdPre g (.release es) v)
    (he : exec g t (.release es) ch s = some (r, s')) : Sound g t (.release es) v s γ r s' := by
  obtain ⟨a', ha, hrel⟩ := release_accepted hi hv hpre
  obtain ⟨-, rest, hpriv⟩ := hpre
  simp only [exec, ha] at he
  cases he
  have hheld : s.held t = es ++ rest := hv.held.trans hpriv
  have hdiff : (s.held t).diff es = rest := by rw [hheld, diff_append_left]
  obtain ⟨hes, hrest, hsep⟩ := (hheld ▸ hi.held_owned t).of_append
  have hpage : ∀ p, Covers es p → p < g.pageCount ∧ γ.page p = .task t := fun p hp =>
    (hi.held_page t p).1 (by rw [hheld]; simp [hp])
  refine ⟨{ γ with page := movePages es .free γ.page }, v.give es, ⟨?_, List.prefix_rfl⟩, ?_, ⟨rfl, rfl⟩, ?_⟩
  · refine { hi with
      alloc := hrel.wf, total := hrel.total.trans hi.total, free_page := fun p => ?_, entry_page := fun q p => ?_,
      held_page := fun u p => ?_, held_owned := fun u => ?_ }
    · rw [hrel.covers, hi.free_page]
      by_cases hc : Covers es p
      · simp [movePages, hc, (hpage p hc).1]
      · simp [movePages, hc]
    · rw [hi.entry_page q p]
      by_cases hc : Covers es p
      · simp [movePages, hc, (hpage p hc).2]
      · simp [movePages, hc]
    · by_cases eu : u = t
      · subst eu
        have := hi.held_page u p
        rw [hheld, covers_append] at this
        simp only [Function.update_self, hdiff, movePages]
        by_cases hc : Covers es p
        · have hno : ¬ Covers rest p := fun h => hsep p ⟨hc, h⟩
          simp [hc, hno]
        · simpa [hc] using this
      · simp only [Function.update_of_ne eu, hi.held_page u p, movePages]
        by_cases hc : Covers es p
        · simp [hc, (hpage p hc).2, Ne.symm eu]
        · simp [hc]
    · by_cases eu : u = t
      · subst eu; simpa [hdiff] using hrest
      · simpa [Function.update_of_ne eu] using hi.held_owned u
  · refine ⟨hv.owner, hv.locks_nodup, hv.states, hv.known, hv.entry, hv.bound, ?_, fun a ha => hv.mem a ?_, hv.fin⟩
    · simp [View.give, hv.held]
    · refine ha.imp (fun h => ?_) id
      simp only [View.give, hpriv, diff_append_left] at h
      rw [hpriv]; simp [h]
  · intro u w hu hw
    exact hw.frame hi (fun _ => Iff.rfl) (fun _ h => h) (fun _ _ => rfl) (fun _ _ _ _ => rfl)
      (by simp [Function.update_of_ne hu]) (fun _ _ => rfl) (fun _ _ => Iff.rfl)

/-! ## Transfers -/

/-- The blocks of an accepted item are its byte range. -/
theorem inBlocks_iff (hg : g.Valid) {it : IoBatchItem} (h : it.Ok g) {a : Nat} :
    blockOffset g it * g.blockSize = it.byteOffset ∧ (InBlocks g it a ↔ InRange it a) := by
  have hdvd : g.blockSize ∣ g.pageSize := ⟨g.writeUnitBlocks, hg.pageSize_eq⟩
  have h1 : blockOffset g it * g.blockSize = it.byteOffset :=
    Nat.div_mul_cancel (Nat.dvd_trans hdvd (Nat.dvd_of_mod_eq_zero h.offset_aligned))
  have h2 : blockCount g it * g.blockSize = it.physicalLength :=
    Nat.div_mul_cancel (Nat.dvd_trans hdvd (Nat.dvd_of_mod_eq_zero h.physical_aligned))
  exact ⟨h1, by rw [InBlocks, InRange, Nat.add_mul, h1, h2]⟩

theorem write_sound (hg : g.Valid) (hi : Inv g s γ) (hv : Sees g t v s γ) {it : IoBatchItem}
    {staged : Bytes} {ch : Choice} (hpre : cmdPre g (.writeSegment it staged) v) :
    Sound g t (.writeSegment it staged) v s γ (ioResult ch)
      { s with dev := writeBlocks g it staged ch.success ch.noise s.dev } := by
  obtain ⟨hok, hlen, hrange⟩ := hpre
  have hin : ∀ a, InBlocks g it a ↔ InRange it a := fun a => (inBlocks_iff hg hok).2
  have hoff := (inBlocks_iff hg hok (a := 0)).1
  have hpage : ∀ a, InRange it a → γ.page (a / g.pageSize) = .task t := fun a ha =>
    ((hi.held_page t _).1 (by rw [hv.held]; exact hrange a ha)).2
  have houter : ∀ a, γ.page (a / g.pageSize) ≠ .task t →
      writeBlocks g it staged ch.success ch.noise s.dev a = s.dev a := fun a ha =>
    if_neg fun h => ha (hpage a ((hin a).1 h))
  refine ⟨γ, v.written it (writeBlocks g it staged ch.success ch.noise s.dev), ⟨?_, List.prefix_rfl⟩, ?_,
    ⟨_, rfl, ?_⟩, ?_⟩
  · refine { hi with settled := fun k q hkq ho => ?_ }
    rw [← hi.settled k q hkq ho]
    refine map_contents_congr hg (hi.entry_ok q) fun a ha => houter a ?_
    rw [((hi.entry_page q _).1 ha).2]; simp
  · refine ⟨hv.owner, hv.locks_nodup, hv.states, hv.known, hv.entry, hv.bound, hv.held, fun a ha => ?_, hv.fin⟩
    by_cases hr : InRange it a
    · exact (if_pos hr).symm
    · refine Eq.trans ?_ (if_neg hr).symm
      exact (if_neg fun h => hr ((hin a).1 h)).trans (hv.mem a ha)
  · intro hs k hk
    have hr : InBlocks g it (it.byteOffset + k) := (hin _).2 ⟨Nat.le_add_right _ _, Nat.add_lt_add_left hk _⟩
    have hs' : ch.success = true := hs
    simp only [writeBlocks, if_pos hr, hs', if_true, hoff, Nat.add_sub_cancel_left]
  · intro u w hu hw
    refine hw.frame hi (fun _ => Iff.rfl) (fun _ h => h) (fun _ _ => rfl) (fun _ _ _ _ => rfl) rfl
      (fun a ha => houter a ?_) (fun _ _ => Iff.rfl)
    rcases ha with h | ⟨q, h, -⟩ <;> rw [h] <;> simp [hu]

theorem read_sound (hg : g.Valid) (hi : Inv g s γ) (hv : Sees g t v s γ) {it : IoBatchItem} {ch : Choice}
    (hpre : cmdPre g (.readSegment it) v) :
    Sound g t (.readSegment it) v s γ (ioResult ch, readBlocks g it s.dev) s := by
  refine ⟨γ, v, ⟨hi, List.prefix_rfl⟩, hv, ⟨?_, rfl⟩, fun _ _ _ h => h⟩
  refine List.map_congr_left fun k hk => ?_
  have hk' : k < it.physicalLength := Nat.lt_of_lt_of_le (List.mem_range.1 hk) hpre.1.logical_le
  rw [(inBlocks_iff hg hpre.1 (a := 0)).1]
  exact hv.mem _ (hpre.2 _ ⟨Nat.le_add_right _ _, Nat.add_lt_add_left hk' _⟩)

/-! ## The step of the specification -/

/-- **Commit**: a thread that holds its keys takes the map's step. -/
theorem commit_sound {c : Call} {v' : View} (hi : Inv g s γ) (hv : Sees g t v s γ) (h : commit c v v') :
    ∃ γ', (Inv g s γ' ∧ γ.log <+: γ'.log) ∧ Sees g t v' s γ' ∧ ∀ u w, u ≠ t → Sees g u w s γ → Sees g u w s γ' := by
  obtain ⟨hfin, o, hal, hkeys, rfl⟩ := h
  have hbound : ∀ k ∈ c.keys, v.bound k = γ.map k := fun k hk => by
    obtain ⟨q, hkq, hq⟩ := hkeys k hk
    exact (hv.bound k q hkq hq).symm
  have hal' : c.Allows γ.map o := allows_congr hbound hal
  have hnew : ∀ c o, (t, c, o) ∉ γ.log := fun c o h => by
    have := (hv.fin c o).1 h
    rw [hfin] at this; cases this
  refine ⟨{ γ with map := c.effect γ.map o, log := γ.log ++ [(t, c, o)] }, ⟨?_, List.prefix_append _ _⟩, ?_, ?_⟩
  · refine { hi with unknown_key := fun k hk => ?_, settled := fun k q hkq ho => ?_, replays := ?_, names := ?_ }
    · refine (effect_frame hal' fun h => ?_).trans (hi.unknown_key k hk)
      obtain ⟨q, hkq, -⟩ := hkeys k h
      exact hk (List.mem_map.2 ⟨_, hv.states _ hkq, rfl⟩)
    · refine (hi.settled k q hkq ho).trans (effect_frame hal' fun h => ?_).symm
      obtain ⟨q', hkq', hq'⟩ := hkeys k h
      obtain rfl := hi.state_unique hkq (hv.states _ hkq')
      rw [(hv.owner _).2 hq'] at ho; cases ho
    · exact replays_append.2 ⟨γ.map, hi.replays, hal', rfl⟩
    · rw [List.map_append]
      refine List.nodup_append.2 ⟨hi.names, by simp, fun a ha b hb => ?_⟩
      obtain ⟨⟨u, c', o'⟩, hm, rfl⟩ := List.mem_map.1 ha
      rw [List.mem_singleton.1 hb]
      rintro rfl
      exact hnew c' o' hm
  · refine { hv with bound := fun k q hkq hq => ?_, fin := fun c' o' => ?_ }
    · exact effect_congr hal' (fun x hx => (hbound x hx).symm) (hv.bound k q hkq hq)
    · simp only [List.mem_append, List.mem_singleton, Prod.mk.injEq, true_and, Option.some.injEq]
      constructor
      · rintro (h | ⟨rfl, rfl⟩)
        · exact (hnew _ _ h).elim
        · exact ⟨rfl, rfl⟩
      · rintro ⟨rfl, rfl⟩; exact .inr ⟨rfl, rfl⟩
  · intro u w hu hw
    refine hw.frame hi (fun _ => Iff.rfl) (fun _ h => h) (fun _ _ => rfl) (fun k q hkq ho => ?_) rfl (fun _ _ => rfl)
      (fun c' o' => ?_)
    · refine effect_frame hal' fun h => ?_
      obtain ⟨q', hkq', hq'⟩ := hkeys k h
      obtain rfl := hi.state_unique hkq (hv.states _ hkq')
      rw [(hv.owner _).2 hq'] at ho
      exact hu (Option.some.inj ho).symm
    · simp [hu]

/-! ## The logic -/

theorem exec_sound (hg : g.Valid) (hi : Inv g s γ) (hv : Sees g t v s γ) {c : Cmd} {ch : Choice}
    {r : Answer c} (hpre : cmdPre g c v) (he : exec g t c ch s = some (r, s')) : Sound g t c v s γ r s' := by
  cases c with
  | lock m =>
    simp only [exec] at he
    split at he
    · rename_i hfree; cases he; exact lock_sound hg hi hv hpre hfree
    · cases he
  | unlock m =>
    simp only [exec] at he
    split at he
    · cases he; exact unlock_sound hg hi hv hpre
    · cases he
  | stateFor key => exact stateFor_sound hi hv he
  | getEntry q => cases he; exact ⟨γ, v, ⟨hi, List.prefix_rfl⟩, hv, ⟨hv.entry q hpre, rfl⟩, fun _ _ _ h => h⟩
  | setEntry q e => cases he; exact setEntry_sound hi hv hpre
  | allocate n => exact allocate_sound hi hv he
  | release es => exact release_sound hi hv hpre he
  | enqueue =>
    simp only [exec] at he
    split at he <;> cases he <;> exact ⟨γ, v, ⟨hi, List.prefix_rfl⟩, hv, rfl, fun _ _ _ h => h⟩
  | pick n =>
    cases he
    exact ⟨γ, v, ⟨hi, List.prefix_rfl⟩, hv, ⟨fun h => Nat.mod_lt _ h, rfl⟩, fun _ _ _ h => h⟩
  | writeSegment it staged => cases he; exact write_sound hg hi hv hpre
  | readSegment it => cases he; exact read_sound hg hi hv hpre

/-- No command counts the call. -/
theorem post_fin {c : Cmd} {r : Answer c} {v' : View} (h : cmdPost g c v r v') : v'.fin = v.fin := by
  cases c with
  | lock m =>
    cases m with
    | key q => obtain ⟨e, d, b, rfl, -⟩ := h; rfl
    | keyStates => cases h; rfl
    | allocator => cases h; rfl
  | getEntry q => obtain ⟨-, rfl⟩ := h; rfl
  | allocate n =>
    simp only [cmdPost] at h
    split at h
    · obtain ⟨-, d, rfl⟩ := h; rfl
    · rw [h]
  | release es => obtain ⟨-, rfl⟩ := h; rfl
  | pick n => obtain ⟨-, rfl⟩ := h; rfl
  | writeSegment it staged => obtain ⟨d, rfl, -⟩ := h; rfl
  | readSegment it => obtain ⟨-, rfl⟩ := h; rfl
  | unlock m => cases h; rfl
  | stateFor key => cases h; rfl
  | setEntry q e => cases h; rfl
  | enqueue => cases h; rfl

/-- The logic of connector threads. -/
def connectorLogic (hg : g.Valid) : LocalLogic (connector g) Ghost View where
  inv := Inv g
  view := Sees g
  wf := View.WF g
  ghost := commit
  pre := cmdPre g
  post := cmdPost g
  grows γ γ' := γ.log <+: γ'.log
  grows_refl _ := List.prefix_rfl
  grows_trans h h' := h.trans h'
  always c v := ∀ c' o, v.fin = some (c', o) → c' = c
  always_ghost _ h := by
    obtain ⟨_, o, -, -, rfl⟩ := h
    rintro c' o' ⟨⟩
    rfl
  always_post ha h := post_fin h ▸ ha
  view_wf hi hv := hv.wf hi
  ghost_sound hi hv h := commit_sound hi hv h
  step_sound hi hv hpre he := exec_sound hg hi hv hpre he

theorem wp_perform (hg : g.Valid) {j : Call} {α : Type} {c : Cmd} {f : Answer c → P α} {v : View}
    {Q : Except Exn α → View → Prop} (h : v.WF g → cmdPre g c v ∧ ∀ r v', v'.WF g → cmdPost g c v r v' →
      (connectorLogic hg).wp j (f r) v' Q) : (connectorLogic hg).wp j (perform c >>= f) v Q :=
  LocalLogic.wp_call h

end SpdkConnector
