import SpdkConnector.Connector.Accounts
import SpdkConnector.Connector.Pages

/-!
# A call that runs alone

What the log of a call does to the shared state when no other thread moves, in any reachable state: the
entries it binds, the mutexes and pages of the other threads it leaves alone, the keys it looks up. When it
returns, the map has taken the call's step, and a key state the call held holds the map's bytes.
-/

namespace SpdkConnector

open Interleaving

variable {g : StorageGeometry} {t : Nat} {s s' : Shared} {ℓ : Log}

/-- The entry of a key. -/
def entryOf (s : Shared) (key : Key) : Option Entry := (s.keyStates.lookup key).bind s.entry

/-! ## One command -/

/-- What thread `t` leaves alone: the pages and mutexes of the others, and the keys already looked up. -/
structure Framed (t : Nat) (s s' : Shared) : Prop where
  held : ∀ u, u ≠ t → s'.held u = s.held u
  owner : ∀ u m, u ≠ t → (s'.owner m = some u ↔ s.owner m = some u)
  lookup : ∀ k q, s.keyStates.lookup k = some q → s'.keyStates.lookup k = some q
  states : ∀ x ∈ s.keyStates, x ∈ s'.keyStates

theorem Framed.refl (t : Nat) (s : Shared) : Framed t s s :=
  ⟨fun _ _ => rfl, fun _ _ _ => Iff.rfl, fun _ _ h => h, fun _ h => h⟩

theorem Framed.trans {s1 : Shared} (h : Framed t s s1) (h' : Framed t s1 s') : Framed t s s' where
  held u hu := (h'.held u hu).trans (h.held u hu)
  owner u m hu := (h'.owner u m hu).trans (h.owner u m hu)
  lookup k q hk := h'.lookup k q (h.lookup k q hk)
  states x hx := h'.states x (h.states x hx)

theorem exec_frame {c : Cmd} {ch : Choice} {r : Answer c} (h : exec g t c ch s = some (r, s')) :
    Framed t s s' := by
  have same := Framed.refl t s
  have owners : ∀ {m : Mutex} {o : Option Nat}, (∀ u, u ≠ t → s.owner m ≠ some u) → (∀ u, u ≠ t → o ≠ some u) →
      ∀ u m', u ≠ t → (Function.update s.owner m o m' = some u ↔ s.owner m' = some u) := by
    intro m o h1 h2 u m' hu
    by_cases hm : m' = m
    · subst hm
      simp [h1 u hu, h2 u hu]
    · rw [Function.update_of_ne hm]
  have helds : ∀ (es : List PageExtent) u, u ≠ t → Function.update s.held t es u = s.held u :=
    fun es u hu => Function.update_of_ne hu _ _
  cases c with
  | lock m =>
    simp only [exec] at h
    split at h
    · rename_i hfree
      cases h
      exact { same with owner := owners (fun u _ => by rw [hfree]; simp) fun u hu hc => hu (Option.some.inj hc).symm }
    · cases h
  | unlock m =>
    simp only [exec] at h
    split at h
    · rename_i hmine
      cases h
      exact { same with owner := owners (fun u hu hc => hu (Option.some.inj (hmine.symm.trans hc)).symm) (by simp) }
    · cases h
  | stateFor key =>
    simp only [exec] at h
    split at h
    · cases h
      exact same
    · rename_i hnew
      cases h
      refine { same with lookup := fun k q hk => ?_, states := fun x hx => List.mem_cons_of_mem _ hx }
      have hne : (k == key) = false := by
        by_contra hc
        simp only [Bool.not_eq_false, beq_iff_eq] at hc
        rw [hc, hnew] at hk
        cases hk
      simp only [List.lookup_cons, hne]
      exact hk
  | getEntry q =>
    cases h
    exact same
  | setEntry q e =>
    cases h
    exact { same with held := helds _ }
  | allocate n =>
    simp only [exec] at h
    split at h
    · cases h
      exact { same with held := helds _ }
    · cases h
      exact { same with held := same.held }
  | release es =>
    simp only [exec] at h
    split at h
    · cases h
      exact { same with held := helds _ }
    · cases h
      exact { same with held := same.held }
  | enqueue =>
    simp only [exec] at h
    split at h
    · cases h
      exact same
    · cases h
      exact same
  | pick n =>
    cases h
    exact same
  | writeSegment it staged =>
    cases h
    exact { same with held := same.held }
  | readSegment it =>
    cases h
    exact same

/-- Only one command changes an entry. -/
theorem exec_entry {c : Cmd} {ch : Choice} {r : Answer c} (h : exec g t c ch s = some (r, s')) :
    s'.entry = (bindings [⟨c, r⟩]).foldl (fun f x => Function.update f x.1 x.2) s.entry := by
  cases c with
  | setEntry q e =>
    cases h
    rfl
  | getEntry q | pick n | readSegment it | writeSegment it staged =>
    cases h
    rfl
  | lock m | unlock m | allocate n | release es | enqueue | stateFor key =>
    simp only [exec] at h
    split at h <;> cases h <;> rfl

/-! ## A log alone -/

theorem execs_frame (h : Execs (connector g) t s ℓ s') : Framed t s s' := by
  induction h with
  | done s => exact .refl t s
  | step he _ ih => exact (exec_frame he).trans ih

theorem execs_entry (h : Execs (connector g) t s ℓ s') :
    s'.entry = (bindings ℓ).foldl (fun f x => Function.update f x.1 x.2) s.entry := by
  induction h with
  | done s => rfl
  | step he _ ih =>
    rw [ih, exec_entry he, ← List.foldl_append, ← bindings_append]
    rfl

/-- Before it binds an entry, a call sees the entries as they were. -/
theorem execs_looked (h : Execs (connector g) t s ℓ s') (hb : bindings ℓ = []) :
    ∀ x ∈ looked ℓ, x.2 = s.entry x.1 := by
  induction h with
  | done s => nofun
  | @step s c ch r s1 ℓ s' he hr ih =>
    have hsplit : bindings [⟨c, r⟩] ++ bindings ℓ = [] := by
      rw [← bindings_append]
      exact hb
    obtain ⟨h1, h2⟩ := List.append_eq_nil_iff.1 hsplit
    have hent := exec_entry he
    rw [h1] at hent
    intro x hx
    rcases List.mem_append.1 (show x ∈ looked [⟨c, r⟩] ++ looked ℓ by rw [← looked_append]; exact hx) with hx | hx
    · cases c with
      | getEntry q =>
        cases he
        rw [List.mem_singleton.1 hx]
      | _ => cases hx
    · rw [ih h2 x hx, hent]
      rfl

/-- A mutex the call takes is nobody else's. -/
theorem execs_lock (h : Execs (connector g) t s ℓ s') {m : Mutex}
    (hm : (⟨.lock m, ()⟩ : Event Cmd Answer) ∈ ℓ) {u : Nat} (hu : u ≠ t) : s.owner m ≠ some u := by
  induction h with
  | done s => cases hm
  | @step s c ch r s1 ℓ s' he hr ih =>
    rcases List.mem_cons.1 hm with hm | hm
    · cases hm
      simp only [connector, exec] at he
      split at he
      · rename_i hfree
        rw [hfree]
        simp
      · cases he
    · intro ho
      exact ih hm (((exec_frame he).owner u m hu).2 ho)

/-- A key the call looks up has that state from then on. -/
theorem execs_stateFor (h : Execs (connector g) t s ℓ s') {k : Key} {q : Nat}
    (hm : (⟨.stateFor k, q⟩ : Event Cmd Answer) ∈ ℓ) : s'.keyStates.lookup k = some q := by
  induction h with
  | done s => cases hm
  | @step s c ch r s1 ℓ s' he hr ih =>
    rcases List.mem_cons.1 hm with hm | hm
    · cases hm
      apply (execs_frame hr).lookup
      simp only [connector, exec] at he
      split at he
      · rename_i p hp
        cases he
        exact hp
      · cases he
        simp
    · exact ih hm

/-- A command adds at most one key, with a state no key had. -/
theorem exec_states {c : Cmd} {ch : Choice} {r : Answer c} (h : exec g t c ch s = some (r, s')) :
    s'.keyStates = s.keyStates ∨
    ∃ k q, s.keyStates.lookup k = none ∧ q ∉ s.keyStates.map Prod.snd ∧ s'.keyStates = (k, q) :: s.keyStates := by
  cases c with
  | stateFor key =>
    simp only [exec] at h
    split at h
    · cases h
      exact .inl rfl
    · rename_i hnew
      cases h
      exact .inr ⟨key, _, hnew, freshState_not_mem _ _, rfl⟩
  | setEntry q e | getEntry q | pick n | readSegment it | writeSegment it staged =>
    cases h
    exact .inl rfl
  | lock m | unlock m | allocate n | release es | enqueue =>
    simp only [exec] at h
    split at h <;> cases h <;> exact .inl rfl

/-- A key's state after the log is its state before, or one that was no key's. -/
theorem execs_lookup (h : Execs (connector g) t s ℓ s') {k : Key} {q : Nat}
    (hk : s'.keyStates.lookup k = some q) :
    s.keyStates.lookup k = some q ∨ s.keyStates.lookup k = none ∧ q ∉ s.keyStates.map Prod.snd := by
  induction h with
  | done s => exact .inl hk
  | @step s c ch r s1 ℓ s' he hr ih =>
    rcases exec_states he with hsame | ⟨k', q', hnew, hq', hadd⟩
    · rw [← hsame]
      exact ih hk
    · have ih' := ih hk
      rw [hadd, List.lookup_cons] at ih'
      by_cases hkk : k = k'
      · subst hkk
        refine .inr ⟨hnew, ?_⟩
        rcases ih' with ih' | ⟨ih', -⟩
        · simp only [beq_self_eq_true, Option.some.injEq] at ih'
          exact ih' ▸ hq'
        · simp at ih'
      · rw [beq_eq_false_iff_ne.2 hkk] at ih'
        exact ih'.imp_right fun ⟨h1, h2⟩ => ⟨h1, fun hm => h2 (List.mem_cons_of_mem _ hm)⟩

/-! ## In reachable states -/

/-- The allocator refuses no release of any call, whatever the other threads do. -/
theorem refused_nil (hg : g.Valid) {acts : List (Act Call Choice)} {pool pool' : Pool Shared Call Cmd Answer Exn Ret}
    {γ : Ghost} (h : LocalLogic.PoolOk (connectorLogic hg) (fun _ => View.idle) Done pool γ)
    (hrun : pool.run (connector g) acts = some pool') : refused (Pool.commands (connector g) t pool acts) = [] := by
  induction acts generalizing pool γ with
  | nil => rfl
  | cons a acts ih =>
    simp only [Pool.run, Option.bind_eq_some_iff] at hrun
    obtain ⟨pool1, h1, h2⟩ := hrun
    obtain ⟨γ1, hok, -⟩ := LocalLogic.act_sound (fun _ c => body_verified hg c) h h1
    simp only [Pool.commands, h1, Option.map_some, Option.getD_some]
    rw [refused_append, ih hok h2, List.append_nil]
    cases a with
    | start u c => rfl
    | finish u => rfl
    | step u ch =>
      simp only
      split
      · rename_i j c k hu
        split
        · cases c with
          | release es =>
            obtain ⟨a', ha'⟩ := next_release_accepted hg h hu
            simp only [connector, exec, ha']
            rfl
          | _ =>
            simp only [refused, List.filterMap_eq_nil_iff, List.mem_map]
            rintro _ ⟨x, -, rfl⟩
            rfl
        · rfl
      · rfl

/-- Every thread has a view of a reachable state. -/
theorem has_view (hg : g.Valid) {pool : Pool Shared Call Cmd Answer Exn Ret} {γ : Ghost}
    (h : LocalLogic.PoolOk (connectorLogic hg) (fun _ => View.idle) Done pool γ) (u : Nat) :
    ∃ w, Sees g u w pool.shared γ := by
  by_cases hd : ∃ d ∈ pool.done, d.1 = u
  · obtain ⟨⟨u, c, o⟩, hd, rfl⟩ := hd
    obtain ⟨w, hw, -⟩ := h.done _ c o hd
    exact ⟨w, hw⟩
  · cases ht : pool.tasks u with
    | none => exact ⟨_, h.fresh u ht fun d hd' e => hd ⟨d, hd', e⟩⟩
    | some task =>
      obtain ⟨w, hw, -⟩ := h.running u task.job task.prog ht
      exact ⟨w, hw⟩

theorem replays_unique {ι : Type} {log : List (ι × Call × Outcome)} {m m1 m2 : KeyMap}
    (h1 : Replays m log m1) (h2 : Replays m log m2) : m1 = m2 := by
  induction log generalizing m with
  | nil => exact Eq.trans (Eq.symm h1) h2
  | cons x log ih => exact ih h1.2 h2.2

/-- What is known when a call that ran alone has returned. -/
structure Completed (g : StorageGeometry) (t : Nat) (c : Call) (o : Outcome) (s s' : Shared) (γ γ' : Ghost) :
    Prop where
  inv : Inv g s γ
  inv' : Inv g s' γ'
  held : s.held t = []
  held' : s'.held t = []
  owner : ∀ m, s.owner m ≠ some t
  owner' : ∀ m, s'.owner m ≠ some t
  allows : c.Allows γ.map o
  map : γ'.map = c.effect γ.map o

theorem call_alone (hg : g.Valid) {pool : Pool Shared Call Cmd Answer Exn Ret} {γ : Ghost}
    (h : LocalLogic.PoolOk (connectorLogic hg) (fun _ => View.idle) Done pool γ)
    (ht : pool.tasks t = none) (hd : ∀ d ∈ pool.done, d.1 ≠ t) {c : Call} {o : Outcome}
    (hy : Yields (body g c) ℓ o) (hx : Execs (connector g) t pool.shared ℓ s') :
    ∃ γ', Completed g t c o pool.shared s' γ γ' := by
  have hidle := h.fresh t ht hd
  obtain ⟨γ', v', ⟨hi', hgrow⟩, hv', ⟨hlocks, hpriv, hfin⟩, hframe⟩ :=
    LocalLogic.execs_sound hy hx h.inv hidle (body_verified hg c).2
  have hlog : γ'.log = γ.log ++ [(t, c, o)] := by
    refine log_append hgrow hi'.names ((hv'.fin c o).2 hfin) (fun x hx e => ?_) fun x hx hx' => ?_
    · cases (hidle.fin x.2.1 x.2.2).1 (e ▸ hx)
    · by_contra hne
      obtain ⟨w, hw⟩ := has_view hg h x.1
      exact hx' ((hw.fin x.2.1 x.2.2).2 (((hframe x.1 w hne hw).fin x.2.1 x.2.2).1 hx))
  have hreplay := hi'.replays
  rw [hlog, replays_append] at hreplay
  obtain ⟨m, hm, hallows, hmap⟩ := hreplay
  obtain rfl := replays_unique hm h.inv.replays
  refine ⟨γ', h.inv, hi', hidle.held, hv'.held.trans hpriv, fun m hm => ?_, fun m hm => ?_, hallows, hmap.symm⟩
  · have := (hidle.owner m).1 hm
    cases this
  · have := (hv'.owner m).1 hm
    rw [hlocks] at this
    cases this

/-! ## What the call saw and left -/

/-- Before its first lookup a key has no entry, and from then on its state stays. -/
theorem entryOf_before {γ : Ghost} (hi : Inv g s γ) (hx : Execs (connector g) t s ℓ s') {k : Key} {q : Nat}
    (h : s'.keyStates.lookup k = some q) : entryOf s k = s.entry q := by
  rcases execs_lookup hx h with hk | ⟨hk, hq⟩
  · simp [entryOf, hk]
  · simp [entryOf, hk, (hi.unknown_state q hq).1]

theorem entryOf_after {k : Key} {q : Nat} (h : s'.keyStates.lookup k = some q) : entryOf s' k = s'.entry q := by
  simp [entryOf, h]

/-- The entries that nobody changed are the same by key. -/
theorem entryOf_congr {γ : Ghost} (hi : Inv g s γ) (hx : Execs (connector g) t s ℓ s') {k : Key}
    (h : ∀ q, s'.keyStates.lookup k = some q → s'.entry q = s.entry q) : entryOf s' k = entryOf s k := by
  cases hk : s'.keyStates.lookup k with
  | some q => rw [entryOf_after hk, entryOf_before hi hx hk, h q hk]
  | none =>
    have hk' : s.keyStates.lookup k = none := by
      cases hs : s.keyStates.lookup k with
      | none => rfl
      | some q =>
        rw [(execs_frame hx).lookup k q hs] at hk
        cases hk
    simp [entryOf, hk, hk']

/-- The call looked the key up and held its state. -/
structure Visits (ℓ : Log) (k : Key) (q : Nat) : Prop where
  found : (⟨.stateFor k, q⟩ : Event Cmd Answer) ∈ ℓ
  locked : (⟨.lock (.key q), ()⟩ : Event Cmd Answer) ∈ ℓ

theorem Acquires.visits {keys : List Key} {states : List Nat} (h : Acquires keys states ℓ) {x : Key × Nat}
    (hx : x ∈ keys.zip states) : Visits ℓ x.1 x.2 :=
  ⟨h.found x hx, h.locked x.2 (List.of_mem_zip hx).2⟩

theorem Visits.append {k : Key} {q : Nat} (h : Visits ℓ k q) (ℓ' : Log) : Visits (ℓ ++ ℓ') k q :=
  ⟨List.mem_append_left _ h.found, List.mem_append_left _ h.locked⟩

/-- Nobody held a key the call visited, before or after it. -/
theorem Completed.unowned {c : Call} {o : Outcome} {γ γ' : Ghost} (hc : Completed g t c o s s' γ γ')
    (hx : Execs (connector g) t s ℓ s') {k : Key} {q : Nat} (hv : Visits ℓ k q) :
    s.owner (.key q) = none ∧ s'.owner (.key q) = none := by
  have hne : ∀ u, s.owner (.key q) ≠ some u := fun u => by
    by_cases hu : u = t
    · subst hu
      exact hc.owner _
    · exact execs_lock hx hv.locked hu
  have hne' : ∀ u, s'.owner (.key q) ≠ some u := fun u => by
    by_cases hu : u = t
    · subst hu
      exact hc.owner' _
    · exact fun ho => hne u (((execs_frame hx).owner u _ hu).1 ho)
  constructor
  · cases ho : s.owner (.key q) with
    | none => rfl
    | some u => exact absurd ho (hne u)
  · cases ho : s'.owner (.key q) with
    | none => rfl
    | some u => exact absurd ho (hne' u)

/-- A visited key's entry holds the map's bytes, before and after. -/
theorem Completed.settled {c : Call} {o : Outcome} {γ γ' : Ghost} (hc : Completed g t c o s s' γ γ')
    (hx : Execs (connector g) t s ℓ s') {k : Key} {q : Nat} (hv : Visits ℓ k q) :
    (entryOf s k).map (contents g.pageSize s.dev) = γ.map k ∧
    (entryOf s' k).map (contents g.pageSize s'.dev) = γ'.map k := by
  obtain ⟨hfree, hfree'⟩ := hc.unowned hx hv
  have hk' := execs_stateFor hx hv.found
  constructor
  · cases hk : s.keyStates.lookup k with
    | some p =>
      obtain rfl : p = q := Option.some.inj (((execs_frame hx).lookup k p hk).symm.trans hk')
      simp only [entryOf, hk, Option.bind_some]
      exact hc.inv.settled k p (lookup_mem hk) hfree
    | none => simp [entryOf, hk, hc.inv.unknown_key k (lookup_none hk)]
  · rw [entryOf_after hk']
    exact hc.inv'.settled k q (lookup_mem hk') hfree'

/-- A page is free when no entry and no thread has it. -/
theorem Inv.free_iff {γ : Ghost} (hi : Inv g s γ) (p : Nat) : Covers s.allocator.freeExtents p ↔
    p < g.pageCount ∧ (∀ q, ¬ Covers (extentsOf (s.entry q)) p) ∧ ∀ u, ¬ Covers (s.held u) p := by
  have hp := hi.partitioned
  constructor
  · intro h
    exact ⟨(hp.cover p).2 (.inl h), fun q hq => hp.free_published q p ⟨h, hq⟩, fun u hu => hp.free_held u p ⟨h, hu⟩⟩
  · rintro ⟨hlt, hq, hu⟩
    rcases (hp.cover p).1 hlt with h | ⟨q, h⟩ | ⟨u, h⟩
    · exact h
    · exact absurd h (hq q)
    · exact absurd h (hu u)

/-- The private pages are those of the others, before and after. -/
theorem Completed.held_eq {c : Call} {o : Outcome} {γ γ' : Ghost} (hc : Completed g t c o s s' γ γ')
    (hf : Framed t s s') (u : Nat) : s'.held u = s.held u := by
  by_cases hu : u = t
  · rw [hu, hc.held, hc.held']
  · exact hf.held u hu

end SpdkConnector
