import Mathlib.Data.List.Perm.Lattice
import Mathlib.Logic.Function.Basic

/-!
# Ledgers

Keys that move between places. Each key is in one state; a state has a home or none, and the place that
is its home shows the key with its state, once, among the entries of a list. The order of the entries does
not matter. The lemmas say how a ledger follows the moves of its keys: entries reordered, one key
turning from one state to another, leaving its place, several keys carried from a place to another, new
keys entered.
-/

namespace Interleaving

variable {κ σ π : Type} {home : κ → σ → Option π} {shown shown' : π → List (κ × σ)} {state : κ → σ}

structure Ledger (home : κ → σ → Option π) (shown : π → List (κ × σ)) (state : κ → σ) : Prop where
  once : ∀ p, ((shown p).map Prod.fst).Nodup
  sound : ∀ p x, x ∈ shown p → state x.1 = x.2 ∧ home x.1 x.2 = some p
  complete : ∀ k p, home k (state k) = some p → (k, state k) ∈ shown p

namespace Ledger

theorem eq_place (h : Ledger home shown state) {p q : π} {x y : κ × σ} (hx : x ∈ shown p) (hy : y ∈ shown q)
    (hk : x.1 = y.1) : p = q := by
  obtain ⟨h1, h2⟩ := h.sound p x hx
  obtain ⟨h3, h4⟩ := h.sound q y hy
  have hs : x.2 = y.2 := by rw [← h1, ← h3, hk]
  rw [hk, hs, h4] at h2
  exact (Option.some.inj h2).symm

/-- The keys `ks` go to the states `f`; each place keeps its other entries. -/
theorem exchange (h : Ledger home shown state) {ks : List κ} [DecidableEq κ] (f : κ → σ)
    (gone come rest : π → List (κ × σ))
    (hold : ∀ p, (shown p).Perm (gone p ++ rest p)) (hnew : ∀ p, (shown' p).Perm (come p ++ rest p))
    (hgone : ∀ p, ∀ x ∈ gone p, x.1 ∈ ks) (hrest : ∀ p, ∀ x ∈ rest p, x.1 ∉ ks)
    (honce : ∀ p, ((come p).map Prod.fst).Nodup)
    (hcome : ∀ p, ∀ x ∈ come p, x.1 ∈ ks ∧ x.2 = f x.1 ∧ home x.1 x.2 = some p)
    (hall : ∀ k ∈ ks, ∀ p, home k (f k) = some p → (k, f k) ∈ come p) :
    Ledger home shown' (fun k => if k ∈ ks then f k else state k) := by
  refine ⟨fun p => ?_, fun p x hx => ?_, fun k p hk => ?_⟩
  · have hnd := ((hold p).map Prod.fst).nodup_iff.1 (h.once p)
    rw [List.map_append, List.nodup_append] at hnd
    rw [((hnew p).map Prod.fst).nodup_iff, List.map_append, List.nodup_append]
    refine ⟨honce p, hnd.2.1, fun a ha b hb e => ?_⟩
    obtain ⟨x, hx, rfl⟩ := List.mem_map.1 ha
    obtain ⟨y, hy, rfl⟩ := List.mem_map.1 hb
    exact hrest p y hy (e ▸ (hcome p x hx).1)
  · rcases List.mem_append.1 ((hnew p).mem_iff.1 hx) with hx | hx
    · obtain ⟨h1, h2, h3⟩ := hcome p x hx
      exact ⟨by simp [h1, h2], h3⟩
    · have hno := hrest p x hx
      simpa [hno] using h.sound p x ((hold p).mem_iff.2 (List.mem_append_right _ hx))
  · by_cases hks : k ∈ ks
    · simp only [hks, if_true] at hk ⊢
      exact (hnew p).mem_iff.2 (List.mem_append_left _ (hall k hks p hk))
    · simp only [hks, if_false] at hk ⊢
      rcases List.mem_append.1 ((hold p).mem_iff.1 (h.complete k p hk)) with hm | hm
      · exact absurd (hgone p _ hm) hks
      · exact (hnew p).mem_iff.2 (List.mem_append_right _ hm)

/-- Reordered entries. -/
theorem shuffle (h : Ledger home shown state) (hp : ∀ p, (shown' p).Perm (shown p)) :
    Ledger home shown' state where
  once p := ((hp p).map Prod.fst).nodup_iff.2 (h.once p)
  sound p x hx := h.sound p x ((hp p).mem_iff.1 hx)
  complete k p hk := (hp p).mem_iff.2 (h.complete k p hk)

/-- Another assignment of homes that agrees where the keys are. -/
theorem rehome (h : Ledger home shown state) {home' : κ → σ → Option π}
    (hh : ∀ k, home' k (state k) = home k (state k)) : Ledger home' shown state where
  once := h.once
  sound p x hx := by
    obtain ⟨h1, h2⟩ := h.sound p x hx
    refine ⟨h1, ?_⟩
    rw [← h1, hh, h1, h2]
  complete k p hk := h.complete k p (by rw [← hh, hk])

theorem key_not_mem (h : Ledger home shown state) {p : π} {k : κ} {a : σ} {rest : List (κ × σ)}
    (hold : (shown p).Perm ((k, a) :: rest)) : ∀ x ∈ rest, x.1 ≠ k := by
  intro x hx e
  have hnd := (hold.map Prod.fst).nodup_iff.1 (h.once p)
  rw [List.map_cons, List.nodup_cons] at hnd
  exact hnd.1 (List.mem_map.2 ⟨x, hx, e⟩)

variable [DecidableEq κ] [DecidableEq π]

theorem update_eq (k : κ) (b : σ) :
    Function.update state k b = fun j => if j ∈ [k] then b else state j := by
  funext j
  simp [Function.update_apply]

/-- One key turns from state `a` to state `b` where it is. -/
theorem turn (h : Ledger home shown state) {p : π} {k : κ} {a b : σ} {rest : List (κ × σ)}
    (hold : (shown p).Perm ((k, a) :: rest)) (hnew : (shown' p).Perm ((k, b) :: rest))
    (hother : ∀ q, q ≠ p → (shown' q).Perm (shown q)) (hb : home k b = some p) :
    Ledger home shown' (Function.update state k b) := by
  have hmem : (k, a) ∈ shown p := hold.mem_iff.2 (by simp)
  rw [update_eq]
  refine h.exchange (fun _ => b) (fun q => if q = p then [(k, a)] else [])
    (fun q => if q = p then [(k, b)] else []) (fun q => if q = p then rest else shown q)
    ?_ ?_ ?_ ?_ ?_ ?_ ?_ <;> intro q
  · by_cases hq : q = p <;> simp [hq, hold]
  · by_cases hq : q = p
    · simp [hq, hnew]
    · simp [hq, hother q hq]
  · by_cases hq : q = p <;> simp [hq]
  · intro x hx
    by_cases hq : q = p
    · simp only [hq, if_true] at hx
      simpa using h.key_not_mem hold x hx
    · simp only [hq, if_false] at hx
      simpa using fun e => hq (h.eq_place hx hmem e)
  · by_cases hq : q = p <;> simp [hq]
  · by_cases hq : q = p <;> simp [hq, hb]
  · intro hk q' hq'
    simp only [List.mem_singleton] at hk
    subst hk
    rw [hb] at hq'
    simp [Option.some.inj hq']

/-- One key leaves its place for a state without home. -/
theorem drop (h : Ledger home shown state) {p : π} {k : κ} {a b : σ} (rest : List (κ × σ))
    (hold : (shown p).Perm ((k, a) :: rest)) (hnew : (shown' p).Perm rest)
    (hother : ∀ q, q ≠ p → (shown' q).Perm (shown q)) (hb : home k b = none) :
    Ledger home shown' (Function.update state k b) := by
  have hmem : (k, a) ∈ shown p := hold.mem_iff.2 (by simp)
  rw [update_eq]
  refine h.exchange (fun _ => b) (fun q => if q = p then [(k, a)] else [])
    (fun _ => []) (fun q => if q = p then rest else shown q)
    ?_ ?_ ?_ ?_ ?_ ?_ ?_ <;> intro q
  · by_cases hq : q = p <;> simp [hq, hold]
  · by_cases hq : q = p
    · simp [hq, hnew]
    · simp [hq, hother q hq]
  · by_cases hq : q = p <;> simp [hq]
  · intro x hx
    by_cases hq : q = p
    · simp only [hq, if_true] at hx
      simpa using h.key_not_mem hold x hx
    · simp only [hq, if_false] at hx
      simpa using fun e => hq (h.eq_place hx hmem e)
  · simp
  · simp
  · intro hk q' hq'
    simp only [List.mem_singleton] at hk
    subst hk
    simp [hb] at hq'

/-- Several keys go from place `p` to place `q`. -/
theorem carry (h : Ledger home shown state) {p q : π} (hpq : p ≠ q) (ks : List κ) {a b : σ}
    (rest : List (κ × σ)) (hold : (shown p).Perm (ks.map (·, a) ++ rest)) (hp : (shown' p).Perm rest)
    (hq : (shown' q).Perm (ks.map (·, b) ++ shown q))
    (hother : ∀ r, r ≠ p → r ≠ q → (shown' r).Perm (shown r)) (hb : ∀ k ∈ ks, home k b = some q) :
    Ledger home shown' (fun k => if k ∈ ks then b else state k) := by
  have hnd := (hold.map Prod.fst).nodup_iff.1 (h.once p)
  have hfst : ∀ c : σ, (ks.map (·, c)).map Prod.fst = ks := fun c => by
    rw [List.map_map]
    exact List.map_id _
  rw [List.map_append, hfst, List.nodup_append] at hnd
  have hat : ∀ k ∈ ks, (k, a) ∈ shown p := fun k hk =>
    hold.mem_iff.2 (List.mem_append_left _ (List.mem_map.2 ⟨k, hk, rfl⟩))
  refine h.exchange (fun _ => b) (fun r => if r = p then ks.map (·, a) else [])
    (fun r => if r = q then ks.map (·, b) else [])
    (fun r => if r = p then rest else shown r) ?_ ?_ ?_ ?_ ?_ ?_ ?_ <;> intro r
  · by_cases hr : r = p <;> simp [hr, hold]
  · by_cases hr : r = p
    · simp [hr, hpq, hp]
    · by_cases hr' : r = q
      · subst hr'
        simpa [hr] using hq
      · simp [hr, hr', hother r hr hr']
  · intro x hx
    by_cases hr : r = p
    · simp only [hr, if_true] at hx
      obtain ⟨k, hk, rfl⟩ := List.mem_map.1 hx
      exact hk
    · simp [hr] at hx
  · intro x hx hk
    by_cases hr : r = p
    · simp only [hr, if_true] at hx
      exact hnd.2.2 x.1 hk x.1 (List.mem_map_of_mem hx) rfl
    · simp only [hr, if_false] at hx
      exact hr (h.eq_place hx (hat _ hk) rfl)
  · by_cases hr : r = q
    · simp only [hr, if_true, hfst]
      exact hnd.1
    · simp [hr]
  · intro x hx
    by_cases hr : r = q
    · simp only [hr, if_true] at hx
      obtain ⟨k, hk, rfl⟩ := List.mem_map.1 hx
      exact ⟨hk, rfl, hr ▸ hb k hk⟩
    · simp [hr] at hx
  · intro hk r' hr'
    rw [hb r hk] at hr'
    simp only [Option.some.inj hr', if_true]
    exact List.mem_map.2 ⟨r, hk, rfl⟩

/-- Keys that had no home are entered at place `p`. -/
theorem enter (h : Ledger home shown state) {p : π} (ks : List κ) {b : σ} (hks : ks.Nodup)
    (hnone : ∀ k ∈ ks, home k (state k) = none) (hp : (shown' p).Perm (ks.map (·, b) ++ shown p))
    (hother : ∀ r, r ≠ p → (shown' r).Perm (shown r)) (hb : ∀ k ∈ ks, home k b = some p) :
    Ledger home shown' (fun k => if k ∈ ks then b else state k) := by
  refine h.exchange (fun _ => b) (fun _ => [])
    (fun r => if r = p then ks.map (·, b) else []) shown ?_ ?_ ?_ ?_ ?_ ?_ ?_ <;> intro r
  · simp
  · by_cases hr : r = p
    · subst hr
      simpa using hp
    · simp [hr, hother r hr]
  · simp
  · intro x hx hk
    obtain ⟨h1, h2⟩ := h.sound r x hx
    have := hnone x.1 hk
    rw [h1, h2] at this
    cases this
  · by_cases hr : r = p
    · simpa [hr, Function.comp_def] using hks
    · simp [hr]
  · intro x hx
    by_cases hr : r = p
    · simp only [hr, if_true] at hx
      obtain ⟨k, hk, rfl⟩ := List.mem_map.1 hx
      exact ⟨hk, rfl, hr ▸ hb k hk⟩
    · simp [hr] at hx
  · intro hk r' hr'
    rw [hb r hk] at hr'
    simp only [Option.some.inj hr', if_true]
    exact List.mem_map.2 ⟨r, hk, rfl⟩

end Ledger

end Interleaving
