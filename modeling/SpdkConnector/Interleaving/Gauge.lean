import Mathlib.Algebra.BigOperators.Group.Finset.Basic
import Mathlib.Algebra.BigOperators.Ring.Finset
import Mathlib.Algebra.Order.BigOperators.Group.Finset
import Mathlib.Order.Bounds.Basic
import Mathlib.Tactic.Linarith

/-!
# Gauges

A gauge is a counter modulo `m` kept by the atomic operations of several threads, and the highest value it
has had. A thread that adds keeps the value it left and raises the peak to it in a second operation, with
those of the other threads in between. `balance` is what the counter would be without the modulus; where it
stays within `0` and `m` (`Within`) the counter is exact (`run_value`), and where each thread raises the peak
before it adds again the peak is the greatest value the counter has had (`peak_isGreatest`).

What is known of each thread's own operations is enough for both, so both hold in every order of the
operations that keeps each thread's own (`Reordered.value`, `Reordered.peak`).
-/

namespace Interleaving

inductive GaugeOp where
  | add (n : Nat)
  /-- The peak is raised to what the thread's last `add` left. -/
  | raise
  | sub (n : Nat)
  | clear
deriving DecidableEq, Repr

structure Gauge (ι : Type) where
  value : Nat := 0
  peak : Nat := 0
  /-- What the last `add` of each thread left. -/
  seen : ι → Nat := fun _ => 0

variable {ι : Type} {m n : Nat} {t : ι} {x : ι × GaugeOp} {p ops l : List (ι × GaugeOp)}

def GaugeOp.settle (b : Int) : GaugeOp → Int
  | .add n => b + n
  | .raise => b
  | .sub n => b - n
  | .clear => 0

/-- The counter without the modulus. -/
def balance (ops : List (ι × GaugeOp)) : Int := ops.foldl (fun b x => x.2.settle b) 0

/-- The counter is never below zero, and never wraps. -/
def Within (m : Nat) (ops : List (ι × GaugeOp)) : Prop := ∀ p, p <+: ops → 0 ≤ balance p ∧ balance p < m

@[simp] theorem balance_nil : balance ([] : List (ι × GaugeOp)) = 0 := rfl

@[simp] theorem balance_concat : balance (ops ++ [x]) = x.2.settle (balance ops) := by
  simp [balance]

theorem balance_append (ops l : List (ι × GaugeOp)) :
    balance (ops ++ l) = l.foldl (fun b x => x.2.settle b) (balance ops) := List.foldl_append

theorem Within.shorter (h : Within m ops) (hp : p <+: ops) : Within m p := fun _ hq => h _ (hq.trans hp)

theorem within_nil (hm : 0 < m) : Within m ([] : List (ι × GaugeOp)) := by
  intro p hp
  obtain rfl := List.prefix_nil.1 hp
  exact ⟨Int.le_refl 0, Int.natCast_pos.2 hm⟩

theorem Within.concat (h : Within m ops) (hx : 0 ≤ balance (ops ++ [x]) ∧ balance (ops ++ [x]) < m) :
    Within m (ops ++ [x]) := by
  intro p hp
  rcases List.prefix_concat_iff.1 hp with rfl | hp
  · exact hx
  · exact h p hp

/-! ## Debts -/

/-- Whether the thread has yet to raise the peak, after some of its operations. -/
def owes : Bool → List (ι × GaugeOp) → Bool
  | owing, [] => owing
  | _, (_, .add _) :: l => owes true l
  | _, (_, .raise) :: l => owes false l
  | owing, (_, .sub _) :: l => owes owing l
  | owing, (_, .clear) :: l => owes owing l

/-- The thread raises the peak before it adds again, and before it ends. -/
def raises : Bool → List (ι × GaugeOp) → Bool
  | owing, [] => !owing
  | owing, (_, .add _) :: l => !owing && raises true l
  | _, (_, .raise) :: l => raises false l
  | owing, (_, .sub _) :: l => raises owing l
  | owing, (_, .clear) :: l => raises owing l

theorem owes_append (owing : Bool) (l l' : List (ι × GaugeOp)) : owes owing (l ++ l') = owes (owes owing l) l' := by
  induction l generalizing owing with
  | nil => rfl
  | cons x l ih =>
    obtain ⟨t, op⟩ := x
    cases op <;> exact ih _

theorem raises_append (owing : Bool) (l l' : List (ι × GaugeOp)) (h : raises owing (l ++ l') = true) :
    raises (owes owing l) l' = true := by
  induction l generalizing owing with
  | nil => exact h
  | cons x l ih =>
    obtain ⟨t, op⟩ := x
    cases op with
    | add n => exact ih _ (Bool.and_eq_true_iff.1 h).2
    | raise | sub | clear => exact ih _ h

theorem raises_owes (owing : Bool) (h : raises owing l = true) : owes owing l = false := by
  have hend := raises_append owing l [] (by simpa using h)
  simpa [raises] using hend

/-- One stretch of operations that raises what it adds after another. -/
theorem raises_concat (owing : Bool) (h : raises owing l = true) (hops : raises false ops = true) :
    raises owing (l ++ ops) = true := by
  induction l generalizing owing with
  | nil =>
    cases owing with
    | false => exact hops
    | true => cases h
  | cons x l ih =>
    obtain ⟨t, op⟩ := x
    cases op with
    | add n =>
      obtain ⟨h1, h2⟩ := Bool.and_eq_true_iff.1 h
      exact Bool.and_eq_true_iff.2 ⟨h1, ih _ h2⟩
    | raise | sub | clear => exact ih _ h

/-! ## The gauge -/

variable [DecidableEq ι]

def Gauge.apply (m : Nat) (g : Gauge ι) : ι × GaugeOp → Gauge ι
  | (t, .add n) => { g with value := (g.value + n) % m, seen := Function.update g.seen t ((g.value + n) % m) }
  | (t, .raise) => { g with peak := max g.peak (g.seen t) }
  | (_, .sub n) => { g with value := (g.value + (m - n % m)) % m }
  | (_, .clear) => { g with value := 0 }

/-- The gauge after some operations. -/
def Gauge.run (m : Nat) (ops : List (ι × GaugeOp)) : Gauge ι := ops.foldl (Gauge.apply m) {}

/-- The values the counter has had. -/
def Gauge.values (m : Nat) (ops : List (ι × GaugeOp)) : Set Nat := {v | ∃ p, p <+: ops ∧ (Gauge.run m p).value = v}

/-- The operations of one thread. -/
def ownOps (t : ι) (ops : List (ι × GaugeOp)) : List (ι × GaugeOp) := ops.filter fun x => x.1 = t

/-- The same operations, each thread's in its own order. -/
def Reordered (l ops : List (ι × GaugeOp)) : Prop := ∀ t, ownOps t ops = ownOps t l

@[simp] theorem Gauge.run_nil : Gauge.run m ([] : List (ι × GaugeOp)) = {} := rfl

@[simp] theorem Gauge.run_concat : Gauge.run m (ops ++ [x]) = (Gauge.run m ops).apply m x := by
  simp [Gauge.run]

theorem Gauge.run_append (ops l : List (ι × GaugeOp)) :
    Gauge.run m (ops ++ l) = l.foldl (Gauge.apply m) (Gauge.run m ops) := List.foldl_append

/-- The counter is exact where it stays in range. -/
theorem Gauge.run_value (h : Within m ops) : ((Gauge.run m ops).value : Int) = balance ops := by
  induction ops using List.reverseRecOn with
  | nil => rfl
  | append_singleton ops x ih =>
    have hold := ih (h.shorter (List.prefix_append _ _))
    have hrange := h _ List.prefix_rfl
    have hfirst := h ops (List.prefix_append _ _)
    rw [balance_concat] at hrange ⊢
    rw [Gauge.run_concat]
    obtain ⟨t, op⟩ := x
    cases op with
    | add n =>
      simp only [Gauge.apply, GaugeOp.settle] at hrange ⊢
      rw [Nat.mod_eq_of_lt (by omega)]
      omega
    | raise => exact hold
    | sub n =>
      simp only [Gauge.apply, GaugeOp.settle] at hrange ⊢
      have hn : n % m = n := Nat.mod_eq_of_lt (by omega)
      rw [hn, show (Gauge.run m ops).value + (m - n) = (Gauge.run m ops).value - n + m by omega,
        Nat.add_mod_right, Nat.mod_eq_of_lt (by omega)]
      omega
    | clear => rfl

theorem Gauge.values_concat :
    Gauge.values m (ops ++ [x]) = insert (Gauge.run m (ops ++ [x])).value (Gauge.values m ops) := by
  ext v
  constructor
  · rintro ⟨p, hp, rfl⟩
    rcases List.prefix_concat_iff.1 hp with rfl | hp
    · exact Set.mem_insert _ _
    · exact Set.mem_insert_of_mem _ ⟨p, hp, rfl⟩
  · rintro (rfl | ⟨p, hp, rfl⟩)
    · exact ⟨_, List.prefix_rfl, rfl⟩
    · exact ⟨p, hp.trans (List.prefix_append _ _), rfl⟩

theorem Gauge.value_mem : (Gauge.run m ops).value ∈ Gauge.values m ops := ⟨ops, List.prefix_rfl, rfl⟩

/-! ## The peak -/

/-- What the peak has of the values so far: a greater one is one that a thread has still to raise it to. -/
structure Gauge.Peaked (m : Nat) (ops : List (ι × GaugeOp)) : Prop where
  peak : (Gauge.run m ops).peak ∈ Gauge.values m ops
  seen : ∀ t, (Gauge.run m ops).seen t ∈ Gauge.values m ops
  bound : ∀ v ∈ Gauge.values m ops, v ≤ (Gauge.run m ops).peak ∨
    ∃ t, owes false (ownOps t ops) = true ∧ v ≤ (Gauge.run m ops).seen t

theorem ownOps_append (t : ι) (ops l : List (ι × GaugeOp)) : ownOps t (ops ++ l) = ownOps t ops ++ ownOps t l :=
  List.filter_append ..

theorem ownOps_self (op : GaugeOp) : ownOps t [(t, op)] = [(t, op)] := by simp [ownOps]

theorem ownOps_other {u : ι} (h : u ≠ t) (op : GaugeOp) : ownOps t [(u, op)] = [] := by simp [ownOps, h]

theorem ownOps_shorter (t : ι) (h : p <+: ops) : ownOps t p <+: ownOps t ops := h.filter _

/-- Operations that leave every thread's debt. -/
theorem owes_concat (h : ∀ owing, owes owing [x] = owing) (u : ι) :
    owes false (ownOps u (ops ++ [x])) = owes false (ownOps u ops) := by
  rw [ownOps_append, owes_append]
  obtain ⟨t, op⟩ := x
  by_cases hu : t = u
  · subst hu
    rw [ownOps_self]
    exact h _
  · rw [ownOps_other hu]
    rfl

theorem Gauge.peaked (hw : Within m ops) (hr : ∀ t, raises false (ownOps t ops) = true) (hp : p <+: ops) :
    Gauge.Peaked m p := by
  induction p using List.reverseRecOn with
  | nil =>
    refine ⟨⟨[], List.prefix_rfl, rfl⟩, fun _ => ⟨[], List.prefix_rfl, rfl⟩, ?_⟩
    rintro v ⟨q, hq, rfl⟩
    obtain rfl := List.prefix_nil.1 hq
    exact .inl (Nat.le_refl 0)
  | append_singleton p x ih =>
    obtain ⟨h1, h2, h3⟩ := ih ((List.prefix_append _ _).trans hp)
    have hgrow : Gauge.values m p ⊆ Gauge.values m (p ++ [x]) := by
      rw [Gauge.values_concat]
      exact Set.subset_insert _ _
    obtain ⟨t, op⟩ := x
    cases op with
    | add n =>
      -- the thread has raised the peak to what it added before, so what it has seen may be replaced
      have hpaid : owes false (ownOps t p) = false := by
        obtain ⟨q, hq⟩ := ownOps_shorter t hp
        have hthis := hr t
        rw [← hq, ownOps_append, ownOps_self, List.append_assoc] at hthis
        have hnext := raises_append false _ _ hthis
        simpa using (Bool.and_eq_true_iff.1 hnext).1
      have howes : owes false (ownOps t (p ++ [(t, .add n)])) = true := by
        rw [ownOps_append, ownOps_self, owes_append]
        rfl
      have hseen : (Gauge.run m (p ++ [(t, .add n)])).seen t = (Gauge.run m (p ++ [(t, .add n)])).value := by
        simp [Gauge.apply]
      refine ⟨hgrow (by simpa [Gauge.apply] using h1), fun u => ?_, fun v hv => ?_⟩
      · by_cases hu : u = t
        · subst hu
          rw [hseen]
          exact Gauge.value_mem
        · have hsame : (Gauge.run m (p ++ [(t, .add n)])).seen u = (Gauge.run m p).seen u := by
            simp [Gauge.apply, hu]
          rw [hsame]
          exact hgrow (h2 u)
      · rw [Gauge.values_concat] at hv
        rcases hv with rfl | hv
        · exact .inr ⟨t, howes, hseen.ge⟩
        · rcases h3 v hv with hle | ⟨u, hu, hle⟩
          · exact .inl (by simpa [Gauge.apply] using hle)
          · have hne : u ≠ t := by
              rintro rfl
              exact nomatch hu.symm.trans hpaid
            refine .inr ⟨u, ?_, ?_⟩
            · rwa [ownOps_append, ownOps_other hne.symm, List.append_nil]
            · simpa [Gauge.apply, hne] using hle
    | raise =>
      have hvalue : (Gauge.run m (p ++ [(t, .raise)])).value = (Gauge.run m p).value := by simp [Gauge.apply]
      have hseen : (Gauge.run m (p ++ [(t, .raise)])).seen = (Gauge.run m p).seen := by simp [Gauge.apply]
      have hpeak : (Gauge.run m (p ++ [(t, .raise)])).peak = max (Gauge.run m p).peak ((Gauge.run m p).seen t) := by
        simp [Gauge.apply]
      refine ⟨hgrow ?_, fun u => hgrow (hseen ▸ h2 u), fun v hv => ?_⟩
      · rw [hpeak]
        rcases max_choice (Gauge.run m p).peak ((Gauge.run m p).seen t) with heq | heq <;> rw [heq]
        · exact h1
        · exact h2 t
      · have hv : v ∈ Gauge.values m p := by
          rw [Gauge.values_concat, hvalue] at hv
          exact hv.elim (fun h => h ▸ Gauge.value_mem) id
        rw [hpeak, hseen]
        rcases h3 v hv with hle | ⟨u, hu, hle⟩
        · exact .inl (hle.trans (le_max_left _ _))
        · by_cases hne : t = u
          · subst hne
            exact .inl (hle.trans (le_max_right _ _))
          · refine .inr ⟨u, ?_, hle⟩
            rwa [ownOps_append, ownOps_other hne, List.append_nil]
    | sub n =>
      -- the counter goes down from a value it has had
      have hold := Gauge.run_value (hw.shorter ((List.prefix_append _ _).trans hp))
      have hnew := Gauge.run_value (hw.shorter hp)
      rw [balance_concat] at hnew
      simp only [GaugeOp.settle] at hnew
      have hle : (Gauge.run m (p ++ [(t, .sub n)])).value ≤ (Gauge.run m p).value := by omega
      have hpeak : (Gauge.run m (p ++ [(t, .sub n)])).peak = (Gauge.run m p).peak := by simp [Gauge.apply]
      have hseen : (Gauge.run m (p ++ [(t, .sub n)])).seen = (Gauge.run m p).seen := by simp [Gauge.apply]
      refine ⟨hgrow (hpeak ▸ h1), fun u => hgrow (hseen ▸ h2 u), fun v hv => ?_⟩
      simp only [hpeak, hseen, owes_concat (x := (t, .sub n)) fun _ => rfl]
      rw [Gauge.values_concat] at hv
      rcases hv with rfl | hv
      · exact (h3 _ Gauge.value_mem).imp hle.trans fun ⟨u, hu, hvu⟩ => ⟨u, hu, hle.trans hvu⟩
      · exact h3 v hv
    | clear =>
      have hpeak : (Gauge.run m (p ++ [(t, .clear)])).peak = (Gauge.run m p).peak := by simp [Gauge.apply]
      have hseen : (Gauge.run m (p ++ [(t, .clear)])).seen = (Gauge.run m p).seen := by simp [Gauge.apply]
      refine ⟨hgrow (hpeak ▸ h1), fun u => hgrow (hseen ▸ h2 u), fun v hv => ?_⟩
      simp only [hpeak, hseen, owes_concat (x := (t, .clear)) fun _ => rfl]
      rw [Gauge.values_concat] at hv
      rcases hv with rfl | hv
      · exact .inl (by simp [Gauge.apply])
      · exact h3 v hv

/-- **The peak is the greatest value the counter has had**, when no thread has still to raise it. -/
theorem Gauge.peak_isGreatest (hw : Within m ops) (hr : ∀ t, raises false (ownOps t ops) = true) :
    IsGreatest (Gauge.values m ops) (Gauge.run m ops).peak := by
  obtain ⟨h1, -, h3⟩ := Gauge.peaked hw hr List.prefix_rfl
  refine ⟨h1, fun v hv => ?_⟩
  rcases h3 v hv with hle | ⟨t, ht, -⟩
  · exact hle
  · exact nomatch ht.symm.trans (raises_owes false (hr t))

/-! ## Thread by thread -/

/-- Of operations that store nothing, the balance is the sum of the threads' own. -/
theorem balance_threads (S : Finset ι) (hS : ∀ x ∈ ops, x.1 ∈ S ∧ x.2 ≠ .clear) :
    balance ops = ∑ t ∈ S, balance (ownOps t ops) := by
  induction ops using List.reverseRecOn with
  | nil => simp [ownOps]
  | append_singleton ops x ih =>
    have hold := ih fun y hy => hS y (List.mem_append_left _ hy)
    obtain ⟨hmem, hop⟩ := hS x (List.mem_append_right _ (List.mem_singleton_self x))
    obtain ⟨u, op⟩ := x
    have hothers : ∑ t ∈ S.erase u, balance (ownOps t (ops ++ [(u, op)])) =
        ∑ t ∈ S.erase u, balance (ownOps t ops) := by
      refine Finset.sum_congr rfl fun t ht => ?_
      rw [ownOps_append, ownOps_other (Finset.ne_of_mem_erase ht).symm, List.append_nil]
    rw [← Finset.add_sum_erase S _ hmem] at hold ⊢
    rw [hothers, ownOps_append, ownOps_self, balance_concat, balance_concat, hold]
    cases op with
    | clear => exact absurd rfl hop
    | add n =>
      simp only [GaugeOp.settle]
      omega
    | raise => rfl
    | sub n =>
      simp only [GaugeOp.settle]
      omega

/-- Each thread's own balance is never below zero, and never above its capacity. -/
def Bounded (cap : ι → Nat) (ops : List (ι × GaugeOp)) : Prop :=
  ∀ t p, p <+: ownOps t ops → 0 ≤ balance p ∧ balance p ≤ cap t

/-- Threads whose capacities sum up below `m` keep the counter in range. -/
theorem Bounded.within {cap : ι → Nat} (h : Bounded cap ops) (S : Finset ι)
    (hS : ∀ x ∈ ops, x.1 ∈ S ∧ x.2 ≠ .clear) (hcap : ∑ t ∈ S, cap t < m) : Within m ops := by
  intro p hp
  rw [balance_threads S fun x hx => hS x (hp.subset hx)]
  have hbound : ∀ t ∈ S, 0 ≤ balance (ownOps t p) ∧ balance (ownOps t p) ≤ cap t := fun t _ =>
    h t _ (ownOps_shorter t hp)
  refine ⟨Finset.sum_nonneg fun t ht => (hbound t ht).1, ?_⟩
  have hle : ∑ t ∈ S, balance (ownOps t p) ≤ ∑ t ∈ S, (cap t : Int) := Finset.sum_le_sum fun t ht => (hbound t ht).2
  rw [← Nat.cast_sum] at hle
  exact hle.trans_lt (Int.ofNat_lt.2 hcap)

theorem bounded_nil (cap : ι → Nat) : Bounded cap ([] : List (ι × GaugeOp)) := by
  intro t p hp
  obtain rfl := List.prefix_nil.1 hp
  exact ⟨Int.le_refl 0, Int.natCast_nonneg _⟩

theorem Bounded.mono {cap cap' : ι → Nat} (h : Bounded cap ops) (hle : ∀ t, cap t ≤ cap' t) : Bounded cap' ops :=
  fun t p hp => ⟨(h t p hp).1, (h t p hp).2.trans (by exact_mod_cast hle t)⟩

theorem Bounded.concat {cap : ι → Nat} (h : Bounded cap ops)
    (hx : 0 ≤ x.2.settle (balance (ownOps x.1 ops)) ∧ x.2.settle (balance (ownOps x.1 ops)) ≤ cap x.1) :
    Bounded cap (ops ++ [x]) := by
  intro t p hp
  obtain ⟨u, op⟩ := x
  rw [ownOps_append] at hp
  by_cases hu : u = t
  · subst hu
    rw [ownOps_self] at hp
    rcases List.prefix_concat_iff.1 hp with rfl | hp
    · rw [balance_concat]
      exact hx
    · exact h u p hp
  · rw [ownOps_other hu, List.append_nil] at hp
    exact h t p hp

/-- An addition that stays within the thread's capacity, and the raise after it. -/
theorem Bounded.add {cap : ι → Nat} (h : Bounded cap ops) (hn : balance (ownOps t ops) + n ≤ cap t) :
    Bounded cap (ops ++ [(t, .add n), (t, .raise)]) := by
  have hown := (h t _ List.prefix_rfl).1
  have hadd : Bounded cap (ops ++ [(t, .add n)]) := h.concat ⟨by simp only [GaugeOp.settle]; omega, hn⟩
  rw [show ops ++ [(t, .add n), (t, .raise)] = ops ++ [(t, .add n)] ++ [(t, .raise)] by simp]
  exact hadd.concat (hadd t _ List.prefix_rfl)

/-- A subtraction of what the thread has. -/
theorem Bounded.sub {cap : ι → Nat} (h : Bounded cap ops) (hn : (n : Int) ≤ balance (ownOps t ops)) :
    Bounded cap (ops ++ [(t, .sub n)]) := by
  have hown := (h t _ List.prefix_rfl).2
  exact h.concat ⟨by simp only [GaugeOp.settle]; omega, by simp only [GaugeOp.settle]; omega⟩

/-- Operations of one thread are its own, and none of another's. -/
theorem ownOps_mine (h : ∀ x ∈ l, x.1 = t) : ownOps t l = l :=
  List.filter_eq_self.2 fun x hx => by simpa using h x hx

theorem ownOps_none {u : ι} (h : ∀ x ∈ l, x.1 = u) (hu : u ≠ t) : ownOps t l = [] :=
  List.filter_eq_nil_iff.2 fun x hx => by simpa [h x hx] using hu

theorem Reordered.refl (l : List (ι × GaugeOp)) : Reordered l l := fun _ => rfl

theorem Reordered.mem (h : Reordered l ops) (hx : x ∈ ops) : x ∈ l := by
  have hown : x ∈ ownOps x.1 ops := List.mem_filter.2 ⟨hx, by simp⟩
  rw [h x.1] at hown
  exact (List.mem_filter.1 hown).1

theorem Reordered.bounded {cap : ι → Nat} (h : Reordered l ops) (hl : Bounded cap l) : Bounded cap ops :=
  fun t p hp => hl t p (h t ▸ hp)

/-- **Every order of the threads' operations** keeps the counter exact, and leaves it the same value. -/
theorem Reordered.value {cap : ι → Nat} (h : Reordered l ops) (hl : Bounded cap l) (S : Finset ι)
    (hS : ∀ x ∈ l, x.1 ∈ S ∧ x.2 ≠ .clear) (hcap : ∑ t ∈ S, cap t < m) :
    Within m ops ∧ ((Gauge.run m ops).value : Int) = balance l := by
  have hmem : ∀ x ∈ ops, x.1 ∈ S ∧ x.2 ≠ .clear := fun x hx => hS x (h.mem hx)
  have hwithin := (h.bounded hl).within S hmem hcap
  refine ⟨hwithin, ?_⟩
  rw [Gauge.run_value hwithin, balance_threads S hmem, balance_threads S hS]
  exact Finset.sum_congr rfl fun t _ => by rw [h t]

/-- In every order the peak is the greatest value the counter has had. -/
theorem Reordered.peak {cap : ι → Nat} (h : Reordered l ops) (hl : Bounded cap l) (S : Finset ι)
    (hS : ∀ x ∈ l, x.1 ∈ S ∧ x.2 ≠ .clear) (hcap : ∑ t ∈ S, cap t < m)
    (hr : ∀ t, raises false (ownOps t l) = true) : IsGreatest (Gauge.values m ops) (Gauge.run m ops).peak :=
  Gauge.peak_isGreatest (h.value hl S hS hcap).1 fun t => (h t).symm ▸ hr t

end Interleaving
