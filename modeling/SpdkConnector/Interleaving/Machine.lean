/-!
# Machines and their runs

A machine is an executable step function: what one action does to the state, `none` where the action
cannot happen. A run is a list of actions. A guard is a condition on the action and the state it is
taken in; `Guarded` says that every step of a run meets it, and `run_invariant` is the induction every
safety result over runs uses.
-/

namespace Interleaving

section
variable {σ α : Type} (step : σ → α → Option σ)

/-- The state after a list of actions. -/
def runFrom : σ → List α → Option σ
  | s, [] => some s
  | s, a :: as => (step s a).bind fun s' => runFrom s' as

/-- Every action of the run is taken in a state the guard allows. -/
def Guarded (ok : σ → α → Prop) : σ → List α → Prop
  | _, [] => True
  | s, a :: as => ok s a ∧ ∀ s', step s a = some s' → Guarded ok s' as

/-- What is observed of a run: of each step, in the state it is taken in. -/
def observed {ε : Type} (obs : σ → α → List ε) : σ → List α → List ε
  | _, [] => []
  | s, a :: as => obs s a ++ (step s a).elim [] fun s' => observed obs s' as

variable {step}

theorem runFrom_cons {s s' : σ} {a : α} {as : List α} (h : runFrom step s (a :: as) = some s') :
    ∃ s1, step s a = some s1 ∧ runFrom step s1 as = some s' := by
  simpa [runFrom, Option.bind_eq_some_iff] using h

theorem guarded_true : ∀ (s : σ) (as : List α), Guarded step (fun _ _ => True) s as
  | _, [] => trivial
  | _, _ :: as => ⟨trivial, fun s' _ => guarded_true s' as⟩

instance Guarded.decidable {ok : σ → α → Prop} [∀ s a, Decidable (ok s a)] :
    ∀ (s : σ) (as : List α), Decidable (Guarded step ok s as)
  | _, [] => isTrue trivial
  | s, a :: as =>
    match h : step s a with
    | none => decidable_of_iff (ok s a) ⟨fun ha => ⟨ha, fun _ hs => nomatch h.symm.trans hs⟩, And.left⟩
    | some s1 =>
      have : Decidable (Guarded step ok s1 as) := Guarded.decidable s1 as
      decidable_of_iff (ok s a ∧ Guarded step ok s1 as)
        ⟨fun ⟨ha, hs⟩ => ⟨ha, fun _ hs' => Option.some.inj (h.symm.trans hs') ▸ hs⟩, fun ⟨ha, hs⟩ => ⟨ha, hs s1 h⟩⟩

/-- A guard may be replaced by one it implies. -/
theorem Guarded.mono {ok ok' : σ → α → Prop} (h : ∀ s a, ok s a → ok' s a) :
    ∀ {s : σ} {as : List α}, Guarded step ok s as → Guarded step ok' s as
  | _, [], _ => trivial
  | _, _ :: _, ⟨h1, h2⟩ => ⟨h _ _ h1, fun s' hs => (h2 s' hs).mono h⟩

/-- Two guards that each allow every step. -/
theorem Guarded.and {ok ok' : σ → α → Prop} : ∀ {s : σ} {as : List α}, Guarded step ok s as →
    Guarded step ok' s as → Guarded step (fun s a => ok s a ∧ ok' s a) s as
  | _, [], _, _ => trivial
  | _, _ :: _, ⟨h1, h2⟩, ⟨h1', h2'⟩ => ⟨⟨h1, h1'⟩, fun s' hs => (h2 s' hs).and (h2' s' hs)⟩

/-- Actions the guard allows in any state. -/
theorem guarded_always {ok : σ → α → Prop} : ∀ {as : List α} (s : σ), (∀ a ∈ as, ∀ s, ok s a) → Guarded step ok s as
  | [], _, _ => trivial
  | a :: _, s, h =>
    ⟨h a List.mem_cons_self s, fun s' _ => guarded_always s' fun b hb => h b (List.mem_cons_of_mem a hb)⟩

/-- One guarded run after another. -/
theorem Guarded.append {ok : σ → α → Prop} {s : σ} {as bs : List α} (h : Guarded step ok s as)
    (h' : ∀ s', runFrom step s as = some s' → Guarded step ok s' bs) : Guarded step ok s (as ++ bs) := by
  induction as generalizing s with
  | nil => exact h' s rfl
  | cons a as ih =>
    refine ⟨h.1, fun s1 h1 => ih (h.2 s1 h1) fun s' hs => h' s' ?_⟩
    simp [runFrom, h1, hs]

/-- The first part of a guarded run, and the rest from where it leads. -/
theorem guarded_append {ok : σ → α → Prop} {s : σ} {as bs : List α} (h : Guarded step ok s (as ++ bs)) :
    Guarded step ok s as ∧ ∀ s', runFrom step s as = some s' → Guarded step ok s' bs := by
  induction as generalizing s with
  | nil =>
    refine ⟨trivial, fun s' hs => ?_⟩
    cases hs
    exact h
  | cons a as ih =>
    refine ⟨⟨h.1, fun s1 h1 => (ih (h.2 s1 h1)).1⟩, fun s' hs => ?_⟩
    obtain ⟨s1, h1, h2⟩ := runFrom_cons hs
    exact (ih (h.2 s1 h1)).2 s' h2

/-- What holds at the start and is kept by every allowed step holds after every allowed run. -/
theorem run_invariant {ok : σ → α → Prop} {I : σ → Prop}
    (hstep : ∀ s a s', I s → ok s a → step s a = some s' → I s') {s s' : σ} {as : List α}
    (hs : I s) (hok : Guarded step ok s as) (h : runFrom step s as = some s') : I s' := by
  induction as generalizing s with
  | nil =>
    simp only [runFrom, Option.some.injEq] at h
    exact h ▸ hs
  | cons a as ih =>
    obtain ⟨s1, h1, h2⟩ := runFrom_cons h
    exact ih (hstep s a s1 hs hok.1 h1) (hok.2 s1 h1) h2

/-- A guard may be replaced by one it implies in the states an invariant holds of. -/
theorem Guarded.under {ok ok' : σ → α → Prop} {I : σ → Prop} (hstep : ∀ s a s', I s → step s a = some s' → I s')
    (himp : ∀ s a, I s → ok s a → ok' s a) {s : σ} {as : List α} (hs : I s) (h : Guarded step ok s as) :
    Guarded step ok' s as := by
  induction as generalizing s with
  | nil => trivial
  | cons a as ih => exact ⟨himp s a hs h.1, fun s' hs' => ih (hstep s a s' hs hs') (h.2 s' hs')⟩

/-- A guard that asks nothing of the action is met in every state on the way. -/
theorem guarded_prefix {I : σ → Prop} {s : σ} {as : List α} (h : Guarded step (fun s _ => I s) s as)
    (hend : ∀ s', runFrom step s as = some s' → I s') (k : Nat) {s' : σ} (hs : runFrom step s (as.take k) = some s') :
    I s' := by
  induction as generalizing s k with
  | nil => exact hend s' (by simpa using hs)
  | cons a as ih =>
    cases k with
    | zero =>
      cases hs
      exact h.1
    | succ k =>
      obtain ⟨s1, h1, h2⟩ := runFrom_cons hs
      refine ih (h.2 s1 h1) (fun s2 hs2 => hend s2 ?_) k h2
      rw [runFrom, h1]
      exact hs2

/-- A machine each allowed step of which is, seen through `view`, no step or one guarded step of another: so are its
allowed runs. -/
theorem run_simulated {τ β : Type} {step' : τ → β → Option τ} {ok : σ → α → Prop} {ok' : τ → β → Prop} {I : σ → Prop}
    (view : σ → τ) (hstep : ∀ s a s', I s → ok s a → step s a = some s' →
      I s' ∧ (view s' = view s ∨ ∃ b, ok' (view s) b ∧ step' (view s) b = some (view s')))
    {s s' : σ} {as : List α} (hs : I s) (hok : Guarded step ok s as) (h : runFrom step s as = some s') :
    ∃ bs, Guarded step' ok' (view s) bs ∧ runFrom step' (view s) bs = some (view s') := by
  induction as generalizing s with
  | nil =>
    cases h
    exact ⟨[], trivial, rfl⟩
  | cons a as ih =>
    obtain ⟨s1, h1, h2⟩ := runFrom_cons h
    obtain ⟨hi, hview⟩ := hstep s a s1 hs hok.1 h1
    obtain ⟨bs, hguard, hrun⟩ := ih hi (hok.2 s1 h1) h2
    rcases hview with hview | ⟨b, hb', hb⟩
    · rw [hview] at hguard hrun
      exact ⟨bs, hguard, hrun⟩
    · refine ⟨b :: bs, ⟨hb', fun s2 h2 => ?_⟩, ?_⟩
      · obtain rfl : view s1 = s2 := by simpa [hb] using h2
        exact hguard
      · simp [runFrom, hb, hrun]

/-- What is observed of two runs in a row. -/
theorem observed_append {ε : Type} {obs : σ → α → List ε} {s s' : σ} {as bs : List α}
    (h : runFrom step s as = some s') :
    observed step obs s (as ++ bs) = observed step obs s as ++ observed step obs s' bs := by
  induction as generalizing s with
  | nil =>
    cases h
    rfl
  | cons a as ih =>
    obtain ⟨s1, h1, h2⟩ := runFrom_cons h
    simp [observed, h1, ih h2]

/-- The same of what has been observed, of two kinds, and the state it has led to. -/
theorem run_observed_both {ε ε' : Type} (obs : σ → α → List ε) (obs' : σ → α → List ε') (es : List ε) (es' : List ε')
    {ok : σ → α → Prop} {I : List ε → List ε' → σ → Prop}
    (hstep : ∀ es es' s a s', I es es' s → ok s a → step s a = some s' → I (es ++ obs s a) (es' ++ obs' s a) s')
    {s s' : σ} {as : List α} (hs : I es es' s) (hok : Guarded step ok s as) (h : runFrom step s as = some s') :
    I (es ++ observed step obs s as) (es' ++ observed step obs' s as) s' := by
  induction as generalizing es es' s with
  | nil =>
    simp only [runFrom, Option.some.injEq] at h
    simpa [observed, h] using hs
  | cons a as ih =>
    obtain ⟨s1, h1, h2⟩ := runFrom_cons h
    have hrest := ih (es ++ obs s a) (es' ++ obs' s a) (hstep es es' s a s1 hs hok.1 h1) (hok.2 s1 h1) h2
    rwa [observed, observed, h1, Option.elim_some, Option.elim_some, ← List.append_assoc, ← List.append_assoc]

/-- The case of one kind. -/
theorem run_observed {ε : Type} (obs : σ → α → List ε) (es : List ε) {ok : σ → α → Prop} {I : List ε → σ → Prop}
    (hstep : ∀ es s a s', I es s → ok s a → step s a = some s' → I (es ++ obs s a) s') {s s' : σ}
    {as : List α} (hs : I es s) (hok : Guarded step ok s as) (h : runFrom step s as = some s') :
    I (es ++ observed step obs s as) s' :=
  run_observed_both obs (fun _ _ => ([] : List Unit)) es [] (fun es _ s a s' => hstep es s a s') hs hok h

end

end Interleaving
