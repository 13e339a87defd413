import SpdkConnector.Interleaving.Logic

/-!
# The commands a program performs

A log lists commands with their answers. `Yields p ℓ o`: answered as in `ℓ`, the program `p` performs the
commands of `ℓ` and ends in `o`. This depends on the program alone, so what is proved about the logs of a
program holds under every interleaving (`Pool.run_follows`). `Execs` runs a log alone on a state.
-/

namespace Interleaving

variable {σ J C : Type} {R : C → Type} {ε α β Ch : Type}

/-- A command with its answer. -/
abbrev Event (C : Type) (R : C → Type) := (c : C) × R c

/-- The log leads from one program to what is left of it. -/
inductive Follows : Prog C R ε α → List (Event C R) → Prog C R ε α → Prop
  | done (p) : Follows p [] p
  | call {c k r ℓ q} (h : Follows (k r) ℓ q) : Follows (.call c k) (⟨c, r⟩ :: ℓ) q

/-- Answered as in the log, the program ends in the outcome. -/
inductive Yields : Prog C R ε α → List (Event C R) → Except ε α → Prop
  | pure (a) : Yields (.pure a) [] (.ok a)
  | throw (e) : Yields (.throw e) [] (.error e)
  | call {c k r ℓ o} (h : Yields (k r) ℓ o) : Yields (.call c k) (⟨c, r⟩ :: ℓ) o

theorem Follows.yields {p q : Prog C R ε α} {ℓ : List (Event C R)} {o : Except ε α} (h : Follows p ℓ q)
    (ho : q.result? = some o) : Yields p ℓ o := by
  induction h with
  | done p =>
    cases p with
    | pure a => cases ho; exact .pure a
    | throw e => cases ho; exact .throw e
    | call c k => cases ho
  | call _ ih => exact .call (ih ho)

namespace Yields

variable {ℓ : List (Event C R)} {p : Prog C R ε α}

theorem of_pure {a : α} {o : Except ε α} (h : Yields (Prog.pure a : Prog C R ε α) ℓ o) :
    ℓ = [] ∧ o = .ok a := by
  cases h
  exact ⟨rfl, rfl⟩

theorem of_throw {e : ε} {o : Except ε α} (h : Yields (Prog.throw e : Prog C R ε α) ℓ o) :
    ℓ = [] ∧ o = .error e := by
  cases h
  exact ⟨rfl, rfl⟩

theorem of_call {c : C} {k : R c → Prog C R ε α} {o : Except ε α} (h : Yields (.call c k) ℓ o) :
    ∃ r ℓ', ℓ = ⟨c, r⟩ :: ℓ' ∧ Yields (k r) ℓ' o := by
  cases h with
  | call h => exact ⟨_, _, rfl, h⟩

/-- One command, and what follows it. -/
theorem of_perform {c : C} {f : R c → Prog C R ε β} {o : Except ε β}
    (h : Yields ((Prog.perform c).bind f) ℓ o) : ∃ r ℓ', ℓ = ⟨c, r⟩ :: ℓ' ∧ Yields (f r) ℓ' o :=
  of_call h

/-- A sequence throws with its first part, or goes on with its second. -/
theorem of_bind {f : α → Prog C R ε β} {o : Except ε β} (h : Yields (p.bind f) ℓ o) :
    (∃ e, o = .error e ∧ Yields p ℓ (.error e)) ∨
    ∃ a ℓ1 ℓ2, ℓ = ℓ1 ++ ℓ2 ∧ Yields p ℓ1 (.ok a) ∧ Yields (f a) ℓ2 o := by
  induction p generalizing ℓ with
  | pure a => exact .inr ⟨a, [], ℓ, rfl, .pure a, h⟩
  | throw e =>
    obtain ⟨rfl, rfl⟩ := of_throw h
    exact .inl ⟨e, rfl, .throw e⟩
  | call c k ih =>
    obtain ⟨r, ℓ', rfl, h'⟩ := of_call h
    rcases ih r h' with ⟨e, rfl, h1⟩ | ⟨a, ℓ1, ℓ2, rfl, h1, h2⟩
    · exact .inl ⟨e, rfl, .call h1⟩
    · exact .inr ⟨a, _ :: ℓ1, ℓ2, rfl, .call h1, h2⟩

/-- A `try` block returns, or its handler runs after it. -/
theorem of_tryCatch {f : ε → Prog C R ε α} {o : Except ε α} (h : Yields (p.tryCatch f) ℓ o) :
    (∃ a, o = .ok a ∧ Yields p ℓ (.ok a)) ∨
    ∃ e ℓ1 ℓ2, ℓ = ℓ1 ++ ℓ2 ∧ Yields p ℓ1 (.error e) ∧ Yields (f e) ℓ2 o := by
  induction p generalizing ℓ with
  | pure a =>
    obtain ⟨rfl, rfl⟩ := of_pure h
    exact .inl ⟨a, rfl, .pure a⟩
  | throw e => exact .inr ⟨e, [], ℓ, rfl, .throw e, h⟩
  | call c k ih =>
    obtain ⟨r, ℓ', rfl, h'⟩ := of_call h
    rcases ih r h' with ⟨a, rfl, h1⟩ | ⟨e, ℓ1, ℓ2, rfl, h1, h2⟩
    · exact .inl ⟨a, rfl, .call h1⟩
    · exact .inr ⟨e, _ :: ℓ1, ℓ2, rfl, .call h1, h2⟩

/-- A destructor runs last, and what it throws replaces the outcome. -/
theorem of_finally {q : Prog C R ε Unit} {o : Except ε α} (h : Yields (p.finally' q) ℓ o) :
    ∃ o' ℓ1 ℓ2 u, ℓ = ℓ1 ++ ℓ2 ∧ Yields p ℓ1 o' ∧ Yields q ℓ2 u ∧
      ((∃ x, u = .ok x ∧ o = o') ∨ ∃ e, u = .error e ∧ o = .error e) := by
  induction p generalizing ℓ with
  | pure a =>
    rcases of_bind h with ⟨e, rfl, h1⟩ | ⟨u, ℓ1, ℓ2, rfl, h1, h2⟩
    · exact ⟨_, [], ℓ, _, rfl, .pure a, h1, .inr ⟨e, rfl, rfl⟩⟩
    · obtain ⟨rfl, rfl⟩ := of_pure h2
      exact ⟨_, [], ℓ1, _, by simp, .pure a, h1, .inl ⟨u, rfl, rfl⟩⟩
  | throw x =>
    rcases of_bind h with ⟨e, rfl, h1⟩ | ⟨u, ℓ1, ℓ2, rfl, h1, h2⟩
    · exact ⟨_, [], ℓ, _, rfl, .throw x, h1, .inr ⟨e, rfl, rfl⟩⟩
    · obtain ⟨rfl, rfl⟩ := of_throw h2
      exact ⟨_, [], ℓ1, _, by simp, .throw x, h1, .inl ⟨u, rfl, rfl⟩⟩
  | call c k ih =>
    obtain ⟨r, ℓ', rfl, h'⟩ := of_call h
    obtain ⟨o', ℓ1, ℓ2, u, rfl, h1, h2, h3⟩ := ih r h'
    exact ⟨o', _ :: ℓ1, ℓ2, u, rfl, .call h1, h2, h3⟩

end Yields

/-! ## Programs of some commands only -/

/-- Every command the program can perform is one of `φ`. -/
def Only (φ : C → Prop) : Prog C R ε α → Prop
  | .pure _ | .throw _ => True
  | .call c k => φ c ∧ ∀ r, Only φ (k r)

theorem Only.bind {φ : C → Prop} {p : Prog C R ε α} {f : α → Prog C R ε β} (hp : Only φ p)
    (hf : ∀ a, Only φ (f a)) : Only φ (p.bind f) := by
  induction p with
  | pure a => exact hf a
  | throw e => exact trivial
  | call c k ih => exact ⟨hp.1, fun r => ih r (hp.2 r)⟩

theorem Only.finally {φ : C → Prop} {p : Prog C R ε α} {q : Prog C R ε Unit} (hp : Only φ p)
    (hq : Only φ q) : Only φ (p.finally' q) := by
  induction p with
  | pure a => exact hq.bind fun _ => trivial
  | throw e => exact hq.bind fun _ => trivial
  | call c k ih => exact ⟨hp.1, fun r => ih r (hp.2 r)⟩

theorem Only.ofExcept {φ : C → Prop} (x : Except ε α) : Only φ (Prog.ofExcept x : Prog C R ε α) := by
  cases x <;> exact trivial

theorem Only.yields {φ : C → Prop} {p : Prog C R ε α} {ℓ : List (Event C R)} {o : Except ε α}
    (hp : Only φ p) (h : Yields p ℓ o) : ∀ ev ∈ ℓ, φ ev.1 := by
  induction h with
  | pure a => nofun
  | throw e => nofun
  | call _ ih =>
    intro ev hev
    rcases List.mem_cons.1 hev with rfl | hev
    · exact hp.1
    · exact ih (hp.2 _) ev hev

/-! ## Logs on a state -/

variable {M : Machine σ J C R ε α Ch}

/-- Thread `t` alone performs the log. -/
inductive Execs (M : Machine σ J C R ε α Ch) (t : Nat) : σ → List (Event C R) → σ → Prop
  | done (s) : Execs M t s [] s
  | step {s c ch r s1 ℓ s'} (h : M.exec t c ch s = some (r, s1)) (hr : Execs M t s1 ℓ s') :
      Execs M t s (⟨c, r⟩ :: ℓ) s'

theorem Execs.append_inv {t : Nat} {s s' : σ} {ℓ1 ℓ2 : List (Event C R)} (h : Execs M t s (ℓ1 ++ ℓ2) s') :
    ∃ s1, Execs M t s ℓ1 s1 ∧ Execs M t s1 ℓ2 s' := by
  induction ℓ1 generalizing s with
  | nil => exact ⟨s, .done s, h⟩
  | cons ev ℓ1 ih =>
    cases h with
    | step he hr =>
      obtain ⟨s1, h1, h2⟩ := ih hr
      exact ⟨s1, .step he h1, h2⟩

/-- A run of one program alone has a log. -/
theorem Prog.run_log {t : Nat} {choose : Nat → Ch} {p : Prog C R ε α} {n n' : Nat} {s s' : σ}
    {o : Except ε α} (h : p.run M t choose n s = some (o, n', s')) : ∃ ℓ, Yields p ℓ o ∧ Execs M t s ℓ s' := by
  induction p generalizing n s with
  | pure a =>
    cases h
    exact ⟨[], .pure a, .done _⟩
  | throw e =>
    cases h
    exact ⟨[], .throw e, .done _⟩
  | call c k ih =>
    simp only [Prog.run] at h
    split at h
    · rename_i r s1 he
      obtain ⟨ℓ, h1, h2⟩ := ih r h
      exact ⟨⟨c, r⟩ :: ℓ, .call h1, .step he h2⟩
    · cases h

/-- The log of thread `t` in a run of the pool. -/
def Pool.commands (M : Machine σ J C R ε α Ch) (t : Nat) :
    Pool σ J C R ε α → List (Act J Ch) → List (Event C R)
  | _, [] => []
  | P, a :: as =>
    let own :=
      match a with
      | .step u ch =>
        match P.tasks u with
        | some ⟨_, .call c _⟩ => if u = t then (M.exec u c ch P.shared).toList.map fun x => ⟨c, x.1⟩ else []
        | _ => []
      | _ => []
    own ++ ((P.act M a).map fun P' => Pool.commands M t P' as).getD []

/-- A thread whose job has returned does not run again. -/
theorem Pool.run_finished {t : Nat} {P P' : Pool σ J C R ε α} {as : List (Act J Ch)}
    (hd : ∃ d ∈ P.done, d.1 = t) (ht : P.tasks t = none) (h : P.run M as = some P') : P'.tasks t = none := by
  induction as generalizing P with
  | nil =>
    cases h
    exact ht
  | cons a as ih =>
    simp only [Pool.run, Option.bind_eq_some_iff] at h
    obtain ⟨P1, h1, h2⟩ := h
    obtain ⟨d, hd, hdt⟩ := hd
    refine ih ?_ (Pool.act_tasks h1 ht ?_) h2
    · obtain ⟨u, j, -, -, -, rfl⟩ | ⟨u, ch, j, c, k, r, s, -, -, -, rfl⟩ | ⟨u, j, p, o, -, -, -, rfl⟩ :=
        Pool.act_cases h1
      · exact ⟨d, hd, hdt⟩
      · exact ⟨d, hd, hdt⟩
      · exact ⟨d, List.mem_append_left _ hd, hdt⟩
    · rintro j rfl
      obtain ⟨u, j', ha, -, hnew, -⟩ | ⟨_, _, _, _, _, _, _, ha, _⟩ | ⟨_, _, _, _, ha, _⟩ := Pool.act_cases h1
      · cases ha
        exact hnew d hd hdt
      · cases ha
      · cases ha

/-- **Under every interleaving** a running task follows its own program, answered as in its log. -/
theorem Pool.run_follows {t : Nat} {P P' : Pool σ J C R ε α} {as : List (Act J Ch)} {j j' : J}
    {p q : Prog C R ε α} (ht : P.tasks t = some ⟨j, p⟩) (h : P.run M as = some P')
    (ht' : P'.tasks t = some ⟨j', q⟩) : j' = j ∧ Follows p (Pool.commands M t P as) q := by
  induction as generalizing P p with
  | nil =>
    cases h
    rw [ht] at ht'
    cases ht'
    exact ⟨rfl, .done _⟩
  | cons a as ih =>
    simp only [Pool.run, Option.bind_eq_some_iff] at h
    obtain ⟨P1, h1, h2⟩ := h
    simp only [Pool.commands, h1, Option.map_some, Option.getD_some]
    obtain ⟨u, j1, rfl, hu, -, rfl⟩ | ⟨u, ch, j1, c, k, r, s, rfl, hu, he, rfl⟩ | ⟨u, j1, p1, o, rfl, hu, -, rfl⟩ :=
      Pool.act_cases h1
    · have hne : t ≠ u := by
        rintro rfl
        rw [ht] at hu
        cases hu
      exact ih (by simpa [hne] using ht) h2
    · by_cases hut : u = t
      · subst hut
        rw [ht] at hu
        cases hu
        obtain ⟨hj, hf⟩ := ih (P := { P with shared := s, tasks := Function.update P.tasks u (some ⟨j, k r⟩) })
          (p := k r) (by simp) h2
        refine ⟨hj, ?_⟩
        simp only [ht, if_true, he, Option.toList_some, List.map_cons, List.map_nil, List.singleton_append]
        exact .call hf
      · simp only [hu, if_neg hut, List.nil_append]
        exact ih (by simpa [Ne.symm hut] using ht) h2
    · have hne : t ≠ u := by
        rintro rfl
        have hgone := Pool.run_finished (t := t) (M := M)
          (P := { P with tasks := Function.update P.tasks t none, done := P.done ++ [(t, j1, o)] })
          ⟨_, List.mem_append_right _ (List.mem_singleton_self _), rfl⟩ (by simp) h2
        rw [hgone] at ht'
        cases ht'
      exact ih (by simpa [hne] using ht) h2

/-- When only thread `t` moves, its log is what happens to the state. -/
theorem Pool.run_alone {t : Nat} {P P' : Pool σ J C R ε α} {as : List (Act J Ch)}
    (halone : ∀ a ∈ as, ∃ ch, a = .step t ch) (h : P.run M as = some P') :
    Execs M t P.shared (Pool.commands M t P as) P'.shared := by
  induction as generalizing P with
  | nil =>
    cases h
    exact .done _
  | cons a as ih =>
    simp only [Pool.run, Option.bind_eq_some_iff] at h
    obtain ⟨P1, h1, h2⟩ := h
    obtain ⟨ch, rfl⟩ := halone a (by simp)
    have ih' := ih (fun b hb => halone b (List.mem_cons_of_mem _ hb)) h2
    simp only [Pool.commands, h1, Option.map_some, Option.getD_some]
    obtain ⟨u, j1, ha, -⟩ | ⟨u, ch', j1, c, k, r, s, ha, hu, he, rfl⟩ | ⟨u, j1, p1, o, ha, -⟩ :=
      Pool.act_cases h1
    · cases ha
    · cases ha
      simp only [hu, if_true, he, Option.toList_some, List.map_cons, List.map_nil, List.singleton_append]
      exact .step he ih'
    · cases ha

/-- **Soundness for a log alone**: a verified program whose log is performed ends in its postcondition, and
the views of the other threads stay true. -/
theorem LocalLogic.execs_sound {γ V : Type} {L : LocalLogic M γ V} {j : J} {t : Nat} {p : Prog C R ε β}
    {ℓ : List (Event C R)} {o : Except ε β} {Q : Except ε β → V → Prop} (hy : Yields p ℓ o) :
    ∀ {s s' : σ} {v : V} {g : γ}, Execs M t s ℓ s' → L.inv s g → L.view t v s g → L.wp j p v Q →
      ∃ g' v', (L.inv s' g' ∧ L.grows g g') ∧ L.view t v' s' g' ∧ Q o v' ∧
        ∀ u w, u ≠ t → L.view u w s g → L.view u w s' g' := by
  induction hy with
  | pure a =>
    intro s s' v g hx hi hv hw
    cases hx
    obtain ⟨v', hm, hq⟩ := hw
    obtain ⟨g', ⟨hi', hg'⟩, hv', hf⟩ := moves_sound hi hv hm
    exact ⟨g', v', ⟨hi', hg'⟩, hv', hq (L.view_wf hi' hv'), hf⟩
  | throw e =>
    intro s s' v g hx hi hv hw
    cases hx
    obtain ⟨v', hm, hq⟩ := hw
    obtain ⟨g', ⟨hi', hg'⟩, hv', hf⟩ := moves_sound hi hv hm
    exact ⟨g', v', ⟨hi', hg'⟩, hv', hq (L.view_wf hi' hv'), hf⟩
  | call _ ih =>
    intro s s' v g hx hi hv hw
    cases hx with
    | step he hr =>
      obtain ⟨v0, hm, hw⟩ := hw
      obtain ⟨g0, ⟨hi0, hg0⟩, hv0, hf0⟩ := moves_sound hi hv hm
      obtain ⟨hpre, hk⟩ := hw (L.view_wf hi0 hv0)
      obtain ⟨g1, v1, ⟨hi1, hg1⟩, hv1, hpost, hf1⟩ := L.step_sound hi0 hv0 hpre he
      obtain ⟨g', v', ⟨hi', hg'⟩, hv', hq, hf'⟩ := ih hr hi1 hv1 (hk _ v1 (L.view_wf hi1 hv1) hpost)
      exact ⟨g', v', ⟨hi', L.grows_trans hg0 (L.grows_trans hg1 hg')⟩, hv', hq,
        fun u w hu h => hf' u w hu (hf1 u w hu (hf0 u w hu h))⟩

end Interleaving
