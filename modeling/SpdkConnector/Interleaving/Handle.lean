import SpdkConnector.Interleaving.Program

/-!
# Programs inside programs

`p.handle f` runs `p` and goes on as its outcome decides. Sequencing, `tryCatch` and `finally'` are of this form, so
a call deep inside an operation is still that call, handled (`handle_handle`), and what is known of the calls of a
program carries over to every program built around it (`Along.handle`).

| here | meaning |
| --- | --- |
| `Prog.handle` | what follows a program, by its outcome |
| `Watch`, `Along` | what is tracked along a program's answers, and what has to be true where it issues a command |
| `Pool.run_handle` | a thread of a pool runs the inner program as the program runs alone |
-/

namespace Interleaving

variable {σ J J' V C : Type} {R : C → Type} {ε α β δ Ch : Type}

namespace Prog

def handle : Prog C R ε α → (Except ε α → Prog C R ε β) → Prog C R ε β
  | .pure a, f => f (.ok a)
  | .throw x, f => f (.error x)
  | .call c k, f => .call c fun r => handle (k r) f

theorem handle_handle {f : Except ε α → Prog C R ε β} {h : Except ε β → Prog C R ε δ} (p : Prog C R ε α) :
    (p.handle f).handle h = p.handle fun o => (f o).handle h := by
  induction p with
  | pure a => rfl
  | throw x => rfl
  | call c k ih => simp [handle, ih]

theorem handle_ofExcept (p : Prog C R ε α) : p.handle ofExcept = p := by
  induction p with
  | pure a => rfl
  | throw x => rfl
  | call c k ih => simp [handle, ih]

theorem bind_eq_handle (p : Prog C R ε α) (f : α → Prog C R ε β) :
    p.bind f = p.handle fun o => (ofExcept o).bind f := by
  induction p with
  | pure a => rfl
  | throw x => rfl
  | call c k ih => simp [handle, Prog.bind, ih]

theorem tryCatch_eq_handle (p : Prog C R ε α) (h : ε → Prog C R ε α) :
    p.tryCatch h = p.handle fun o => (ofExcept o).tryCatch h := by
  induction p with
  | pure a => rfl
  | throw x => rfl
  | call c k ih => simp [handle, Prog.tryCatch, ih]

theorem finally_eq_handle (p : Prog C R ε α) (q : Prog C R ε Unit) :
    p.finally' q = p.handle fun o => q.bind fun _ => ofExcept o := by
  induction p with
  | pure a => rfl
  | throw x => rfl
  | call c k ih => simp [handle, Prog.finally', ih]

end Prog

/-! ## Along a program -/

/-- What is followed along a program: `next` is how an answer moves it, `fine` what has to be true where a command
is issued. -/
structure Watch (V C : Type) (R : C → Type) (ε : Type) where
  next : (c : C) → V → R c → V → Prop
  fine : {α : Type} → V → (c : C) → (R c → Prog C R ε α) → Prop
  fine_handle : ∀ {α β : Type} {v : V} {c : C} {k : R c → Prog C R ε α} (f : Except ε α → Prog C R ε β),
    fine v c k → fine v c fun r => (k r).handle f

/-- Every command is fine where it is issued, whatever the answers before it, and the outcome meets `Q`. -/
def Along (W : Watch V C R ε) : Prog C R ε α → V → (Except ε α → V → Prop) → Prop
  | .pure a, v, Q => Q (.ok a) v
  | .throw x, v, Q => Q (.error x) v
  | .call c k, v, Q => W.fine v c k ∧ ∀ r v', W.next c v r v' → Along W (k r) v' Q

namespace Along

variable {W : Watch V C R ε} {Q Q' : Except ε α → V → Prop} {v : V}

theorem mono {p : Prog C R ε α} (h : Along W p v Q) (hq : ∀ o v', Q o v' → Q' o v') : Along W p v Q' := by
  induction p generalizing v with
  | pure a => exact hq _ _ h
  | throw x => exact hq _ _ h
  | call c k ih => exact ⟨h.1, fun r v' hn => ih r (h.2 r v' hn)⟩

/-- **What follows**: a program inside another one. -/
theorem handle {p : Prog C R ε α} {f : Except ε α → Prog C R ε β} {Q : Except ε β → V → Prop}
    (h : Along W p v fun o v' => Along W (f o) v' Q) : Along W (p.handle f) v Q := by
  induction p generalizing v with
  | pure a => exact h
  | throw x => exact h
  | call c k ih => exact ⟨W.fine_handle f h.1, fun r v' hn => ih r (h.2 r v' hn)⟩

theorem pure {a : α} (h : Q (.ok a) v) : Along W (.pure a) v Q := h

theorem ofExcept {o : Except ε α} (h : Q o v) : Along W (Prog.ofExcept o) v Q := by
  cases o <;> exact h

/-- Sequencing. -/
theorem seq {p : Prog C R ε α} {f : α → Prog C R ε β} {Q : Except ε β → V → Prop}
    (h : Along W p v fun o v' => match o with
      | .ok a => Along W (f a) v' Q
      | .error x => Q (.error x) v') : Along W (p.bind f) v Q := by
  rw [Prog.bind_eq_handle]
  refine handle (h.mono fun o v' ho => ?_)
  cases o <;> exact ho

theorem tryCatch {p : Prog C R ε α} {f : ε → Prog C R ε α}
    (h : Along W p v fun o v' => match o with
      | .ok a => Q (.ok a) v'
      | .error x => Along W (f x) v' Q) : Along W (p.tryCatch f) v Q := by
  rw [Prog.tryCatch_eq_handle]
  refine handle (h.mono fun o v' ho => ?_)
  cases o <;> exact ho

/-- A destructor. -/
theorem guarded {p : Prog C R ε α} {q : Prog C R ε Unit}
    (h : Along W p v fun o v' => Along W q v' fun o' v'' => match o' with
      | .ok _ => Q o v''
      | .error x => Q (.error x) v'') : Along W (p.finally' q) v Q := by
  rw [Prog.finally_eq_handle]
  refine handle (h.mono fun o v' ho => seq (ho.mono fun o' v'' hq => ?_))
  cases o' with
  | ok u => exact ofExcept hq
  | error x => exact hq

end Along

/-! ## A thread runs the inner program -/

theorem Pool.run_append {M : Machine σ J C R ε α Ch} {P P' : Pool σ J C R ε α} {as bs : List (Act J Ch)}
    (h : P.run M as = some P') : P.run M (as ++ bs) = P'.run M bs := by
  induction as generalizing P with
  | nil =>
    cases h
    rfl
  | cons a as ih =>
    simp only [Pool.run, Option.bind_eq_some_iff] at h
    obtain ⟨P1, h1, h2⟩ := h
    simp [Pool.run, h1, ih h2]

/-- What a program does alone, a thread that is at it does, the other threads waiting. -/
theorem Pool.run_handle {M : Machine σ J C R ε β Ch} {M' : Machine σ J' C R ε α Ch} (hexec : M'.exec = M.exec)
    {t : Nat} {j : J} {choose : Nat → Ch} {p : Prog C R ε α} {f : Except ε α → Prog C R ε β} {n n' : Nat}
    {s' : σ} {o : Except ε α} {P : Pool σ J C R ε β} (hrun : p.run M' t choose n P.shared = some (o, n', s'))
    (ht : P.tasks t = some ⟨j, p.handle f⟩) :
    ∃ as, P.run M as = some { P with shared := s', tasks := Function.update P.tasks t (some ⟨j, f o⟩) } := by
  have hstay : ∀ {q : Prog C R ε β}, P.tasks t = some ⟨j, q⟩ →
      { P with tasks := Function.update P.tasks t (some ⟨j, q⟩) } = P := by
    intro q hq
    rw [← hq, Function.update_eq_self]
  induction p generalizing n P with
  | pure a =>
    cases hrun
    exact ⟨[], congrArg some (hstay ht).symm⟩
  | throw x =>
    cases hrun
    exact ⟨[], congrArg some (hstay ht).symm⟩
  | call c k ih =>
    simp only [Prog.run] at hrun
    split at hrun
    · rename_i r s1 he
      rw [hexec] at he
      obtain ⟨as, has⟩ := ih r (P := { P with shared := s1, tasks := Function.update P.tasks t (some ⟨j, (k r).handle f⟩) })
        hrun (Function.update_self ..) fun hq => by rw [← hq, Function.update_eq_self]
      refine ⟨.step t (choose n) :: as, ?_⟩
      simp only [Pool.run, Pool.act, ht, Prog.handle, he, Option.bind_some]
      simpa using has
    · cases hrun

end Interleaving
