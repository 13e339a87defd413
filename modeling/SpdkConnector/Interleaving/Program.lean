import Mathlib.Logic.Function.Basic
import Mathlib.Logic.Relation

/-!
# Programs over atomic commands, and pools of them

A program is a tree of atomic commands `C` (`R c` is the type of the answers to `c`) that ends with a
value or a thrown exception. A `Machine` executes commands on a shared state; the choice argument of
`exec` resolves whatever the command leaves open, and `none` means that it cannot run now (it waits
for a mutex).

A `Pool` runs any number of programs on one shared state, one command of one program at a time
(`Pool.act`). `Prog.run` runs one program alone to its end.
-/

namespace Interleaving

inductive Prog (C : Type) (R : C → Type) (ε α : Type) where
  | pure (a : α)
  | throw (e : ε)
  | call (c : C) (k : R c → Prog C R ε α)

namespace Prog

variable {C : Type} {R : C → Type} {ε α β : Type}

def bind : Prog C R ε α → (α → Prog C R ε β) → Prog C R ε β
  | .pure a, f => f a
  | .throw e, _ => .throw e
  | .call c k, f => .call c fun r => bind (k r) f

instance : Monad (Prog C R ε) where
  pure := .pure
  bind := bind

/-- One command. -/
def perform (c : C) : Prog C R ε (R c) := .call c .pure

def ofExcept : Except ε α → Prog C R ε α
  | .ok a => .pure a
  | .error e => .throw e

/-- `try { p } catch (...) { h }`. -/
def tryCatch : Prog C R ε α → (ε → Prog C R ε α) → Prog C R ε α
  | .pure a, _ => .pure a
  | .throw e, h => h e
  | .call c k, h => .call c fun r => tryCatch (k r) h

/-- A destructor: `q` runs when `p` is left, normally or by an exception. -/
def finally' : Prog C R ε α → Prog C R ε Unit → Prog C R ε α
  | .pure a, q => q.bind fun _ => .pure a
  | .throw e, q => q.bind fun _ => .throw e
  | .call c k, q => .call c fun r => finally' (k r) q

/-- The outcome of a program that has no command left. -/
def result? : Prog C R ε α → Option (Except ε α)
  | .pure a => some (.ok a)
  | .throw e => some (.error e)
  | .call _ _ => none

end Prog

/-- What the programs of one system run on: `exec` performs one command for thread `t`, `body` is
the program of a job. -/
structure Machine (σ J C : Type) (R : C → Type) (ε α Ch : Type) where
  exec : Nat → (c : C) → Ch → σ → Option (R c × σ)
  body : J → Prog C R ε α

variable {σ J C : Type} {R : C → Type} {ε α Ch : Type}

/-- A job and what is left of its program. -/
structure Task (J C : Type) (R : C → Type) (ε α : Type) where
  job : J
  prog : Prog C R ε α

/-- Running tasks by thread, and the finished ones in the order they returned. Every task has a
thread name of its own. -/
structure Pool (σ J C : Type) (R : C → Type) (ε α : Type) where
  shared : σ
  tasks : Nat → Option (Task J C R ε α)
  done : List (Nat × J × Except ε α)

def Pool.init (s : σ) : Pool σ J C R ε α := ⟨s, fun _ => none, []⟩

inductive Act (J Ch : Type) where
  | start (t : Nat) (j : J)
  | step (t : Nat) (ch : Ch)
  | finish (t : Nat)

/-- One step of the pool. -/
def Pool.act (M : Machine σ J C R ε α Ch) (P : Pool σ J C R ε α) :
    Act J Ch → Option (Pool σ J C R ε α)
  | .start t j =>
    if (P.tasks t).isNone ∧ ∀ d ∈ P.done, d.1 ≠ t then
      some { P with tasks := Function.update P.tasks t (some ⟨j, M.body j⟩) }
    else none
  | .step t ch =>
    match P.tasks t with
    | some ⟨j, .call c k⟩ =>
      match M.exec t c ch P.shared with
      | some (r, s) => some { P with shared := s, tasks := Function.update P.tasks t (some ⟨j, k r⟩) }
      | none => none
    | _ => none
  | .finish t =>
    match P.tasks t with
    | some ⟨j, p⟩ =>
      match p.result? with
      | some o => some { P with tasks := Function.update P.tasks t none, done := P.done ++ [(t, j, o)] }
      | none => none
    | none => none

/-- A run of the pool: any schedule, any choices. -/
def Pool.run (M : Machine σ J C R ε α Ch) :
    Pool σ J C R ε α → List (Act J Ch) → Option (Pool σ J C R ε α)
  | P, [] => some P
  | P, a :: as => (P.act M a).bind fun P' => Pool.run M P' as

/-- One program alone, to its end; `choose n` resolves its `n`-th command. -/
def Prog.run (M : Machine σ J C R ε α Ch) (t : Nat) (choose : Nat → Ch) :
    Prog C R ε α → Nat → σ → Option (Except ε α × Nat × σ)
  | .pure a, n, s => some (.ok a, n, s)
  | .throw e, n, s => some (.error e, n, s)
  | .call c k, n, s =>
    match M.exec t c (choose n) s with
    | some (r, s') => Prog.run M t choose (k r) (n + 1) s'
    | none => none

/-- What each kind of step does. -/
theorem Pool.act_cases {M : Machine σ J C R ε α Ch} {P P' : Pool σ J C R ε α} {a : Act J Ch}
    (h : P.act M a = some P') :
    (∃ t j, a = .start t j ∧ P.tasks t = none ∧ (∀ d ∈ P.done, d.1 ≠ t) ∧
      P' = { P with tasks := Function.update P.tasks t (some ⟨j, M.body j⟩) }) ∨
    (∃ t ch j c k r s, a = .step t ch ∧ P.tasks t = some ⟨j, .call c k⟩ ∧
      M.exec t c ch P.shared = some (r, s) ∧
      P' = { P with shared := s, tasks := Function.update P.tasks t (some ⟨j, k r⟩) }) ∨
    (∃ t j p o, a = .finish t ∧ P.tasks t = some ⟨j, p⟩ ∧ p.result? = some o ∧
      P' = { P with tasks := Function.update P.tasks t none, done := P.done ++ [(t, j, o)] }) := by
  cases a with
  | start t j =>
    simp only [Pool.act] at h
    split at h
    · rename_i hc
      cases h
      exact .inl ⟨t, j, rfl, by simpa using hc.1, hc.2, rfl⟩
    · cases h
  | step t ch =>
    simp only [Pool.act] at h
    split at h
    · rename_i j c k ht
      split at h
      · rename_i r s he
        cases h
        exact .inr (.inl ⟨t, ch, j, c, k, r, s, rfl, ht, he, rfl⟩)
      · cases h
    · cases h
  | finish t =>
    simp only [Pool.act] at h
    split at h
    · rename_i j p ht
      split at h
      · rename_i o ho
        cases h
        exact .inr (.inr ⟨t, j, p, o, rfl, ht, ho, rfl⟩)
      · cases h
    · cases h

/-- A step of one thread leaves the other threads' tasks alone. -/
theorem Pool.act_tasks {M : Machine σ J C R ε α Ch} {P P' : Pool σ J C R ε α} {a : Act J Ch}
    (h : P.act M a = some P') {t : Nat} (ht : P.tasks t = none) (hstart : ∀ j, a ≠ .start t j) : P'.tasks t = none := by
  obtain ⟨u, j, rfl, -, -, rfl⟩ | ⟨u, ch, j, c, k, r, s, rfl, hu, -, rfl⟩ | ⟨u, j, p, o, rfl, hu, -, rfl⟩ :=
    Pool.act_cases h
  · have hne : t ≠ u := fun h => hstart j (h ▸ rfl)
    simpa [hne] using ht
  · have hne : t ≠ u := by
      rintro rfl
      rw [ht] at hu
      cases hu
    simpa [hne] using ht
  · have hne : t ≠ u := by
      rintro rfl
      rw [ht] at hu
      cases hu
    simpa [hne] using ht

/-- A thread that a run does not start has no task in the end either. -/
theorem Pool.run_tasks {M : Machine σ J C R ε α Ch} {P P' : Pool σ J C R ε α} {as : List (Act J Ch)} {t : Nat}
    (h : P.run M as = some P') (ht : P.tasks t = none) (hstart : ∀ j, .start t j ∉ as) : P'.tasks t = none := by
  induction as generalizing P with
  | nil =>
    cases h
    exact ht
  | cons a as ih =>
    simp only [Pool.run, Option.bind_eq_some_iff] at h
    obtain ⟨P1, h1, h2⟩ := h
    refine ih h2 (Pool.act_tasks h1 ht fun j ha => ?_) fun j hmem => hstart j (List.mem_cons_of_mem a hmem)
    exact hstart j (ha ▸ List.mem_cons_self)

end Interleaving
