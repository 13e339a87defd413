import SpdkConnector.Interleaving.Machine
import SpdkConnector.Interleaving.Program

/-!
# Rely and guarantee for programs over atomic commands

A `Rely` says what may happen around a program: an invariant of the state, what the others may do between
two of its commands (`env`), and what its own commands do (`does`). `wp` verifies a program against it;
the postcondition must survive the others too.

`Rules` gives every thread and job of a machine its `Rely`; `together` says which jobs may run at the same
time, so that what one does is what the other expects. `verified_run` is soundness for every schedule
that keeps to it: a `Verified` pool stays one. `run_wp` is soundness for one program alone.
-/

namespace Interleaving

variable {σ J C : Type} {R : C → Type} {ε α β δ Ch : Type}

structure Rely (σ : Type) where
  inv : σ → Prop
  env : σ → σ → Prop
  does : σ → σ → Prop
  env_refl : ∀ s, env s s
  env_trans : ∀ {s1 s2 s3}, env s1 s2 → env s2 s3 → env s1 s3

namespace Rely

variable (G : Rely σ) (exec : (c : C) → Ch → σ → Option (R c × σ)) (luck : Ch → Prop)

/-- Weakest precondition: whatever the others do before each command, the command does what it may, and
the outcome satisfies `Q` even if they go on. `luck` restricts how commands turn out. -/
def wp : Prog C R ε β → σ → (Except ε β → σ → Prop) → Prop
  | .pure a, s, Q => ∀ s', G.env s s' → G.inv s' → Q (.ok a) s'
  | .throw e, s, Q => ∀ s', G.env s s' → G.inv s' → Q (.error e) s'
  | .call c k, s, Q => ∀ s', G.env s s' → G.inv s' → ∀ ch, luck ch → ∀ r s'', exec c ch s' = some (r, s'') →
      (G.does s' s'' ∧ G.inv s'') ∧ wp (k r) s'' Q

variable {G exec luck} {Q Q' : Except ε β → σ → Prop}

/-- What is verified stays so when the others move. -/
theorem wp_env {p : Prog C R ε β} {s s' : σ} (h : G.wp exec luck p s Q) (he : G.env s s') :
    G.wp exec luck p s' Q := by
  cases p with
  | pure a => exact fun s'' he' => h s'' (G.env_trans he he')
  | throw e => exact fun s'' he' => h s'' (G.env_trans he he')
  | call c k => exact fun s'' he' => h s'' (G.env_trans he he')

/-- A proof may let the others move first. -/
theorem wp_intro {p : Prog C R ε β} {s : σ} (h : ∀ s', G.env s s' → G.inv s' → G.wp exec luck p s' Q) :
    G.wp exec luck p s Q := by
  cases p with
  | pure a => exact fun s' he hi => h s' he hi s' (G.env_refl s') hi
  | throw e => exact fun s' he hi => h s' he hi s' (G.env_refl s') hi
  | call c k => exact fun s' he hi => h s' he hi s' (G.env_refl s') hi

theorem wp_mono (h : ∀ r s, G.inv s → Q r s → Q' r s) {p : Prog C R ε β} {s : σ}
    (hp : G.wp exec luck p s Q) : G.wp exec luck p s Q' := by
  induction p generalizing s with
  | pure a => exact fun s' he hi => h _ _ hi (hp s' he hi)
  | throw e => exact fun s' he hi => h _ _ hi (hp s' he hi)
  | call c k ih =>
    intro s' he hi ch hch r s'' hx
    obtain ⟨hd, hk⟩ := hp s' he hi ch hch r s'' hx
    exact ⟨hd, ih r hk⟩

/-- Sequencing: what follows a value, and what an exception leaves. -/
theorem wp_bind {f : β → Prog C R ε δ} {Q : Except ε δ → σ → Prop} {p : Prog C R ε β} {s : σ}
    (hp : G.wp exec luck p s fun r s' => match r with
      | .ok a => G.wp exec luck (f a) s' Q
      | .error e => Q (.error e) s') : G.wp exec luck (p.bind f) s Q := by
  induction p generalizing s with
  | pure a => exact wp_intro fun s' he hi => hp s' he hi
  | throw e => exact hp
  | call c k ih =>
    intro s' he hi ch hch r s'' hx
    obtain ⟨hd, hk⟩ := hp s' he hi ch hch r s'' hx
    exact ⟨hd, ih r hk⟩

theorem wp_tryCatch {h : ε → Prog C R ε β} {p : Prog C R ε β} {s : σ}
    (hp : G.wp exec luck p s fun r s' => match r with
      | .ok a => Q (.ok a) s'
      | .error e => G.wp exec luck (h e) s' Q) : G.wp exec luck (p.tryCatch h) s Q := by
  induction p generalizing s with
  | pure a => exact hp
  | throw e => exact wp_intro fun s' he hi => hp s' he hi
  | call c k ih =>
    intro s' he hi ch hch r s'' hx
    obtain ⟨hd, hk⟩ := hp s' he hi ch hch r s'' hx
    exact ⟨hd, ih r hk⟩

/-- A computation without commands. -/
theorem wp_ofExcept {x : Except ε β} {f : β → Prog C R ε δ} {Q : Except ε δ → σ → Prop} {s : σ}
    (hok : ∀ a, x = .ok a → G.wp exec luck (f a) s Q)
    (herr : ∀ e, x = .error e → ∀ s', G.env s s' → G.inv s' → Q (.error e) s') :
    G.wp exec luck ((Prog.ofExcept x).bind f) s Q := by
  cases x with
  | ok a => exact hok a rfl
  | error e => exact herr e rfl

/-- **Soundness alone**: nobody moves between the commands. -/
theorem run_wp {M : Machine σ J C R ε α Ch} {t : Nat} {choose : Nat → Ch} (hluck : ∀ n, luck (choose n))
    {Q : Except ε α → σ → Prop} {p : Prog C R ε α} {n n' : Nat} {s s' : σ} {o : Except ε α}
    (hrun : p.run M t choose n s = some (o, n', s')) (hi : G.inv s) (hp : G.wp (M.exec t) luck p s Q) :
    G.inv s' ∧ Q o s' := by
  induction p generalizing n s with
  | pure a =>
    cases hrun
    exact ⟨hi, hp _ (G.env_refl _) hi⟩
  | throw e =>
    cases hrun
    exact ⟨hi, hp _ (G.env_refl _) hi⟩
  | call c k ih =>
    rw [Prog.run] at hrun
    split at hrun
    · rename_i r s1 hx
      obtain ⟨⟨-, hi1⟩, hk⟩ := hp s (G.env_refl s) hi (choose n) (hluck n) r s1 hx
      exact ih r hrun hi1 hk
    · cases hrun

/-- Nobody else moves, and the commands may do anything that keeps `inv`. -/
def solo (inv : σ → Prop) : Rely σ where
  inv := inv
  env := Eq
  does := fun _ _ => True
  env_refl := fun _ => rfl
  env_trans := Eq.trans

/-- Nobody else moves, and the commands may do anything. -/
abbrev alone (σ : Type) : Rely σ := solo fun _ => True

theorem wp_alone_pure {a : β} {s : σ} (h : Q (.ok a) s) : (alone σ).wp exec luck (.pure a : Prog C R ε β) s Q := by
  rintro _ rfl _
  exact h

theorem wp_alone_throw {e : ε} {s : σ} (h : Q (.error e) s) :
    (alone σ).wp exec luck (.throw e : Prog C R ε β) s Q := by
  rintro _ rfl _
  exact h

/-- A program whose commands never wait runs to its end. -/
theorem run_total {M : Machine σ J C R ε α Ch} {t : Nat} (choose : Nat → Ch)
    (hexec : ∀ c ch s, ∃ r s', M.exec t c ch s = some (r, s')) (p : Prog C R ε α) (n : Nat) (s : σ) :
    ∃ o n' s', p.run M t choose n s = some (o, n', s') := by
  induction p generalizing n s with
  | pure a => exact ⟨_, _, _, rfl⟩
  | throw e => exact ⟨_, _, _, rfl⟩
  | call c k ih =>
    obtain ⟨r, s1, hx⟩ := hexec c (choose n) s
    obtain ⟨o, n', s', h⟩ := ih r (n + 1) s1
    exact ⟨o, n', s', by rw [Prog.run, hx]; exact h⟩

end Rely

/-! ## Pools -/

/-- The runs of a pool are those of its machine. -/
theorem Pool.run_eq {M : Machine σ J C R ε α Ch} {P : Pool σ J C R ε α} {as : List (Act J Ch)} :
    P.run M as = runFrom (Pool.act M) P as := by
  induction as generalizing P with
  | nil => rfl
  | cons a as ih =>
    rw [Pool.run, runFrom]
    exact congrArg _ (funext fun P' => ih)

/-- What every thread may rely on while it runs a job, and what it does. -/
structure Rules (M : Machine σ J C R ε α Ch) where
  inv : σ → Prop
  env : Nat → J → σ → σ → Prop
  does : Nat → J → σ → σ → Prop
  env_refl : ∀ t j s, env t j s s
  env_trans : ∀ {t j s1 s2 s3}, env t j s1 s2 → env t j s2 s3 → env t j s1 s3
  /-- Which jobs may run at the same time. -/
  together : J → J → Prop
  sound : ∀ {t j u k s s'}, t ≠ u → together j k → inv s → does u k s s' → env t j s s'

namespace Rules

variable {M : Machine σ J C R ε α Ch} (L : Rules M)

def rely (t : Nat) (j : J) : Rely σ where
  inv := L.inv
  env := L.env t j
  does := L.does t j
  env_refl := L.env_refl t j
  env_trans := L.env_trans

/-- A job is started only beside jobs it may run together with. -/
def Starts (allowed : J → Prop) (P : Pool σ J C R ε α) : Act J Ch → Prop
  | .start _ j => allowed j ∧ ∀ u k p, P.tasks u = some ⟨k, p⟩ → L.together j k ∧ L.together k j
  | _ => True

/-- What every reachable pool satisfies. `past` is what held when the threads that are not `old` were
started; `later` relates the state a call returned in to the present one. -/
structure Verified (allowed : J → Prop) (Q : Nat → J → σ → Except ε α → σ → Prop) (later : σ → σ → Prop)
    (old : Nat → Prop) (past : σ → Prop) (P : Pool σ J C R ε α) : Prop where
  inv : L.inv P.shared
  held : past P.shared
  running : ∀ t j p, P.tasks t = some ⟨j, p⟩ → allowed j ∧ ∃ s0, L.inv s0 ∧ (¬ old t → past s0) ∧
    (L.rely t j).wp (M.exec t) (fun _ => True) p P.shared (Q t j s0)
  apart : ∀ t u j k p q, t ≠ u → P.tasks t = some ⟨j, p⟩ → P.tasks u = some ⟨k, q⟩ → L.together j k
  done : ∀ t j o, (t, j, o) ∈ P.done → ∃ s0 s1, L.inv s0 ∧ (¬ old t → past s0) ∧ Q t j s0 o s1 ∧
    later s1 P.shared
  gone : ∀ t j o, (t, j, o) ∈ P.done → P.tasks t = none
  names : (P.done.map (·.1)).Nodup

variable {L} {allowed : J → Prop} {Q : Nat → J → σ → Except ε α → σ → Prop} {later : σ → σ → Prop}
  {old : Nat → Prop} {past : σ → Prop}

/-- What a pool's steps need: every allowed job's program is verified, and `later` and `past` go on. -/
structure Obeys (L : Rules M) (allowed : J → Prop) (Q : Nat → J → σ → Except ε α → σ → Prop)
    (later : σ → σ → Prop) (past : σ → Prop) : Prop where
  body : ∀ t j s, allowed j → L.inv s → (L.rely t j).wp (M.exec t) (fun _ => True) (M.body j) s (Q t j s)
  later_refl : ∀ s, later s s
  later_trans : ∀ {s1 s2 s3}, later s1 s2 → later s2 s3 → later s1 s3
  later_does : ∀ {t j s s'}, allowed j → L.inv s → L.does t j s s' → later s s'
  past_later : ∀ {s s'}, past s → later s s' → past s'

theorem verified_init {s : σ} (hi : L.inv s) (hp : past s) :
    L.Verified allowed Q later old past (Pool.init s) := by
  refine ⟨hi, hp, ?_, ?_, ?_, ?_, List.nodup_nil⟩
  · intro t j p h
    cases h
  · intro t u j k p q _ h
    cases h
  · intro t j o h
    cases h
  · intro t j o h
    cases h

theorem verified_start {P : Pool σ J C R ε α} {t : Nat} {j : J} (ho : Obeys L allowed Q later past)
    (hP : L.Verified allowed Q later old past P) (hok : L.Starts allowed P (.start t j : Act J Ch))
    (hfresh : ∀ d ∈ P.done, d.1 ≠ t) :
    L.Verified allowed Q later old past
      { P with tasks := Function.update P.tasks t (some ⟨j, M.body j⟩) } := by
  refine ⟨hP.inv, hP.held, ?_, ?_, hP.done, ?_, hP.names⟩
  · intro u k p hu
    rcases eq_or_ne u t with rfl | hne
    · simp only [Function.update_self, Option.some.injEq, Task.mk.injEq] at hu
      obtain ⟨rfl, rfl⟩ := hu
      exact ⟨hok.1, P.shared, hP.inv, fun _ => hP.held, ho.body u j P.shared hok.1 hP.inv⟩
    · exact hP.running u k p (by simpa [hne] using hu)
  · intro u v k l p q huv hu hv
    rcases eq_or_ne u t with rfl | hne
    · simp only [Function.update_self, Option.some.injEq, Task.mk.injEq] at hu
      obtain ⟨rfl, -⟩ := hu
      exact (hok.2 v l q (by simpa [huv.symm] using hv)).1
    · rcases eq_or_ne v t with rfl | hne'
      · simp only [Function.update_self, Option.some.injEq, Task.mk.injEq] at hv
        obtain ⟨rfl, -⟩ := hv
        exact (hok.2 u k p (by simpa [hne] using hu)).2
      · exact hP.apart u v k l p q huv (by simpa [hne] using hu) (by simpa [hne'] using hv)
  · intro u k o hd
    have hne : u ≠ t := hfresh _ hd
    simpa [hne] using hP.gone u k o hd

theorem verified_step {P : Pool σ J C R ε α} {t : Nat} {j : J} {c : C} {k : R c → Prog C R ε α} {ch : Ch}
    {r : R c} {s : σ} (ho : Obeys L allowed Q later past) (hP : L.Verified allowed Q later old past P)
    (ht : P.tasks t = some ⟨j, .call c k⟩) (hx : M.exec t c ch P.shared = some (r, s)) :
    L.Verified allowed Q later old past
      { P with shared := s, tasks := Function.update P.tasks t (some ⟨j, k r⟩) } := by
  obtain ⟨haj, s0, hi0, hp0, hw⟩ := hP.running t j _ ht
  obtain ⟨⟨hdoes, hinv⟩, hk⟩ := hw P.shared (L.env_refl t j _) hP.inv ch trivial r s hx
  have hlater := ho.later_does haj hP.inv hdoes
  have htask : ∀ u k' p, Function.update P.tasks t (some ⟨j, k r⟩) u = some ⟨k', p⟩ →
      ∃ p', P.tasks u = some ⟨k', p'⟩ := by
    intro u k' p hu
    rcases eq_or_ne u t with rfl | hne
    · simp only [Function.update_self, Option.some.injEq, Task.mk.injEq] at hu
      exact ⟨_, hu.1 ▸ ht⟩
    · exact ⟨p, by simpa [hne] using hu⟩
  refine ⟨hinv, ho.past_later hP.held hlater, ?_, ?_, ?_, ?_, hP.names⟩
  · intro u k' p hu
    rcases eq_or_ne u t with rfl | hne
    · simp only [Function.update_self, Option.some.injEq, Task.mk.injEq] at hu
      obtain ⟨rfl, rfl⟩ := hu
      exact ⟨haj, s0, hi0, hp0, hk⟩
    · have hu : P.tasks u = some ⟨k', p⟩ := by simpa [hne] using hu
      obtain ⟨hau, s0, hi0, hp0, hw⟩ := hP.running u k' p hu
      have henv := L.sound hne (hP.apart u t k' j p _ hne hu ht) hP.inv hdoes
      exact ⟨hau, s0, hi0, hp0, Rely.wp_env hw henv⟩
  · intro u v k' l p q huv hu hv
    obtain ⟨p', hp'⟩ := htask u k' p hu
    obtain ⟨q', hq'⟩ := htask v l q hv
    exact hP.apart u v k' l p' q' huv hp' hq'
  · intro u k' o hd
    obtain ⟨s0, s1, h1, h2, h3, h4⟩ := hP.done u k' o hd
    exact ⟨s0, s1, h1, h2, h3, ho.later_trans h4 hlater⟩
  · intro u k' o hd
    have hne : u ≠ t := by
      rintro rfl
      rw [hP.gone u k' o hd] at ht
      cases ht
    simpa [hne] using hP.gone u k' o hd

theorem finish_outcome {P : Pool σ J C R ε α} {t : Nat} {j : J} {p : Prog C R ε α} {o : Except ε α}
    (hP : L.Verified allowed Q later old past P) (ht : P.tasks t = some ⟨j, p⟩) (hr : p.result? = some o) :
    ∃ s0, L.inv s0 ∧ (¬ old t → past s0) ∧ Q t j s0 o P.shared := by
  obtain ⟨-, s0, hi0, hp0, hw⟩ := hP.running t j p ht
  refine ⟨s0, hi0, hp0, ?_⟩
  cases p with
  | pure a =>
    cases hr
    exact hw P.shared (L.env_refl t j _) hP.inv
  | throw e =>
    cases hr
    exact hw P.shared (L.env_refl t j _) hP.inv
  | call c k => cases hr

theorem verified_finish {P : Pool σ J C R ε α} {t : Nat} {j : J} {p : Prog C R ε α} {o : Except ε α}
    (ho : Obeys L allowed Q later past) (hP : L.Verified allowed Q later old past P)
    (ht : P.tasks t = some ⟨j, p⟩) (hr : p.result? = some o) :
    L.Verified allowed Q later old past
      { P with tasks := Function.update P.tasks t none, done := P.done ++ [(t, j, o)] } := by
  have htask : ∀ u k p, Function.update P.tasks t none u = some ⟨k, p⟩ → P.tasks u = some ⟨k, p⟩ := by
    intro u k p hu
    rcases eq_or_ne u t with rfl | hne
    · simp at hu
    · simpa [hne] using hu
  have hnew : ∀ d ∈ P.done, d.1 ≠ t := by
    rintro ⟨u, k, o'⟩ hd rfl
    rw [hP.gone u k o' hd] at ht
    cases ht
  refine ⟨hP.inv, hP.held, fun u k p hu => hP.running u k p (htask u k p hu), ?_, ?_, ?_, ?_⟩
  · intro u v k l p q huv hu hv
    exact hP.apart u v k l p q huv (htask u k p hu) (htask v l q hv)
  · intro u k o' hd
    rcases List.mem_append.1 hd with hd | hd
    · exact hP.done u k o' hd
    · obtain ⟨rfl, rfl, rfl⟩ : u = t ∧ k = j ∧ o' = o := by simpa using hd
      obtain ⟨s0, hi0, hp0, hq⟩ := finish_outcome hP ht hr
      exact ⟨s0, P.shared, hi0, hp0, hq, ho.later_refl _⟩
  · intro u k o' hd
    rcases List.mem_append.1 hd with hd | hd
    · simpa [hnew _ hd] using hP.gone u k o' hd
    · obtain ⟨rfl, rfl, rfl⟩ : u = t ∧ k = j ∧ o' = o := by simpa using hd
      simp
  · rw [List.map_append, List.nodup_append]
    refine ⟨hP.names, by simp, ?_⟩
    intro a ha b hb
    obtain ⟨d, hd, rfl⟩ := List.mem_map.1 ha
    obtain rfl := List.mem_singleton.1 hb
    exact hnew d hd

theorem verified_act {P P' : Pool σ J C R ε α} {a : Act J Ch} (ho : Obeys L allowed Q later past)
    (hP : L.Verified allowed Q later old past P) (hok : L.Starts allowed P a) (h : P.act M a = some P') :
    L.Verified allowed Q later old past P' := by
  obtain ⟨t, j, rfl, -, hd, rfl⟩ | ⟨t, ch, j, c, k, r, s, -, ht, hx, rfl⟩ | ⟨t, j, p, o, -, ht, hr, rfl⟩ :=
    Pool.act_cases h
  · exact verified_start ho hP hok hd
  · exact verified_step ho hP ht hx
  · exact verified_finish ho hP ht hr

/-- **Soundness for every schedule** that starts jobs only beside those they may run together with. -/
theorem verified_run {P P' : Pool σ J C R ε α} {run : List (Act J Ch)} (ho : Obeys L allowed Q later past)
    (hP : L.Verified allowed Q later old past P) (hok : Guarded (Pool.act M) (L.Starts allowed) P run)
    (h : runFrom (Pool.act M) P run = some P') : L.Verified allowed Q later old past P' :=
  run_invariant (fun _ _ _ hP hok h => verified_act ho hP hok h) hP hok h

/-- The jobs a schedule starts. -/
def started : List (Act J Ch) → List J :=
  List.filterMap fun
    | .start _ j => some j
    | _ => none

/-- A schedule that starts only allowed jobs, and keeps those apart that may not run together. -/
theorem starts_guarded {g : Pool σ J C R ε α → Act J Ch → Prop} {P : Pool σ J C R ε α} {run : List (Act J Ch)}
    (hg : ∀ P t j, g P (.start t j) → ∀ u k p, P.tasks u = some ⟨k, p⟩ → L.together j k ∧ L.together k j)
    (ha : ∀ j ∈ started run, allowed j) (h : Guarded (Pool.act M) g P run) :
    Guarded (Pool.act M) (L.Starts allowed) P run := by
  induction run generalizing P with
  | nil => trivial
  | cons a run ih =>
    have hrest : ∀ j ∈ started run, allowed j := by
      intro j hj
      refine ha j ?_
      cases a with
      | start t k => exact List.mem_cons_of_mem _ hj
      | step t ch => exact hj
      | finish t => exact hj
    refine ⟨?_, fun P' hP' => ih hrest (h.2 P' hP')⟩
    cases a with
    | start t j => exact ⟨ha j (List.mem_cons_self ..), hg P t j h.1⟩
    | step t ch => trivial
    | finish t => trivial

/-- The threads that start in a schedule. -/
def starters : List (Act J Ch) → List Nat :=
  List.filterMap fun
    | .start t _ => some t
    | _ => none

theorem mem_starters {run : List (Act J Ch)} {t : Nat} : t ∈ starters run ↔ ∃ j, .start t j ∈ run := by
  unfold starters
  rw [List.mem_filterMap]
  constructor
  · rintro ⟨a, ha, h⟩
    cases a with
    | start u j =>
      cases h
      exact ⟨j, ha⟩
    | step u ch => cases h
    | finish u => cases h
  · rintro ⟨j, hj⟩
    exact ⟨_, hj, rfl⟩

/-- The other threads have no task at any step of it, so a guard need not ask about them. -/
theorem starters_guarded {g g' : Pool σ J C R ε α → Act J Ch → Prop} {P : Pool σ J C R ε α} {run : List (Act J Ch)}
    {ts : List Nat} (hg : ∀ P a, (∀ t, t ∉ ts → P.tasks t = none) → g P a → g' P a)
    (hstart : ∀ t j, .start t j ∈ run → t ∈ ts) (hidle : ∀ t, t ∉ ts → P.tasks t = none)
    (h : Guarded (Pool.act M) g P run) : Guarded (Pool.act M) g' P run := by
  induction run generalizing P with
  | nil => trivial
  | cons a run ih =>
    refine ⟨hg P a hidle h.1, fun P' hP' => ih (fun t j hmem => hstart t j (List.mem_cons_of_mem a hmem))
      (fun t ht => Pool.act_tasks hP' (hidle t ht) fun j ha => ht ?_) (h.2 P' hP')⟩
    exact hstart t j (ha ▸ List.mem_cons_self)

/-- The threads of a pool, running or returned. -/
def Pool.Known (P : Pool σ J C R ε α) (t : Nat) : Prop :=
  P.tasks t ≠ none ∨ ∃ j o, (t, j, o) ∈ P.done

/-- A verified pool as the start of what follows: threads started from here on find a later state. -/
theorem Verified.restart {P : Pool σ J C R ε α} (ho : Obeys L allowed Q later past)
    (hP : L.Verified allowed Q later old past P) :
    L.Verified allowed Q later (Pool.Known P) (later P.shared) P := by
  refine ⟨hP.inv, ho.later_refl _, ?_, hP.apart, ?_, hP.gone, hP.names⟩
  · intro t j p ht
    obtain ⟨ha, s0, hi0, -, hw⟩ := hP.running t j p ht
    refine ⟨ha, s0, hi0, fun hn => absurd (.inl ?_) hn, hw⟩
    rw [ht]
    exact Option.some_ne_none _
  · intro t j o hd
    obtain ⟨s0, s1, h1, -, h3, h4⟩ := hP.done t j o hd
    exact ⟨s0, s1, h1, fun hn => absurd (.inr ⟨j, o, hd⟩) hn, h3, h4⟩

theorem Obeys.restart (ho : Obeys L allowed Q later past) (s : σ) : Obeys L allowed Q later (later s) :=
  ⟨ho.body, ho.later_refl, ho.later_trans, ho.later_does, fun h h' => ho.later_trans h h'⟩

end Rules

end Interleaving
