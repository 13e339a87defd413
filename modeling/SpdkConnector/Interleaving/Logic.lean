import SpdkConnector.Interleaving.Program

/-!
# Local reasoning about one program, sound under every interleaving

A thread reasons about a *view* `V`: the part of the state it owns. A `LocalLogic` says which views
are true of a state, what a command needs of the view (`pre`) and what it makes of it (`post`), and
which ghost moves a thread may make (for example: count its job as done, in an abstract log kept in
the ghost state `γ`). The soundness fields are one obligation per command:

* the thread's new view is true of the new state, and
* whatever views the *other* threads have stay true (the frame).

`wp` verifies a program on its views alone. `pool_sound`: if every job's program is verified, then in
every reachable pool every running thread has a view from which the rest of its program is verified.
-/

namespace Interleaving

variable {σ γ V J C : Type} {R : C → Type} {ε α β Ch : Type}

structure LocalLogic (M : Machine σ J C R ε α Ch) (γ V : Type) where
  inv : σ → γ → Prop
  view : Nat → V → σ → γ → Prop
  /-- What is true of every view that is true of a state. -/
  wf : V → Prop
  ghost : J → V → V → Prop
  pre : C → V → Prop
  post : (c : C) → V → R c → V → Prop
  /-- How the ghost state may change. -/
  grows : γ → γ → Prop
  /-- What a thread that runs the job knows from its start on. -/
  always : J → V → Prop
  grows_refl : ∀ g, grows g g
  grows_trans : ∀ {g1 g2 g3}, grows g1 g2 → grows g2 g3 → grows g1 g3
  view_wf : ∀ {t v s g}, inv s g → view t v s g → wf v
  ghost_sound : ∀ {t j v v' s g}, inv s g → view t v s g → ghost j v v' →
    ∃ g', (inv s g' ∧ grows g g') ∧ view t v' s g' ∧ ∀ u w, u ≠ t → view u w s g → view u w s g'
  always_ghost : ∀ {j v v'}, always j v → ghost j v v' → always j v'
  always_post : ∀ {j c v r v'}, always j v → post c v r v' → always j v'
  step_sound : ∀ {t c ch v r s s' g}, inv s g → view t v s g → pre c v → M.exec t c ch s = some (r, s') →
    ∃ g' v', (inv s' g' ∧ grows g g') ∧ view t v' s' g' ∧ post c v r v' ∧
      ∀ u w, u ≠ t → view u w s g → view u w s' g'

namespace LocalLogic

variable {M : Machine σ J C R ε α Ch} (L : LocalLogic M γ V)

/-- Any number of ghost moves. -/
def moves (j : J) : V → V → Prop := Relation.ReflTransGen (L.ghost j)

/-- Weakest precondition over views. -/
def wp (j : J) : Prog C R ε β → V → (Except ε β → V → Prop) → Prop
  | .pure a, v, Q => ∃ v', L.moves j v v' ∧ (L.wf v' → Q (.ok a) v')
  | .throw e, v, Q => ∃ v', L.moves j v v' ∧ (L.wf v' → Q (.error e) v')
  | .call c k, v, Q => ∃ v0, L.moves j v v0 ∧ (L.wf v0 → L.pre c v0 ∧
      ∀ r v', L.wf v' → L.post c v0 r v' → wp j (k r) v' Q)

variable {L} {j : J} {Q Q' : Except ε β → V → Prop}

theorem wp_pure {a : β} {v : V} (h : Q (.ok a) v) : L.wp j (.pure a : Prog C R ε β) v Q :=
  ⟨v, .refl, fun _ => h⟩

theorem wp_throw {e : ε} {v : V} (h : Q (.error e) v) : L.wp j (.throw e : Prog C R ε β) v Q :=
  ⟨v, .refl, fun _ => h⟩

theorem wp_call {c : C} {k : R c → Prog C R ε β} {v : V} (h : L.wf v → L.pre c v ∧
    ∀ r v', L.wf v' → L.post c v r v' → L.wp j (k r) v' Q) : L.wp j (.call c k) v Q :=
  ⟨v, .refl, h⟩

theorem wp_moves : ∀ {p : Prog C R ε β} {v v0 : V}, L.moves j v v0 → L.wp j p v0 Q → L.wp j p v Q
  | .pure _, _, _, h, ⟨v', h', hQ⟩ => ⟨v', h.trans h', hQ⟩
  | .throw _, _, _, h, ⟨v', h', hQ⟩ => ⟨v', h.trans h', hQ⟩
  | .call _ _, _, _, h, ⟨v', h', hQ⟩ => ⟨v', h.trans h', hQ⟩

/-- A proof may use what is true of every view. -/
theorem wp_wf {p : Prog C R ε β} {v : V} (h : L.wf v → L.wp j p v Q) : L.wp j p v Q := by
  by_cases hw : L.wf v
  · exact h hw
  · cases p <;> exact ⟨v, .refl, fun hv => (hw hv).elim⟩

theorem wp_mono : ∀ {p : Prog C R ε β} {v : V}, (∀ r v, Q r v → Q' r v) → L.wp j p v Q → L.wp j p v Q'
  | .pure _, _, h, ⟨v', h', hQ⟩ => ⟨v', h', fun hw => h _ _ (hQ hw)⟩
  | .throw _, _, h, ⟨v', h', hQ⟩ => ⟨v', h', fun hw => h _ _ (hQ hw)⟩
  | .call _ _, _, h, ⟨v', h', hQ⟩ => ⟨v', h', fun hw => ⟨(hQ hw).1, fun r v1 h1 h2 =>
      wp_mono h ((hQ hw).2 r v1 h1 h2)⟩⟩

/-- Ghost moves may also be made at the end. -/
theorem wp_post_moves : ∀ {p : Prog C R ε β} {v : V},
    L.wp j p v (fun r v' => ∃ v'', L.moves j v' v'' ∧ Q r v'') → L.wp j p v Q
  | .pure _, _, ⟨_, hm, hQ⟩ => wp_moves hm (wp_wf fun hw => by
      obtain ⟨_, h, hq⟩ := hQ hw; exact wp_moves h (wp_pure hq))
  | .throw _, _, ⟨_, hm, hQ⟩ => wp_moves hm (wp_wf fun hw => by
      obtain ⟨_, h, hq⟩ := hQ hw; exact wp_moves h (wp_throw hq))
  | .call _ _, _, ⟨v', hm, hQ⟩ => ⟨v', hm, fun hw => ⟨(hQ hw).1, fun r v1 h1 h2 =>
      wp_post_moves ((hQ hw).2 r v1 h1 h2)⟩⟩

/-- Sequencing: what follows a value or an exception of `p`. -/
theorem wp_bind {δ : Type} {f : β → Prog C R ε δ} {Q : Except ε δ → V → Prop} :
    ∀ {p : Prog C R ε β} {v : V},
      L.wp j p v (fun r v' => L.wp j ((Prog.ofExcept r).bind f) v' Q) → L.wp j (p.bind f) v Q
  | .pure _, _, ⟨_, h, hQ⟩ => wp_moves h (wp_wf hQ)
  | .throw _, _, ⟨_, h, hQ⟩ => wp_moves h (wp_wf hQ)
  | .call _ _, _, ⟨v', h, hQ⟩ => ⟨v', h, fun hw => ⟨(hQ hw).1, fun r v1 h1 h2 =>
      wp_bind ((hQ hw).2 r v1 h1 h2)⟩⟩

/-- The same with the two ways `p` can end apart. -/
theorem wp_seq {δ : Type} {f : β → Prog C R ε δ} {Q : Except ε δ → V → Prop} {p : Prog C R ε β} {v : V}
    (h : L.wp j p v fun r v' => match r with
      | .ok a => L.wp j (f a) v' Q
      | .error e => L.wp j (.throw e) v' Q) : L.wp j (p.bind f) v Q := by
  refine wp_bind (wp_mono (fun r v' hr => ?_) h)
  cases r <;> exact hr

theorem wp_tryCatch {h : ε → Prog C R ε β} : ∀ {p : Prog C R ε β} {v : V},
    L.wp j p v (fun r v' => match r with
      | .ok a => Q (.ok a) v'
      | .error e => L.wp j (h e) v' Q) → L.wp j (p.tryCatch h) v Q
  | .pure _, _, hp => hp
  | .throw _, _, ⟨_, hm, hQ⟩ => wp_moves hm (wp_wf hQ)
  | .call _ _, _, ⟨v', hm, hQ⟩ => ⟨v', hm, fun hw => ⟨(hQ hw).1, fun r v1 h1 h2 =>
      wp_tryCatch ((hQ hw).2 r v1 h1 h2)⟩⟩

/-- A destructor that cannot throw. -/
theorem wp_finally {q : Prog C R ε Unit} : ∀ {p : Prog C R ε β} {v : V},
    L.wp j p v (fun r v' => L.wp j q v' fun r' v'' => (∃ u, r' = .ok u) ∧ Q r v'') →
      L.wp j (p.finally' q) v Q
  | .pure _, _, ⟨_, hm, hq⟩ => wp_moves hm (wp_wf fun hw => wp_bind (wp_mono (by
      rintro _ v ⟨⟨u, rfl⟩, hQ⟩; exact wp_pure hQ) (hq hw)))
  | .throw _, _, ⟨_, hm, hq⟩ => wp_moves hm (wp_wf fun hw => wp_bind (wp_mono (by
      rintro _ v ⟨⟨u, rfl⟩, hQ⟩; exact wp_throw hQ) (hq hw)))
  | .call _ _, _, ⟨v', hm, hQ⟩ => ⟨v', hm, fun hw => ⟨(hQ hw).1, fun r v1 h1 h2 =>
      wp_finally ((hQ hw).2 r v1 h1 h2)⟩⟩

/-! ## Soundness -/

theorem always_moves {v v' : V} (ha : L.always j v) (h : L.moves j v v') : L.always j v' := by
  induction h with
  | refl => exact ha
  | tail _ hstep ih => exact L.always_ghost ih hstep

theorem moves_sound {t : Nat} {v v' : V} {s : σ} {g : γ} (hi : L.inv s g) (hv : L.view t v s g)
    (h : L.moves j v v') :
    ∃ g', (L.inv s g' ∧ L.grows g g') ∧ L.view t v' s g' ∧ ∀ u w, u ≠ t → L.view u w s g → L.view u w s g' := by
  induction h with
  | refl => exact ⟨g, ⟨hi, L.grows_refl g⟩, hv, fun _ _ _ h => h⟩
  | tail _ hstep ih =>
    obtain ⟨g1, ⟨hi1, hg1⟩, hv1, hf1⟩ := ih
    obtain ⟨g2, ⟨hi2, hg2⟩, hv2, hf2⟩ := L.ghost_sound hi1 hv1 hstep
    exact ⟨g2, ⟨hi2, L.grows_trans hg1 hg2⟩, hv2, fun u w hu h => hf2 u w hu (hf1 u w hu h)⟩

/-- What every reachable pool satisfies: the invariant, the idle view of every fresh thread, a
verified rest for every running task, and the postcondition of every finished one. -/
structure PoolOk (L : LocalLogic M γ V) (v0 : Nat → V) (Q : J → Except ε α → V → Prop)
    (P : Pool σ J C R ε α) (g : γ) : Prop where
  inv : L.inv P.shared g
  fresh : ∀ t, P.tasks t = none → (∀ d ∈ P.done, d.1 ≠ t) → L.view t (v0 t) P.shared g
  running : ∀ t j p, P.tasks t = some ⟨j, p⟩ → ∃ v, L.view t v P.shared g ∧ L.always j v ∧ L.wp j p v (Q j)
  done : ∀ t j o, (t, j, o) ∈ P.done → ∃ v, L.view t v P.shared g ∧ Q j o v
  apart : ∀ t j o, (t, j, o) ∈ P.done → P.tasks t = none
  names : (P.done.map (·.1)).Nodup

theorem result?_wp {p : Prog C R ε β} {o : Except ε β} {v : V} (h : p.result? = some o)
    (hw : L.wp j p v Q) : ∃ v', L.moves j v v' ∧ (L.wf v' → Q o v') := by
  cases p with
  | pure a => cases h; exact hw
  | throw e => cases h; exact hw
  | call c k => cases h

theorem act_sound {v0 : Nat → V} {Q : J → Except ε α → V → Prop}
    (hbody : ∀ t j, L.always j (v0 t) ∧ L.wp j (M.body j) (v0 t) (Q j)) {P P' : Pool σ J C R ε α} {a : Act J Ch} {g : γ}
    (hP : PoolOk L v0 Q P g) (h : P.act M a = some P') :
    ∃ g', PoolOk L v0 Q P' g' ∧ L.grows g g' := by
  obtain ⟨t, j, -, ht, hd, rfl⟩ | ⟨t, ch, j, c, k, r, s, -, ht, he, rfl⟩ | ⟨t, j, p, o, -, ht, ho, rfl⟩ :=
    Pool.act_cases h
  · refine ⟨g, ⟨hP.inv, fun u hu hdu => ?_, fun u j' p hu => ?_, hP.done, fun u j' o hm => ?_, hP.names⟩,
      L.grows_refl g⟩
    · by_cases e : u = t
      · subst e; simp at hu
      · exact hP.fresh u (by simpa [Function.update_of_ne e] using hu) hdu
    · by_cases e : u = t
      · subst e
        simp only [Function.update_self, Option.some.injEq, Task.mk.injEq] at hu
        obtain ⟨rfl, rfl⟩ := hu
        exact ⟨v0 u, hP.fresh u ht hd, hbody u j⟩
      · exact hP.running u j' p (by simpa [Function.update_of_ne e] using hu)
    · have e : u ≠ t := hd _ hm
      simpa [Function.update_of_ne e] using hP.apart u j' o hm
  · obtain ⟨v, hv, ha, v1, hm, hw⟩ := hP.running t j _ ht
    obtain ⟨g1, ⟨hi1, hg1⟩, hv1, hf1⟩ := moves_sound hP.inv hv hm
    obtain ⟨hpre, hk⟩ := hw (L.view_wf hi1 hv1)
    obtain ⟨g2, v2, ⟨hi2, hg2⟩, hv2, hpost, hf2⟩ := L.step_sound hi1 hv1 hpre he
    have frame : ∀ u w, u ≠ t → L.view u w P.shared g → L.view u w s g2 :=
      fun u w hu h => hf2 u w hu (hf1 u w hu h)
    refine ⟨g2, ⟨hi2, fun u hu hdu => ?_, fun u j' p hu => ?_, fun u j' o hm => ?_, fun u j' o hm => ?_,
      hP.names⟩, L.grows_trans hg1 hg2⟩
    · by_cases e : u = t
      · subst e; simp at hu
      · exact frame u _ e (hP.fresh u (by simpa [Function.update_of_ne e] using hu) hdu)
    · by_cases e : u = t
      · subst e
        simp only [Function.update_self, Option.some.injEq, Task.mk.injEq] at hu
        obtain ⟨rfl, rfl⟩ := hu
        exact ⟨v2, hv2, L.always_post (always_moves ha hm) hpost, hk r v2 (L.view_wf hi2 hv2) hpost⟩
      · obtain ⟨w, hw, hp⟩ := hP.running u j' p (by simpa [Function.update_of_ne e] using hu)
        exact ⟨w, frame u w e hw, hp⟩
    · have e : u ≠ t := by rintro rfl; simp [hP.apart u j' o hm] at ht
      obtain ⟨w, hw, hq⟩ := hP.done u j' o hm
      exact ⟨w, frame u w e hw, hq⟩
    · have e : u ≠ t := by rintro rfl; simp [hP.apart u j' o hm] at ht
      simpa [Function.update_of_ne e] using hP.apart u j' o hm
  · obtain ⟨v, hv, -, hw⟩ := hP.running t j p ht
    obtain ⟨v1, hm, hq⟩ := result?_wp ho hw
    obtain ⟨g1, ⟨hi1, hg1⟩, hv1, hf1⟩ := moves_sound hP.inv hv hm
    have ne : ∀ {u j' o'}, (u, j', o') ∈ P.done → u ≠ t := by
      rintro u j' o' hm rfl; simp [hP.apart u j' o' hm] at ht
    refine ⟨g1, ⟨hi1, fun u hu hdu => ?_, fun u j' p' hu => ?_, fun u j' o' hm => ?_, fun u j' o' hm => ?_, ?_⟩,
      hg1⟩
    · have e : u ≠ t := fun e => hdu (t, j, o) (by simp) e.symm
      exact hf1 u _ e (hP.fresh u (by simpa [Function.update_of_ne e] using hu)
        (fun d hd => hdu d (by simp [hd])))
    · have e : u ≠ t := by rintro rfl; simp at hu
      obtain ⟨w, hw', hp⟩ := hP.running u j' p' (by simpa [Function.update_of_ne e] using hu)
      exact ⟨w, hf1 u w e hw', hp⟩
    · rcases List.mem_append.1 hm with hm | hm
      · obtain ⟨w, hw', hq'⟩ := hP.done u j' o' hm
        exact ⟨w, hf1 u w (ne hm) hw', hq'⟩
      · simp only [List.mem_singleton, Prod.mk.injEq] at hm
        obtain ⟨rfl, rfl, rfl⟩ := hm
        exact ⟨v1, hv1, hq (L.view_wf hi1 hv1)⟩
    · rcases List.mem_append.1 hm with hm | hm
      · simpa [Function.update_of_ne (ne hm)] using hP.apart u j' o' hm
      · simp only [List.mem_singleton, Prod.mk.injEq] at hm
        simp [hm.1]
    · simp only [List.map_append, List.map_cons, List.map_nil]
      refine List.nodup_append.2 ⟨hP.names, by simp, ?_⟩
      intro a ha b hb
      obtain ⟨⟨u, j', o'⟩, hu, rfl⟩ := List.mem_map.1 ha
      rw [List.mem_singleton.1 hb]
      exact ne hu

/-- **Soundness for any schedule**, from any verified pool. -/
theorem run_ok {v0 : Nat → V} {Q : J → Except ε α → V → Prop}
    (hbody : ∀ t j, L.always j (v0 t) ∧ L.wp j (M.body j) (v0 t) (Q j)) :
    ∀ {as : List (Act J Ch)} {P P' : Pool σ J C R ε α} {g : γ}, PoolOk L v0 Q P g →
      P.run M as = some P' → ∃ g', PoolOk L v0 Q P' g' ∧ L.grows g g'
  | [], P, P', g, hP, h => by cases h; exact ⟨g, hP, L.grows_refl g⟩
  | a :: as, P, P', g, hP, h => by
    simp only [Pool.run, Option.bind_eq_some_iff] at h
    obtain ⟨P1, h1, h2⟩ := h
    obtain ⟨g1, hP1, hg1⟩ := act_sound hbody hP h1
    obtain ⟨g2, hP2, hg2⟩ := run_ok hbody hP1 h2
    exact ⟨g2, hP2, L.grows_trans hg1 hg2⟩

theorem init_ok {v0 : Nat → V} {Q : J → Except ε α → V → Prop} {s : σ} {g : γ} (hi : L.inv s g)
    (h0 : ∀ t, L.view t (v0 t) s g) : PoolOk L v0 Q (Pool.init s) g :=
  ⟨hi, fun t _ _ => h0 t, fun t j p ht => by simp [Pool.init] at ht,
    fun t j o hm => by simp [Pool.init] at hm, fun t j o hm => by simp [Pool.init] at hm, by simp [Pool.init]⟩

/-- **Soundness for one program alone.** `quiet` says that nothing in the state can block `t`; then
a verified program runs to its end and ends in its postcondition. -/
theorem run_sound {quiet : Nat → σ → Prop}
    (hexec : ∀ {t c v s g} ch, L.inv s g → L.view t v s g → L.pre c v → quiet t s →
      ∃ r s', M.exec t c ch s = some (r, s') ∧ quiet t s') {t : Nat} (choose : Nat → Ch)
    {Q : Except ε α → V → Prop} : ∀ {p : Prog C R ε α} (n : Nat) {s : σ} {v : V} {g : γ}, L.inv s g →
      L.view t v s g → quiet t s → L.wp j p v Q → ∃ o n' s' g' v', p.run M t choose n s = some (o, n', s') ∧
        (L.inv s' g' ∧ L.grows g g') ∧ L.view t v' s' g' ∧ quiet t s' ∧ Q o v' ∧
        ∀ u w, u ≠ t → L.view u w s g → L.view u w s' g'
  | .pure a, n, s, v, g, hi, hv, hq, ⟨v', hm, hQ⟩ => by
    obtain ⟨g', ⟨hi', hg'⟩, hv', hf⟩ := moves_sound hi hv hm
    exact ⟨_, n, s, g', v', rfl, ⟨hi', hg'⟩, hv', hq, hQ (L.view_wf hi' hv'), hf⟩
  | .throw e, n, s, v, g, hi, hv, hq, ⟨v', hm, hQ⟩ => by
    obtain ⟨g', ⟨hi', hg'⟩, hv', hf⟩ := moves_sound hi hv hm
    exact ⟨_, n, s, g', v', rfl, ⟨hi', hg'⟩, hv', hq, hQ (L.view_wf hi' hv'), hf⟩
  | .call c k, n, s, v, g, hi, hv, hq, ⟨v0, hm, hw⟩ => by
    obtain ⟨g0, ⟨hi0, hg0⟩, hv0, hf0⟩ := moves_sound hi hv hm
    obtain ⟨hpre, hk⟩ := hw (L.view_wf hi0 hv0)
    obtain ⟨r, s1, he, hq1⟩ := hexec (choose n) hi0 hv0 hpre hq
    obtain ⟨g1, v1, ⟨hi1, hg1⟩, hv1, hpost, hf1⟩ := L.step_sound hi0 hv0 hpre he
    obtain ⟨o, n', s', g', v', hrun, ⟨hi', hg'⟩, hv', hq', hQ, hf'⟩ :=
      run_sound hexec choose (n + 1) hi1 hv1 hq1 (hk r v1 (L.view_wf hi1 hv1) hpost)
    exact ⟨o, n', s', g', v', by simp only [Prog.run, he]; exact hrun,
      ⟨hi', L.grows_trans hg0 (L.grows_trans hg1 hg')⟩, hv', hq', hQ,
      fun u w hu h => hf' u w hu (hf1 u w hu (hf0 u w hu h))⟩

end LocalLogic

end Interleaving
