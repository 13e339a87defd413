import Mathlib.Data.List.Nodup
import SpdkConnector.NvmeKv.Publication

/-!
# Concurrent publishers agree

Any number of `store` and `load` calls on one engine, no `delete`. Records only come, and each key is written
once: the manifest of an identity is of one object, which all calls that return were given.
-/
namespace SpdkConnector
namespace NvmeKv

open Codec Interleaving

/-- Records and the trace of insertions only grow. -/
def Grows (s s' : Engine) : Prop := (∀ k v, s.get k = some v → s'.get k = some v) ∧ s.writes ⊆ s'.writes

/-- Every key that was written is there, and was written once. -/
def Once (s : Engine) : Prop := (∀ w ∈ s.writes, s.get w.2 ≠ none) ∧ (s.writes.map (·.2)).Nodup

variable {m t : Nat} {jobs : List Job} {b p : Bytes} {i : Identity} {s s' : Engine}

theorem Grows.refl (s : Engine) : Grows s s := ⟨fun _ _ h => h, List.Subset.refl _⟩

theorem Grows.trans {s'' : Engine} (h : Grows s s') (h' : Grows s' s'') : Grows s s'' :=
  ⟨fun k v hv => h'.1 k v (h.1 k v hv), List.Subset.trans h.2 h'.2⟩

theorem Inserts.grow (h : Inserts m jobs t b s s') : Grows s s' := ⟨fun _ _ hv => h.grows hv, h.writes⟩

theorem Once.insert (ho : Once s) (h : Inserts m jobs t b s s') : Once s' := by
  have hgrows : ∀ k v, s.get k = some v → s'.get k = some v := fun k v hv => h.grows hv
  obtain ⟨index, value, -, habsent, rfl⟩ := h
  rw [effect_insert habsent] at hgrows ⊢
  constructor
  · intro w hw
    rcases List.mem_append.1 hw with hw | hw
    · obtain ⟨v, hv⟩ := Option.ne_none_iff_exists'.1 (ho.1 w hw)
      rw [hgrows _ _ hv]
      exact Option.some_ne_none v
    · obtain rfl := List.mem_singleton.1 hw
      have hget : (s.effect t (.storeIfAbsent (recordKey b index) value)).get (recordKey b index) = some value :=
        (get_insert habsent _).trans (if_pos rfl)
      rw [effect_insert habsent] at hget
      rw [hget]
      exact Option.some_ne_none value
  · rw [List.map_append, List.nodup_append]
    refine ⟨ho.2, List.pairwise_singleton _ _, ?_⟩
    intro x hx y hy
    obtain ⟨w, hw, rfl⟩ := List.mem_map.1 hx
    obtain rfl := List.mem_singleton.1 hy
    rintro heq
    have := ho.1 w hw
    rw [heq] at this
    exact this habsent

/-- A key written by two threads would have been written twice. -/
theorem Once.writer (h : Once s) {u : Nat} {key : Bytes} (ht : (t, key) ∈ s.writes) (hu : (u, key) ∈ s.writes) :
    t = u := by
  have := List.inj_on_of_nodup_map h.2 ht hu rfl
  exact congrArg Prod.fst this

/-! ## The rules -/

/-- Everyone may insert, nobody deletes. -/
def publishers (m : Nat) (jobs : List Job) : Rules (machine m) where
  inv := fun s => Sound m jobs s ∧ Once s
  env := fun _ _ => Grows
  does := fun _ _ => Grows
  env_refl := fun _ _ => Grows.refl
  env_trans := Grows.trans
  together := fun _ _ => True
  sound := fun _ _ _ h => h

/-- A `store` or a `load`. -/
def Job.Publishes (j : Job) : Prop :=
  match j.request with
  | .store _ _ | .load _ => True
  | .delete _ | .recover => False

/-- What a call has reached when it returns: a `store` its object, a `load` the object there is. -/
def Agreed (m : Nat) (jobs : List Job) (t : Nat) (j : Job) (s : Engine) (o : Except Exn Value) (s' : Engine) : Prop :=
  match j.request with
  | .store i p => ∀ b, identityBytes i = .ok b → ∀ r, o = .ok (.stored r) →
    Visible m jobs s' b p ∧ (r = true → (t, recordKey b manifestChunkIndex) ∈ s'.writes)
  | .load i => ∀ b, identityBytes i = .ok b → (∃ p, o = .ok (.loaded (some p)) ∧ Visible m jobs s' b p) ∨
    (o = .ok (.loaded none) ∧ s.get (recordKey b manifestChunkIndex) = none) ∨ o = .error .engine
  | _ => True

theorem publishers_rely (j : Job) : Publishes m jobs t b ((publishers m jobs).rely t j) where
  sound := fun h => h.1
  keeps := fun he _ hv => he.1 _ _ hv
  same := fun _ => Grows.refl _
  writes := fun he => he.2
  insert := fun hi hins hsound => ⟨hins.grow, hsound, hi.2.insert hins⟩

theorem publishers_body (hD : Distinct m jobs) {j : Job} (hj : j ∈ jobs) (hkind : j.Publishes) :
    ((publishers m jobs).rely t j).wp ((machine m).exec t) (fun _ => True) ((machine m).body j) s
      (Agreed m jobs t j s) := by
  obtain ⟨request, limit⟩ := j
  cases request with
  | store i p =>
    cases hb : identityBytes i with
    | error e =>
      show Rely.wp _ _ _ (body m ⟨.store i p, limit⟩) _ _
      rw [body_throw hb (.inl ⟨p, rfl⟩)]
      intro s' _ _ c hc
      rw [hb] at hc
      cases hc
    | ok b =>
      refine Rely.wp_bind (Rely.wp_mono ?_ (wp_store (publishers_rely _) hD (mem_objects.2 ⟨_, hj, i, rfl, hb⟩) hb))
      rintro (e | r) s1 - hr
      · exact fun c _ r => nofun
      · intro s2 he2 hi2 c hc r' hr'
        cases hr'
        rw [hb] at hc
        cases hc
        obtain ⟨hvisible, hwrote, -⟩ := hr r rfl
        exact ⟨(publishers_rely (t := t) _).visible he2 hvisible, fun h => he2.2 (hwrote h).2⟩
  | load i =>
    cases hb : identityBytes i with
    | error e =>
      show Rely.wp _ _ _ (body m ⟨.load i, limit⟩) _ _
      rw [body_throw hb (.inr (.inl rfl))]
      intro s' _ _ c hc
      rw [hb] at hc
      cases hc
    | ok b =>
      have hid : b ∈ identities jobs := mem_identities.2 ⟨_, hj, toOption_ok.2 hb⟩
      refine Rely.wp_bind (Rely.wp_mono ?_ (wp_read (publishers_rely (t := t) _).toReads hD hid hb))
      rintro o s1 - h
      rcases h with ⟨p, rfl, hvisible⟩ | ⟨rfl, hnone⟩ | rfl
      · intro s2 he2 _ c hc
        rw [hb] at hc
        cases hc
        exact .inl ⟨p, rfl, (publishers_rely (t := t) _).visible he2 hvisible⟩
      · intro s2 _ _ c hc
        rw [hb] at hc
        cases hc
        exact .inr (.inl ⟨rfl, hnone⟩)
      · exact fun _ _ => .inr (.inr rfl)
  | delete i => cases hkind
  | recover => cases hkind

theorem publishers_obey (hD : Distinct m jobs) :
    (publishers m jobs).Obeys (fun j => j ∈ jobs ∧ j.Publishes) (Agreed m jobs) Grows fun _ => True where
  body := fun _ _ _ h _ => publishers_body hD h.1 h.2
  later_refl := Grows.refl
  later_trans := Grows.trans
  later_does := fun _ _ h => h
  past_later := fun _ _ => trivial

theorem Visible.grow (h : Visible m jobs s b p) (hg : Grows s s') : Visible m jobs s' b p :=
  h.keep fun _ _ _ hv => hg.1 _ _ hv

/-- What a returned `store` has reached, later on. -/
theorem agreed_store {j : Job} {r : Bool} {s1 : Engine} (h : Agreed m jobs t j s (.ok (.stored r)) s1)
    (hj : j.object = some (b, p)) (hg : Grows s1 s') :
    Visible m jobs s' b p ∧ (r = true → (t, recordKey b manifestChunkIndex) ∈ s'.writes) := by
  obtain ⟨i, hi, hb⟩ := object_request hj
  unfold Agreed at h
  rw [hi] at h
  obtain ⟨hv, hw⟩ := h b hb r rfl
  exact ⟨hv.grow hg, fun hr => hg.2 (hw hr)⟩

/-- **Concurrent publishers agree.** In every run of `store` and `load` calls on an empty engine, at most one
`store` of an identity returns `True`, all that return had the same payload, and a `load` returns only
payloads that a `store` was given. `soon` is a point of the run: where a `store` has returned by then, every
`load` made later returns its payload. -/
theorem publishers_agree (m : Nat) (before after : List (Act Job Luck)) (soon late : Pool Engine Job Command Answer Exn Value)
    (hD : Distinct m (Rules.started (before ++ after))) (hkind : ∀ j ∈ Rules.started (before ++ after), j.Publishes)
    (hsoon : runFrom (Pool.act (machine m)) (Pool.init Engine.empty) before = some soon)
    (hlate : runFrom (Pool.act (machine m)) soon after = some late) :
    (∀ t u j k b p q, (t, j, .ok (.stored true)) ∈ late.done → (u, k, .ok (.stored true)) ∈ late.done →
      j.object = some (b, p) → k.object = some (b, q) → t = u) ∧
    (∀ t u j k b p q r r', (t, j, .ok (.stored r)) ∈ late.done → (u, k, .ok (.stored r')) ∈ late.done →
      j.object = some (b, p) → k.object = some (b, q) → p = q) ∧
    (∀ t i depth b q, (t, ⟨.load i, depth⟩, .ok (.loaded (some q))) ∈ late.done → identityBytes i = .ok b →
      ∃ j ∈ Rules.started (before ++ after), j.object = some (b, q)) ∧
    ∀ t j b p r, (t, j, .ok (.stored r)) ∈ soon.done → j.object = some (b, p) →
      ∀ u i depth o, (u, ⟨.load i, depth⟩, o) ∈ late.done → ¬ Rules.Pool.Known soon u → identityBytes i = .ok b →
        o = .ok (.loaded (some p)) ∨ o = .error .engine := by
  have hobey := publishers_obey hD
  have hallowed : ∀ j ∈ Rules.started (before ++ after), j ∈ Rules.started (before ++ after) ∧ j.Publishes :=
    fun j hj => ⟨hj, hkind j hj⟩
  have hsplit : Rules.started (before ++ after) = Rules.started before ++ Rules.started after :=
    List.filterMap_append
  have hbefore : (publishers m _).Verified _ _ _ (fun _ => False) _ soon :=
    Rules.verified_run hobey (Rules.verified_init ⟨Sound.empty, nofun, List.nodup_nil⟩ trivial)
      (Rules.starts_guarded (fun _ _ _ _ _ _ _ _ => ⟨trivial, trivial⟩)
        (fun j hj => hallowed j (hsplit ▸ List.mem_append_left _ hj)) (guarded_true _ _)) hsoon
  have hafter := Rules.verified_run (hobey.restart soon.shared) (hbefore.restart hobey)
    (Rules.starts_guarded (fun _ _ _ _ _ _ _ _ => ⟨trivial, trivial⟩)
      (fun j hj => hallowed j (hsplit ▸ List.mem_append_right _ hj)) (guarded_true _ _)) hlate
  refine ⟨?_, ?_, ?_, ?_⟩
  · intro t u j k b p q ht hu hj hk
    obtain ⟨s0, s1, -, -, hQ, hg⟩ := hafter.done _ _ _ ht
    obtain ⟨s2, s3, -, -, hQ', hg'⟩ := hafter.done _ _ _ hu
    exact hafter.inv.2.writer ((agreed_store hQ hj hg).2 rfl) ((agreed_store hQ' hk hg').2 rfl)
  · intro t u j k b p q r r' ht hu hj hk
    obtain ⟨s0, s1, -, -, hQ, hg⟩ := hafter.done _ _ _ ht
    obtain ⟨s2, s3, -, -, hQ', hg'⟩ := hafter.done _ _ _ hu
    exact (agreed_store hQ hj hg).1.unique (agreed_store hQ' hk hg').1
  · intro t i depth b q ht hb
    obtain ⟨s0, s1, -, -, hQ, -⟩ := hafter.done _ _ _ ht
    obtain ⟨p, hp, hv⟩ | ⟨hp, -⟩ | hp := hQ b hb
    · cases hp
      obtain ⟨j, hj, i', hi', hb'⟩ := mem_objects.1 hv.object
      refine ⟨j, hj, ?_⟩
      rw [Job.object, hi']
      dsimp only
      rw [hb']
      rfl
    · cases hp
    · cases hp
  · intro t j b p r ht hj u i depth o hu hnew hb
    obtain ⟨s0, s1, -, -, hQ, hg⟩ := hbefore.done _ _ _ ht
    have hsoon := (agreed_store hQ hj hg).1
    obtain ⟨s2, s3, -, hpast, hQ', hg'⟩ := hafter.done _ _ _ hu
    obtain ⟨q, rfl, hv⟩ | ⟨-, hnone⟩ | rfl := hQ' b hb
    · obtain rfl := (hsoon.grow hafter.held).unique (hv.grow hg')
      exact .inl rfl
    · obtain ⟨v, -, hget⟩ := (hsoon.grow (hpast hnew)).manifest
      rw [hget] at hnone
      cases hnone
    · exact .inr rfl

/-- Two calls store one object; the second publishes it, the first finds its manifest. -/
def racingStores : List (Act Job Luck) :=
  let job : Job := ⟨.store (.bytes [120]) [1, 2, 3], python311 100⟩
  [.start 0 job, .start 1 job, .step 0 .done, .step 1 .done, .step 0 .done, .step 1 .done, .step 1 .done,
    .step 1 .done, .finish 1, .step 0 .done, .step 0 .done, .finish 0]

def laterLoad : List (Act Job Luck) :=
  [.start 2 ⟨.load (.bytes [120]), python311 100⟩, .step 2 .done, .step 2 .done, .finish 2]

theorem publishers_agree_racing : ∃ soon late,
    runFrom (Pool.act (machine 200)) (Pool.init Engine.empty) racingStores = some soon ∧
    runFrom (Pool.act (machine 200)) soon laterLoad = some late ∧
    (soon.done.map fun d => d.2.2) = [.ok (.stored true), .ok (.stored false)] ∧
    ∀ o, (2, ⟨.load (.bytes [120]), python311 100⟩, o) ∈ late.done →
      o = .ok (.loaded (some [1, 2, 3])) ∨ o = .error .engine := by
  have hrun : ((runFrom (Pool.act (machine 200)) (Pool.init Engine.empty) racingStores).bind fun soon =>
      (runFrom (Pool.act (machine 200)) soon laterLoad).map fun _ => (soon.done, (soon.tasks 2).isNone)) =
      some ([(1, ⟨.store (.bytes [120]) [1, 2, 3], python311 100⟩, .ok (.stored true)),
        (0, ⟨.store (.bytes [120]) [1, 2, 3], python311 100⟩, .ok (.stored false))], true) := by
    decide +kernel
  obtain ⟨soon, hsoon, h⟩ := Option.bind_eq_some_iff.1 hrun
  obtain ⟨late, hlate, h⟩ := Option.map_eq_some_iff.1 h
  obtain ⟨hdone, htask⟩ := Prod.mk.inj h
  have hkind : ∀ j ∈ Rules.started (racingStores ++ laterLoad), j.Publishes := by
    intro j hj
    simp only [racingStores, laterLoad, Rules.started, List.cons_append, List.nil_append, List.filterMap_cons,
      List.filterMap_nil, List.mem_cons, List.not_mem_nil, or_false] at hj
    rcases hj with rfl | rfl | rfl
    · trivial
    · trivial
    · trivial
  obtain ⟨-, -, -, hload⟩ := publishers_agree 200 racingStores laterLoad soon late (by decide +kernel) hkind hsoon hlate
  refine ⟨soon, late, hsoon, hlate, by rw [hdone]; rfl, fun o ho => ?_⟩
  refine hload 1 ⟨.store (.bytes [120]) [1, 2, 3], python311 100⟩ [120] [1, 2, 3] true (by rw [hdone]; decide) rfl 2 _
    (python311 100) o ho ?_ rfl
  rintro (h | ⟨j, r, h⟩)
  · exact h (Option.isNone_iff_eq_none.1 htask)
  · rw [hdone] at h
    simp at h

end NvmeKv
end SpdkConnector
