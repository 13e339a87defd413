import SpdkConnector.NvmeKv.CrashConsistency

/-!
# Visible means complete

`store` adopts chunks that it finds, and `delete` removes them after it has hidden the manifest. Where the two
run on one identity at the same time, the manifest can come back without its chunks (`visible_incomplete`).
Where they do not, a manifest always has its chunks.
-/
namespace SpdkConnector
namespace NvmeKv

open Codec Interleaving

/-- A `store` and a `delete` of one identity. -/
def Clash (j k : Job) : Prop :=
  match j.request, k.request with
  | .store i _, .delete i' | .delete i, .store i' _ => ∃ b, identityBytes i = .ok b ∧ identityBytes i' = .ok b
  | _, _ => False

/-- No call is started beside one it clashes with. -/
def NoClash (P : Pool Engine Job Command Answer Exn Value) : Act Job Luck → Prop
  | .start _ j => ∀ u k p, P.tasks u = some ⟨k, p⟩ → ¬ Clash j k
  | _ => True

variable {m t : Nat} {jobs : List Job} {b p : Bytes} {i : Identity} {s s' : Engine} {luck : Luck → Prop}

theorem Clash.symm {j k : Job} (h : Clash j k) : Clash k j := by
  obtain ⟨j, limit⟩ := j
  obtain ⟨k, limit'⟩ := k
  cases j <;> cases k <;> first | exact h | exact (h.elim fun b hb => ⟨b, hb.2, hb.1⟩)

/-- What a call counts on from the others. -/
def Expects (m : Nat) (jobs : List Job) (j : Job) (s s' : Engine) : Prop :=
  match j.request with
  | .store i _ => ∀ b, identityBytes i = .ok b →
    (∀ index v, (b, index) ∈ slots m jobs → s.get (recordKey b index) = some v →
      s'.get (recordKey b index) = some v) ∧ s.writes ⊆ s'.writes
  | .delete i => ∀ b, identityBytes i = .ok b → s.get (recordKey b manifestChunkIndex) = none →
    s'.get (recordKey b manifestChunkIndex) = none
  | _ => True

/-- What a call does to them. -/
def Does (m : Nat) (jobs : List Job) (t : Nat) (j : Job) (s s' : Engine) : Prop :=
  s' = s ∨ match j.request with
    | .store i _ => ∃ b, identityBytes i = .ok b ∧ Inserts m jobs t b s s'
    | .delete i => ∃ b, identityBytes i = .ok b ∧ Removes m jobs t b s s'
    | _ => False

theorem Expects.refl (j : Job) (s : Engine) : Expects m jobs j s s := by
  unfold Expects
  split
  · exact fun b _ => ⟨fun _ _ _ hv => hv, List.Subset.refl _⟩
  · exact fun b _ h => h
  · trivial

theorem Expects.trans {j : Job} {s1 s2 s3 : Engine} (h : Expects m jobs j s1 s2) (h' : Expects m jobs j s2 s3) :
    Expects m jobs j s1 s3 := by
  obtain ⟨request, limit⟩ := j
  cases request with
  | store i p =>
    intro b hb
    exact ⟨fun index v hslot hv => (h' b hb).1 index v hslot ((h b hb).1 index v hslot hv),
      List.Subset.trans (h b hb).2 (h' b hb).2⟩
  | delete i => exact fun b hb hnone => h' b hb (h b hb hnone)
  | load i => trivial
  | recover => trivial

theorem Removes.writes (h : Removes m jobs t b s s') : s'.writes = s.writes := by
  obtain ⟨index, -, rfl⟩ := h
  rfl

/-- A manifest that is expected to stay away or a record that is expected to stay is another identity's. -/
theorem Does.expected (hD : Distinct m jobs) {j k : Job} {u : Nat} (hj : j ∈ jobs) (hclash : ¬ Clash j k)
    (h : Does m jobs u k s s') : Expects m jobs j s s' := by
  rcases h with rfl | h
  · exact Expects.refl j s'
  obtain ⟨j, limit⟩ := j
  obtain ⟨k, limit'⟩ := k
  cases k with
  | load i => cases h
  | recover => cases h
  | store i p =>
    obtain ⟨c, hc, hins⟩ := h
    cases j with
    | load i => trivial
    | recover => trivial
    | store i' p' => exact fun b hb => ⟨fun index v _ hv => hins.grows hv, hins.writes⟩
    | delete i' =>
      intro b hb hnone
      have hne : b ≠ c := fun heq => hclash ⟨b, hb, heq ▸ hc⟩
      rw [hins.frame hD hne (manifest_slot (mem_identities.2 ⟨_, hj, toOption_ok.2 hb⟩)), hnone]
  | delete i =>
    obtain ⟨c, hc, hrem⟩ := h
    cases j with
    | load i => trivial
    | recover => trivial
    | store i' p' =>
      intro b hb
      have hne : b ≠ c := fun heq => hclash ⟨b, hb, heq ▸ hc⟩
      exact ⟨fun index v hslot hv => (hrem.frame hD hne hslot).trans hv, hrem.writes ▸ List.Subset.refl _⟩
    | delete i' => exact fun b hb hnone => hrem.shrinks hnone

/-- Calls that do not clash. -/
def parties (m : Nat) (jobs : List Job) (hD : Distinct m jobs) : Rules (machine m) where
  inv := Sound m jobs
  env := fun _ j s s' => j ∈ jobs → Expects m jobs j s s'
  does := fun t j => Does m jobs t j
  env_refl := fun _ j s _ => Expects.refl j s
  env_trans := fun h h' hj => (h hj).trans (h' hj)
  together := fun j k => ¬ Clash j k
  sound := fun _ hclash _ hdoes hj => hdoes.expected hD hj hclash

/-- What a call has reached when it returns. -/
def Reached (m : Nat) (jobs : List Job) (j : Job) (o : Except Exn Value) (s' : Engine) : Prop :=
  ∀ b p r, j.object = some (b, p) → o = .ok (.stored r) → Visible m jobs s' b p

theorem parties_body (hD : Distinct m jobs) {j : Job} (hj : j ∈ jobs)
    (hkind : (∃ i p, j.request = .store i p) ∨ ∃ i, j.request = .delete i) :
    ((parties m jobs hD).rely t j).wp ((machine m).exec t) (fun _ => True) ((machine m).body j) s
      fun o s' => Reached m jobs j o s' := by
  obtain ⟨request, limit⟩ := j
  show ((parties m jobs hD).rely t _).wp (exec t) _ (body m ⟨request, limit⟩) s _
  obtain ⟨i, p, rfl⟩ | ⟨i, rfl⟩ := hkind
  · cases hb : identityBytes i with
    | error e =>
      rw [body_throw hb (.inl ⟨p, rfl⟩)]
      exact fun _ _ _ _ _ _ _ => nofun
    | ok b =>
      have hG : Publishes m jobs t b ((parties m jobs hD).rely t ⟨.store i p, limit⟩) := by
        refine ⟨⟨fun h => h, fun he hslot hv => ((he hj) b hb).1 _ _ hslot hv, fun _ => .inl rfl⟩,
          fun he => ((he hj) b hb).2, fun _ hins hs => ⟨.inr ⟨b, hb, hins⟩, hs⟩⟩
      refine Rely.wp_bind (Rely.wp_mono ?_ (wp_store hG hD (mem_objects.2 ⟨_, hj, i, rfl, hb⟩) hb))
      rintro (e | r) s1 - h
      · exact fun _ _ _ _ => nofun
      · intro s2 he _ c q r' hobj _
        obtain ⟨i', hi', hc⟩ := object_request hobj
        cases hi'
        rw [hb] at hc
        cases hc
        exact hG.visible he (h r rfl).1
  · cases hb : identityBytes i with
    | error e =>
      rw [body_throw hb (.inr (.inr rfl))]
      exact fun _ _ _ _ _ _ _ => nofun
    | ok b =>
      have hG : Withdraws m jobs t b ((parties m jobs hD).rely t ⟨.delete i, limit⟩) :=
        ⟨fun h => h, fun he hnone => he hj b hb hnone, fun _ => .inl rfl, fun _ hrem hs => ⟨.inr ⟨b, hb, hrem⟩, hs⟩⟩
      have hid : b ∈ identities jobs := mem_identities.2 ⟨_, hj, toOption_ok.2 hb⟩
      refine Rely.wp_bind (Rely.wp_mono ?_ (wp_withdraw hG hD hid hb))
      rintro o s1 - -
      cases o with
      | error e => exact fun _ _ _ _ => nofun
      | ok r => exact fun _ _ _ _ _ _ hobj => nomatch hobj

theorem parties_obey (hD : Distinct m jobs) :
    (parties m jobs hD).Obeys
      (fun j => j ∈ jobs ∧ ((∃ i p, j.request = .store i p) ∨ ∃ i, j.request = .delete i))
      (fun _ j _ o s' => Reached m jobs j o s') (fun _ _ => True) fun _ => True where
  body := fun _ _ _ h _ => parties_body hD h.1 h.2
  later_refl := fun _ => trivial
  later_trans := fun _ _ => trivial
  later_does := fun _ _ _ => trivial
  past_later := fun _ _ => trivial

/-- A committed object stays while its manifest is there: one step. -/
theorem Does.visible (hD : Distinct m jobs) {j : Job} {u : Nat} (hs : Sound m jobs s') (h : Does m jobs u j s s')
    (hv : Visible m jobs s b p) (hthere : s'.get (recordKey b manifestChunkIndex) ≠ none) : Visible m jobs s' b p := by
  rcases h with rfl | h
  · exact hv
  obtain ⟨j, limit⟩ := j
  cases j with
  | load i => cases h
  | recover => cases h
  | store i q =>
    obtain ⟨c, -, hins⟩ := h
    exact hv.keep fun _ _ _ hget => hins.grows hget
  | delete i =>
    obtain ⟨c, -, hrem⟩ := h
    obtain ⟨v, hget⟩ := Option.ne_none_iff_exists'.1 hthere
    have hid := objects_identities hv.object
    obtain ⟨q, hq, hencode⟩ := hs.visible hD (List.Subset.refl _) hid hget
    obtain ⟨w, hw, hold⟩ := hv.manifest
    -- the manifest was not inserted, so it is the one there was
    have hsame : s.get (recordKey b manifestChunkIndex) = some v := by
      cases hbefore : s.get (recordKey b manifestChunkIndex) with
      | none => exact absurd (hrem.shrinks hbefore) hthere
      | some v' =>
        obtain ⟨index, -, rfl⟩ := hrem
        rw [get_delete] at hget
        split at hget
        · cases hget
        · rw [← hbefore, hget]
    rw [hsame] at hold
    cases hold
    have hp : p = q := hD.sums _ hv.object _ hq.object (planned_checksum hw hencode)
    exact hp ▸ hq

/-- A pool of verified calls, as one run reaches it. -/
abbrev Calls (m : Nat) (jobs : List Job) (hD : Distinct m jobs) (P : Pool Engine Job Command Answer Exn Value) : Prop :=
  (parties m jobs hD).Verified (fun j => j ∈ jobs ∧ ((∃ i p, j.request = .store i p) ∨ ∃ i, j.request = .delete i))
    (fun _ j _ o s' => Reached m jobs j o s') (fun _ _ => True) (fun _ => False) (fun _ => True) P

/-- A committed object stays while its manifest is there: a run. -/
theorem visible_run (hD : Distinct m jobs) {run : List (Act Job Luck)} {P P' : Pool Engine Job Command Answer Exn Value}
    (hP : Calls m jobs hD P)
    (hok : Guarded (Pool.act (machine m)) ((parties m jobs hD).Starts fun j =>
      j ∈ jobs ∧ ((∃ i p, j.request = .store i p) ∨ ∃ i, j.request = .delete i)) P run)
    (h : runFrom (Pool.act (machine m)) P run = some P') (hv : Visible m jobs P.shared b p)
    (hthere : ∀ k Q, runFrom (Pool.act (machine m)) P (run.take k) = some Q →
      Q.shared.get (recordKey b manifestChunkIndex) ≠ none) : Visible m jobs P'.shared b p := by
  induction run generalizing P with
  | nil =>
    cases h
    exact hv
  | cons a run ih =>
    obtain ⟨Q, hact, hrest⟩ := runFrom_cons h
    have hQ := Rules.verified_act (parties_obey hD) hP hok.1 hact
    have hstep : runFrom (Pool.act (machine m)) P [a] = some Q := by simp [runFrom, hact]
    have hvQ : Visible m jobs Q.shared b p := by
      obtain ⟨t, j, rfl, -, -, rfl⟩ | ⟨t, ch, j, c, k, r, s, rfl, ht, hx, rfl⟩ | ⟨t, j, q, o, rfl, -, -, rfl⟩ :=
        Pool.act_cases hact
      · exact hv
      · obtain ⟨-, s0, -, -, hw⟩ := hP.running t j _ ht
        obtain ⟨⟨hdoes, -⟩, -⟩ := hw P.shared ((parties m jobs hD).env_refl t j _) hP.inv ch trivial r s hx
        exact Does.visible hD hQ.inv hdoes hv (hthere 1 _ hstep)
      · exact hv
    refine ih hQ (hok.2 Q hact) hrest hvQ fun k Q' hk => hthere (k + 1) Q' ?_
    rw [List.take_succ_cons, runFrom, hact]
    exact hk

/-- **Visible means complete**, in every run that never has a `store` and a `delete` of one identity at the
same time. `P` is any state of the run, `more` are identities to ask about; a `store` that is about to return
in state `soon` leaves its payload to be loaded for as long as the manifest is there. -/
theorem visible_complete (m : Nat) (before after : List (Act Job Luck)) (more : List Job)
    (soon P : Pool Engine Job Command Answer Exn Value) (hD : Distinct m (Rules.started (before ++ after) ++ more))
    (hkind : ∀ j ∈ Rules.started (before ++ after), (∃ i p, j.request = .store i p) ∨ ∃ i, j.request = .delete i)
    (hclash : Guarded (Pool.act (machine m)) NoClash (Pool.init Engine.empty) (before ++ after))
    (hsoon : runFrom (Pool.act (machine m)) (Pool.init Engine.empty) before = some soon)
    (hrun : runFrom (Pool.act (machine m)) soon after = some P) :
    (∀ b ∈ identities (Rules.started (before ++ after) ++ more), ∀ v,
      P.shared.get (recordKey b manifestChunkIndex) = some v →
        ∃ p, Visible m (Rules.started (before ++ after)) P.shared b p ∧
          encodeManifest (plannedManifest b p m) = .ok v ∧ ∀ i, identityBytes i = .ok b → Loads m i P.shared (some p)) ∧
    ∀ t j prog b p r, soon.tasks t = some ⟨j, prog⟩ → prog.result? = some (.ok (.stored r)) → j.object = some (b, p) →
      (∀ k Q, runFrom (Pool.act (machine m)) soon (after.take k) = some Q →
        Q.shared.get (recordKey b manifestChunkIndex) ≠ none) →
      ∀ i, identityBytes i = .ok b → Loads m i P.shared (some p) := by
  have hsub : Rules.started (before ++ after) ⊆ Rules.started (before ++ after) ++ more := List.subset_append_left _ _
  have hDacts := hD.mono hsub
  have hsplit : Rules.started (before ++ after) = Rules.started before ++ Rules.started after :=
    List.filterMap_append
  have htogether : ∀ (P : Pool Engine Job Command Answer Exn Value) t j, NoClash P (.start t j) → ∀ u k p,
      P.tasks u = some ⟨k, p⟩ → (parties m _ hDacts).together j k ∧ (parties m _ hDacts).together k j :=
    fun P t j hc u k p hu => ⟨hc u k p hu, fun h => hc u k p hu h.symm⟩
  obtain ⟨hguard, hrest⟩ := guarded_append hclash
  have hPsoon : Calls m _ hDacts soon :=
    Rules.verified_run (parties_obey hDacts) (Rules.verified_init Sound.empty trivial)
      (Rules.starts_guarded htogether (fun j hj => ⟨hsplit ▸ List.mem_append_left _ hj,
        hkind j (hsplit ▸ List.mem_append_left _ hj)⟩) hguard) hsoon
  have hafter := Rules.starts_guarded (L := parties m _ hDacts) htogether (fun j hj =>
    (⟨hsplit ▸ List.mem_append_right _ hj, hkind j (hsplit ▸ List.mem_append_right _ hj)⟩ :
      j ∈ Rules.started (before ++ after) ∧ ((∃ i p, j.request = .store i p) ∨ ∃ i, j.request = .delete i)))
    (hrest soon hsoon)
  have hP := Rules.verified_run (parties_obey hDacts) hPsoon hafter hrun
  constructor
  · intro b hb v hv
    obtain ⟨p, hp, hencode⟩ := Sound.visible hP.inv hD hsub hb hv
    exact ⟨p, hp, hencode, fun i hi => loads_of_result hi fun depth => hp.loads depth⟩
  · intro t j prog b p r ht hr hobj hthere i hi
    obtain ⟨s0, -, -, hreached⟩ := Rules.finish_outcome hPsoon ht hr
    have hv := visible_run hDacts hPsoon hafter hrun (hreached b p r hobj rfl) hthere
    exact loads_of_result hi fun depth => hv.loads depth

instance (i i' : Identity) : Decidable (∃ b, identityBytes i = .ok b ∧ identityBytes i' = .ok b) :=
  match h : (identityBytes i).toOption with
  | none => isFalse fun ⟨_, hb, _⟩ => by simp [toOption_ok.2 hb] at h
  | some b => decidable_of_iff ((identityBytes i').toOption = some b)
    ⟨fun h' => ⟨b, toOption_ok.1 h, toOption_ok.1 h'⟩, fun ⟨_, hc, hc'⟩ => by
      rw [toOption_ok.2 hc']
      exact (toOption_ok.2 hc).symm.trans h⟩

instance : ∀ j k, Decidable (Clash j k)
  | ⟨.store i _, _⟩, ⟨.delete i', _⟩ | ⟨.delete i, _⟩, ⟨.store i' _, _⟩ =>
    inferInstanceAs (Decidable (∃ b, identityBytes i = .ok b ∧ identityBytes i' = .ok b))
  | ⟨.store _ _, _⟩, ⟨.store _ _, _⟩ | ⟨.store _ _, _⟩, ⟨.load _, _⟩ | ⟨.store _ _, _⟩, ⟨.recover, _⟩ => isFalse id
  | ⟨.delete _, _⟩, ⟨.delete _, _⟩ | ⟨.delete _, _⟩, ⟨.load _, _⟩ | ⟨.delete _, _⟩, ⟨.recover, _⟩ => isFalse id
  | ⟨.load _, _⟩, _ | ⟨.recover, _⟩, _ => isFalse id

/-- `NoClash`, asked of these threads. -/
def NoClashAmong (ts : List Nat) (P : Pool Engine Job Command Answer Exn Value) : Act Job Luck → Prop
  | .start _ j => ∀ t ∈ ts, ∀ task ∈ P.tasks t, ¬ Clash j task.job
  | _ => True

instance (ts : List Nat) (P : Pool Engine Job Command Answer Exn Value) : ∀ a, Decidable (NoClashAmong ts P a)
  | .start _ j => inferInstanceAs (Decidable (∀ t ∈ ts, ∀ task ∈ P.tasks t, ¬ Clash j task.job))
  | .step _ _ | .finish _ => isTrue trivial

theorem noClash_among {run : List (Act Job Luck)}
    (h : Guarded (Pool.act (machine m)) (NoClashAmong (Rules.starters run)) (Pool.init Engine.empty) run) :
    Guarded (Pool.act (machine m)) NoClash (Pool.init Engine.empty) run := by
  refine Rules.starters_guarded (fun P a hidle ha => ?_) (fun t j hmem => Rules.mem_starters.2 ⟨j, hmem⟩)
    (fun _ _ => rfl) h
  cases a with
  | start t j =>
    intro u k p hu
    by_cases hmem : u ∈ Rules.starters run
    · exact ha u hmem _ hu
    · rw [hidle u hmem] at hu
      cases hu
  | step t ch => trivial
  | finish t => trivial

/-- An object is stored; then two stores of another identity, with different payloads, run beside a delete of the
first one, up to the return of one of the stores. -/
def besideDelete : List (Act Job Luck) :=
  [.start 0 ⟨.store (.bytes [121]) [9], python311 100⟩, .step 0 .done, .step 0 .done, .step 0 .done, .finish 0,
    .start 1 ⟨.store (.bytes [120]) [1, 2, 3], python311 100⟩, .start 2 ⟨.store (.bytes [120]) [4], python311 100⟩,
    .start 3 ⟨.delete (.bytes [121]), python311 100⟩, .step 1 .done, .step 2 .done, .step 3 .done, .step 1 .done,
    .step 2 .done, .step 3 .done, .step 1 .done]

/-- The other store finds a chunk that is not its own and raises; the delete goes on. -/
def besideEnd : List (Act Job Luck) :=
  [.step 2 .done, .finish 2, .step 3 .done, .finish 1, .finish 3]

theorem visible_complete_race : ∃ soon P,
    runFrom (Pool.act (machine 200)) (Pool.init Engine.empty) besideDelete = some soon ∧
    runFrom (Pool.act (machine 200)) soon besideEnd = some P ∧ Loads 200 (.bytes [120]) P.shared (some [1, 2, 3]) := by
  have htest : (runFrom (Pool.act (machine 200)) (Pool.init Engine.empty) besideDelete).any (fun soon =>
      decide ((soon.tasks 1).map (fun task => (task.job, task.prog.result?)) =
        some (⟨.store (.bytes [120]) [1, 2, 3], python311 100⟩, some (.ok (.stored true)))) &&
      decide (Guarded (Pool.act (machine 200)) (fun P _ => P.shared.get (recordKey [120] manifestChunkIndex) ≠ none)
        soon besideEnd) &&
      (runFrom (Pool.act (machine 200)) soon besideEnd).any fun P =>
        decide (P.shared.get (recordKey [120] manifestChunkIndex) ≠ none)) = true := by
    decide +kernel
  obtain ⟨soon, hsoon, h⟩ := (Option.any_eq_true _ _).1 htest
  simp only [Bool.and_eq_true, decide_eq_true_eq] at h
  obtain ⟨⟨hresult, hstays⟩, hend⟩ := h
  obtain ⟨P, hP, hlast⟩ := (Option.any_eq_true _ _).1 hend
  obtain ⟨⟨j, prog⟩, htask, hprog⟩ := Option.map_eq_some_iff.1 hresult
  obtain ⟨rfl, hprog⟩ := Prod.mk.inj hprog
  have hclash : Guarded (Pool.act (machine 200)) NoClash (Pool.init Engine.empty) (besideDelete ++ besideEnd) :=
    noClash_among (by decide +kernel)
  have hkind : ∀ j ∈ Rules.started (besideDelete ++ besideEnd),
      (∃ i p, j.request = .store i p) ∨ ∃ i, j.request = .delete i := by
    intro j hj
    simp only [besideDelete, besideEnd, Rules.started, List.cons_append, List.nil_append, List.filterMap_cons,
      List.filterMap_nil, List.mem_cons, List.not_mem_nil, or_false] at hj
    rcases hj with rfl | rfl | rfl | rfl
    · exact .inl ⟨_, _, rfl⟩
    · exact .inl ⟨_, _, rfl⟩
    · exact .inl ⟨_, _, rfl⟩
    · exact .inr ⟨_, rfl⟩
  obtain ⟨-, hload⟩ := visible_complete 200 _ _ [] soon P (by decide +kernel) hkind hclash hsoon hP
  refine ⟨soon, P, hsoon, hP, hload 1 _ prog [120] [1, 2, 3] true htask hprog rfl (fun k Q hQ => ?_) _ rfl⟩
  refine guarded_prefix hstays (fun s' hs' => ?_) k hQ
  obtain rfl := Option.some.inj (hP.symm.trans hs')
  exact of_decide_eq_true hlast

/-! ## A store beside a delete -/

/-- An object is stored; a `delete` hides it; a second `store` of it adopts the chunk, the `delete` removes the
chunk, and the `store` publishes the manifest. -/
def adoptedChunk : List (Act Job Luck) :=
  let put : Job := ⟨.store (.bytes [120]) [1, 2, 3], python311 100⟩
  [.start 0 put, .step 0 .done, .step 0 .done, .step 0 .done, .finish 0,
    .start 1 ⟨.delete (.bytes [120]), python311 100⟩, .step 1 .done, .step 1 .done,
    .start 2 put, .step 2 .done, .step 2 .done, .step 2 .done,
    .step 1 .done, .finish 1, .step 2 .done, .finish 2]

/-- **A manifest without its chunk**: nothing is running, and the object does not load. -/
theorem visible_incomplete : ¬ ∀ (m : Nat) (acts : List (Act Job Luck)) (P : Pool Engine Job Command Answer Exn Value),
    Distinct m (Rules.started acts) →
    (∀ j ∈ Rules.started acts, (∃ i p, j.request = .store i p) ∨ ∃ i, j.request = .delete i) →
    runFrom (Pool.act (machine m)) (Pool.init Engine.empty) acts = some P → (∀ t, P.tasks t = none) →
    ∀ b ∈ identities (Rules.started acts), ∀ v, P.shared.get (recordKey b manifestChunkIndex) = some v →
      ∃ p, Visible m (Rules.started acts) P.shared b p := by
  intro h
  have heval : (runFrom (Pool.act (machine 200)) (Pool.init Engine.empty) adoptedChunk).map
      (fun P => ((P.shared.get (recordKey [120] manifestChunkIndex)).isSome, (P.shared.get (recordKey [120] 0)).isNone,
        (P.tasks 0).isNone && (P.tasks 1).isNone && (P.tasks 2).isNone)) = some (true, true, true) := by
    decide +kernel
  obtain ⟨P, hrun, heq⟩ := Option.map_eq_some_iff.1 heval
  simp only [Prod.mk.injEq, Bool.and_eq_true, Option.isNone_iff_eq_none] at heq
  obtain ⟨hmanifest, hchunk, ⟨h0, h1⟩, h2⟩ := heq
  have htasks : ∀ t, P.tasks t = none := by
    intro t
    by_cases hmem : t ∈ [0, 1, 2]
    · simp only [List.mem_cons, List.not_mem_nil, or_false] at hmem
      rcases hmem with rfl | rfl | rfl
      · exact h0
      · exact h1
      · exact h2
    · refine Pool.run_tasks (Pool.run_eq.trans hrun) rfl fun j hstart => hmem ?_
      exact Rules.mem_starters.2 ⟨j, hstart⟩
  have hkind : ∀ j ∈ Rules.started adoptedChunk, (∃ i p, j.request = .store i p) ∨ ∃ i, j.request = .delete i := by
    intro j hj
    simp only [adoptedChunk, Rules.started, List.filterMap_cons, List.filterMap_nil, List.mem_cons, List.not_mem_nil,
      or_false] at hj
    rcases hj with rfl | rfl | rfl
    · exact .inl ⟨_, _, rfl⟩
    · exact .inr ⟨_, rfl⟩
    · exact .inl ⟨_, _, rfl⟩
  obtain ⟨v, hv⟩ := Option.isSome_iff_exists.1 hmanifest
  obtain ⟨p, hp⟩ := h 200 adoptedChunk P (by decide +kernel) hkind hrun htasks [120] (by decide) v hv
  have hobj : p = [1, 2, 3] := by
    have hmem : (([120] : Bytes), p) ∈ [([120], [1, 2, 3]), ([120], [1, 2, 3])] := hp.object
    simp only [List.mem_cons, Prod.mk.injEq, true_and, List.not_mem_nil, or_false, or_self] at hmem
    exact hmem
  have := hp.chunks 0 [1, 2, 3] (by rw [hobj]; rfl)
  rw [hchunk] at this
  cases this

end NvmeKv
end SpdkConnector
