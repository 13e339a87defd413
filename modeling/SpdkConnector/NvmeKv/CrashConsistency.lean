import SpdkConnector.NvmeKv.Publication

/-!
# Crash consistency

One client makes calls one after the other, and any engine call may raise, before or after its effect. Every
state in between is `Sound`, and from each of them the next call does what it says.
-/
namespace SpdkConnector
namespace NvmeKv

open Codec Interleaving

variable {m t : Nat} {jobs : List Job} {b p : Bytes} {i : Identity} {s s' : Engine} {luck : Luck → Prop}
  {I : Engine → Prop}

/-! ## One call alone -/

theorem solo_quiet : Quiet (Rely.solo I) := fun _ _ h => h

theorem solo_publishes (hsound : ∀ s, I s → Sound m jobs s)
    (hinsert : ∀ s s', I s → Inserts m jobs t b s s' → Sound m jobs s' → I s') :
    Publishes m jobs t b (Rely.solo I) where
  sound := hsound _
  keeps := by
    rintro s _ index v rfl - hv
    exact hv
  same := fun _ => trivial
  writes := by
    rintro s _ rfl
    exact List.Subset.refl _
  insert := fun hi hins hs => ⟨trivial, hinsert _ _ hi hins hs⟩

theorem solo_withdraws (hsound : ∀ s, I s → Sound m jobs s)
    (hremove : ∀ s s', I s → Removes m jobs t b s s' → Sound m jobs s' → I s') :
    Withdraws m jobs t b (Rely.solo I) where
  sound := hsound _
  away := by
    rintro s _ rfl h
    exact h
  same := fun _ => trivial
  remove := fun hi hrem hs => ⟨trivial, hremove _ _ hi hrem hs⟩

/-- The records of the other identities are the same. -/
def Apart (m : Nat) (jobs : List Job) (b : Bytes) (s s' : Engine) : Prop :=
  ∀ c index, c ≠ b → (c, index) ∈ slots m jobs → s'.get (recordKey c index) = s.get (recordKey c index)

/-- A `store` alone. -/
theorem store_alone (hD : Distinct m jobs) {j : Job} (hj : j ∈ jobs) (hobj : j.object = some (b, p))
    (hs : Sound m jobs s) (t : Nat) (choose : Nat → Luck) :
    ∃ o n s', Prog.run (machine m) t choose (body m j) 0 s = some (o, n, s') ∧ Sound m jobs s' ∧
      Apart m jobs b s s' ∧ (∀ k v, s.get k = some v → s'.get k = some v) ∧
      ∀ r, o = .ok (.stored r) → Visible m jobs s' b p ∧
        (r = true ↔ s.get (recordKey b manifestChunkIndex) = none) := by
  obtain ⟨i, hi, hb⟩ := object_request hobj
  obtain ⟨request, limit⟩ := j
  cases hi
  have hmem : (b, p) ∈ objects jobs := mem_objects.2 ⟨_, hj, i, rfl, hb⟩
  obtain ⟨o, n, s', hrun⟩ := Rely.run_total (M := machine m) choose (exec_total t) (body m ⟨.store i p, limit⟩) 0 s
  let I : Engine → Prop := fun s' => Sound m jobs s' ∧ Apart m jobs b s s' ∧ ∀ k v, s.get k = some v → s'.get k = some v
  have hG : Publishes m jobs t b (Rely.solo I) := by
    refine solo_publishes (fun _ h => h.1) ?_
    rintro s1 s2 ⟨-, hapart, hgrow⟩ hins hsound
    refine ⟨hsound, fun c index hne hslot => ?_, fun k v hv => hins.grows (hgrow k v hv)⟩
    rw [hins.frame hD hne hslot, hapart c index hne hslot]
  have hwp : (Rely.solo I).wp (exec t) (fun _ => True) (body m ⟨.store i p, limit⟩) s fun o s' =>
      ∀ r, o = .ok (.stored r) → Visible m jobs s' b p ∧
        (r = true ↔ s.get (recordKey b manifestChunkIndex) = none) := by
    refine Rely.wp_bind (Rely.wp_mono ?_ (wp_store hG hD hmem hb))
    rintro (e | r) s1 - h
    · exact fun r => nofun
    · rintro _ rfl - r' hr'
      cases hr'
      obtain ⟨hv, htrue, hfalse⟩ := h r rfl
      refine ⟨hv, fun hr => (htrue hr).1, fun hnone => ?_⟩
      cases r with
      | true => rfl
      | false => exact absurd hnone (hfalse rfl solo_quiet)
  obtain ⟨⟨hsound, hapart, hgrow⟩, hQ⟩ :=
    Rely.run_wp (M := machine m) (G := Rely.solo I) (fun _ => trivial) hrun ⟨hs, fun _ _ _ _ => rfl, fun _ _ h => h⟩ hwp
  exact ⟨o, n, s', hrun, hsound, hapart, hgrow, hQ⟩

/-- A `delete` alone. -/
theorem delete_alone (hD : Distinct m jobs) (hb : identityBytes i = .ok b) (hid : b ∈ identities jobs)
    (hs : Sound m jobs s) (limit : Limit) (t : Nat) (choose : Nat → Luck) :
    ∃ o n s', Prog.run (machine m) t choose (body m ⟨.delete i, limit⟩) 0 s = some (o, n, s') ∧ Sound m jobs s' ∧
      Apart m jobs b s s' ∧ (o = .ok (.deleted true) → s'.get (recordKey b manifestChunkIndex) = none) := by
  obtain ⟨o, n, s', hrun⟩ := Rely.run_total (M := machine m) choose (exec_total t) (body m ⟨.delete i, limit⟩) 0 s
  let I : Engine → Prop := fun s' => Sound m jobs s' ∧ Apart m jobs b s s'
  have hG : Withdraws m jobs t b (Rely.solo I) := by
    refine solo_withdraws (fun _ h => h.1) ?_
    rintro s1 s2 ⟨-, hapart⟩ hrem hsound
    refine ⟨hsound, fun c index hne hslot => ?_⟩
    rw [hrem.frame hD hne hslot, hapart c index hne hslot]
  have hwp : (Rely.solo I).wp (exec t) (fun _ => True) (body m ⟨.delete i, limit⟩) s fun o s' =>
      o = .ok (.deleted true) → s'.get (recordKey b manifestChunkIndex) = none := by
    refine Rely.wp_bind (Rely.wp_mono ?_ (wp_withdraw hG hD hid hb))
    rintro (e | r) s1 - h
    · exact nofun
    · rintro _ rfl - hr
      cases hr
      exact h rfl
  obtain ⟨⟨hsound, hapart⟩, hQ⟩ :=
    Rely.run_wp (M := machine m) (G := Rely.solo I) (fun _ => trivial) hrun ⟨hs, fun _ _ _ _ => rfl⟩ hwp
  exact ⟨o, n, s', hrun, hsound, hapart, hQ⟩

/-! ## Runs -/

/-- One client: a call starts when nothing is running. -/
def OneClient (P : Pool Engine Job Command Answer Exn Value) : Act Job Luck → Prop
  | .start _ _ => ∀ t, P.tasks t = none
  | _ => True

/-- Nobody runs beside anybody. -/
def client (m : Nat) (jobs : List Job) : Rules (machine m) where
  inv := Sound m jobs
  env := fun _ _ => Eq
  does := fun _ _ _ _ => True
  env_refl := fun _ _ _ => rfl
  env_trans := Eq.trans
  together := fun _ _ => False
  sound := fun _ h => absurd h id

theorem client_body (hD : Distinct m jobs) {j : Job} (hj : j ∈ jobs) (hkind : j.request ≠ .recover) :
    ((client m jobs).rely t j).wp ((machine m).exec t) (fun _ => True) ((machine m).body j) s fun _ _ => True := by
  have hpublishes : ∀ b, Publishes m jobs t b (Rely.solo (Sound m jobs)) :=
    fun b => solo_publishes (fun _ h => h) fun _ _ _ _ h => h
  have hwithdraws : ∀ b, Withdraws m jobs t b (Rely.solo (Sound m jobs)) :=
    fun b => solo_withdraws (fun _ h => h) fun _ _ _ _ h => h
  have hdone : ∀ (o : Except Exn Value) (s' : Engine), (Rely.solo (Sound m jobs)).wp (exec t) (fun _ => True)
      (Prog.ofExcept o : KvProg Value) s' fun _ _ => True := by
    rintro (e | a) s'
    · exact fun _ _ _ => trivial
    · exact fun _ _ _ => trivial
  obtain ⟨request, limit⟩ := j
  show (Rely.solo (Sound m jobs)).wp (exec t) _ (body m ⟨request, limit⟩) s _
  cases request with
  | store i p =>
    cases hb : identityBytes i with
    | error e =>
      rw [body_throw hb (.inl ⟨p, rfl⟩)]
      exact hdone (.error e) s
    | ok b =>
      refine Rely.wp_bind (Rely.wp_mono ?_ (wp_store (hpublishes b) hD (mem_objects.2 ⟨_, hj, i, rfl, hb⟩) hb))
      rintro (e | r) s1 - -
      · trivial
      · exact hdone (.ok (.stored r)) s1
  | load i =>
    cases hb : identityBytes i with
    | error e =>
      rw [body_throw hb (.inr (.inl rfl))]
      exact hdone (.error e) s
    | ok b =>
      have hid : b ∈ identities jobs := mem_identities.2 ⟨_, hj, toOption_ok.2 hb⟩
      refine Rely.wp_bind (Rely.wp_mono ?_ (wp_read (hpublishes b).toReads hD hid hb))
      rintro (e | r) s1 - -
      · trivial
      · exact hdone (.ok (.loaded r)) s1
  | delete i =>
    cases hb : identityBytes i with
    | error e =>
      rw [body_throw hb (.inr (.inr rfl))]
      exact hdone (.error e) s
    | ok b =>
      have hid : b ∈ identities jobs := mem_identities.2 ⟨_, hj, toOption_ok.2 hb⟩
      refine Rely.wp_bind (Rely.wp_mono ?_ (wp_withdraw (hwithdraws b) hD hid hb))
      rintro (e | r) s1 - -
      · trivial
      · exact hdone (.ok (.deleted r)) s1
  | recover => exact absurd rfl hkind

theorem client_obeys (hD : Distinct m jobs) :
    (client m jobs).Obeys (fun j => j ∈ jobs ∧ j.request ≠ .recover) (fun _ _ _ _ _ => True) (fun _ _ => True)
      fun _ => True where
  body := fun _ _ _ h _ => client_body hD h.1 h.2
  later_refl := fun _ => trivial
  later_trans := fun _ _ => trivial
  later_does := fun _ _ _ => trivial
  past_later := fun _ _ => trivial

/-- `load` returns `r` in state `s`, unless the engine raises; it changes nothing. -/
def Loads (m : Nat) (i : Identity) (s : Engine) (r : Option Bytes) : Prop :=
  ∀ t depth choose, ∃ o n, Prog.run (machine m) t choose (body m ⟨.load i, depth⟩) 0 s = some (o, n, s) ∧
    (o = .ok (.loaded r) ∨ ((∃ k, choose k ≠ .done) ∧ o = .error .engine))

theorem loads_of_result (hb : identityBytes i = .ok b) {r : Option Bytes}
    (h : ∀ depth, loadResult depth b s = .ok r) : Loads m i s r := by
  intro t depth choose
  obtain ⟨o, n, hrun, ho⟩ := load_run hb depth m t choose s
  rw [h depth.outer] at ho
  exact ⟨o, n, hrun, ho⟩

theorem Loads.unique {r r' : Option Bytes} (h : Loads m i s r) (h' : Loads m i s r') : r = r' := by
  obtain ⟨o, n, hrun, ho⟩ := h 0 (python311 0) fun _ => .done
  obtain ⟨o', n', hrun', ho'⟩ := h' 0 (python311 0) fun _ => .done
  rw [hrun] at hrun'
  cases hrun'
  rcases ho with rfl | ⟨⟨k, hk⟩, -⟩
  · rcases ho' with ho' | ⟨⟨k, hk⟩, -⟩
    · cases ho'
      rfl
    · exact absurd rfl hk
  · exact absurd rfl hk

/-- What `load` returns is decided by the manifest. -/
theorem Sound.loads (hs : Sound m jobs s) {jobs' : List Job} (hD : Distinct m jobs') (hsub : jobs ⊆ jobs')
    (hid : b ∈ identities jobs') (hb : identityBytes i = .ok b) :
    (∃ p, Visible m jobs s b p ∧ Loads m i s (some p)) ∨
      (s.get (recordKey b manifestChunkIndex) = none ∧ Loads m i s none) := by
  cases hget : s.get (recordKey b manifestChunkIndex) with
  | none => exact .inr ⟨rfl, loads_of_result hb fun _ => loadResult_none hget⟩
  | some v =>
    obtain ⟨p, hp, -⟩ := hs.visible hD hsub hid hget
    exact .inl ⟨p, hp, loads_of_result hb fun depth => hp.loads depth⟩

/-- Where an identity's records are the same, `load` returns the same. -/
theorem Loads.apart (hD : Distinct m jobs) (hs : Sound m jobs s) (h : Apart m jobs b s s') {c : Bytes} (hne : c ≠ b)
    (hid : c ∈ identities jobs) (hc : identityBytes i = .ok c) {r : Option Bytes} (hl : Loads m i s r) :
    Loads m i s' r := by
  rcases hs.loads hD (List.Subset.refl _) hid hc with ⟨p, hp, hlp⟩ | ⟨hnone, hln⟩
  · obtain rfl := hl.unique hlp
    have hp' : Visible m jobs s' c p := hp.keep fun index v hslot hv => (h c index hne hslot).trans hv
    exact loads_of_result hc fun depth => hp'.loads depth
  · obtain rfl := hl.unique hln
    refine loads_of_result hc fun _ => loadResult_none ?_
    rw [h c _ hne (manifest_slot hid), hnone]

/-- **Crash consistency.** `P` is any state one client's calls can reach, between two engine calls or between
two calls; `more` are calls that are made from there. -/
theorem crash_consistent (m : Nat) (acts : List (Act Job Luck)) (more : List Job)
    (P : Pool Engine Job Command Answer Exn Value) (hD : Distinct m (Rules.started acts ++ more))
    (hkind : ∀ j ∈ Rules.started acts, j.request ≠ .recover)
    (hclient : Guarded (Pool.act (machine m)) OneClient (Pool.init Engine.empty) acts)
    (hrun : runFrom (Pool.act (machine m)) (Pool.init Engine.empty) acts = some P) :
    (∀ b ∈ identities (Rules.started acts ++ more), ∀ v,
      P.shared.get (recordKey b manifestChunkIndex) = some v →
        ∃ p, Visible m (Rules.started acts) P.shared b p ∧ encodeManifest (plannedManifest b p m) = .ok v) ∧
    (∀ i b, identityBytes i = .ok b → b ∈ identities (Rules.started acts ++ more) →
      (∃ p, Visible m (Rules.started acts) P.shared b p ∧ Loads m i P.shared (some p)) ∨
        (P.shared.get (recordKey b manifestChunkIndex) = none ∧ Loads m i P.shared none)) ∧
    (∀ i p depth b, ⟨.store i p, depth⟩ ∈ more → identityBytes i = .ok b → ∀ t choose, ∃ o n s',
      Prog.run (machine m) t choose (body m ⟨.store i p, depth⟩) 0 P.shared = some (o, n, s') ∧
      (∀ r, o = .ok (.stored r) → Visible m (Rules.started acts ++ more) s' b p ∧ Loads m i s' (some p) ∧
        (r = true ↔ P.shared.get (recordKey b manifestChunkIndex) = none)) ∧
      (∀ q, Visible m (Rules.started acts) P.shared b q →
        Visible m (Rules.started acts) s' b q ∧ Loads m i s' (some q)) ∧
      ∀ k c r, identityBytes k = .ok c → c ∈ identities (Rules.started acts ++ more) → c ≠ b →
        Loads m k P.shared r → Loads m k s' r) ∧
    ∀ i depth b, ⟨.delete i, depth⟩ ∈ more → identityBytes i = .ok b → ∀ t choose, ∃ o n s',
      Prog.run (machine m) t choose (body m ⟨.delete i, depth⟩) 0 P.shared = some (o, n, s') ∧
      (o = .ok (.deleted true) → s'.get (recordKey b manifestChunkIndex) = none ∧ Loads m i s' none) ∧
      ∀ k c r, identityBytes k = .ok c → c ∈ identities (Rules.started acts ++ more) → c ≠ b →
        Loads m k P.shared r → Loads m k s' r := by
  have hsub : Rules.started acts ⊆ Rules.started acts ++ more := List.subset_append_left _ _
  have hDacts := hD.mono hsub
  have hreached : (client m _).Verified _ _ _ (fun _ => False) _ P :=
    Rules.verified_run (client_obeys hDacts) (Rules.verified_init Sound.empty trivial)
      (Rules.starts_guarded
        (fun P t j hc u k p hu => by
          rw [hc u] at hu
          cases hu)
        (fun j hj => ⟨hj, hkind j hj⟩) hclient) hrun
  have hsound : Sound m (Rules.started acts) P.shared := hreached.inv
  have hsound' : Sound m (Rules.started acts ++ more) P.shared := hsound.mono hsub
  refine ⟨fun b hb v hv => hsound.visible hD hsub hb hv, fun i b hb hid => hsound.loads hD hsub hid hb, ?_, ?_⟩
  · intro i p depth b hj hb t choose
    have hmem := List.mem_append_right (Rules.started acts) hj
    have hobj : (⟨.store i p, depth⟩ : Job).object = some (b, p) := by
      simp only [Job.object, toOption_ok.2 hb, Option.map_some]
    obtain ⟨o, n, s', hrun', -, hapart, hgrow, hQ⟩ := store_alone hD hmem hobj hsound' t choose
    refine ⟨o, n, s', hrun', ?_, ?_, fun k c r hc hcid hne hl => hl.apart hD hsound' hapart hne hcid hc⟩
    · intro r hr
      obtain ⟨hv, hiff⟩ := hQ r hr
      exact ⟨hv, loads_of_result hb fun depth => hv.loads depth, hiff⟩
    · intro q hq
      have hq' : Visible m (Rules.started acts) s' b q := hq.keep fun index v _ hv => hgrow _ _ hv
      exact ⟨hq', loads_of_result hb fun depth => hq'.loads depth⟩
  · intro i depth b hj hb t choose
    have hid : b ∈ identities (Rules.started acts ++ more) :=
      mem_identities.2 ⟨_, List.mem_append_right _ hj, toOption_ok.2 hb⟩
    obtain ⟨o, n, s', hrun', -, hapart, hgone⟩ := delete_alone hD hb hid hsound' depth t choose
    refine ⟨o, n, s', hrun', ?_, fun k c r hc hcid hne hl => hl.apart hD hsound' hapart hne hcid hc⟩
    intro ho
    exact ⟨hgone ho, loads_of_result hb fun _ => loadResult_none (hgone ho)⟩

/-- A `store` whose engine raises once the chunk is there. -/
def crashedStore : List (Act Job Luck) :=
  [.start 0 ⟨.store (.bytes [120]) [1, 2, 3], python311 100⟩, .step 0 .done, .step 0 .raiseAfter, .finish 0]

theorem crash_consistent_retry : ∃ P,
    runFrom (Pool.act (machine 200)) (Pool.init Engine.empty) crashedStore = some P ∧ P.shared.records.length = 1 ∧
    ∀ t choose, ∃ o n s',
      Prog.run (machine 200) t choose (body 200 ⟨.store (.bytes [120]) [1, 2, 3], python311 50⟩) 0 P.shared =
      some (o, n, s') ∧ ∀ r, o = .ok (.stored r) → Loads 200 (.bytes [120]) s' (some [1, 2, 3]) := by
  have hrecords : (runFrom (Pool.act (machine 200)) (Pool.init Engine.empty) crashedStore).map
      (fun P => P.shared.records.length) = some 1 := by
    decide +kernel
  obtain ⟨P, hrun, hlen⟩ := Option.map_eq_some_iff.1 hrecords
  have hkind : ∀ j ∈ Rules.started crashedStore, j.request ≠ .recover := by
    intro j hj
    obtain rfl := List.mem_singleton.1 hj
    nofun
  have hclient : Guarded (Pool.act (machine 200)) OneClient (Pool.init Engine.empty) crashedStore :=
    ⟨fun _ => rfl, fun _ _ => ⟨trivial, fun _ _ => ⟨trivial, fun _ _ => ⟨trivial, fun _ _ => trivial⟩⟩⟩⟩
  obtain ⟨-, -, hstore, -⟩ := crash_consistent 200 crashedStore [⟨.store (.bytes [120]) [1, 2, 3], python311 50⟩] P
    (by decide +kernel) hkind hclient hrun
  refine ⟨P, hrun, hlen, fun t choose => ?_⟩
  obtain ⟨o, n, s', hrun', hok, -⟩ :=
    hstore (.bytes [120]) [1, 2, 3] (python311 50) [120] (List.mem_singleton.2 rfl) rfl t choose
  exact ⟨o, n, s', hrun', fun r hr => (hok r hr).2.1⟩

end NvmeKv
end SpdkConnector
