import SpdkConnector.NvmeKv.Records

/-!
# `store`, `delete` and `load` among other calls

Each call is verified against any `Rely` that leaves it what it needs: a `store` and a `load` need their
identity's records to stay, a `delete` needs a missing manifest not to come back. `Inserts` and `Removes`
are what they do to others.
-/
namespace SpdkConnector
namespace NvmeKv

open Codec Interleaving

/-- One record of the identity put where there was none. -/
def Inserts (m : Nat) (jobs : List Job) (t : Nat) (b : Bytes) (s s' : Engine) : Prop :=
  ∃ index value, (b, index) ∈ slots m jobs ∧ s.get (recordKey b index) = none ∧
    s' = s.effect t (.storeIfAbsent (recordKey b index) value)

/-- One key of the identity deleted. -/
def Removes (m : Nat) (jobs : List Job) (t : Nat) (b : Bytes) (s s' : Engine) : Prop :=
  ∃ index, (b, index) ∈ slots m jobs ∧ s' = s.effect t (.delete (recordKey b index))

variable {l : Limit} {m limit t : Nat} {jobs : List Job} {b p : Bytes} {i : Identity} {s s' : Engine} {luck : Luck → Prop}
  {G : Rely Engine}

theorem Inserts.grows (h : Inserts m jobs t b s s') {key v : Bytes} (hv : s.get key = some v) :
    s'.get key = some v := by
  obtain ⟨index, value, -, habsent, rfl⟩ := h
  rw [get_insert habsent, if_neg]
  · exact hv
  · rintro rfl
    rw [habsent] at hv
    cases hv

theorem Inserts.writes (h : Inserts m jobs t b s s') : s.writes ⊆ s'.writes := by
  obtain ⟨index, value, -, habsent, rfl⟩ := h
  rw [effect_insert habsent]
  exact List.subset_append_left _ _

theorem Removes.shrinks (h : Removes m jobs t b s s') {key : Bytes} (hk : s.get key = none) : s'.get key = none := by
  obtain ⟨index, -, rfl⟩ := h
  rw [get_delete, hk, ite_self]

/-- The records of other identities stay as they are. -/
theorem Inserts.frame (hD : Distinct m jobs) (h : Inserts m jobs t b s s') {c : Bytes} (hne : c ≠ b) {index : Nat}
    (hslot : (c, index) ∈ slots m jobs) : s'.get (recordKey c index) = s.get (recordKey c index) := by
  obtain ⟨index', value, hslot', habsent, rfl⟩ := h
  rw [get_insert habsent, if_neg]
  intro heq
  cases hD.keys _ hslot _ hslot' heq
  exact hne rfl

theorem Removes.frame (hD : Distinct m jobs) (h : Removes m jobs t b s s') {c : Bytes} (hne : c ≠ b) {index : Nat}
    (hslot : (c, index) ∈ slots m jobs) : s'.get (recordKey c index) = s.get (recordKey c index) := by
  obtain ⟨index', hslot', rfl⟩ := h
  rw [get_delete, if_neg]
  intro heq
  cases hD.keys _ hslot _ hslot' heq
  exact hne rfl

/-! ## What a call needs -/

/-- The identity's records stay. -/
structure Reads (m : Nat) (jobs : List Job) (b : Bytes) (G : Rely Engine) : Prop where
  sound : ∀ {s}, G.inv s → Sound m jobs s
  keeps : ∀ {s s' index v}, G.env s s' → (b, index) ∈ slots m jobs → s.get (recordKey b index) = some v →
    s'.get (recordKey b index) = some v
  same : ∀ {s}, G.inv s → G.does s s

structure Publishes (m : Nat) (jobs : List Job) (t : Nat) (b : Bytes) (G : Rely Engine) : Prop
    extends Reads m jobs b G where
  writes : ∀ {s s'}, G.env s s' → s.writes ⊆ s'.writes
  insert : ∀ {s s'}, G.inv s → Inserts m jobs t b s s' → Sound m jobs s' → G.does s s' ∧ G.inv s'

/-- A missing manifest does not come back. -/
structure Withdraws (m : Nat) (jobs : List Job) (t : Nat) (b : Bytes) (G : Rely Engine) : Prop where
  sound : ∀ {s}, G.inv s → Sound m jobs s
  away : ∀ {s s'}, G.env s s' → s.get (recordKey b manifestChunkIndex) = none →
    s'.get (recordKey b manifestChunkIndex) = none
  same : ∀ {s}, G.inv s → G.does s s
  remove : ∀ {s s'}, G.inv s → Removes m jobs t b s s' → Sound m jobs s' → G.does s s' ∧ G.inv s'

/-- Nobody else is running. -/
def Quiet (G : Rely Engine) : Prop := ∀ s s', G.env s s' → s = s'

theorem Reads.visible (hG : Reads m jobs b G) (he : G.env s s') (h : Visible m jobs s b p) :
    Visible m jobs s' b p :=
  h.keep fun _ _ hslot hv => hG.keeps he hslot hv

/-- A read. -/
theorem Reads.ask (hG : Reads m jobs b G) {α : Type} {key : Bytes} {f : Option Bytes → KvProg α}
    {Q : Except Exn α → Engine → Prop}
    (h : ∀ s', G.env s s' → G.inv s' → G.wp (exec t) luck (f (s'.get key)) s' Q)
    (herr : ∀ s', G.inv s' → Q (.error .engine) s') :
    G.wp (exec t) luck ((ask (.retrieve key)).bind f) s Q :=
  wp_ask (fun s' he hi => ⟨⟨hG.same hi, hG.same hi, hi⟩, h s' he hi⟩) fun _ => herr

/-! ## `store` -/

/-- An existing manifest that agrees with the requested one is of the same payload. -/
theorem check_agrees (hD : Distinct m jobs) {q v : Bytes} (hp : (b, p) ∈ objects jobs) (hq : (b, q) ∈ objects jobs)
    (hv : encodeManifest (plannedManifest b q m) = .ok v)
    (h : checkExistingManifest limit v (plannedManifest b p m) = .ok ()) : q = p := by
  unfold checkExistingManifest at h
  rw [planned_roundtrip hv] at h
  dsimp only at h
  split at h
  · rename_i heq
    have hsum : str? (plannedManifest b q m).payloadChecksum = str? (plannedManifest b p m).payloadChecksum := by
      simp only [KvManifest.equals, Bool.and_eq_true, beq_iff_eq] at heq
      exact heq.2
    exact hD.sums _ hq _ hp (Option.some.inj hsum)
  · cases h

/-- The chunk loop of `store`: afterwards every chunk is there, and nothing else has come. -/
theorem wp_storeChunks (hG : Publishes m jobs t b G) (hD : Distinct m jobs) (hobj : (b, p) ∈ objects jobs)
    (hcount : (pieces m p).length < manifestChunkIndex) {xs : List Bytes} {index : Nat}
    (hxs : ∀ k, xs[k]? = (pieces m p)[index + k]?)
    (hdone : ∀ k x, k < index → (pieces m p)[k]? = some x → s.get (recordKey b k) = some x) :
    G.wp (exec t) luck (storeChunks (xs.mapIdx fun k x => ⟨recordKey b (index + k), x⟩)) s fun o s' =>
      o = .ok () → (∀ k x, (pieces m p)[k]? = some x → s'.get (recordKey b k) = some x) ∧
        (Quiet G → s.get (recordKey b manifestChunkIndex) = none → s'.get (recordKey b manifestChunkIndex) = none) := by
  have hslot : ∀ k x, (pieces m p)[k]? = some x → k < manifestChunkIndex ∧ (b, k) ∈ slots m jobs := by
    intro k x hx
    obtain ⟨hlen, -⟩ := List.getElem?_eq_some_iff.1 hx
    exact ⟨by omega, chunk_slot hobj hx (by omega)⟩
  induction xs generalizing index s with
  | nil =>
    intro s' he _ _
    refine ⟨fun k x hx => ?_, fun hq hm => hq _ _ he ▸ hm⟩
    refine hG.keeps he (hslot k x hx).2 (hdone k x ?_ hx)
    have hnone := hxs (k - index)
    by_contra hk
    rw [List.getElem?_nil, show index + (k - index) = k by omega, hx] at hnone
    cases hnone
  | cons x xs ih =>
    have hx : (pieces m p)[index]? = some x := (hxs 0).symm
    obtain ⟨hlt, hin⟩ := hslot index x hx
    rw [List.mapIdx_cons]
    -- what is left to do once the chunk at `index` is there
    have hrest : ∀ s1, (∀ k y, k < index → (pieces m p)[k]? = some y → s1.get (recordKey b k) = some y) →
        s1.get (recordKey b index) = some x →
        (Quiet G → s.get (recordKey b manifestChunkIndex) = none → s1.get (recordKey b manifestChunkIndex) = none) →
        G.wp (exec t) luck (storeChunks (xs.mapIdx fun k y => ⟨recordKey b (index + (k + 1)), y⟩)) s1 fun o s' =>
          o = .ok () → (∀ k x, (pieces m p)[k]? = some x → s'.get (recordKey b k) = some x) ∧
            (Quiet G → s.get (recordKey b manifestChunkIndex) = none →
              s'.get (recordKey b manifestChunkIndex) = none) := by
      intro s1 hbefore hat hm
      have hshift : (fun (k : Nat) y => (⟨recordKey b (index + (k + 1)), y⟩ : KvChunk)) =
          fun k y => ⟨recordKey b (index + 1 + k), y⟩ := by
        funext k y
        rw [show index + (k + 1) = index + 1 + k by omega]
      rw [hshift]
      refine Rely.wp_mono ?_ (@ih s1 (index + 1) ?_ ?_)
      · intro o s' _ h ho
        exact ⟨(h ho).1, fun hq h0 => (h ho).2 hq (hm hq h0)⟩
      · intro k
        have := hxs (k + 1)
        rwa [List.getElem?_cons_succ, show index + (k + 1) = index + 1 + k by omega] at this
      · intro k y hk hy
        rcases Nat.lt_succ_iff_lt_or_eq.1 hk with hk | rfl
        · exact hbefore k y hk hy
        · rw [hx] at hy
          cases hy
          exact hat
    have hbefore : ∀ s1, G.env s s1 → ∀ k y, k < index → (pieces m p)[k]? = some y →
        s1.get (recordKey b k) = some y := fun s1 he k y hk hy => hG.keeps he (hslot k y hy).2 (hdone k y hk hy)
    refine wp_storeIfAbsent (fun _ => hG.same) ?_ ?_ fun _ _ => nofun
    · intro s1 he hi hget
      have hins : Inserts m jobs t b s1 (s1.effect t (.storeIfAbsent (recordKey b index) x)) :=
        ⟨index, x, hin, hget, rfl⟩
      have hsound := (hG.sound hi).insert (t := t) hget (.inr ⟨b, p, index, hobj, hlt, rfl, hx⟩)
      refine ⟨hG.insert hi hins hsound, ?_⟩
      rw [if_pos rfl]
      refine hrest _ (fun k y hk hy => hins.grows (hbefore s1 he k y hk hy)) ?_ ?_
      · exact (get_insert hget _).trans (if_pos rfl)
      · intro hq h0
        refine (get_insert hget _).trans ?_
        rw [if_neg, ← hq _ _ he, h0]
        intro heq
        cases hD.keys _ (manifest_slot (objects_identities hobj)) _ hin heq
        exact absurd hlt (Nat.lt_irrefl _)
    · intro s1 y he hi hget
      rw [if_neg Bool.false_ne_true]
      refine hG.ask ?_ fun _ _ => nofun
      intro s2 he2 _
      split
      · rename_i hexisting
        refine hrest s2 (fun k z hk hz => hG.keeps he2 (hslot k z hz).2 (hbefore s1 he k z hk hz)) hexisting ?_
        exact fun hq h0 => hq _ _ he2 ▸ hq _ _ he ▸ h0
      · exact fun _ _ _ => nofun

/-- What a `store` that returns has reached. -/
def Published (m : Nat) (jobs : List Job) (t : Nat) (b p : Bytes) (G : Rely Engine) (s : Engine)
    (o : Except Exn Bool) (s' : Engine) : Prop :=
  ∀ r, o = .ok r → Visible m jobs s' b p ∧
    (r = true → s.get (recordKey b manifestChunkIndex) = none ∧ (t, recordKey b manifestChunkIndex) ∈ s'.writes) ∧
    (r = false → Quiet G → s.get (recordKey b manifestChunkIndex) ≠ none)

theorem wp_store (hG : Publishes m jobs t b G) (hD : Distinct m jobs) (hobj : (b, p) ∈ objects jobs)
    (hb : identityBytes i = .ok b) :
    G.wp (exec t) luck (store l m i p) s (Published m jobs t b p G s) := by
  have hid := objects_identities hobj
  have hslot : (b, manifestChunkIndex) ∈ slots m jobs := manifest_slot hid
  unfold store
  refine Rely.wp_ofExcept ?_ fun e _ _ _ _ _ => nofun
  intro plan hplan
  obtain ⟨c, hc, hp⟩ := makeObjectPlan_ok hplan
  obtain rfl : c = b := Except.ok.inj (hc.symm.trans hb)
  rw [planned_roundtrip hp.manifestValue, hp.manifestKey, hp.chunks]
  refine hG.ask ?_ fun _ _ _ => nofun
  intro s1 he1 hi1
  cases hget : s1.get (recordKey c manifestChunkIndex) with
  | some v =>
    obtain ⟨q, hq, hv⟩ := (hG.sound hi1).visible hD (List.Subset.refl _) hid hget
    refine Rely.wp_ofExcept ?_ fun e _ _ _ _ _ => nofun
    rintro ⟨⟩ hcheck
    obtain rfl := check_agrees hD hobj hq.object hv hcheck
    rintro s2 he2 - r hr
    cases hr
    refine ⟨hG.visible he2 hq, nofun, fun _ hquiet h0 => ?_⟩
    rw [← hquiet _ _ he1, h0] at hget
    cases hget
  | none =>
    have habsent : s.get (recordKey c manifestChunkIndex) = none := by
      cases h0 : s.get (recordKey c manifestChunkIndex) with
      | none => rfl
      | some v =>
        rw [hG.keeps he1 hslot h0] at hget
        cases hget
    have hplan : ((pieces m p).mapIdx fun k x => (⟨recordKey c k, x⟩ : KvChunk)) =
        (pieces m p).mapIdx fun k x => ⟨recordKey c (0 + k), x⟩ := by
      simp only [Nat.zero_add]
    rw [hplan]
    refine Rely.wp_bind (Rely.wp_mono ?_ (wp_storeChunks hG hD hobj hp.count.2 (fun k => by rw [Nat.zero_add])
      fun k x hk => absurd hk (Nat.not_lt_zero _)))
    rintro (e | ⟨⟩) s2 - hdone
    · exact nofun
    obtain ⟨hall, hquiet⟩ := hdone rfl
    have hall3 : ∀ s3, G.env s2 s3 → ∀ k x, (pieces m p)[k]? = some x → s3.get (recordKey c k) = some x := by
      intro s3 he3 k x hx
      obtain ⟨hlen, -⟩ := List.getElem?_eq_some_iff.1 hx
      exact hG.keeps he3 (chunk_slot hobj hx (Nat.lt_trans hlen hp.count.2)) (hall k x hx)
    refine wp_storeIfAbsent (fun _ => hG.same) ?_ ?_ fun _ _ _ => nofun
    · intro s3 he3 hi3 hget3
      have hins : Inserts m jobs t c s3 (s3.effect t (.storeIfAbsent (recordKey c manifestChunkIndex) plan.manifestValue)) :=
        ⟨_, _, hslot, hget3, rfl⟩
      have hnew : Visible m jobs (s3.effect t (.storeIfAbsent (recordKey c manifestChunkIndex) plan.manifestValue)) c p :=
        ⟨hobj, ⟨_, hp.manifestValue, (get_insert hget3 _).trans (if_pos rfl)⟩,
          fun k x hx => hins.grows (hall3 s3 he3 k x hx)⟩
      refine ⟨hG.insert hi3 hins ((hG.sound hi3).insert hget3 (.inl ⟨c, p, hnew, rfl⟩)), ?_⟩
      rw [if_pos rfl]
      rintro s4 he4 - r hr
      cases hr
      refine ⟨hG.visible he4 hnew, fun _ => ⟨habsent, hG.writes he4 ?_⟩, nofun⟩
      rw [effect_insert hget3]
      exact List.mem_append_right _ (List.mem_singleton.2 rfl)
    · intro s3 v he3 hi3 hget3
      rw [if_neg Bool.false_ne_true]
      refine hG.ask ?_ fun _ _ _ => nofun
      intro s4 he4 hi4
      have hget4 := hG.keeps he4 hslot hget3
      rw [hget4]
      obtain ⟨q, hq, hv⟩ := (hG.sound hi4).visible hD (List.Subset.refl _) hid hget4
      refine Rely.wp_ofExcept ?_ fun e _ _ _ _ _ => nofun
      rintro ⟨⟩ hcheck
      obtain rfl := check_agrees hD hobj hq.object hv hcheck
      rintro s5 he5 - r hr
      cases hr
      refine ⟨hG.visible he5 hq, nofun, fun _ hno _ => ?_⟩
      -- alone, nothing could have come under the manifest's key
      rw [← hno _ _ he3, hquiet hno hget] at hget3
      cases hget3

/-! ## `delete` -/

/-- The deletion of one record of an identity that has no manifest afterwards. -/
theorem Withdraws.ask (hG : Withdraws m jobs t b G) (hD : Distinct m jobs) {α : Type} {index : Nat}
    (hslot : (b, index) ∈ slots m jobs) (hgone : index = manifestChunkIndex ∨ s.get (recordKey b manifestChunkIndex) = none)
    {f : Bool → KvProg α} {Q : Except Exn α → Engine → Prop}
    (h : ∀ s' r, s'.get (recordKey b manifestChunkIndex) = none → G.wp (exec t) luck (f r) s' Q)
    (herr : ∀ s', G.inv s' → Q (.error .engine) s') :
    G.wp (exec t) luck ((ask (.delete (recordKey b index))).bind f) s Q := by
  refine wp_ask (fun s' he hi => ?_) fun _ => herr
  have habsent : (s'.effect t (.delete (recordKey b index))).get (recordKey b manifestChunkIndex) = none := by
    rw [get_delete]
    rcases hgone with rfl | hm
    · exact if_pos rfl
    · rw [hG.away he hm, ite_self]
  obtain ⟨hdoes, hinv⟩ := hG.remove hi ⟨index, hslot, rfl⟩ ((hG.sound hi).delete hD hslot habsent)
  exact ⟨⟨hG.same hi, hdoes, hinv⟩, h _ _ habsent⟩

theorem wp_withdrawChunks (hG : Withdraws m jobs t b G) (hD : Distinct m jobs) (hb : identityBytes i = .ok b)
    {count index : Nat} (hslots : ∀ k < count, (b, index + k) ∈ slots m jobs)
    (hrange : index + count ≤ manifestChunkIndex) (hgone : s.get (recordKey b manifestChunkIndex) = none) :
    G.wp (exec t) luck (deleteChunks i count index) s fun o s' =>
      o = .ok () → s'.get (recordKey b manifestChunkIndex) = none := by
  induction count generalizing index s with
  | zero => exact fun s' he _ _ => hG.away he hgone
  | succ count ih =>
    rw [deleteChunks, chunkKey_ok hb (by omega)]
    refine hG.ask hD (hslots 0 (by omega)) (.inr hgone) ?_ fun _ _ => (by simp)
    intro s' _ hgone'
    refine ih (fun k hk => ?_) (by omega) hgone'
    have := hslots (k + 1) (by omega)
    rwa [show index + (k + 1) = index + 1 + k by omega] at this

/-- A `delete` that returned `True` has left no manifest. -/
theorem wp_withdraw (hG : Withdraws m jobs t b G) (hD : Distinct m jobs) (hid : b ∈ identities jobs)
    (hb : identityBytes i = .ok b) :
    G.wp (exec t) luck (delete limit i) s fun o s' =>
      o = .ok true → s'.get (recordKey b manifestChunkIndex) = none := by
  have hslot : (b, manifestChunkIndex) ∈ slots m jobs := manifest_slot hid
  unfold delete
  rw [manifestKey_ok hb]
  refine wp_ask (fun s1 he hi => ⟨⟨hG.same hi, hG.same hi, hi⟩, ?_⟩) fun _ _ _ => (by simp)
  rw [show s1.reply (.retrieve (recordKey b manifestChunkIndex)) = s1.get (recordKey b manifestChunkIndex) from rfl,
    show Engine.effect t s1 (.retrieve (recordKey b manifestChunkIndex)) = s1 from rfl]
  cases hget : s1.get (recordKey b manifestChunkIndex) with
  | none => exact fun s2 he2 _ _ => hG.away he2 hget
  | some v =>
    obtain ⟨q, hq, hv⟩ := (hG.sound hi).visible hD (List.Subset.refl _) hid hget
    obtain ⟨hcount, hlt⟩ := planned_count hv
    dsimp only
    rw [planned_roundtrip hv, (identityBytes_ok.1 hb).1]
    show G.wp (exec t) luck (if b ≠ b then _ else _) s1 _
    rw [if_neg (not_not.2 rfl)]
    refine hG.ask hD hslot (.inl rfl) ?_ fun _ _ => (by simp)
    intro s2 _ hgone
    refine Rely.wp_bind (Rely.wp_mono ?_ (wp_withdrawChunks hG hD hb ?_ (by omega) hgone))
    · rintro (e | ⟨⟩) s3 - h
      · simp
      · exact fun s4 he4 _ _ => hG.away he4 (h rfl)
    · intro k hk
      rw [Nat.zero_add]
      exact mem_slots.2 (.inr ⟨q, hq.object, by omega, by omega⟩)

/-! ## `load` -/

/-- The chunks of a committed object, read one after the other. -/
theorem wp_readChunks (hG : Reads m jobs b G) (hb : identityBytes i = .ok b) (hv : Visible m jobs s b p)
    {count index : Nat} (hrange : index + count = (pieces m p).length) (hlt : (pieces m p).length < manifestChunkIndex) :
    G.wp (exec t) luck (retrieveChunks i count index) s fun o s' =>
      (o = .ok (((pieces m p).drop index).map some) ∧ Visible m jobs s' b p) ∨ o = .error .engine := by
  induction count generalizing index s with
  | zero =>
    intro s' he _
    refine .inl ⟨?_, hG.visible he hv⟩
    rw [List.drop_eq_nil_of_le (by omega)]
    rfl
  | succ count ih =>
    rw [retrieveChunks, chunkKey_ok hb (by omega)]
    refine hG.ask ?_ fun _ _ => .inr rfl
    intro s1 he _
    have hv1 := hG.visible he hv
    refine Rely.wp_bind (Rely.wp_mono ?_ (ih hv1 (by omega)))
    rintro o s2 - (⟨rfl, hv2⟩ | rfl)
    · intro s3 he3 _
      refine .inl ⟨?_, hG.visible he3 hv2⟩
      have hk : index < (pieces m p).length := by omega
      rw [List.drop_eq_getElem_cons hk, List.map_cons, hv1.chunks index _ (List.getElem?_eq_getElem hk)]
    · exact .inr rfl

/-- A `load` beside calls that keep its identity's records. -/
theorem wp_read (hG : Reads m jobs b G) (hD : Distinct m jobs) (hid : b ∈ identities jobs)
    (hb : identityBytes i = .ok b) :
    G.wp (exec t) luck (load limit i) s fun o s' =>
      (∃ p, o = .ok (some p) ∧ Visible m jobs s' b p) ∨
      (o = .ok none ∧ s.get (recordKey b manifestChunkIndex) = none) ∨ o = .error .engine := by
  have hslot : (b, manifestChunkIndex) ∈ slots m jobs := manifest_slot hid
  unfold load
  rw [manifestKey_ok hb]
  refine hG.ask ?_ fun _ _ => .inr (.inr rfl)
  intro s1 he1 hi1
  cases hget : s1.get (recordKey b manifestChunkIndex) with
  | none =>
    intro s2 _ _
    refine .inr (.inl ⟨rfl, ?_⟩)
    cases h0 : s.get (recordKey b manifestChunkIndex) with
    | none => rfl
    | some v =>
      rw [hG.keeps he1 hslot h0] at hget
      cases hget
  | some v =>
    obtain ⟨p, hp, hv⟩ := (hG.sound hi1).visible hD (List.Subset.refl _) hid hget
    obtain ⟨hcount, hlt⟩ := planned_count hv
    have hvalid : validatePayload (plannedManifest b p m) (pieces m p) = .ok p :=
      (validatePayload_ok (planned_valid hv)).2 ⟨hcount.symm, (planned_flatten hv).symm, rfl, rfl⟩
    refine Rely.wp_tryCatch ?_
    unfold loadObject
    rw [planned_roundtrip hv, (identityBytes_ok.1 hb).1]
    show G.wp (exec t) luck (if b ≠ b then _ else _) s1 _
    rw [if_neg (not_not.2 rfl), hcount]
    refine Rely.wp_bind (Rely.wp_mono ?_ (wp_readChunks hG hb hp (Nat.zero_add _) hlt))
    rintro o s2 - (⟨rfl, hv2⟩ | rfl)
    · have hall : (((pieces m p).drop 0).map some).any Option.isNone = false := by simp
      have hvalues : (((pieces m p).drop 0).map some).filterMap id = pieces m p := by simp
      dsimp only
      rw [hall, if_neg Bool.false_ne_true, hvalues, hvalid]
      intro s3 he3 _
      exact .inl ⟨p, rfl, hG.visible he3 hv2⟩
    · intro s3 _ _
      exact .inr (.inr rfl)

end NvmeKv
end SpdkConnector
