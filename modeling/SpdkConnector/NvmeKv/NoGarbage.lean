import SpdkConnector.NvmeKv.CrashConsistency
import SpdkConnector.NvmeKv.Plans
import SpdkConnector.NvmeKv.Recovery
import Mathlib.Data.List.Nodup

/-!
# No garbage without failures

One client, one call after the other, and no engine call raises. The device then holds the records of the
plans of its visible objects and no others (`Clean`). `Job.apply` is what a call does to the objects: a store
publishes what has a plan where nothing is visible, a delete withdraws.
-/
namespace SpdkConnector
namespace NvmeKv

open Codec Interleaving

variable {m limit t : Nat} {l : Limit} {jobs : List Job} {b p : Bytes} {i : Identity} {s s' : Engine} {plan : KvObjectPlan}

/-! ## Objects -/

/-- The payloads of the visible identities. -/
abbrev Objects := Bytes → Option Bytes

/-- What a call without engine failures does. -/
def Job.apply (m : Nat) (f : Objects) (j : Job) : Objects :=
  match j.request with
  | .store i p =>
    match identityBytes i, makeObjectPlan i p m with
    | .ok b, .ok _ => if f b = none then Function.update f b (some p) else f
    | _, _ => f
  | .delete i =>
    match identityBytes i with
    | .ok b => Function.update f b none
    | .error _ => f
  | .load _ | .recover => f

/-- The device records of a plan. -/
def KvObjectPlan.records (plan : KvObjectPlan) : List (Bytes × Bytes) :=
  plan.chunks.map (fun c => (c.key, c.value)) ++ [(plan.manifestKey, plan.manifestValue)]

/-- No two records in reach of the calls share a key. -/
def NoCollision (m : Nat) (jobs : List Job) : Prop :=
  ∀ x ∈ slots m jobs, ∀ y ∈ slots m jobs, recordKey x.1 x.2 = recordKey y.1 y.2 → x = y

instance (m : Nat) (jobs : List Job) : Decidable (NoCollision m jobs) :=
  inferInstanceAs (Decidable (∀ x ∈ slots m jobs, ∀ y ∈ slots m jobs, _))

/-- The device holds the records of the objects `f`, each once. -/
structure Clean (m : Nat) (jobs : List Job) (s : Engine) (f : Objects) : Prop where
  named : ∀ b p, f b = some p → (b, p) ∈ objects jobs ∧ ∃ plan, makeObjectPlan (.bytes b) p m = .ok plan
  keys : (s.records.map (·.1)).Nodup
  records : ∀ r, r ∈ s.records ↔
    ∃ b p plan, f b = some p ∧ makeObjectPlan (.bytes b) p m = .ok plan ∧ r ∈ plan.records

/-! ## The records of a plan -/

/-- A plan depends on the bytes of the identity only. -/
theorem makeObjectPlan_bytes (hi : identityBytes i = .ok b) (p : Bytes) (m : Nat) :
    makeObjectPlan i p m = makeObjectPlan (.bytes b) p m := by
  have hb : identityBytes (.bytes b) = .ok b := identityBytes_ok.2 ⟨rfl, (identityBytes_ok.1 hi).2⟩
  rw [makeObjectPlan, makeObjectPlan, hi, hb]

theorem planned_of (h : makeObjectPlan (.bytes b) p m = .ok plan) : Planned b p m plan := by
  obtain ⟨b', hb', hp⟩ := makeObjectPlan_ok h
  cases (identityBytes_ok.1 hb').1
  exact hp

theorem Planned.mem_records (h : Planned b p m plan) {k v : Bytes} : (k, v) ∈ plan.records ↔
    (k = recordKey b manifestChunkIndex ∧ v = plan.manifestValue) ∨
    ∃ index, k = recordKey b index ∧ (pieces m p)[index]? = some v := by
  simp only [KvObjectPlan.records, List.mem_append, List.mem_map, List.mem_singleton, Prod.mk.injEq, h.manifestKey]
  rw [or_comm]
  refine or_congr_right ?_
  constructor
  · rintro ⟨c, hc, rfl, rfl⟩
    obtain ⟨index, hindex⟩ := List.mem_iff_getElem?.1 hc
    exact ⟨index, h.chunk hindex⟩
  · rintro ⟨index, rfl, hv⟩
    refine ⟨⟨recordKey b index, v⟩, List.mem_iff_getElem?.2 ⟨index, ?_⟩, rfl, rfl⟩
    rw [h.chunks, List.getElem?_mapIdx, hv]
    rfl

/-- Every record of a plan has a slot. -/
theorem Planned.slot (h : Planned b p m plan) (hobj : (b, p) ∈ objects jobs) {r : Bytes × Bytes}
    (hr : r ∈ plan.records) : ∃ index, (b, index) ∈ slots m jobs ∧ r.1 = recordKey b index := by
  rcases h.mem_records.1 hr with ⟨hk, -⟩ | ⟨index, hk, hv⟩
  · exact ⟨_, manifest_slot (objects_identities hobj), hk⟩
  · obtain ⟨hlt, -⟩ := List.getElem?_eq_some_iff.1 hv
    exact ⟨index, chunk_slot hobj hv (Nat.lt_trans hlt h.count.2), hk⟩

/-- The keys of a plan are distinct. -/
theorem Planned.keys (h : Planned b p m plan) (hcol : NoCollision m jobs) (hobj : (b, p) ∈ objects jobs) :
    (plan.records.map (·.1)).Nodup := by
  have hkeys : plan.records.map (·.1) =
      (List.range (pieces m p).length).map (recordKey b) ++ [recordKey b manifestChunkIndex] := by
    rw [KvObjectPlan.records, List.map_append, List.map_map, h.chunks, h.manifestKey]
    congr 1
    apply List.ext_getElem (by simp)
    intro k hk hk'
    simp
  have hslot : ∀ k < (pieces m p).length, (b, k) ∈ slots m jobs := fun k hk =>
    chunk_slot hobj (List.getElem?_eq_getElem hk) (Nat.lt_trans hk h.count.2)
  rw [hkeys, List.nodup_append]
  refine ⟨?_, List.nodup_singleton _, ?_⟩
  · refine (List.nodup_map_iff_inj_on List.nodup_range).2 ?_
    intro x hx y hy heq
    have := hcol _ (hslot x (List.mem_range.1 hx)) _ (hslot y (List.mem_range.1 hy)) heq
    exact congrArg Prod.snd this
  · intro x hx y hy heq
    obtain ⟨k, hk, rfl⟩ := List.mem_map.1 hx
    rw [List.mem_singleton.1 hy] at heq
    have := hcol _ (hslot k (List.mem_range.1 hk)) _ (manifest_slot (objects_identities hobj)) heq
    have hidx : k = manifestChunkIndex := congrArg Prod.snd this
    have := h.count.2
    have := List.mem_range.1 hk
    omega

/-! ## What is on a clean device -/

theorem get_of_mem (hkeys : (s.records.map (·.1)).Nodup) {k v : Bytes} (h : (k, v) ∈ s.records) :
    s.get k = some v := by
  cases hget : s.get k with
  | none =>
    rw [Engine.get, List.lookup_eq_none_iff] at hget
    have := hget _ h
    simp at this
  | some w =>
    obtain ⟨l, r, hsplit, -⟩ := List.lookup_eq_some_iff.1 hget
    have hw : (k, w) ∈ s.records := by
      rw [hsplit]
      simp
    have := List.inj_on_of_nodup_map hkeys h hw rfl
    cases this
    rfl

theorem mem_of_get {k v : Bytes} (h : s.get k = some v) : (k, v) ∈ s.records := by
  obtain ⟨l, r, hsplit, -⟩ := List.lookup_eq_some_iff.1 h
  rw [hsplit]
  simp

namespace Clean

variable {f : Objects}

theorem empty (m : Nat) (jobs : List Job) : Clean m jobs Engine.empty fun _ => none where
  named := nofun
  keys := List.nodup_nil
  records r := by
    constructor
    · nofun
    · rintro ⟨b, p, plan, h, -⟩
      cases h

/-- A key in reach of an identity holds a record of the identity's own object. -/
theorem own (h : Clean m jobs s f) (hcol : NoCollision m jobs) {index : Nat} (hslot : (b, index) ∈ slots m jobs)
    {v : Bytes} (hget : s.get (recordKey b index) = some v) :
    ∃ p plan, f b = some p ∧ makeObjectPlan (.bytes b) p m = .ok plan ∧ (recordKey b index, v) ∈ plan.records := by
  obtain ⟨c, p, plan, hf, hplan, hr⟩ := (h.records _).1 (mem_of_get hget)
  obtain ⟨index', hslot', hkey⟩ := (planned_of hplan).slot (h.named c p hf).1 hr
  cases hcol _ hslot _ hslot' hkey
  exact ⟨p, plan, hf, hplan, hr⟩

theorem absent (h : Clean m jobs s f) (hcol : NoCollision m jobs) (hf : f b = none) {index : Nat}
    (hslot : (b, index) ∈ slots m jobs) : s.get (recordKey b index) = none := by
  cases hget : s.get (recordKey b index) with
  | none => rfl
  | some v =>
    obtain ⟨p, plan, hf', -⟩ := h.own hcol hslot hget
    rw [hf] at hf'
    cases hf'

/-- The records of a visible object are there. -/
theorem present (h : Clean m jobs s f) (hf : f b = some p) (hplan : makeObjectPlan (.bytes b) p m = .ok plan)
    {k v : Bytes} (hr : (k, v) ∈ plan.records) : s.get k = some v :=
  get_of_mem h.keys ((h.records _).2 ⟨b, p, plan, hf, hplan, hr⟩)

/-- `load` returns the object. -/
theorem loads (h : Clean m jobs s f) (hcol : NoCollision m jobs) (hb : b ∈ identities jobs)
    (hi : identityBytes i = .ok b) : Loads m i s (f b) := by
  cases hf : f b with
  | none => exact loads_of_result hi fun _ => loadResult_none (h.absent hcol hf (manifest_slot hb))
  | some p =>
    obtain ⟨hobj, plan, hplan⟩ := h.named b p hf
    have hp := planned_of hplan
    have hvisible : Visible m jobs s b p :=
      ⟨hobj, ⟨plan.manifestValue, hp.manifestValue, h.present hf hplan (hp.mem_records.2 (.inl ⟨rfl, rfl⟩))⟩,
        fun k x hx => h.present hf hplan (hp.mem_records.2 (.inr ⟨k, rfl, hx⟩))⟩
    exact loads_of_result hi fun depth => hvisible.loads depth

end Clean

/-! ## Calls that no engine failure disturbs -/

/-- An engine call that does not raise. -/
theorem wp_does {α : Type} {c : Command} {f : Reply c → KvProg α} {Q : Except Exn α → Engine → Prop}
    (h : (Rely.alone Engine).wp (exec t) (· = .done) (f (s.reply c)) (s.effect t c) Q) :
    (Rely.alone Engine).wp (exec t) (· = .done) ((ask c).bind f) s Q := by
  refine wp_ask ?_ ?_
  · rintro s' rfl -
    exact ⟨⟨trivial, trivial, trivial⟩, h⟩
  · rintro ⟨ch, hch, hne⟩
    exact absurd hch hne

theorem wp_finds {α : Type} {key : Bytes} {f : Option Bytes → KvProg α} {Q : Except Exn α → Engine → Prop}
    (h : (Rely.alone Engine).wp (exec t) (· = .done) (f (s.get key)) s Q) :
    (Rely.alone Engine).wp (exec t) (· = .done) ((ask (.retrieve key)).bind f) s Q := wp_does h

/-- What follows a call that returns. -/
theorem wp_then {α : Type} {q : KvProg Unit} {f : Unit → KvProg α} {Q : Except Exn α → Engine → Prop} {P : Engine → Prop}
    (hq : (Rely.alone Engine).wp (exec t) (· = .done) q s fun o s' => o = .ok () ∧ P s')
    (h : ∀ s', P s' → (Rely.alone Engine).wp (exec t) (· = .done) (f ()) s' Q) :
    (Rely.alone Engine).wp (exec t) (· = .done) (q.bind f) s Q := by
  refine Rely.wp_bind (Rely.wp_mono ?_ hq)
  rintro o s' - ⟨rfl, hs'⟩
  exact h s' hs'

/-- Chunks whose keys are free are all inserted. -/
theorem wp_storeFresh {chunks : List KvChunk} (hkeys : (chunks.map KvChunk.key).Nodup)
    (habsent : ∀ c ∈ chunks, s.get c.key = none) :
    (Rely.alone Engine).wp (exec t) (· = .done) (storeChunks chunks) s fun o s' =>
      o = .ok () ∧ s'.records = s.records ++ chunks.map fun c => (c.key, c.value) := by
  induction chunks generalizing s with
  | nil => exact Rely.wp_alone_pure ⟨rfl, by simp⟩
  | cons c chunks ih =>
    have hc := habsent c List.mem_cons_self
    rw [List.map_cons, List.nodup_cons] at hkeys
    refine wp_does ?_
    have hreply : s.reply (.storeIfAbsent c.key c.value) = true := by simp [Engine.reply, hc]
    rw [hreply]
    refine Rely.wp_mono ?_ (ih hkeys.2 ?_)
    · rintro o s' - ⟨ho, hs'⟩
      refine ⟨ho, ?_⟩
      rw [hs', effect_insert hc]
      simp
    · intro c' hc'
      rw [get_insert hc, if_neg]
      · exact habsent c' (List.mem_cons_of_mem _ hc')
      · intro heq
        exact hkeys.1 (heq ▸ List.mem_map_of_mem hc')

/-- Some records are gone, those under the keys that `φ` holds of. -/
structure Dropped (φ : Bytes → Prop) (s s' : Engine) : Prop where
  sublist : s'.records.Sublist s.records
  mem : ∀ r, r ∈ s'.records ↔ r ∈ s.records ∧ ¬ φ r.1

theorem Dropped.delete (s : Engine) (key : Bytes) : Dropped (· = key) s (s.effect t (.delete key)) where
  sublist := List.filter_sublist
  mem r := by simp [Engine.effect]

theorem Dropped.trans {φ ψ : Bytes → Prop} {s1 : Engine} (h : Dropped φ s s1) (h' : Dropped ψ s1 s') :
    Dropped (fun k => φ k ∨ ψ k) s s' where
  sublist := h'.sublist.trans h.sublist
  mem r := by rw [h'.mem, h.mem, not_or, and_assoc]

theorem Dropped.congr {φ ψ : Bytes → Prop} (h : Dropped φ s s') (hiff : ∀ k, φ k ↔ ψ k) : Dropped ψ s s' where
  sublist := h.sublist
  mem r := by rw [h.mem, hiff]

/-- Deleting chunks drops their keys and nothing else. -/
theorem wp_deleteKeys (hb : identityBytes i = .ok b) {count index : Nat}
    (hrange : index + count ≤ manifestChunkIndex) :
    (Rely.alone Engine).wp (exec t) (· = .done) (deleteChunks i count index) s fun o s' =>
      o = .ok () ∧ Dropped (fun key => ∃ k < count, key = recordKey b (index + k)) s s' := by
  induction count generalizing s index with
  | zero => exact Rely.wp_alone_pure ⟨rfl, List.Sublist.refl _, by simp⟩
  | succ count ih =>
    rw [deleteChunks, chunkKey_ok hb (by omega)]
    have hnext : index + 1 + count ≤ manifestChunkIndex := by omega
    refine wp_does (Rely.wp_mono ?_ (ih hnext))
    rintro o s' - ⟨ho, hdropped⟩
    refine ⟨ho, ((Dropped.delete s (recordKey b index)).trans hdropped).congr fun key => ?_⟩
    constructor
    · rintro (rfl | ⟨k, hk, rfl⟩)
      · exact ⟨0, by omega, rfl⟩
      · exact ⟨k + 1, by omega, by rw [show index + (k + 1) = index + 1 + k by omega]⟩
    · rintro ⟨k, hk, rfl⟩
      cases k with
      | zero => exact .inl rfl
      | succ k => exact .inr ⟨k, by omega, by rw [show index + (k + 1) = index + 1 + k by omega]⟩

/-- What a `store` does, by what is visible and whether the object has a plan. -/
def Stores (m : Nat) (i : Identity) (p : Bytes) (f : Objects) (s : Engine) (o : Except Exn Bool) (s' : Engine) : Prop :=
  (∃ e, makeObjectPlan i p m = .error e ∧ o = .error e ∧ s' = s) ∨
  ∃ b plan, identityBytes i = .ok b ∧ makeObjectPlan i p m = .ok plan ∧
    ((f b ≠ none ∧ (o = .ok false ∨ ∃ what, o = .error (.conflict what)) ∧ s' = s) ∨
      f b = none ∧ o = .ok true ∧ s'.records = s.records ++ plan.records)

theorem check_planned {limit : Nat} {v : Bytes} {manifest requested : KvManifest}
    (h : decodeManifest limit v = .ok manifest) :
    checkExistingManifest limit v requested = .ok () ∨
      ∃ what, checkExistingManifest limit v requested = .error (.conflict what) := by
  unfold checkExistingManifest
  rw [h]
  dsimp only
  split
  · exact .inl rfl
  · exact .inr ⟨_, rfl⟩

theorem wp_stores {f : Objects} (hC : Clean m jobs s f) (hcol : NoCollision m jobs)
    (hobj : ∀ b, identityBytes i = .ok b → (b, p) ∈ objects jobs) :
    (Rely.alone Engine).wp (exec t) (· = .done) (store l m i p) s (Stores m i p f s) := by
  unfold store
  cases hplan : makeObjectPlan i p m with
  | error e => exact Rely.wp_alone_throw (.inl ⟨e, hplan, rfl, rfl⟩)
  | ok plan =>
    obtain ⟨b, hb, hp⟩ := makeObjectPlan_ok hplan
    show (Rely.alone Engine).wp _ _ ((Prog.ofExcept (decodeManifest l.outer plan.manifestValue)).bind _) _ _
    rw [planned_roundtrip hp.manifestValue l.outer]
    refine wp_finds ?_
    rw [hp.manifestKey]
    cases hf : f b with
    | some q =>
      obtain ⟨-, plan', hplan'⟩ := hC.named b q hf
      have hp' := planned_of hplan'
      have hget := hC.present hf hplan' (hp'.mem_records.2 (.inl ⟨rfl, rfl⟩))
      rw [hget]
      rcases @check_planned l.inner _ _ (plannedManifest b p m) (planned_roundtrip hp'.manifestValue l.inner) with
        h | ⟨what, h⟩
      · refine Rely.wp_ofExcept (fun a ha => ?_) fun e he => ?_
        · exact Rely.wp_alone_pure (.inr ⟨b, plan, hb, hplan, .inl ⟨by rw [hf]; nofun, .inl rfl, rfl⟩⟩)
        · rw [h] at he
          cases he
      · refine Rely.wp_ofExcept (fun a ha => ?_) fun e he => ?_
        · rw [h] at ha
          cases ha
        · rintro _ rfl -
          rw [h] at he
          cases he
          exact .inr ⟨b, plan, hb, hplan, .inl ⟨by rw [hf]; nofun, .inr ⟨what, rfl⟩, rfl⟩⟩
    | none =>
      have hslot : ∀ r ∈ plan.records, s.get r.1 = none := by
        intro r hr
        obtain ⟨index, hindex, hkey⟩ := hp.slot (hobj b hb) hr
        rw [hkey]
        exact hC.absent hcol hf hindex
      have hkeys := hp.keys hcol (hobj b hb)
      simp only [KvObjectPlan.records, List.map_append, List.map_map, List.nodup_append] at hkeys
      have hnone : s.get (recordKey b manifestChunkIndex) = none := by
        rw [← hp.manifestKey]
        exact hslot (plan.manifestKey, plan.manifestValue) (by simp [KvObjectPlan.records])
      rw [hnone]
      refine wp_then (wp_storeFresh hkeys.1 ?_) ?_
      · intro c hc
        exact hslot (c.key, c.value) (List.mem_append_left _ (List.mem_map_of_mem hc))
      · intro s1 hs1
        have hfree : s1.get (recordKey b manifestChunkIndex) = none := by
          rw [Engine.get, hs1, List.lookup_append, show s.records.lookup _ = none from hnone, Option.none_or,
            List.lookup_eq_none_iff]
          intro r hr
          obtain ⟨c, hc, rfl⟩ := List.mem_map.1 hr
          have := hkeys.2.2 c.key (List.mem_map_of_mem hc) plan.manifestKey (by simp)
          rw [hp.manifestKey] at this
          simpa using this.symm
        refine wp_does ?_
        have hinserted : s1.reply (.storeIfAbsent (recordKey b manifestChunkIndex) plan.manifestValue) = true := by
          simp [Engine.reply, hfree]
        rw [hinserted]
        refine Rely.wp_alone_pure (.inr ⟨b, plan, hb, hplan, .inr ⟨hf, rfl, ?_⟩⟩)
        rw [effect_insert hfree, hs1, KvObjectPlan.records, hp.manifestKey, List.append_assoc]

/-- What a `delete` does: the records of the identity's object go. -/
def Withdrawn (m : Nat) (b : Bytes) (f : Objects) (s : Engine) (o : Except Exn Bool) (s' : Engine) : Prop :=
  (f b = none ∧ o = .ok false ∧ s' = s) ∨
  ∃ p plan, f b = some p ∧ makeObjectPlan (.bytes b) p m = .ok plan ∧ o = .ok true ∧
    Dropped (fun key => key ∈ plan.records.map (·.1)) s s'

theorem wp_withdrawn {f : Objects} (hC : Clean m jobs s f) (hcol : NoCollision m jobs) (hid : b ∈ identities jobs)
    (hb : identityBytes i = .ok b) :
    (Rely.alone Engine).wp (exec t) (· = .done) (delete limit i) s (Withdrawn m b f s) := by
  unfold delete
  rw [manifestKey_ok hb]
  refine wp_finds ?_
  cases hf : f b with
  | none =>
    rw [hC.absent hcol hf (manifest_slot hid)]
    exact Rely.wp_alone_pure (.inl ⟨hf, rfl, rfl⟩)
  | some p =>
    obtain ⟨-, plan, hplan⟩ := hC.named b p hf
    have hp := planned_of hplan
    rw [hC.present hf hplan (hp.mem_records.2 (.inl ⟨rfl, rfl⟩))]
    dsimp only
    rw [planned_roundtrip hp.manifestValue limit, (identityBytes_ok.1 hb).1]
    show (Rely.alone Engine).wp _ _ (if b ≠ b then _ else _) _ _
    rw [if_neg (not_not.2 rfl)]
    have hcount := (planned_count hp.manifestValue).1
    have hlt := hp.count.2
    refine wp_does (wp_then (wp_deleteKeys hb (by omega)) ?_)
    intro s' hdropped
    refine Rely.wp_alone_pure (.inr ⟨p, plan, hf, hplan, rfl, ?_⟩)
    refine ((Dropped.delete s _).trans hdropped).congr fun key => ?_
    rw [List.mem_map]
    constructor
    · rintro (rfl | ⟨k, hk, rfl⟩)
      · exact ⟨_, hp.mem_records.2 (.inl ⟨rfl, rfl⟩), rfl⟩
      · rw [hcount] at hk
        exact ⟨_, hp.mem_records.2 (.inr ⟨0 + k, rfl, List.getElem?_eq_getElem (by omega)⟩), rfl⟩
    · rintro ⟨⟨key, v⟩, hr, rfl⟩
      rcases hp.mem_records.1 hr with ⟨hk, -⟩ | ⟨index, hk, hv⟩
      · exact .inl hk
      · obtain ⟨hindex, -⟩ := List.getElem?_eq_some_iff.1 hv
        exact .inr ⟨index, by omega, by rw [Nat.zero_add]; exact hk⟩

/-! ## One call -/

namespace Clean

variable {f : Objects}

/-- A new object brings its records. -/
theorem store (h : Clean m jobs s f) (hcol : NoCollision m jobs) (hobj : (b, p) ∈ objects jobs)
    (hplan : makeObjectPlan (.bytes b) p m = .ok plan) (hf : f b = none) (hs : s'.records = s.records ++ plan.records) :
    Clean m jobs s' (Function.update f b (some p)) := by
  have hp := planned_of hplan
  refine ⟨?_, ?_, ?_⟩
  · intro c q hq
    by_cases hc : c = b
    · subst hc
      rw [Function.update_self] at hq
      cases hq
      exact ⟨hobj, plan, hplan⟩
    · rw [Function.update_of_ne hc] at hq
      exact h.named c q hq
  · rw [hs, List.map_append, List.nodup_append]
    refine ⟨h.keys, hp.keys hcol hobj, ?_⟩
    rintro k hk k' hk' rfl
    obtain ⟨⟨k, v⟩, hv, rfl⟩ := List.mem_map.1 hk
    obtain ⟨r, hr, hrk⟩ := List.mem_map.1 hk'
    obtain ⟨index, hslot, hkey⟩ := hp.slot hobj hr
    have hget := get_of_mem h.keys hv
    have hnone := h.absent hcol hf hslot
    rw [← hkey, hrk, hget] at hnone
    cases hnone
  · intro r
    rw [hs, List.mem_append, h.records]
    constructor
    · rintro (⟨c, q, plan', hq, hplan', hr⟩ | hr)
      · have hc : c ≠ b := by
          rintro rfl
          rw [hf] at hq
          cases hq
        exact ⟨c, q, plan', by rw [Function.update_of_ne hc, hq], hplan', hr⟩
      · exact ⟨b, p, plan, Function.update_self _ _ _, hplan, hr⟩
    · rintro ⟨c, q, plan', hq, hplan', hr⟩
      by_cases hc : c = b
      · subst hc
        rw [Function.update_self] at hq
        cases hq
        rw [hplan] at hplan'
        cases hplan'
        exact .inr hr
      · rw [Function.update_of_ne hc] at hq
        exact .inl ⟨c, q, plan', hq, hplan', hr⟩

/-- A withdrawn object takes its records along. -/
theorem delete (h : Clean m jobs s f) (hcol : NoCollision m jobs) (hf : f b = some p)
    (hplan : makeObjectPlan (.bytes b) p m = .ok plan)
    (hs : Dropped (fun key => key ∈ plan.records.map (·.1)) s s') : Clean m jobs s' (Function.update f b none) := by
  have hp := planned_of hplan
  have hobj := (h.named b p hf).1
  refine ⟨?_, h.keys.sublist (hs.sublist.map _), ?_⟩
  · intro c q hq
    by_cases hc : c = b
    · subst hc
      rw [Function.update_self] at hq
      cases hq
    · rw [Function.update_of_ne hc] at hq
      exact h.named c q hq
  · intro r
    rw [hs.mem, h.records]
    constructor
    · rintro ⟨⟨c, q, plan', hq, hplan', hr⟩, hkey⟩
      have hc : c ≠ b := by
        rintro rfl
        rw [hf] at hq
        cases hq
        rw [hplan] at hplan'
        cases hplan'
        exact hkey (List.mem_map_of_mem hr)
      exact ⟨c, q, plan', by rw [Function.update_of_ne hc, hq], hplan', hr⟩
    · rintro ⟨c, q, plan', hq, hplan', hr⟩
      by_cases hc : c = b
      · subst hc
        rw [Function.update_self] at hq
        cases hq
      · rw [Function.update_of_ne hc] at hq
        refine ⟨⟨c, q, plan', hq, hplan', hr⟩, fun hkey => ?_⟩
        obtain ⟨r', hr', heq⟩ := List.mem_map.1 hkey
        obtain ⟨index, hslot, hk⟩ := hp.slot hobj hr'
        obtain ⟨index', hslot', hk'⟩ := (planned_of hplan').slot (h.named c q hq).1 hr
        have := hcol _ hslot' _ hslot (by rw [← hk', ← hk, heq])
        exact hc (congrArg Prod.fst this)

/-- A `store` call: its outcome, and what is visible then. -/
theorem call_store (h : Clean m jobs s f) (hcol : NoCollision m jobs) {j : Job} (hj : j ∈ jobs)
    (hr : j.request = .store i p) (t : Nat) : ∃ r n s',
    Prog.run (machine m) t (fun _ => .done) (body m j) 0 s = some (r.map .stored, n, s') ∧ Stores m i p f s r s' ∧
      Clean m jobs s' (j.apply m f) := by
  have hobj : ∀ b, identityBytes i = .ok b → (b, p) ∈ objects jobs := fun b hb => mem_objects.2 ⟨j, hj, i, hr, hb⟩
  have hwp : (Rely.alone Engine).wp (exec t) (· = .done) (body m j) s fun o s' =>
      ∃ r, Stores m i p f s r s' ∧ o = r.map .stored := by
    unfold body
    rw [hr]
    refine Rely.wp_bind (Rely.wp_mono ?_ (wp_stores h hcol hobj))
    rintro (e | r) s' - hs
    · exact ⟨_, hs, rfl⟩
    · exact Rely.wp_alone_pure ⟨_, hs, rfl⟩
  obtain ⟨o, n, s', hrun, r, hs, rfl⟩ := done_run hwp
  refine ⟨r, n, s', hrun, hs, ?_⟩
  unfold Job.apply
  rw [hr]
  dsimp only
  rcases hs with ⟨e, he, -, rfl⟩ | ⟨b, plan, hb, hplan, ⟨hf, -, rfl⟩ | ⟨hf, -, hs⟩⟩
  · rw [he]
    split
    · rename_i heq
      cases heq
    · exact h
  · rw [hb, hplan]
    dsimp only
    rw [if_neg hf]
    exact h
  · rw [hb, hplan]
    dsimp only
    rw [if_pos hf]
    exact h.store hcol (hobj b hb) ((makeObjectPlan_bytes hb p m).symm.trans hplan) hf hs

theorem call_delete (h : Clean m jobs s f) (hcol : NoCollision m jobs) {j : Job} (hj : j ∈ jobs)
    (hr : j.request = .delete i) (t : Nat) : ∃ o n s',
    Prog.run (machine m) t (fun _ => .done) (body m j) 0 s = some (o, n, s') ∧ Clean m jobs s' (j.apply m f) := by
  cases hb : identityBytes i with
  | error e =>
    rw [body_throw hb (.inr (.inr hr))]
    refine ⟨_, _, _, rfl, ?_⟩
    unfold Job.apply
    rw [hr]
    dsimp only
    rw [hb]
    exact h
  | ok b =>
    have hid : b ∈ identities jobs := mem_identities.2 ⟨j, hj, by rw [Job.identity, hr]; exact toOption_ok.2 hb⟩
    have hwp : (Rely.alone Engine).wp (exec t) (· = .done) (body m j) s fun _ s' =>
        ∃ r, Withdrawn m b f s r s' := by
      unfold body
      rw [hr]
      refine Rely.wp_bind (Rely.wp_mono ?_ (wp_withdrawn h hcol hid hb))
      rintro (e | r) s' - hs
      · exact ⟨_, hs⟩
      · exact Rely.wp_alone_pure ⟨_, hs⟩
    obtain ⟨o, n, s', hrun, r, hs⟩ := done_run hwp
    refine ⟨o, n, s', hrun, ?_⟩
    unfold Job.apply
    rw [hr]
    dsimp only
    rw [hb]
    dsimp only
    rcases hs with ⟨hf, -, rfl⟩ | ⟨p, plan, hf, hplan, -, hdropped⟩
    · rw [← hf, Function.update_eq_self]
      exact h
    · exact h.delete hcol hf hplan hdropped

/-- **One call** keeps the device clean. -/
theorem call (h : Clean m jobs s f) (hcol : NoCollision m jobs) {j : Job} (hj : j ∈ jobs)
    (hkind : j.request ≠ .recover) (t : Nat) : ∃ o n s',
    Prog.run (machine m) t (fun _ => .done) (body m j) 0 s = some (o, n, s') ∧ Clean m jobs s' (j.apply m f) := by
  cases hr : j.request with
  | store i p =>
    obtain ⟨r, n, s', hrun, -, hclean⟩ := h.call_store hcol hj hr t
    exact ⟨_, n, s', hrun, hclean⟩
  | delete i => exact h.call_delete hcol hj hr t
  | load i =>
    have happly : j.apply m f = f := by
      unfold Job.apply
      rw [hr]
    rw [happly]
    cases hb : identityBytes i with
    | error e =>
      rw [body_throw hb (.inr (.inl hr))]
      exact ⟨_, _, _, rfl, h⟩
    | ok b =>
      obtain ⟨o, n, hrun, -⟩ := load_run hb j.limit m t (fun _ => .done) s
      refine ⟨o, n, s, ?_, h⟩
      rw [← hr] at hrun
      exact hrun
  | recover => exact absurd hr hkind

end Clean

/-! ## Sequences of calls -/

/-- The calls of one client, one after the other, with their outcomes. -/
def callAll (m : Nat) : List Job → Engine → Option (List (Except Exn Value) × Engine)
  | [], s => some ([], s)
  | j :: js, s =>
    (Prog.run (machine m) 0 (fun _ => .done) (body m j) 0 s).bind fun x =>
      (callAll m js x.2.2).map fun y => (x.1 :: y.1, y.2)

def applyAll (m : Nat) (calls : List Job) (f : Objects) : Objects := calls.foldl (fun f j => j.apply m f) f

theorem Clean.calls {f : Objects} {calls : List Job} (h : Clean m jobs s f) (hcol : NoCollision m jobs)
    (hsub : calls ⊆ jobs) (hkind : ∀ j ∈ calls, j.request ≠ .recover) :
    ∃ outs s', callAll m calls s = some (outs, s') ∧ Clean m jobs s' (applyAll m calls f) := by
  induction calls generalizing s f with
  | nil => exact ⟨[], s, rfl, h⟩
  | cons j calls ih =>
    obtain ⟨o, n, s1, hrun, h1⟩ := h.call hcol (hsub List.mem_cons_self) (hkind j List.mem_cons_self) 0
    obtain ⟨outs, s', hcalls, h'⟩ :=
      ih h1 (fun x hx => hsub (List.mem_cons_of_mem _ hx)) fun x hx => hkind x (List.mem_cons_of_mem _ hx)
    refine ⟨o :: outs, s', ?_, h'⟩
    rw [callAll, hrun, Option.bind_some, hcalls]
    rfl

/-- The call stores under the identity. -/
def Job.storesTo (b : Bytes) (j : Job) : Bool := j.object.any fun o => o.1 == b

/-- A call changes nothing, or binds an identity that is not visible, or withdraws one. -/
theorem apply_cases (m : Nat) (j : Job) : (∀ f, j.apply m f = f) ∨
    (∃ d p, j.object = some (d, p) ∧
      ∀ f : Objects, j.apply m f = if f d = none then Function.update f d (some p) else f) ∨
    ∃ d, j.object = none ∧ ∀ f : Objects, j.apply m f = Function.update f d none := by
  cases hr : j.request with
  | load i => exact .inl fun f => by simp only [Job.apply, hr]
  | recover => exact .inl fun f => by simp only [Job.apply, hr]
  | delete i =>
    cases hd : identityBytes i with
    | error e => exact .inl fun f => by simp only [Job.apply, hr, hd]
    | ok d => exact .inr (.inr ⟨d, by simp only [Job.object, hr], fun f => by simp only [Job.apply, hr, hd]⟩)
  | store i p =>
    cases hd : identityBytes i with
    | error e => exact .inl fun f => by simp only [Job.apply, hr, hd]
    | ok d =>
      cases hp : makeObjectPlan i p m with
      | error e => exact .inl fun f => by simp only [Job.apply, hr, hd, hp]
      | ok plan =>
        refine .inr (.inl ⟨d, p, ?_, fun f => by simp only [Job.apply, hr, hd, hp]⟩)
        simp only [Job.object, hr, hd, Except.toOption, Option.map_some]

/-- What a call does to one object depends on that object only. -/
theorem apply_congr {f g : Objects} {c : Bytes} (h : f c = g c) (j : Job) : j.apply m f c = j.apply m g c := by
  rcases apply_cases m j with hj | ⟨d, p, -, hj⟩ | ⟨d, -, hj⟩
  · rw [hj, hj, h]
  · rw [hj, hj]
    by_cases hd : c = d
    · subst hd
      rw [h]
      split
      · simp
      · exact h
    · have hframe : ∀ u : Objects, (if u d = none then Function.update u d (some p) else u) c = u c := by
        intro u
        split
        · exact Function.update_of_ne hd _ _
        · rfl
      rw [hframe, hframe, h]
  · rw [hj, hj]
    by_cases hd : c = d
    · subst hd
      simp
    · rw [Function.update_of_ne hd, Function.update_of_ne hd, h]

/-- Nothing but a store under it makes an identity visible. -/
theorem apply_invisible {f : Objects} {j : Job} (hj : j.storesTo b = false) (hf : f b = none) : j.apply m f b = none := by
  rcases apply_cases m j with h | ⟨d, p, hobj, h⟩ | ⟨d, -, h⟩
  · rw [h, hf]
  · have hd : b ≠ d := by
      rintro rfl
      simp [Job.storesTo, hobj] at hj
    rw [h]
    split
    · rw [Function.update_of_ne hd, hf]
    · exact hf
  · rw [h]
    by_cases hd : b = d
    · subst hd
      simp
    · rw [Function.update_of_ne hd, hf]

/-- A store concerns its own identity. -/
theorem apply_store_other {f : Objects} {j : Job} (hj : j.storesTo b = true) {c : Bytes} (hc : c ≠ b) :
    j.apply m f c = f c := by
  rcases apply_cases m j with h | ⟨d, p, hobj, h⟩ | ⟨d, hobj, -⟩
  · rw [h]
  · obtain rfl : d = b := by simpa [Job.storesTo, hobj] using hj
    rw [h]
    split
    · exact Function.update_of_ne hc _ _
    · rfl
  · simp [Job.storesTo, hobj] at hj

/-- Had nothing been stored under an identity, all others would be as they are. -/
theorem applyAll_without {calls : List Job} {f g : Objects} (h : ∀ c, c ≠ b → f c = g c) (hg : g b = none) :
    applyAll m (calls.filter fun j => !j.storesTo b) g = Function.update (applyAll m calls f) b none := by
  induction calls generalizing f g with
  | nil =>
    funext c
    by_cases hc : c = b
    · subst hc
      simp [applyAll, hg]
    · rw [Function.update_of_ne hc]
      exact (h c hc).symm
  | cons j calls ih =>
    cases hj : j.storesTo b with
    | true =>
      rw [List.filter_cons_of_neg (by simp [hj])]
      exact ih (fun c hc => (apply_store_other hj hc).trans (h c hc)) hg
    | false =>
      rw [List.filter_cons_of_pos (by simp [hj])]
      exact ih (fun c hc => apply_congr (h c hc) j) (apply_invisible hj hg)

/-- The device holds exactly the records of the plans of the objects that `load` returns. -/
structure Exact (m : Nat) (jobs : List Job) (s : Engine) : Prop where
  keys : (s.records.map (·.1)).Nodup
  planned : ∀ b ∈ identities jobs, ∃ r, Loads m (.bytes b) s r ∧
    ∀ p, r = some p → ∃ plan, makeObjectPlan (.bytes b) p m = .ok plan
  records : ∀ r, r ∈ s.records ↔ ∃ b ∈ identities jobs, ∃ p plan, Loads m (.bytes b) s (some p) ∧
    makeObjectPlan (.bytes b) p m = .ok plan ∧ r ∈ plan.records

theorem identities_nonempty (h : b ∈ identities jobs) : identityBytes (.bytes b) = .ok b := by
  obtain ⟨j, -, hj⟩ := mem_identities.1 h
  have hid : ∃ i, identityBytes i = .ok b := by
    unfold Job.identity at hj
    split at hj
    · exact ⟨_, toOption_ok.1 hj⟩
    · exact ⟨_, toOption_ok.1 hj⟩
    · exact ⟨_, toOption_ok.1 hj⟩
    · cases hj
  obtain ⟨i, hi⟩ := hid
  exact identityBytes_ok.2 ⟨rfl, (identityBytes_ok.1 hi).2⟩

theorem Clean.exact {f : Objects} (h : Clean m jobs s f) (hcol : NoCollision m jobs) : Exact m jobs s := by
  have hloads : ∀ b ∈ identities jobs, Loads m (.bytes b) s (f b) := fun b hb =>
    h.loads hcol hb (identities_nonempty hb)
  refine ⟨h.keys, fun b hb => ⟨f b, hloads b hb, fun p hp => (h.named b p hp).2⟩, fun r => ?_⟩
  rw [h.records]
  constructor
  · rintro ⟨b, p, plan, hf, hplan, hr⟩
    have hb := objects_identities (h.named b p hf).1
    exact ⟨b, hb, p, plan, hf ▸ hloads b hb, hplan, hr⟩
  · rintro ⟨b, hb, p, plan, hl, hplan, hr⟩
    exact ⟨b, p, plan, (hloads b hb).unique hl, hplan, hr⟩

/-- **No garbage without failures**, where `more` are calls made later, and name whatever other identities are
looked at. After any calls of one client on an empty device whose engine never raises,
the records are those of the visible objects. From there, whatever has a plan is stored where nothing is visible,
and deleting an identity leaves the records there would be had nothing been stored under it. -/
theorem no_garbage (m : Nat) (calls more : List Job) (hcol : NoCollision m (calls ++ more))
    (hkind : ∀ j ∈ calls, j.request ≠ .recover) : ∃ outs s,
    callAll m calls Engine.empty = some (outs, s) ∧ Exact m (calls ++ more) s ∧
    (∀ i p b plan limit, ⟨.store i p, limit⟩ ∈ more → identityBytes i = .ok b → Loads m i s none →
      makeObjectPlan i p m = .ok plan → ∃ s', callAll m [⟨.store i p, limit⟩] s = some ([.ok (.stored true)], s')) ∧
    ∀ i b limit, ⟨.delete i, limit⟩ ∈ more → identityBytes i = .ok b → ∃ out s' outs0 s0,
      callAll m [⟨.delete i, limit⟩] s = some (out, s') ∧
      callAll m (calls.filter fun j => !j.storesTo b) Engine.empty = some (outs0, s0) ∧
      ∀ r, r ∈ s'.records ↔ r ∈ s0.records := by
  have hempty := Clean.empty m (calls ++ more)
  obtain ⟨outs, s, hrun, hs⟩ := hempty.calls hcol (List.subset_append_left _ _) hkind
  refine ⟨outs, s, hrun, hs.exact hcol, ?_, ?_⟩
  · intro i p b plan limit hj hb hnone hplan
    have hmem : (⟨.store i p, limit⟩ : Job) ∈ calls ++ more := List.mem_append_right _ hj
    have hid : b ∈ identities (calls ++ more) := objects_identities (mem_objects.2 ⟨_, hmem, i, rfl, hb⟩)
    have hf := (hs.loads hcol hid hb).unique hnone
    obtain ⟨r, n, s', hstore, hr, -⟩ := hs.call_store hcol hmem rfl 0
    refine ⟨s', ?_⟩
    rcases hr with ⟨e, he, -⟩ | ⟨b', plan', hb', -, ⟨hf', -⟩ | ⟨-, rfl, -⟩⟩
    · rw [hplan] at he
      cases he
    · rw [hb] at hb'
      cases hb'
      exact absurd hf hf'
    · rw [callAll, hstore]
      rfl
  · intro i b limit hj hb
    have hmem : (⟨.delete i, limit⟩ : Job) ∈ calls ++ more := List.mem_append_right _ hj
    obtain ⟨o, n, s', hdelete, hs'⟩ := hs.call_delete hcol hmem rfl 0
    have hkept : (calls.filter fun j => !j.storesTo b) ⊆ calls ++ more := fun j hj =>
      List.mem_append_left _ (List.mem_of_mem_filter hj)
    obtain ⟨outs0, s0, hrun0, hs0⟩ := hempty.calls hcol hkept fun j hj => hkind j (List.mem_of_mem_filter hj)
    refine ⟨[o], s', outs0, s0, ?_, hrun0, fun r => ?_⟩
    · rw [callAll, hdelete]
      rfl
    · have happly : (⟨.delete i, limit⟩ : Job).apply m (applyAll m calls fun _ => none) =
          Function.update (applyAll m calls fun _ => none) b none := by
        unfold Job.apply
        dsimp only
        rw [hb]
      rw [happly] at hs'
      rw [applyAll_without (f := fun _ => none) (fun _ _ => rfl) rfl] at hs0
      rw [hs'.records, hs0.records]

/-- Two objects, the first stored again with other bytes. -/
def threeStores : List Job :=
  [⟨.store (.bytes [120]) [1, 2, 3], python311 50⟩, ⟨.store (.bytes [121]) [4], python311 50⟩,
    ⟨.store (.bytes [120]) [5], python311 50⟩]

theorem no_garbage_three : ∃ outs s,
    callAll 200 threeStores Engine.empty = some (outs, s) ∧ s.records.length = 4 ∧
    Exact 200 (threeStores ++ [⟨.delete (.bytes [120]), python311 50⟩]) s ∧
    ∃ out s' outs0 s0, callAll 200 [⟨.delete (.bytes [120]), python311 50⟩] s = some (out, s') ∧
      callAll 200 [⟨.store (.bytes [121]) [4], python311 50⟩] Engine.empty = some (outs0, s0) ∧
      ∀ r, r ∈ s'.records ↔ r ∈ s0.records := by
  have hlen : (callAll 200 threeStores Engine.empty).map (fun x => x.2.records.length) = some 4 := by decide +kernel
  obtain ⟨outs, s, hrun, hexact, -, hdelete⟩ :=
    no_garbage 200 threeStores [⟨.delete (.bytes [120]), python311 50⟩] (by decide +kernel) (by decide)
  rw [hrun] at hlen
  obtain ⟨out, s', outs0, s0, h1, h2, h3⟩ := hdelete (.bytes [120]) [120] (python311 50) List.mem_cons_self rfl
  exact ⟨outs, s, hrun, Option.some.inj hlen, hexact, out, s', outs0, s0, h1, h2, h3⟩

end NvmeKv
end SpdkConnector
