import SpdkConnector.NvmeKv.LoadIntegrity

/-!
# The records that a group of calls may write

`slots` are the records in reach of the calls, `Distinct` says that their keys and checksums do not collide.
`Sound`: every record is a chunk of an object that some call stores, or the manifest of an object whose
chunks are all there. Inserting a chunk, inserting such a manifest, and deleting a record of an identity
without a manifest keep it.
-/
namespace SpdkConnector
namespace NvmeKv

open Codec Interleaving

/-- The identity and the payload of a `store`. -/
def Job.object (j : Job) : Option (Bytes × Bytes) :=
  match j.request with
  | .store i p => (identityBytes i).toOption.map fun b => (b, p)
  | _ => none

def Job.identity (j : Job) : Option Bytes :=
  match j.request with
  | .store i _ | .load i | .delete i => (identityBytes i).toOption
  | .recover => none

def objects (jobs : List Job) : List (Bytes × Bytes) := jobs.filterMap Job.object

def identities (jobs : List Job) : List Bytes := jobs.filterMap Job.identity

/-- The manifest of each identity and the chunks of each object. -/
def slots (m : Nat) (jobs : List Job) : List (Bytes × Nat) :=
  ((identities jobs).map fun b => (b, manifestChunkIndex)) ++
    (objects jobs).flatMap fun o =>
      (List.range (min (pieces m o.2).length manifestChunkIndex)).map fun k => (o.1, k)

/-- No two records in reach share a key, no two payloads a checksum. -/
structure Distinct (m : Nat) (jobs : List Job) : Prop where
  keys : ∀ x ∈ slots m jobs, ∀ y ∈ slots m jobs, recordKey x.1 x.2 = recordKey y.1 y.2 → x = y
  sums : ∀ x ∈ objects jobs, ∀ y ∈ objects jobs, checksum x.2 = checksum y.2 → x.2 = y.2

instance (m : Nat) (jobs : List Job) : Decidable (Distinct m jobs) :=
  decidable_of_iff
    ((∀ x ∈ slots m jobs, ∀ y ∈ slots m jobs, recordKey x.1 x.2 = recordKey y.1 y.2 → x = y) ∧
      ∀ x ∈ objects jobs, ∀ y ∈ objects jobs, checksum x.2 = checksum y.2 → x.2 = y.2)
    ⟨fun h => ⟨h.1, h.2⟩, fun h => ⟨h.keys, h.sums⟩⟩

/-- A committed object: its manifest and all its chunks. -/
structure Visible (m : Nat) (jobs : List Job) (s : Engine) (b p : Bytes) : Prop where
  object : (b, p) ∈ objects jobs
  manifest : ∃ v, encodeManifest (plannedManifest b p m) = .ok v ∧ s.get (recordKey b manifestChunkIndex) = some v
  chunks : ∀ k x, (pieces m p)[k]? = some x → s.get (recordKey b k) = some x

/-- A record under `key` that a `store` may have left. -/
def Stored (m : Nat) (jobs : List Job) (s : Engine) (key value : Bytes) : Prop :=
  (∃ b p, Visible m jobs s b p ∧ key = recordKey b manifestChunkIndex) ∨
  (∃ b p k, (b, p) ∈ objects jobs ∧ k < manifestChunkIndex ∧ key = recordKey b k ∧ (pieces m p)[k]? = some value)

def Sound (m : Nat) (jobs : List Job) (s : Engine) : Prop :=
  ∀ key value, s.get key = some value → Stored m jobs s key value

variable {m limit t : Nat} {jobs jobs' : List Job} {b p : Bytes} {i : Identity} {s s' : Engine}

/-! ## Jobs and slots -/

theorem toOption_ok {x : Except Exn Bytes} : x.toOption = some b ↔ x = .ok b := by
  cases x with
  | error e => simp [Except.toOption]
  | ok c => simp [Except.toOption]

theorem mem_objects : (b, p) ∈ objects jobs ↔ ∃ j ∈ jobs, ∃ i, j.request = .store i p ∧ identityBytes i = .ok b := by
  unfold objects
  rw [List.mem_filterMap]
  refine exists_congr fun j => and_congr_right fun _ => ?_
  unfold Job.object
  constructor
  · intro h
    split at h
    · rename_i i q hj
      obtain ⟨c, hc, heq⟩ := Option.map_eq_some_iff.1 h
      cases heq
      exact ⟨i, hj, toOption_ok.1 hc⟩
    · cases h
  · rintro ⟨i, hj, hb⟩
    rw [hj]
    dsimp only
    rw [toOption_ok.2 hb]
    rfl

theorem object_request {j : Job} (h : j.object = some (b, p)) :
    ∃ i, j.request = .store i p ∧ identityBytes i = .ok b := by
  have hmem : (b, p) ∈ objects [j] := List.mem_filterMap.2 ⟨j, List.mem_singleton.2 rfl, h⟩
  obtain ⟨k, hk, hi⟩ := mem_objects.1 hmem
  obtain rfl := List.mem_singleton.1 hk
  exact hi

theorem mem_identities : b ∈ identities jobs ↔ ∃ j ∈ jobs, j.identity = some b := List.mem_filterMap

theorem objects_identities (h : (b, p) ∈ objects jobs) : b ∈ identities jobs := by
  obtain ⟨j, hj, i, hr, hb⟩ := mem_objects.1 h
  refine mem_identities.2 ⟨j, hj, ?_⟩
  rw [Job.identity, hr]
  exact toOption_ok.2 hb

theorem mem_slots {index : Nat} : (b, index) ∈ slots m jobs ↔
    (b ∈ identities jobs ∧ index = manifestChunkIndex) ∨
    (∃ p, (b, p) ∈ objects jobs ∧ index < (pieces m p).length ∧ index < manifestChunkIndex) := by
  simp only [slots, List.mem_append, List.mem_map, List.mem_flatMap, List.mem_range, Prod.mk.injEq, Prod.exists,
    lt_min_iff]
  refine or_congr ?_ ?_
  · constructor
    · rintro ⟨b, hb, rfl, rfl⟩
      exact ⟨hb, rfl⟩
    · rintro ⟨hb, rfl⟩
      exact ⟨b, hb, rfl, rfl⟩
  · constructor
    · rintro ⟨b, p, hp, k, hk, rfl, rfl⟩
      exact ⟨p, hp, hk⟩
    · rintro ⟨p, hp, hk⟩
      exact ⟨b, p, hp, index, hk, rfl, rfl⟩

theorem manifest_slot (h : b ∈ identities jobs) : (b, manifestChunkIndex) ∈ slots m jobs :=
  mem_slots.2 (.inl ⟨h, rfl⟩)

theorem chunk_slot {k : Nat} {x : Bytes} (h : (b, p) ∈ objects jobs) (hx : (pieces m p)[k]? = some x)
    (hk : k < manifestChunkIndex) : (b, k) ∈ slots m jobs := by
  obtain ⟨hlen, -⟩ := List.getElem?_eq_some_iff.1 hx
  exact mem_slots.2 (.inr ⟨p, h, hlen, hk⟩)

theorem slots_mono (h : jobs ⊆ jobs') : slots m jobs ⊆ slots m jobs' := by
  rintro ⟨b, index⟩ hx
  rcases mem_slots.1 hx with ⟨hb, hi⟩ | ⟨p, hp, hi⟩
  · exact mem_slots.2 (.inl ⟨List.filterMap_subset _ h hb, hi⟩)
  · exact mem_slots.2 (.inr ⟨p, List.filterMap_subset _ h hp, hi⟩)

theorem Distinct.mono (hD : Distinct m jobs') (h : jobs ⊆ jobs') : Distinct m jobs where
  keys := fun x hx y hy => hD.keys x (slots_mono h hx) y (slots_mono h hy)
  sums := fun x hx y hy => hD.sums x (List.filterMap_subset _ h hx) y (List.filterMap_subset _ h hy)

/-! ## Committed objects -/

theorem planned_count {v : Bytes} (h : encodeManifest (plannedManifest b p m) = .ok v) :
    (plannedManifest b p m).count = (pieces m p).length ∧ (pieces m p).length < manifestChunkIndex := by
  obtain ⟨hc, -, hlt⟩ := Valid.count (planned_valid h)
  have hlen : (pieces m p).length = (plannedManifest b p m).count := Int.ofNat.inj (Option.some.inj hc)
  omega

theorem planned_flatten {v : Bytes} (h : encodeManifest (plannedManifest b p m) = .ok v) :
    (pieces m p).flatten = p := by
  refine pieces_flatten ?_ p
  rintro rfl
  obtain ⟨-, hpos, -⟩ := Valid.count (planned_valid h)
  rw [(planned_count h).1] at hpos
  simp [pieces] at hpos

/-- A manifest's bytes hold the payload's checksum. -/
theorem planned_checksum {q v : Bytes} (hp : encodeManifest (plannedManifest b p m) = .ok v)
    (hq : encodeManifest (plannedManifest b q m) = .ok v) : checksum p = checksum q := by
  have h := planned_roundtrip hp 0
  rw [planned_roundtrip hq 0] at h
  have hsum := congrArg KvManifest.payloadChecksum (Except.ok.inj h)
  exact (Json.str.inj hsum).symm

namespace Visible

/-- The keys of the records of a committed object. -/
theorem slot (h : Visible m jobs s b p) {k : Nat} {x : Bytes} (hx : (pieces m p)[k]? = some x) :
    k < manifestChunkIndex ∧ (b, k) ∈ slots m jobs := by
  obtain ⟨v, hv, -⟩ := h.manifest
  obtain ⟨-, hcount⟩ := planned_count hv
  obtain ⟨hlen, -⟩ := List.getElem?_eq_some_iff.1 hx
  exact ⟨by omega, chunk_slot h.object hx (by omega)⟩

/-- A committed object is what `load` returns. -/
theorem intact (h : Visible m jobs s b p) (limit : Nat) : Intact limit b s p := by
  obtain ⟨v, hv, hget⟩ := h.manifest
  obtain ⟨hcount, hlt⟩ := planned_count hv
  refine ⟨v, _, hget, planned_roundtrip hv limit, rfl, ⟨pieces m p, hcount.symm, ?_, ?_⟩, rfl, rfl⟩
  · intro k hk
    rw [hcount] at hk
    rw [h.chunks k _ (List.getElem?_eq_getElem hk), List.getElem?_eq_getElem hk]
  · exact (planned_flatten hv).symm

theorem loads (h : Visible m jobs s b p) (limit : Nat) : loadResult limit b s = .ok (some p) :=
  loadResult_some.2 (h.intact limit)

/-- A committed object stays while its records do. -/
theorem keep (h : Visible m jobs s b p)
    (hkeep : ∀ index v, (b, index) ∈ slots m jobs → s.get (recordKey b index) = some v →
      s'.get (recordKey b index) = some v) : Visible m jobs s' b p := by
  obtain ⟨v, hv, hget⟩ := h.manifest
  refine ⟨h.object, ⟨v, hv, hkeep _ _ (manifest_slot (objects_identities h.object)) hget⟩, ?_⟩
  intro k x hx
  exact hkeep _ _ (h.slot hx).2 (h.chunks k x hx)

/-- Only one object of an identity is committed. -/
theorem unique (h : Visible m jobs s b p) {q : Bytes} (hq : Visible m jobs s b q) : p = q := by
  have h1 := h.loads 0
  rw [hq.loads 0] at h1
  cases h1
  rfl

end Visible

namespace Sound

theorem empty : Sound m jobs Engine.empty := by
  intro key value h
  cases h

/-- More calls are in reach. -/
theorem mono (h : Sound m jobs s) (hsub : jobs ⊆ jobs') : Sound m jobs' s := by
  intro key value hget
  rcases h key value hget with ⟨b, p, hv, hkey⟩ | ⟨b, p, k, hobj, hchunk⟩
  · exact .inl ⟨b, p, ⟨List.filterMap_subset _ hsub hv.object, hv.manifest, hv.chunks⟩, hkey⟩
  · exact .inr ⟨b, p, k, List.filterMap_subset _ hsub hobj, hchunk⟩

/-- A manifest record belongs to a committed object. -/
theorem visible (h : Sound m jobs s) (hD : Distinct m jobs') (hsub : jobs ⊆ jobs') (hb : b ∈ identities jobs')
    {v : Bytes} (hget : s.get (recordKey b manifestChunkIndex) = some v) :
    ∃ p, Visible m jobs s b p ∧ encodeManifest (plannedManifest b p m) = .ok v := by
  have hslot := manifest_slot (m := m) hb
  rcases h _ _ hget with ⟨b', p, hv, hkey⟩ | ⟨b', p, k, hobj, hk, hkey, hx⟩
  · have hslot' := slots_mono hsub (manifest_slot (m := m) (objects_identities hv.object))
    cases hD.keys _ hslot _ hslot' hkey
    obtain ⟨w, hw, hw'⟩ := hv.manifest
    rw [hget] at hw'
    cases hw'
    exact ⟨p, hv, hw⟩
  · cases hD.keys _ hslot _ (slots_mono hsub (chunk_slot hobj hx hk)) hkey
    exact absurd hk (Nat.lt_irrefl _)

theorem insert (h : Sound m jobs s) {key value : Bytes} (habsent : s.get key = none)
    (hnew : Stored m jobs (s.effect t (.storeIfAbsent key value)) key value) :
    Sound m jobs (s.effect t (.storeIfAbsent key value)) := by
  intro k v hget
  rw [get_insert habsent] at hget
  split at hget
  · rename_i hk
    cases hget
    exact hk ▸ hnew
  · rcases h k v hget with ⟨b, p, hv, hkey⟩ | hchunk
    · refine .inl ⟨b, p, hv.keep ?_, hkey⟩
      intro index w _ hw
      rw [get_insert habsent]
      split
      · rename_i hk
        rw [hk, habsent] at hw
        cases hw
      · exact hw
    · exact .inr hchunk

/-- A record may go once the identity has no manifest. -/
theorem delete (h : Sound m jobs s) (hD : Distinct m jobs) {index : Nat} (hslot : (b, index) ∈ slots m jobs)
    (habsent : (s.effect t (.delete (recordKey b index))).get (recordKey b manifestChunkIndex) = none) :
    Sound m jobs (s.effect t (.delete (recordKey b index))) := by
  intro k v hget
  have hold : s.get k = some v := by
    rw [get_delete] at hget
    split at hget
    · cases hget
    · exact hget
  rcases h k v hold with ⟨b', p, hv, hkey⟩ | hchunk
  · have hother : b' ≠ b := by
      rintro rfl
      rw [hkey, habsent] at hget
      cases hget
    refine .inl ⟨b', p, hv.keep ?_, hkey⟩
    intro index' w hslot' hw
    rw [get_delete, if_neg]
    · exact hw
    · intro heq
      cases hD.keys _ hslot' _ hslot heq
      exact hother rfl
  · exact .inr hchunk

end Sound

end NvmeKv
end SpdkConnector
