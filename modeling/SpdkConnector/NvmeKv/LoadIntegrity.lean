import SpdkConnector.NvmeKv.Commands
import SpdkConnector.NvmeKv.FormatProofs

/-!
# `load` and `delete` on any device

Whatever the records are, `load` gives what `loadResult` computes from them, and that is a payload exactly
when the records are `Intact`: a manifest of the identity, its chunks, and the length and checksum it
states. `delete` touches only the identity's own keys.
-/
namespace SpdkConnector
namespace NvmeKv

open Codec Interleaving

variable {m limit t : Nat} {b p : Bytes} {i : Identity} {s s' : Engine} {luck : Luck → Prop}

/-! ## What `load` computes -/

/-- The records at the first `count` chunk keys. -/
def chunkRecords (s : Engine) (b : Bytes) (count : Nat) : List (Option Bytes) :=
  (List.range count).map fun k => s.get (recordKey b k)

def objectResult (limit : Nat) (b : Bytes) (s : Engine) (value : Bytes) : Except Exn (Option Bytes) :=
  match decodeManifest limit value with
  | .error e => .error e
  | .ok manifest =>
    if manifest.identity ≠ b then .ok none
    else
      let chunks := chunkRecords s b manifest.count
      if chunks.any Option.isNone then .ok none
      else (validatePayload manifest (chunks.filterMap id)).map some

def loadResult (limit : Nat) (b : Bytes) (s : Engine) : Except Exn (Option Bytes) :=
  match s.get (recordKey b manifestChunkIndex) with
  | none => .ok none
  | some value =>
    match objectResult limit b s value with
    | .error (.format _) => .ok none
    | r => r

/-- The object an identity has: its manifest, all its chunks, and their length and checksum. -/
structure Intact (limit : Nat) (b : Bytes) (s : Engine) (p : Bytes) : Prop where
  manifest : ∃ value manifest, s.get (recordKey b manifestChunkIndex) = some value ∧
    decodeManifest limit value = .ok manifest ∧ manifest.identity = b ∧
    (∃ chunks : List Bytes, chunks.length = manifest.count ∧
      (∀ k < manifest.count, s.get (recordKey b k) = chunks[k]?) ∧ p = chunks.flatten) ∧
    int? manifest.logicalBytes = some (p.length : Int) ∧ str? manifest.payloadChecksum = some (checksum p)

theorem Valid.count {manifest : KvManifest} (h : manifest.Valid) :
    int? manifest.chunkCount = some (manifest.count : Int) ∧ 0 < manifest.count ∧
      manifest.count < manifestChunkIndex := by
  obtain ⟨n, hpos, hlt, hn⟩ := h.chunks
  have : manifest.count = n := by simp [KvManifest.count, hn]
  rw [this]
  exact ⟨hn, hpos, hlt⟩

theorem all_some {α : Type} {l : List (Option α)} (h : l.any Option.isNone = false) :
    (l.filterMap id).map some = l := by
  induction l with
  | nil => rfl
  | cons x l ih =>
    simp only [List.any_cons, Bool.or_eq_false_iff] at h
    cases x with
    | none => cases h.1
    | some x =>
      show some x :: (l.filterMap id).map some = _
      rw [ih h.2]

/-- All the chunk records are there. -/
theorem chunkRecords_all {count : Nat} (h : (chunkRecords s b count).any Option.isNone = false) :
    ((chunkRecords s b count).filterMap id).length = count ∧
    ∀ k < count, s.get (recordKey b k) = ((chunkRecords s b count).filterMap id)[k]? := by
  have hmap := all_some h
  generalize (chunkRecords s b count).filterMap id = chunks at hmap
  have hlen : chunks.length = count := by
    have := congrArg List.length hmap
    simpa [chunkRecords] using this
  refine ⟨hlen, fun k hk => ?_⟩
  have hget := congrArg (·[k]?) hmap
  simp only [chunkRecords, List.getElem?_map, List.getElem?_range hk, Option.map_some] at hget
  rw [List.getElem?_eq_getElem (hlen ▸ hk)] at hget ⊢
  exact (Option.some.inj hget).symm

theorem chunkRecords_eq {count : Nat} {chunks : List Bytes} (hlen : chunks.length = count)
    (h : ∀ k < count, s.get (recordKey b k) = chunks[k]?) : chunkRecords s b count = chunks.map some := by
  refine List.ext_getElem? fun k => ?_
  rw [chunkRecords, List.getElem?_map, List.getElem?_map]
  by_cases hk : k < count
  · rw [List.getElem?_range hk, Option.map_some, h k hk, List.getElem?_eq_getElem (hlen ▸ hk)]
    rfl
  · rw [List.getElem?_eq_none (by simpa using hk), List.getElem?_eq_none (by omega)]
    rfl

theorem validatePayload_ok {manifest : KvManifest} (hv : manifest.Valid) {chunks : List Bytes} :
    validatePayload manifest chunks = .ok p ↔ chunks.length = manifest.count ∧ p = chunks.flatten ∧
      int? manifest.logicalBytes = some (p.length : Int) ∧ str? manifest.payloadChecksum = some (checksum p) := by
  obtain ⟨hcount, -, -⟩ := Valid.count hv
  unfold validatePayload
  rw [validateManifest_ok.2 hv, hcount]
  simp only [Except.bind]
  constructor
  · intro h
    split at h
    · cases h
    · rename_i h1
      split at h
      · cases h
      · rename_i h2
        split at h
        · cases h
        · rename_i h3
          cases h
          have h1 := Option.some.inj (Classical.not_not.1 h1)
          exact ⟨by omega, rfl, Classical.not_not.1 h2, Classical.not_not.1 h3⟩
  · rintro ⟨h1, rfl, h2, h3⟩
    rw [if_neg (by rw [h1]; simp), if_neg (by rw [h2]; simp), if_neg (by rw [h3]; simp)]

/-- **`load` gives a payload exactly when the object is intact.** -/
theorem loadResult_some : loadResult limit b s = .ok (some p) ↔ Intact limit b s p := by
  unfold loadResult
  constructor
  · intro h
    split at h
    · cases h
    · rename_i value hvalue
      split at h
      · cases h
      · unfold objectResult at h
        split at h
        · cases h
        · rename_i manifest hdecode
          split at h
          · cases h
          · rename_i hid
            dsimp only at h
            split at h
            · cases h
            · rename_i hall
              obtain ⟨q, hq, hqp⟩ := map_ok h
              obtain rfl := Option.some.inj hqp
              obtain ⟨h1, h2, h3, h4⟩ := (validatePayload_ok (decodeManifest_valid hdecode)).1 hq
              obtain ⟨-, hget⟩ := chunkRecords_all (Bool.eq_false_iff.2 hall)
              exact ⟨value, manifest, hvalue, hdecode, Classical.not_not.1 hid, ⟨_, h1, hget, h2⟩, h3, h4⟩
  · rintro ⟨value, manifest, hvalue, hdecode, hid, ⟨chunks, hlen, hget, rfl⟩, h3, h4⟩
    have hrecords := chunkRecords_eq hlen hget
    have hall : (chunkRecords s b manifest.count).any Option.isNone = false := by
      rw [hrecords]
      simp
    have hvalid := (validatePayload_ok (decodeManifest_valid hdecode)).2 ⟨hlen, rfl, h3, h4⟩
    rw [hvalue]
    dsimp only
    unfold objectResult
    rw [hdecode]
    dsimp only
    rw [if_neg (by simpa using hid), if_neg (by simp [hall]), hrecords, List.filterMap_map]
    simp only [Function.comp_def, id, List.filterMap_some]
    rw [hvalid]
    rfl

/-! ## The programs compute it -/

/-- A read-only call on state `s` that gives `r`, unless the engine raises. -/
def Gives {α : Type} (luck : Luck → Prop) (s : Engine) (r : Except Exn α) : Except Exn α → Engine → Prop :=
  fun o s' => s' = s ∧ (o = r ∨ (Raises luck ∧ o = .error .engine))

theorem wp_retrieve {α : Type} {key : Bytes} {f : Option Bytes → KvProg α} {r : Except Exn α}
    (h : (Rely.alone Engine).wp (exec t) luck (f (s.get key)) s (Gives luck s r)) :
    (Rely.alone Engine).wp (exec t) luck ((ask (.retrieve key)).bind f) s (Gives luck s r) := by
  rintro _ rfl _ ch hch a s'' hx
  refine ⟨⟨trivial, trivial⟩, ?_⟩
  cases ch with
  | done =>
    cases hx
    exact h
  | raiseBefore =>
    cases hx
    exact Rely.wp_alone_throw ⟨rfl, .inr ⟨⟨_, hch, nofun⟩, rfl⟩⟩
  | raiseAfter =>
    cases hx
    exact Rely.wp_alone_throw ⟨rfl, .inr ⟨⟨_, hch, nofun⟩, rfl⟩⟩

/-- What follows a read-only call. -/
theorem wp_gives {α β : Type} {q : KvProg α} {r : Except Exn α} {f : α → KvProg β}
    {Q : Except Exn β → Engine → Prop} (hq : (Rely.alone Engine).wp (exec t) luck q s (Gives luck s r))
    (hok : ∀ a, r = .ok a → (Rely.alone Engine).wp (exec t) luck (f a) s Q)
    (herr : ∀ e, r = .error e → Q (.error e) s) (hraise : Raises luck → Q (.error .engine) s) :
    (Rely.alone Engine).wp (exec t) luck (q.bind f) s Q := by
  refine Rely.wp_bind (Rely.wp_mono ?_ hq)
  rintro o s' - ⟨rfl, rfl | ⟨hr, rfl⟩⟩
  · cases o with
    | ok a => exact hok a rfl
    | error e => exact herr e rfl
  · exact hraise hr

theorem wp_retrieveChunks (hb : identityBytes i = .ok b) {count index : Nat}
    (hrange : index + count ≤ manifestChunkIndex + 1) :
    (Rely.alone Engine).wp (exec t) luck (retrieveChunks i count index) s
      (Gives luck s (.ok ((List.range count).map fun k => s.get (recordKey b (index + k))))) := by
  induction count generalizing index with
  | zero => exact Rely.wp_alone_pure ⟨rfl, .inl rfl⟩
  | succ count ih =>
    rw [retrieveChunks, chunkKey_ok hb (by omega)]
    refine wp_retrieve (wp_gives (ih (by omega)) ?_ ?_ ?_)
    · rintro chunks heq
      obtain rfl := Except.ok.inj heq
      refine Rely.wp_alone_pure ⟨rfl, .inl ?_⟩
      rw [List.range_succ_eq_map, List.map_cons, List.map_map]
      congr 2
      refine List.map_congr_left fun k _ => ?_
      rw [Function.comp_apply, show index + (k + 1) = index + 1 + k by omega]
    · intro e he
      cases he
    · exact fun hr => ⟨rfl, .inr ⟨hr, rfl⟩⟩

theorem wp_loadObject (hb : identityBytes i = .ok b) (value : Bytes) :
    (Rely.alone Engine).wp (exec t) luck (loadObject limit i value) s
      (Gives luck s (objectResult limit b s value)) := by
  unfold loadObject objectResult
  cases hdecode : decodeManifest limit value with
  | error e => exact Rely.wp_alone_throw ⟨rfl, .inl rfl⟩
  | ok manifest =>
    rw [(identityBytes_ok.1 hb).1]
    show (Rely.alone Engine).wp _ _ (if manifest.identity ≠ b then _ else _) _ _
    dsimp only
    split
    · exact Rely.wp_alone_pure ⟨rfl, .inl rfl⟩
    · obtain ⟨-, -, hlt⟩ := Valid.count (decodeManifest_valid hdecode)
      refine wp_gives (wp_retrieveChunks hb (by omega)) ?_ ?_ ?_
      · rintro chunks heq
        obtain rfl := Except.ok.inj heq
        simp only [Nat.zero_add]
        show (Rely.alone Engine).wp _ _ (if (chunkRecords s b manifest.count).any Option.isNone then _ else _) _ _
        split
        · exact Rely.wp_alone_pure ⟨rfl, .inl rfl⟩
        · show (Rely.alone Engine).wp _ _
            ((Prog.ofExcept (validatePayload manifest ((chunkRecords s b manifest.count).filterMap id))).bind _) _ _
          cases validatePayload manifest ((chunkRecords s b manifest.count).filterMap id) with
          | ok p => exact Rely.wp_alone_pure ⟨rfl, .inl rfl⟩
          | error e => exact Rely.wp_alone_throw ⟨rfl, .inl rfl⟩
      · intro e he
        cases he
      · exact fun hr => ⟨rfl, .inr ⟨hr, rfl⟩⟩

theorem loadResult_none (h : s.get (recordKey b manifestChunkIndex) = none) : loadResult limit b s = .ok none := by
  rw [loadResult, h]

theorem loadResult_format {value : Bytes} {message : String} (h : s.get (recordKey b manifestChunkIndex) = some value)
    (hr : objectResult limit b s value = .error (.format message)) : loadResult limit b s = .ok none := by
  rw [loadResult, h]
  dsimp only
  rw [hr]

theorem loadResult_same {value : Bytes} (h : s.get (recordKey b manifestChunkIndex) = some value)
    (hr : ∀ message, objectResult limit b s value ≠ .error (.format message)) :
    loadResult limit b s = objectResult limit b s value := by
  rw [loadResult, h]
  dsimp only
  split
  · rename_i message heq
    exact absurd heq (hr message)
  · rfl

theorem wp_load (hb : identityBytes i = .ok b) :
    (Rely.alone Engine).wp (exec t) luck (load limit i) s (Gives luck s (loadResult limit b s)) := by
  unfold load
  rw [manifestKey_ok hb]
  refine wp_retrieve ?_
  cases hvalue : s.get (recordKey b manifestChunkIndex) with
  | none => exact Rely.wp_alone_pure ⟨rfl, .inl (loadResult_none hvalue).symm⟩
  | some value =>
    refine Rely.wp_tryCatch (Rely.wp_mono ?_ (wp_loadObject hb value))
    rintro o s' - ⟨rfl, rfl | ⟨hr, rfl⟩⟩
    · by_cases hformat : ∃ message, objectResult limit b s' value = .error (.format message)
      · obtain ⟨message, hm⟩ := hformat
        rw [hm]
        exact Rely.wp_alone_pure ⟨rfl, .inl (loadResult_format hvalue hm).symm⟩
      · have hsame := loadResult_same hvalue fun message h => hformat ⟨message, h⟩
        cases hresult : objectResult limit b s' value with
        | ok r => exact ⟨rfl, .inl (by rw [hsame, hresult])⟩
        | error e =>
          have hthrow : ∀ message, e ≠ .format message := fun message h => hformat ⟨message, by rw [hresult, h]⟩
          dsimp only
          split
          · rename_i message
            exact absurd rfl (hthrow message)
          · exact Rely.wp_alone_throw ⟨rfl, .inl (by rw [hsame, hresult])⟩
    · exact Rely.wp_alone_throw ⟨rfl, .inr ⟨hr, rfl⟩⟩

/-- A `load` call alone: its outcome is what the records say, unless the engine raises. -/
theorem load_run (hb : identityBytes i = .ok b) (limit : Limit) (m t : Nat) (choose : Nat → Luck) (s : Engine) :
    ∃ o n, Prog.run (machine m) t choose (body m ⟨.load i, limit⟩) 0 s = some (o, n, s) ∧
      (o = (loadResult limit.outer b s).map .loaded ∨ ((∃ k, choose k ≠ .done) ∧ o = .error .engine)) := by
  obtain ⟨o, n, s', hrun⟩ := Rely.run_total (M := machine m) choose (exec_total t) (body m ⟨.load i, limit⟩) 0 s
  have hwp : (Rely.alone Engine).wp (exec t) (fun ch => ∃ k, choose k = ch) (body m ⟨.load i, limit⟩) s
      (Gives (fun ch => ∃ k, choose k = ch) s ((loadResult limit.outer b s).map .loaded)) := by
    refine wp_gives (wp_load hb) ?_ ?_ ?_
    · intro p hp
      exact Rely.wp_alone_pure ⟨rfl, .inl (by rw [hp]; rfl)⟩
    · intro e he
      exact ⟨rfl, .inl (by rw [he]; rfl)⟩
    · exact fun hr => ⟨rfl, .inr ⟨hr, rfl⟩⟩
  obtain ⟨-, rfl, ho⟩ := Rely.run_wp (M := machine m) (fun k => ⟨k, rfl⟩) hrun trivial hwp
  refine ⟨o, n, hrun, ho.imp id ?_⟩
  rintro ⟨⟨ch, ⟨k, rfl⟩, hne⟩, he⟩
  exact ⟨⟨k, hne⟩, he⟩

/-! ## `delete` -/

/-- A state that lost at most records of the identity. -/
def Loses (b : Bytes) (s s' : Engine) : Prop :=
  ∀ k, s'.get k = s.get k ∨ (s'.get k = none ∧ ∃ index ≤ manifestChunkIndex, k = recordKey b index)

theorem Loses.refl (b : Bytes) (s : Engine) : Loses b s s := fun _ => .inl rfl

theorem Loses.delete {s0 : Engine} (h : Loses b s0 s) {index : Nat} (hi : index ≤ manifestChunkIndex) :
    Loses b s0 (s.effect t (.delete (recordKey b index))) := by
  intro k
  rw [get_delete]
  split
  · rename_i hk
    exact .inr ⟨rfl, index, hi, hk⟩
  · exact h k

/-- What a `delete` leaves: the identity's keys only, and no manifest if it says so. -/
def Deleted (b : Bytes) (s : Engine) : Except Exn Bool → Engine → Prop :=
  fun o s' => Loses b s s' ∧ (o = .ok true → s'.get (recordKey b manifestChunkIndex) = none)

/-- One deletion. The manifest stays away if it was, and goes if its key is the one deleted. -/
theorem wp_askDelete {α : Type} {s0 : Engine} {index : Nat} (hi : index ≤ manifestChunkIndex) (hl : Loses b s0 s)
    {f : Bool → KvProg α} {Q : Except Exn α → Engine → Prop}
    (hok : ∀ s', Loses b s0 s' → (index = manifestChunkIndex → s'.get (recordKey b manifestChunkIndex) = none) →
      (s.get (recordKey b manifestChunkIndex) = none → s'.get (recordKey b manifestChunkIndex) = none) →
      (Rely.alone Engine).wp (exec t) luck (f (s.get (recordKey b index)).isSome) s' Q)
    (herr : ∀ s', Loses b s0 s' →
      (s.get (recordKey b manifestChunkIndex) = none → s'.get (recordKey b manifestChunkIndex) = none) →
      Q (.error .engine) s') :
    (Rely.alone Engine).wp (exec t) luck ((ask (.delete (recordKey b index))).bind f) s Q := by
  have hstay : s.get (recordKey b manifestChunkIndex) = none →
      (s.effect t (.delete (recordKey b index))).get (recordKey b manifestChunkIndex) = none := by
    intro h
    rw [get_delete, h, ite_self]
  have hgone : index = manifestChunkIndex →
      (s.effect t (.delete (recordKey b index))).get (recordKey b manifestChunkIndex) = none := by
    rintro rfl
    rw [get_delete, if_pos rfl]
  rintro _ rfl _ ch hch a s'' hx
  refine ⟨⟨trivial, trivial⟩, ?_⟩
  cases ch with
  | done =>
    cases hx
    exact hok _ (hl.delete hi) hgone hstay
  | raiseBefore =>
    cases hx
    exact Rely.wp_alone_throw (herr _ hl id)
  | raiseAfter =>
    cases hx
    exact Rely.wp_alone_throw (herr _ (hl.delete hi) hstay)

/-- The manifest read that `delete` starts with. -/
theorem wp_look {α : Type} {key : Bytes} {f : Option Bytes → KvProg α} {Q : Except Exn α → Engine → Prop}
    (hok : (Rely.alone Engine).wp (exec t) luck (f (s.get key)) s Q) (herr : Q (.error .engine) s) :
    (Rely.alone Engine).wp (exec t) luck ((ask (.retrieve key)).bind f) s Q := by
  rintro _ rfl _ ch - a s'' hx
  refine ⟨⟨trivial, trivial⟩, ?_⟩
  cases ch with
  | done =>
    cases hx
    exact hok
  | raiseBefore =>
    cases hx
    exact Rely.wp_alone_throw herr
  | raiseAfter =>
    cases hx
    exact Rely.wp_alone_throw herr

/-- What the chunk deletions leave. -/
theorem wp_deleteChunks (hb : identityBytes i = .ok b) {s0 : Engine} {count index : Nat}
    (hrange : index + count ≤ manifestChunkIndex) (hl : Loses b s0 s)
    (hgone : s.get (recordKey b manifestChunkIndex) = none) :
    (Rely.alone Engine).wp (exec t) luck (deleteChunks i count index) s
      fun _ s' => Loses b s0 s' ∧ s'.get (recordKey b manifestChunkIndex) = none := by
  induction count generalizing index s with
  | zero => exact Rely.wp_alone_pure ⟨hl, hgone⟩
  | succ count ih =>
    rw [deleteChunks, chunkKey_ok hb (by omega)]
    refine wp_askDelete (by omega) hl ?_ fun s' hl' hstay => ⟨hl', hstay hgone⟩
    intro s' hl' _ hstay
    exact ih (by omega) hl' (hstay hgone)

theorem wp_delete (hb : identityBytes i = .ok b) :
    (Rely.alone Engine).wp (exec t) luck (delete limit i) s (Deleted b s) := by
  have hsame := Loses.refl b s
  unfold delete
  rw [manifestKey_ok hb]
  refine wp_look ?_ ⟨hsame, nofun⟩
  cases hvalue : s.get (recordKey b manifestChunkIndex) with
  | none => exact Rely.wp_alone_pure ⟨hsame, nofun⟩
  | some value =>
    dsimp only
    split
    · -- the record is no manifest: `return self._engine.delete(key)`
      rw [← ask_pure]
      refine wp_askDelete (Nat.le_refl _) hsame ?_ ?_
      · intro s' hl hgone _
        exact Rely.wp_alone_pure ⟨hl, fun _ => hgone rfl⟩
      · exact fun s' hl _ => ⟨hl, nofun⟩
    · exact Rely.wp_alone_throw ⟨hsame, nofun⟩
    · rename_i manifest hdecode
      obtain ⟨-, -, hlt⟩ := Valid.count (decodeManifest_valid hdecode)
      rw [(identityBytes_ok.1 hb).1]
      show (Rely.alone Engine).wp _ _ (if manifest.identity ≠ b then _ else _) _ _
      split
      · exact Rely.wp_alone_pure ⟨hsame, nofun⟩
      · refine wp_askDelete (Nat.le_refl _) hsame ?_ fun s' hl _ => ⟨hl, nofun⟩
        intro s' hl hgone _
        refine Rely.wp_bind (Rely.wp_mono ?_ (wp_deleteChunks hb (by omega) hl (hgone rfl)))
        rintro (e | u) s'' - ⟨hl', hgone'⟩
        · exact ⟨hl', nofun⟩
        · exact Rely.wp_alone_pure ⟨hl', fun _ => hgone'⟩

/-- A `delete` call alone. -/
theorem delete_run (hb : identityBytes i = .ok b) (limit : Limit) (m t : Nat) (choose : Nat → Luck) (s : Engine) :
    ∃ o n s', Prog.run (machine m) t choose (body m ⟨.delete i, limit⟩) 0 s = some (o, n, s') ∧ Loses b s s' ∧
      (o = .ok (.deleted true) → s'.get (recordKey b manifestChunkIndex) = none) := by
  obtain ⟨o, n, s', hrun⟩ := Rely.run_total (M := machine m) choose (exec_total t) (body m ⟨.delete i, limit⟩) 0 s
  have hwp : (Rely.alone Engine).wp (exec t) (fun _ => True) (body m ⟨.delete i, limit⟩) s
      fun o s' => Loses b s s' ∧ (o = .ok (.deleted true) → s'.get (recordKey b manifestChunkIndex) = none) := by
    refine Rely.wp_bind (Rely.wp_mono ?_ (wp_delete hb))
    rintro (e | existed) s' - ⟨hl, hgone⟩
    · exact ⟨hl, nofun⟩
    · refine Rely.wp_alone_pure ⟨hl, fun h => hgone ?_⟩
      cases h
      rfl
  obtain ⟨-, hl, hgone⟩ := Rely.run_wp (M := machine m) (fun _ => trivial) hrun trivial hwp
  exact ⟨o, n, s', hrun, hl, hgone⟩

/-- A call on an identity without bytes, or with no bytes, does not reach the engine. -/
theorem body_throw {j : Job} {e : Exn} (h : identityBytes i = .error e)
    (hj : (∃ p, j.request = .store i p) ∨ j.request = .load i ∨ j.request = .delete i) : body m j = .throw e := by
  have hkey : manifestKey i = .error e := by
    rw [manifestKey, h]
    rfl
  unfold body
  rcases hj with ⟨p, hj⟩ | hj | hj
  · rw [hj]
    dsimp only
    rw [store, makeObjectPlan, h]
    rfl
  · rw [hj]
    dsimp only
    rw [load, hkey]
    rfl
  · rw [hj]
    dsimp only
    rw [delete, hkey]
    rfl

/-- **`load` returns exactly what an identity's own records hold**, on any device, and **`delete` touches
only those records**; where it returns `True`, nothing is left to load. -/
theorem load_integrity (i : Identity) (limit : Limit) (m t : Nat) (choose : Nat → Luck) (s : Engine) :
    (∃ o n, Prog.run (machine m) t choose (body m ⟨.load i, limit⟩) 0 s = some (o, n, s) ∧
      (∀ p, o = .ok (.loaded (some p)) → ∃ b, identityBytes i = .ok b ∧ Intact limit.outer b s p) ∧
      ∀ b p, identityBytes i = .ok b → Intact limit.outer b s p → (∀ k, choose k = .done) →
        o = .ok (.loaded (some p))) ∧
    ∃ o n s', Prog.run (machine m) t choose (body m ⟨.delete i, limit⟩) 0 s = some (o, n, s') ∧
      (∀ key, s'.get key ≠ s.get key →
        s'.get key = none ∧ ∃ b, identityBytes i = .ok b ∧ ∃ index ≤ manifestChunkIndex, key = recordKey b index) ∧
      (o = .ok (.deleted true) → ∀ u depth luck, ∃ o' n',
        Prog.run (machine m) u luck (body m ⟨.load i, depth⟩) 0 s' = some (o', n', s') ∧
          (o' = .ok (.loaded none) ∨ ((∃ k, luck k ≠ .done) ∧ o' = .error .engine))) := by
  cases hb : identityBytes i with
  | error e =>
    rw [body_throw hb (.inr (.inl rfl)), body_throw hb (.inr (.inr rfl))]
    exact ⟨⟨_, _, rfl, nofun, nofun⟩, _, _, _, rfl, fun key hne => absurd rfl hne, nofun⟩
  | ok b =>
    constructor
    · obtain ⟨o, n, hrun, ho⟩ := load_run hb limit m t choose s
      refine ⟨o, n, hrun, ?_, ?_⟩
      · rintro p rfl
        rcases ho with ho | ⟨-, ho⟩
        · obtain ⟨q, hq, hqp⟩ := map_ok ho.symm
          cases hqp
          exact ⟨b, rfl, loadResult_some.1 hq⟩
        · cases ho
      · intro b' p hb' hp hdone
        cases hb'
        rcases ho with ho | ⟨⟨k, hk⟩, -⟩
        · rw [ho, loadResult_some.2 hp]
          rfl
        · exact absurd (hdone k) hk
    · obtain ⟨o, n, s', hrun, hl, hgone⟩ := delete_run hb limit m t choose s
      refine ⟨o, n, s', hrun, ?_, ?_⟩
      · intro key hne
        rcases hl key with h | ⟨h, hkey⟩
        · exact absurd h hne
        · exact ⟨h, b, rfl, hkey⟩
      · intro ho u depth luck
        obtain ⟨o', n', hrun', ho'⟩ := load_run hb depth m u luck s'
        rw [loadResult_none (hgone ho)] at ho'
        exact ⟨o', n', hrun', ho'⟩

end NvmeKv
end SpdkConnector
