import SpdkConnector.Connector

/-!
# What the connector is for: a partial map from keys to byte strings

The sequential specification the operations are compared with. `Call.effect` is the map after a call
with the given outcome, `Call.Allows` the outcomes a map allows. A load or a store may always fail, and
then has no effect. `Replays` runs a log of calls, one after the other.

Both depend on the call's own keys only (`effect_congr`, `allows_congr`, `effect_frame`): this is what
lets a thread that holds those keys' locks take the step of the map on its own.
-/

namespace SpdkConnector

abbrev KeyMap := Key → Option Bytes
abbrev Outcome := Except Exn Ret

/-- A bound key keeps its length: binding it to bytes of another length changes nothing. -/
def bindKey (m : KeyMap) (key : Key) (value : Bytes) : KeyMap :=
  if (m key).any (fun b => b.length != value.length) then m else Function.update m key (some value)

/-- The keys of a batch are bound in their order. -/
def bindAll (m : KeyMap) (slots : List Slot) : KeyMap :=
  slots.foldl (fun (m : KeyMap) (s : Slot) => bindKey m s.key s.buffer) m

/-- The keys a call reads or writes. A set of no bytes throws before it looks at its key. -/
def Call.keys : Call → List Key
  | .get key _ | .exists' key | .delete key => [key]
  | .set key value => if value = [] then [] else [key]
  | .batchGet slots _ _ | .batchSet slots => slots.map Slot.key

/-- The map after a call. -/
def Call.effect (m : KeyMap) : Call → Outcome → KeyMap
  | .set key value, .ok _ => bindKey m key value
  | .delete key, .ok _ => Function.update m key none
  | .batchSet slots, .ok _ => bindAll m slots
  | _, _ => m

/-- What a batch get may report: a flag for every key at its position, and for every key flagged as
loaded the map's value, of the requested length, in the key's own buffer. -/
structure BatchLoaded (m : KeyMap) (slots : List Slot) (startIdx : Nat) (perKeyResults : List UInt8)
    (perKeyResults' : List UInt8) (buffers : List Bytes) (flags : List Bool) : Prop where
  flags_length : flags.length = slots.length
  buffers_length : buffers.length = slots.length
  written : perKeyResults' = writeResults perKeyResults startIdx flags
  loaded : ∀ (i : Nat) (s : Slot), slots[i]? = some s → flags[i]? = some true →
    ∃ b, buffers[i]? = some b ∧ m s.key = some b ∧ b.length = s.buffer.length

/-- The outcomes a map allows. -/
def Call.Allows (m : KeyMap) : Call → Outcome → Prop
  | .get key buffer, .ok (.bytes b) => m key = some b ∧ b.length = buffer.length
  | .get _ _, .error _ => True
  | .set _ value, .ok .unit => value ≠ []
  | .set key value, .error _ =>
    value = [] ∨ (m key).any (fun b => b.length != value.length) = false
  | .exists' key, .ok (.bool b) => b = (m key).isSome
  | .delete key, .ok (.bool b) => b = (m key).isSome
  | .batchGet slots startIdx res, .ok (.batch res' bufs) =>
    ∃ flags, BatchLoaded m slots startIdx res res' bufs flags
  | .batchSet slots, .ok .unit => (slots.map Slot.key).Nodup ∧ ∀ s ∈ slots, s.buffer ≠ []
  | .batchSet _, .error _ => True
  | _, _ => False

/-- The calls of a log, one after the other, take the map `m` to `m'`. -/
def Replays {ι : Type} : KeyMap → List (ι × Call × Outcome) → KeyMap → Prop
  | m, [], m' => m = m'
  | m, (_, c, o) :: log, m' => c.Allows m o ∧ Replays (c.effect m o) log m'

theorem replays_append {ι : Type} {m' : KeyMap} {ys : List (ι × Call × Outcome)} :
    ∀ {xs : List (ι × Call × Outcome)} {m : KeyMap},
      Replays m (xs ++ ys) m' ↔ ∃ m1, Replays m xs m1 ∧ Replays m1 ys m'
  | [], m => by simp [Replays]
  | (_, c, o) :: xs, m => by
    simp only [List.cons_append, Replays, replays_append]
    constructor
    · rintro ⟨h, m1, h1, h2⟩; exact ⟨m1, ⟨h, h1⟩, h2⟩
    · rintro ⟨m1, ⟨h, h1⟩, h2⟩; exact ⟨h, m1, h1, h2⟩

/-! ## Locality -/

@[simp] theorem bindKey_of_ne {m : KeyMap} {key k : Key} {value : Bytes} (h : k ≠ key) :
    bindKey m key value k = m k := by
  unfold bindKey; split
  · rfl
  · exact Function.update_of_ne h _ _

theorem bindKey_congr {m n : KeyMap} {key k : Key} {value : Bytes} (hkey : m key = n key)
    (h : m k = n k) : bindKey m key value k = bindKey n key value k := by
  unfold bindKey
  rw [hkey]
  split
  · exact h
  · by_cases e : k = key
    · subst e; simp
    · simpa [Function.update_of_ne e] using h

@[simp] theorem bindAll_nil (m : KeyMap) : bindAll m [] = m := rfl
@[simp] theorem bindAll_cons (m : KeyMap) (s : Slot) (slots : List Slot) :
    bindAll m (s :: slots) = bindAll (bindKey m s.key s.buffer) slots := rfl

theorem bindAll_frame {k : Key} : ∀ {slots : List Slot} {m : KeyMap}, k ∉ slots.map Slot.key →
    bindAll m slots k = m k
  | [], _, _ => rfl
  | s :: slots, m, h => by
    simp only [List.map_cons, List.mem_cons, not_or] at h
    rw [bindAll_cons, bindAll_frame h.2, bindKey_of_ne h.1]

theorem bindAll_congr {k : Key} : ∀ {slots : List Slot} {m n : KeyMap},
    (∀ x ∈ slots.map Slot.key, m x = n x) → m k = n k →
    bindAll m slots k =
      bindAll n slots k
  | [], _, _, _, h => h
  | s :: slots, m, n, hs, h => by
    have hs1 := hs s.key (by simp)
    simp only [bindAll_cons]
    exact bindAll_congr (fun x hx => bindKey_congr hs1 (hs x (by simp [hx]))) (bindKey_congr hs1 h)

/-- **Frame**: a call changes none but its own keys. -/
theorem effect_frame {m : KeyMap} {c : Call} {o : Outcome} {k : Key} (hc : c.Allows m o)
    (hk : k ∉ c.keys) : c.effect m o k = m k := by
  cases c <;> cases o <;> try rfl
  case set.ok key value r =>
    have hv : value ≠ [] := by cases r <;> simp_all [Call.Allows]
    exact bindKey_of_ne (by simpa [Call.keys, hv] using hk)
  case delete.ok key r => exact Function.update_of_ne (by simpa [Call.keys] using hk) _ _
  case batchSet.ok slots r => exact bindAll_frame hk

/-- The map after a call depends on the call's keys and on what the other keys were. -/
theorem effect_congr {m n : KeyMap} {c : Call} {o : Outcome} {k : Key} (hc : c.Allows m o)
    (h : ∀ x ∈ c.keys, m x = n x) (hk : m k = n k) : c.effect m o k = c.effect n o k := by
  cases c <;> cases o <;> try exact hk
  case set.ok key value r =>
    have hv : value ≠ [] := by cases r <;> simp_all [Call.Allows]
    exact bindKey_congr (h key (by simp [Call.keys, hv])) hk
  case delete.ok key r =>
    by_cases e : k = key
    · subst e; simp [Call.effect]
    · simpa [Call.effect, Function.update_of_ne e] using hk
  case batchSet.ok slots r => exact bindAll_congr h hk

/-- What is allowed depends on the call's keys only. -/
theorem allows_congr {m n : KeyMap} {c : Call} {o : Outcome} (h : ∀ x ∈ c.keys, m x = n x)
    (hc : c.Allows m o) : c.Allows n o := by
  cases c with
  | get key buffer =>
    cases o with
    | error x => trivial
    | ok r => cases r <;> simp only [Call.Allows] at hc ⊢; exact ⟨h key (by simp [Call.keys]) ▸ hc.1, hc.2⟩
  | set key value =>
    cases o with
    | ok r => cases r <;> exact hc
    | error x =>
      by_cases hv : value = []
      · exact .inl hv
      · simp only [Call.Allows] at hc ⊢
        rwa [← h key (by simp [Call.keys, hv])]
  | exists' key =>
    cases o with
    | error x => exact hc
    | ok r => cases r <;> simp only [Call.Allows] at hc ⊢; rwa [← h key (by simp [Call.keys])]
  | delete key =>
    cases o with
    | error x => exact hc
    | ok r => cases r <;> simp only [Call.Allows] at hc ⊢; rwa [← h key (by simp [Call.keys])]
  | batchGet slots startIdx res =>
    cases o with
    | error x => exact hc
    | ok r =>
      cases r <;> simp only [Call.Allows] at hc ⊢
      obtain ⟨flags, hf⟩ := hc
      refine ⟨flags, hf.flags_length, hf.buffers_length, hf.written, fun i s hs hi => ?_⟩
      rw [← h s.key (List.mem_map.2 ⟨s, List.mem_of_getElem? hs, rfl⟩)]
      exact hf.loaded i s hs hi
  | batchSet slots =>
    cases o with
    | ok r => cases r <;> exact hc
    | error x => trivial

/-! ## What a log says about the values -/

/-- `c` with outcome `o` binds `key` to `value`. -/
def Call.Stores (c : Call) (o : Outcome) (key : Key) (value : Bytes) : Prop :=
  (∃ r, o = .ok r) ∧ (c = .set key value ∨ ∃ slots, c = .batchSet slots ∧ ⟨key, value⟩ ∈ slots)

theorem bindKey_cases (m : KeyMap) (key : Key) (value : Bytes) (k : Key) :
    bindKey m key value k = m k ∨ (k = key ∧ bindKey m key value k = some value) := by
  by_cases e : k = key
  · subst e
    unfold bindKey; split
    · exact .inl rfl
    · exact .inr ⟨rfl, by simp⟩
  · exact .inl (bindKey_of_ne e)

theorem bindAll_cases (k : Key) : ∀ (slots : List Slot) (m : KeyMap),
    bindAll m slots k = m k ∨
      ∃ v, bindAll m slots k = some v ∧ ⟨k, v⟩ ∈ slots
  | [], _ => .inl rfl
  | s :: slots, m => by
    rw [bindAll_cons]
    rcases bindAll_cases k slots (bindKey m s.key s.buffer) with h | ⟨v, h, hv⟩
    · rcases bindKey_cases m s.key s.buffer k with h' | ⟨rfl, h'⟩
      · exact .inl (h.trans h')
      · exact .inr ⟨s.buffer, h.trans h', by simp⟩
    · exact .inr ⟨v, h, by simp [hv]⟩

theorem effect_origin {m : KeyMap} {c : Call} {o : Outcome} {k : Key} {b : Bytes}
    (h : c.effect m o k = some b) : m k = some b ∨ c.Stores o k b := by
  cases c <;> cases o <;> try exact .inl h
  case set.ok key value r =>
    rcases bindKey_cases m key value k with h' | ⟨rfl, h'⟩
    · exact .inl (h'.symm.trans h)
    · cases h'.symm.trans h
      exact .inr ⟨⟨_, rfl⟩, .inl rfl⟩
  case delete.ok key r =>
    by_cases e : k = key
    · subst e; simp [Call.effect] at h
    · exact .inl (by simpa [Call.effect, Function.update_of_ne e] using h)
  case batchSet.ok slots r =>
    rcases bindAll_cases k slots m with h' | ⟨v, h', hv⟩
    · exact .inl (h'.symm.trans h)
    · cases h'.symm.trans h
      exact .inr ⟨⟨_, rfl⟩, .inr ⟨slots, rfl, hv⟩⟩

/-- Every value of the map was stored, whole, by one call of the log. -/
theorem replays_origin {ι : Type} {k : Key} {b : Bytes} : ∀ {log : List (ι × Call × Outcome)}
    {m m' : KeyMap}, Replays m log m' → m' k = some b →
      m k = some b ∨ ∃ x ∈ log, x.2.1.Stores x.2.2 k b
  | [], m, m', h, hb => by cases h; exact .inl hb
  | (i, c, o) :: log, m, m', ⟨_, h⟩, hb => by
    rcases replays_origin h hb with h' | ⟨x, hx, hs⟩
    · rcases effect_origin h' with h'' | h''
      · exact .inl h''
      · exact .inr ⟨_, List.mem_cons_self, h''⟩
    · exact .inr ⟨x, List.mem_cons_of_mem _ hx, hs⟩

/-- `c` with outcome `o` may have changed `key`. -/
def Call.Writes (c : Call) (o : Outcome) (key : Key) : Prop :=
  (∃ r, o = .ok r) ∧ ((∃ v, c = .set key v) ∨ c = .delete key ∨
    ∃ slots, c = .batchSet slots ∧ key ∈ slots.map Slot.key)

theorem effect_quiet {m : KeyMap} {c : Call} {o : Outcome} {k : Key} (h : ¬ c.Writes o k) :
    c.effect m o k = m k := by
  cases c <;> cases o <;> try rfl
  case set.ok key value r =>
    refine bindKey_of_ne fun e => h ⟨⟨_, rfl⟩, .inl ⟨value, by rw [e]⟩⟩
  case delete.ok key r =>
    exact Function.update_of_ne (fun e => h ⟨⟨_, rfl⟩, .inr (.inl (by rw [e]))⟩) _ _
  case batchSet.ok slots r => exact bindAll_frame fun e => h ⟨⟨_, rfl⟩, .inr (.inr ⟨slots, rfl, e⟩)⟩

theorem replays_quiet {ι : Type} {k : Key} : ∀ {log : List (ι × Call × Outcome)} {m m' : KeyMap},
    Replays m log m' → (∀ x ∈ log, ¬ x.2.1.Writes x.2.2 k) → m' k = m k
  | [], _, _, h, _ => by cases h; rfl
  | (i, c, o) :: log, m, m', ⟨_, h⟩, hq => by
    rw [List.forall_mem_cons] at hq
    rw [replays_quiet h hq.2, effect_quiet hq.1]

/-- What a batch set leaves at one of its keys. -/
theorem bindAll_bound {s : Slot} : ∀ {slots : List Slot} {m : KeyMap}, (slots.map Slot.key).Nodup →
    s ∈ slots → bindAll m slots s.key = bindKey m s.key s.buffer s.key
  | [], _, _, h => by simp at h
  | x :: slots, m, hn, h => by
    simp only [List.map_cons, List.nodup_cons] at hn
    rw [bindAll_cons]
    rcases List.mem_cons.1 h with rfl | h
    · exact bindAll_frame hn.1
    · have hne : s.key ≠ x.key := fun e => hn.1 (e ▸ List.mem_map_of_mem h)
      rw [bindAll_bound hn.2 h]
      exact bindKey_congr (bindKey_of_ne hne) (bindKey_of_ne hne)

/-! ## What reads report -/

/-- `c` with outcome `o` reports `value` as the bytes of `key`. A batch get reports a key by the flag 1. -/
def Call.Reads : Call → Outcome → Key → Bytes → Prop
  | .get key _, .ok (.bytes b), k, v => key = k ∧ b = v
  | .batchGet slots startIdx _, .ok (.batch res bufs), k, v =>
    ∃ (i : Nat) (s : Slot), slots[i]? = some s ∧ s.key = k ∧ res[startIdx + i]? = some 1 ∧ bufs[i]? = some v
  | _, _, _, _ => False

theorem writeResults_before {j : Nat} : ∀ {flags : List Bool} {res : List UInt8} {start : Nat}, j < start →
    (writeResults res start flags)[j]? = res[j]?
  | [], _, _, _ => rfl
  | b :: flags, res, start, h => by
    rw [writeResults, writeResults_before (by omega), List.getElem?_set_ne (by omega)]

theorem writeResults_get {i : Nat} : ∀ {flags : List Bool} {res : List UInt8} {start : Nat},
    i < flags.length → (writeResults res start flags)[start + i]? = some 1 → flags[i]? = some true
  | b :: flags, res, start, hi, h => by
    cases i with
    | zero =>
      rw [writeResults, writeResults_before (by omega), Nat.add_zero, List.getElem?_set] at h
      cases b <;> simp_all
    | succ i =>
      rw [writeResults, show start + (i + 1) = start + 1 + i by omega] at h
      simpa using writeResults_get (by simpa using hi) h

/-- A read reports what the map holds. -/
theorem reads_map {m : KeyMap} {c : Call} {o : Outcome} {k : Key} {v : Bytes} (hc : c.Allows m o)
    (h : c.Reads o k v) : m k = some v := by
  cases c with
  | get key buffer =>
    cases o with
    | error x => exact h.elim
    | ok r =>
      cases r <;> simp only [Call.Reads] at h
      obtain ⟨rfl, rfl⟩ := h
      exact hc.1
  | batchGet slots startIdx res =>
    cases o with
    | error x => exact h.elim
    | ok r =>
      cases r <;> simp only [Call.Reads] at h
      obtain ⟨i, s, hs, rfl, hflag, hb⟩ := h
      obtain ⟨flags, hf⟩ := hc
      rw [hf.written] at hflag
      have hi : i < flags.length := by
        rw [hf.flags_length]; exact (List.getElem?_eq_some_iff.1 hs).1
      obtain ⟨b, h1, h2, -⟩ := hf.loaded i s hs (writeResults_get hi hflag)
      rw [hb] at h1
      cases h1
      exact h2
  | _ => exact h.elim

/-- No read mixes two values: what it reports was stored, whole, by one earlier call. -/
def ReadsWhole {ι : Type} (order : List (ι × Call × Outcome)) : Prop :=
  ∀ before x after, order = before ++ x :: after → ∀ k v, x.2.1.Reads x.2.2 k v →
    ∃ y ∈ before, y.2.1.Stores y.2.2 k v

/-- A read sees of a batch set either nothing, what it reports being there without the batch set, or
every key: each key it reports, unless written again in between, holds what the batch set made of it. -/
def AllOrNone {ι : Type} (order : List (ι × Call × Outcome)) : Prop :=
  ∀ b slots x, (b, .batchSet slots, .ok .unit) ∈ order → x ∈ order →
    (∃ before after m, order = before ++ x :: after ∧ (b, .batchSet slots, .ok .unit) ∉ before ∧
      Replays (fun _ => none) before m ∧ ∀ k v, x.2.1.Reads x.2.2 k v → m k = some v) ∨
    ∃ before between after m,
      order = before ++ (b, .batchSet slots, .ok .unit) :: between ++ x :: after ∧
      Replays (fun _ => none) before m ∧ ∀ s ∈ slots, ∀ v, x.2.1.Reads x.2.2 s.key v →
        (∀ y ∈ between, ¬ y.2.1.Writes y.2.2 s.key) → some v = bindKey m s.key s.buffer s.key

theorem replays_readsWhole {ι : Type} {order : List (ι × Call × Outcome)} {m : KeyMap}
    (h : Replays (fun _ => none) order m) : ReadsWhole order := by
  rintro before ⟨i, c, o⟩ after rfl k v hr
  obtain ⟨m1, h1, hc, -⟩ := replays_append.1 h
  rcases replays_origin h1 (reads_map hc hr) with h' | h'
  · cases h'
  · exact h'

theorem replays_allOrNone {ι : Type} {order : List (ι × Call × Outcome)} {m : KeyMap}
    (h : Replays (fun _ => none) order m) : AllOrNone order := by
  intro b slots x hb hx
  obtain ⟨before, after, rfl⟩ := List.append_of_mem hx
  obtain ⟨m1, h1, hc, -⟩ := replays_append.1 h
  by_cases hmem : (b, .batchSet slots, .ok .unit) ∈ before
  · obtain ⟨before', between, rfl⟩ := List.append_of_mem hmem
    obtain ⟨m0, h0, ⟨hkeys, -⟩, h2⟩ := replays_append.1 h1
    refine .inr ⟨before', between, after, m0, by simp, h0, fun s hs v hr hquiet => ?_⟩
    rw [← reads_map hc hr, replays_quiet h2 hquiet]
    exact bindAll_bound hkeys hs
  · exact .inl ⟨before, after, m1, rfl, hmem, h1, fun k v hr => reads_map hc hr⟩

end SpdkConnector
