import SpdkConnector.Codec.Reading
import SpdkConnector.NvmeKv.FormatProofs

/-!
# What `decode_manifest` lets through

A record is `WellFormed` when it is JSON for an object that has the five fields, each once, with the types and the
spellings of the format. `json.loads` also reads `NaN` and `Infinity` and lets a later member replace an earlier one
of the same name; `decode_manifest` compares with `==`, asks `isinstance(_, int)` and calls `int(_, 16)`. An accepted
record that is not well formed is one of these, and no other.
-/
namespace SpdkConnector
namespace NvmeKv

open Codec

variable {m : KvManifest} {limit : Nat} {v : Bytes} {d : List (Str × Json)}

/-- The members of the object the format asks for. -/
structure ManifestObject (ms : List (Str × Json)) : Prop where
  fields : (ms.map (·.1)).Perm manifestFields
  version : ms.lookup (text "version") = some (.int 1)
  length : ∃ n, ms.lookup (text "length") = some (.int n) ∧ 1 ≤ n
  chunks : ∃ n, ms.lookup (text "chunks") = some (.int n) ∧ 1 ≤ n ∧ n ≤ 2 ^ 32 - 2
  identity : ∃ t b, ms.lookup (text "identity") = some (.str t) ∧ ValidBase64 t ∧ base64Decode t = some b ∧ b ≠ []
  sha256 : ∃ t, ms.lookup (text "sha256") = some (.str t) ∧ t.length = 64 ∧ ∀ c ∈ t, (hexValue c).isSome

/-- The bytes are UTF-8 JSON for such an object. -/
def WellFormed (v : Bytes) : Prop := ∃ s ms, utf8Decode v = some s ∧ ObjectText Standard s ms ∧ ManifestObject ms

def isBool : Json → Bool
  | .bool _ => true
  | _ => false

def isFloat : Json → Bool
  | .float _ => true
  | _ => false

/-- `True` or a float for the version, a boolean for a number, padding behind the last base64 group, or a
checksum with a character that is no hexadecimal digit. -/
def looseObject (d : List (Str × Json)) : Bool :=
  (d.lookup (text "version")).any (fun x => isBool x || isFloat x) ||
  (d.lookup (text "length")).any isBool ||
  (d.lookup (text "chunks")).any isBool ||
  ((d.lookup (text "identity")).bind str?).any (fun t => decide (ExcessPadding t)) ||
  ((d.lookup (text "sha256")).bind str?).any (fun t => t.any fun c => (hexValue c).isNone)

/-- The bytes are what Python takes for a JSON object, and it repeats no member and is not loose. -/
def Strict (v : Bytes) : Prop :=
  ∃ s ms, utf8Decode v = some s ∧ ObjectText (Lenient False) s ms ∧ (ms.map (·.1)).Nodup ∧ looseObject ms = false

theorem isManifestFields_iff {xs : List Str} : isManifestFields xs = true ↔ ∀ k, k ∈ xs ↔ k ∈ manifestFields := by
  unfold isManifestFields
  simp only [Bool.and_eq_true, List.all_eq_true, decide_eq_true_eq]
  constructor
  · rintro ⟨h1, h2⟩ k
    exact ⟨h1 k, h2 k⟩
  · intro h
    exact ⟨fun k hk => (h k).1 hk, fun k hk => (h k).2 hk⟩

/-- The fields of an accepted document, by the `try` block. -/
theorem manifestOf_ok {j : Json} (h : manifestOf j = .ok m) :
    ∃ d, j = .dict d ∧ (∀ k, k ∈ d.map (·.1) ↔ k ∈ manifestFields) ∧
      (∃ version, d.lookup (text "version") = some version ∧ equalsOne version = true) ∧
      (∃ t, d.lookup (text "identity") = some (.str t) ∧ base64Decode t = some m.identity) ∧
      d.lookup (text "length") = some m.logicalBytes ∧ d.lookup (text "chunks") = some m.chunkCount ∧
      d.lookup (text "sha256") = some m.payloadChecksum := by
  cases j with
  | dict d =>
    unfold manifestOf at h
    dsimp only at h
    split at h
    · rename_i hfields
      split at h
      · rename_i version identity length chunks sha hversion hidentity hlength hchunks hsha
        split at h
        · rename_i hone
          cases hid : (str? identity).bind base64Decode with
          | none =>
            rw [hid] at h
            cases h
          | some b =>
            rw [hid] at h
            cases h
            obtain ⟨t, ht, hb⟩ := Option.bind_eq_some_iff.1 hid
            have hstr : identity = .str t := by
              cases identity with
              | str t' => exact congrArg Json.str (Option.some.inj ht)
              | _ => cases ht
            subst hstr
            exact ⟨d, rfl, isManifestFields_iff.1 hfields, ⟨version, hversion, hone⟩, ⟨t, hidentity, hb⟩,
              hlength, hchunks, hsha⟩
        · cases h
      · cases h
    · cases h
  | list xs =>
    unfold manifestOf at h
    dsimp only at h
    split at h
    · cases h
    · split at h <;> cases h
  | str s => cases h
  | null => cases h
  | bool b => cases h
  | int n => cases h
  | float x => cases h

theorem decodeManifest_ok (h : decodeManifest limit v = .ok m) : ∃ s d, utf8Decode v = some s ∧
    loads (limit + 1) s = .ok (.dict d) ∧ manifestOf (.dict d) = .ok m ∧ m.Valid := by
  have hvalid := decodeManifest_valid h
  unfold decodeManifest at h
  split at h
  · cases h
  · rename_i s hs
    split at h
    · cases h
    · cases h
    · rename_i j hj
      obtain ⟨m', hm, hmap⟩ := bind_ok h
      obtain ⟨u, -, rfl⟩ := map_ok hmap
      obtain ⟨d, rfl, -⟩ := manifestOf_ok hm
      exact ⟨s, d, hs, hj, hm, hvalid⟩

/-- Of an object without repeated members `loads` gives the members. -/
theorem loads_members {short : Prop} {s : Str} {ms : List (Str × Json)} (hs : ObjectText (Lenient short) s ms)
    (hnames : (ms.map (·.1)).Nodup) (hd : loads limit s = .ok (.dict d)) : ms = d := by
  rcases hs.text.loads limit with h | ⟨e, h, -⟩
  · rw [h, asDict_nodup hnames] at hd
    cases hd
    rfl
  · rw [h] at hd
    cases hd

theorem lookup_of_mem {ms : List (Str × Json)} {q : Str × Json} (h : (ms.map (·.1)).Nodup) (hq : q ∈ ms) :
    ms.lookup q.1 = some q.2 := by
  obtain ⟨l, r, rfl⟩ := List.append_of_mem hq
  refine List.lookup_eq_some_iff.2 ⟨l, r, rfl, fun p hp => ?_⟩
  rw [List.map_append, List.map_cons] at h
  rw [bne_iff_ne]
  exact fun heq => (List.nodup_append.1 h).2.2 p.1 (List.mem_map_of_mem hp) q.1 (List.mem_cons_self ..) heq.symm

/-- An `int` that is no `bool`. -/
theorem strict_int {x : Json} {n : Int} (h : int? x = some n) (hbool : isBool x = false) : x = .int n := by
  cases x with
  | int k => exact congrArg Json.int (Option.some.inj h)
  | bool b => cases hbool
  | null => cases h
  | float x => cases h
  | str s => cases h
  | list xs => cases h
  | dict d => cases h

theorem strict_one {x : Json} (h : equalsOne x = true) (hstrict : (isBool x || isFloat x) = false) : x = .int 1 := by
  cases x with
  | int k =>
    have hk : k = 1 := by simpa [equalsOne] using h
    rw [hk]
  | bool b => cases hstrict
  | float y => cases hstrict
  | null => cases h
  | str s => cases h
  | list xs => cases h
  | dict d => cases h

theorem str_of_str? {x : Json} {t : Str} (h : str? x = some t) : x = .str t := by
  cases x with
  | str s => exact congrArg Json.str (Option.some.inj h)
  | null => cases h
  | bool b => cases h
  | int n => cases h
  | float x => cases h
  | list xs => cases h
  | dict d => cases h

theorem ManifestObject.nodup (h : ManifestObject d) : (d.map (·.1)).Nodup :=
  h.fields.nodup_iff.2 (by decide : manifestFields.Nodup)

/-- Its values are integers and strings. -/
theorem ManifestObject.simple (h : ManifestObject d) : ∀ q ∈ d, q.2.isSimple = true := by
  intro q hq
  have hlookup := lookup_of_mem h.nodup hq
  have hname : q.1 ∈ manifestFields := h.fields.mem_iff.1 (List.mem_map_of_mem hq)
  obtain ⟨n, hn, -⟩ := h.length
  obtain ⟨c, hc, -⟩ := h.chunks
  obtain ⟨t, b, ht, -⟩ := h.identity
  obtain ⟨sum, hsum, -⟩ := h.sha256
  have hvalue : ∀ {name : Str} {x : Json}, q.1 = name → d.lookup name = some x → x.isSimple = true →
      q.2.isSimple = true := by
    rintro name x rfl hx hsimple
    rw [hlookup] at hx
    cases hx
    exact hsimple
  simp only [manifestFields, List.mem_cons, List.not_mem_nil, or_false] at hname
  rcases hname with hname | hname | hname | hname | hname
  · exact hvalue hname hc rfl
  · exact hvalue hname ht rfl
  · exact hvalue hname hn rfl
  · exact hvalue hname hsum rfl
  · exact hvalue hname h.version rfl

theorem ManifestObject.strict (h : ManifestObject d) : looseObject d = false := by
  obtain ⟨n, hn, -⟩ := h.length
  obtain ⟨c, hc, -⟩ := h.chunks
  obtain ⟨t, b, ht, hvalid, hb, -⟩ := h.identity
  obtain ⟨sum, hsum, -, hall⟩ := h.sha256
  have hpad : decide (ExcessPadding t) = false := decide_eq_false ((validBase64_iff hb).1 hvalid)
  have hhex : (sum.any fun c => (hexValue c).isNone) = false := by
    rw [List.any_eq_false]
    intro c hc
    rw [Option.isNone_iff_eq_none]
    exact Option.isSome_iff_ne_none.1 (hall c hc)
  unfold looseObject
  rw [h.version, hn, hc, ht, hsum]
  simp only [Option.any_some, Option.bind_some, str?, hpad, hhex]
  rfl

/-- An accepted object that is not loose is what the format asks for. -/
theorem manifestObject_of_strict (h : manifestOf (.dict d) = .ok m) (hv : m.Valid) (hnames : (d.map (·.1)).Nodup)
    (hstrict : looseObject d = false) : ManifestObject d := by
  obtain ⟨d', hd, hfields, ⟨x, hversion, hone⟩, ⟨t, hidentity, hdecode⟩, hlength, hchunks, hsha⟩ := manifestOf_ok h
  cases hd
  obtain ⟨n, hn, hln⟩ := hv.length
  obtain ⟨c, hc, hcm, hcc⟩ := hv.chunks
  obtain ⟨sum, hs, hlen, -⟩ := hv.checksum
  have hsum := str_of_str? hs
  unfold looseObject at hstrict
  rw [hversion, hlength, hchunks, hidentity, hsha, hsum] at hstrict
  simp only [Option.any_some, Option.bind_some, str?, Bool.or_eq_false_iff] at hstrict
  obtain ⟨⟨⟨⟨hvs, hls⟩, hcs⟩, hpad⟩, hhex⟩ := hstrict
  have hbound : manifestChunkIndex = 2 ^ 32 - 1 := rfl
  exact
    { fields := (List.perm_ext_iff_of_nodup hnames (by decide)).2 hfields
      version := by rw [hversion, strict_one hone (Bool.or_eq_false_iff.2 hvs)]
      length := ⟨n, by rw [hlength, strict_int hln hls], by omega⟩
      chunks := ⟨c, by rw [hchunks, strict_int hcc hcs], by omega, by omega⟩
      identity := ⟨t, m.identity, hidentity, (validBase64_iff hdecode).2 (of_decide_eq_false hpad), hdecode,
        hv.identity⟩
      sha256 := by
        refine ⟨sum, by rw [hsha, hsum], hlen, ?_⟩
        intro c hc
        have hnone := List.any_eq_false.1 hhex c hc
        rw [Option.isNone_iff_eq_none] at hnone
        exact Option.isSome_iff_ne_none.2 hnone }

theorem WellFormed.strict (h : WellFormed v) : Strict v := by
  obtain ⟨s, ms, hs, htext, hobj⟩ := h
  exact ⟨s, ms, hs, htext.mono fun _ _ => Standard.lenient, hobj.nodup, hobj.strict⟩

/-- **What is accepted is well formed, or lax**: a record that decodes follows the format exactly when its object
repeats no member and none of its fields has one of the values that pass by Python's typing. -/
theorem accepted_well_formed (h : decodeManifest limit v = .ok m) : WellFormed v ↔ Strict v := by
  refine ⟨WellFormed.strict, ?_⟩
  rintro ⟨s, ms, hs, htext, hnames, hstrict⟩
  obtain ⟨s', d, hs', hd, hm, hv⟩ := decodeManifest_ok h
  cases hs.symm.trans hs'
  obtain rfl := loads_members htext hnames hd
  have hobj := manifestObject_of_strict hm hv hnames hstrict
  exact ⟨s, ms, hs, htext.simple hobj.simple, hobj⟩

/-- An object of three bytes in one chunk. -/
def plainManifest : KvManifest := ⟨[120], .int 3, .int 1, .str (List.replicate 64 48)⟩

theorem accepted_well_formed_plain : ∃ v, encodeManifest plainManifest = .ok v ∧
    decodeManifest 900 v = .ok plainManifest ∧ WellFormed v := by
  have hscalar : ∀ s, plainManifest.payloadChecksum = .str s → ∀ c ∈ s, Scalar c := by
    intro s hs c hc
    cases hs
    rw [List.eq_of_mem_replicate hc]
    exact ⟨by decide, by decide⟩
  have hok : (encodeManifest plainManifest).toOption.isSome = true := by decide +kernel
  cases h : encodeManifest plainManifest with
  | error e =>
    rw [h] at hok
    cases hok
  | ok v =>
    have hdecode := decode_encode h hscalar 900
    obtain ⟨-, s, hs, hdumps, hplain⟩ := encodeManifest_text h hscalar
    have htext := (dumps_text (List.cons_ne_nil _ _) hplain hdumps).mono fun _ _ => Lenient.unbounded
    exact ⟨v, rfl, hdecode, (accepted_well_formed hdecode).2
      ⟨s, _, hs, htext, document_nodup plainManifest, by decide +kernel⟩⟩

/-! ## Accepted, and not well formed -/

/-- A float for the version, a boolean for the length, and a checksum with a prefix and an underscore. -/
def looseRecord : Bytes :=
  (text ("\x7b\"chunks\":1,\"identity\":\"eHh4=\",\"length\":true," ++
    "\"sha256\":\"0x_0000000000000000000000000000000000000000000000000000000000000\",\"version\":1.0\x7d")).map UInt8.ofNat

/-- A first member that is no JSON, and a second of its name. -/
def repeatedRecord : Bytes :=
  (text ("\x7b\"chunks\":NaN,\"chunks\":1,\"identity\":\"eA==\",\"length\":3," ++
    "\"sha256\":\"0000000000000000000000000000000000000000000000000000000000000000\",\"version\":1\x7d")).map UInt8.ofNat

def members? : Json → Option (List (Str × Json))
  | .dict d => some d
  | _ => none

/-- What Python reads is not loose where the record is strict. -/
theorem Strict.read (h : Strict v) (hd : ((utf8Decode v).bind fun s => (loads limit s).toOption.bind members?) = some d) :
    looseObject d = false := by
  obtain ⟨s, ms, hs, htext, hnames, hstrict⟩ := h
  rw [hs, Option.bind_some] at hd
  obtain ⟨j, hj, hmembers⟩ := Option.bind_eq_some_iff.1 hd
  cases j with
  | dict d' =>
    cases hmembers
    cases hx : loads limit s with
    | error e =>
      rw [hx] at hj
      cases hj
    | ok x =>
      rw [hx] at hj
      cases hj
      rw [← loads_members htext hnames hx]
      exact hstrict
  | _ => cases hmembers

/-- An object whose first member starts with a capital letter is not JSON. -/
theorem capital_member {key t : Str} {c : Nat} {ms : List (Str × Json)}
    (hkey : ∀ c ∈ key, c ≠ quote ∧ c ≠ backslash ∧ 32 ≤ c) (hc : 65 ≤ c ∧ c ≤ 90) :
    ¬ ObjectText Standard (123 :: quote :: (key ++ quote :: 58 :: c :: t)) ms := by
  have hspace : isSpace c = false := by
    simp only [isSpace, Bool.or_eq_false_iff, beq_eq_false_iff_ne]
    omega
  have hvalue : ∀ {key' s₁ s₂ s₃ s₄ : Str} {x : Json}, Chars (key ++ quote :: 58 :: c :: t) key' s₁ → Ws s₁ (58 :: s₂) →
      Ws s₂ s₃ → ¬ Derives Standard .value s₃ x s₄ := by
    intro key' s₁ s₂ s₃ s₄ x hchars hcolon hws hx
    obtain ⟨-, rfl⟩ := (chars_plain hkey _).unique hchars
    cases hcolon.eq_cons (by rfl)
    cases hws.eq_cons hspace
    have := no_capital hx rfl
    omega
  intro h
  cases h with
  | empty hws hend _ =>
    cases hws.eq_cons (by rfl)
    have hquote := hend.eq_cons (by rfl)
    cases hquote
  | members hws hws' hms _ =>
    cases hws.eq_cons (by rfl)
    cases hws'.eq_cons (by rfl)
    cases hms with
    | lastMember hchars hcolon hspaces hx _ => exact hvalue hchars hcolon hspaces hx
    | member hchars hcolon hspaces hx _ _ _ => exact hvalue hchars hcolon hspaces hx

/-- Both records are accepted, and neither is well formed. -/
theorem loose_accepted : ((∃ m, decodeManifest 900 looseRecord = .ok m) ∧ ¬ WellFormed looseRecord) ∧
    (∃ m, decodeManifest 900 repeatedRecord = .ok m) ∧ ¬ WellFormed repeatedRecord := by
  have haccepted : ∀ v, (decodeManifest 900 v).toOption.isSome = true → ∃ m, decodeManifest 900 v = .ok m := by
    intro v hv
    cases h : decodeManifest 900 v with
    | error e =>
      rw [h] at hv
      cases hv
    | ok m => exact ⟨m, rfl⟩
  refine ⟨⟨haccepted _ (by decide +kernel), ?_⟩, haccepted _ (by decide +kernel), ?_⟩
  · have hloose : ((utf8Decode looseRecord).bind fun s => (loads 901 s).toOption.bind members?).any looseObject =
        true := by decide +kernel
    intro h
    obtain ⟨d, hd, hloose⟩ := (Option.any_eq_true _ _).1 hloose
    rw [h.strict.read hd] at hloose
    cases hloose
  · rintro ⟨s, ms, hs, htext, -⟩
    have htail : utf8Decode repeatedRecord = some (123 :: quote :: (text "chunks" ++ quote :: 58 :: 78 ::
        (utf8Decode (repeatedRecord.drop 11)).getD [])) := by decide +kernel
    rw [htail] at hs
    obtain rfl := Option.some.inj hs
    exact capital_member (by decide) (by decide) htext

end NvmeKv
end SpdkConnector
