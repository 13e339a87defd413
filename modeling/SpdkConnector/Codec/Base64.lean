import SpdkConnector.Codec.Text
import Mathlib.Tactic.IntervalCases

/-!
# Base64 (RFC 4648), as Python's `base64` has it

`b64encode`, and `b64decode(_, validate=True)` with the padding rules of `binascii.a2b_base64` in strict
mode: it refuses data after the padding has started, but not padding behind a complete group, and it does
not look at the unused bits of the last character.
-/
namespace Codec

/-- The character of six bits. -/
def base64Char (v : Nat) : Nat :=
  if v < 26 then 65 + v
  else if v < 52 then 97 + (v - 26)
  else if v < 62 then 48 + (v - 52)
  else if v = 62 then 43
  else 47

/-- The six bits of a character, `table_a2b_base64`. -/
def base64Value (c : Nat) : Option Nat :=
  if 65 ≤ c ∧ c ≤ 90 then some (c - 65)
  else if 97 ≤ c ∧ c ≤ 122 then some (c - 97 + 26)
  else if 48 ≤ c ∧ c ≤ 57 then some (c - 48 + 52)
  else if c = 43 then some 62
  else if c = 47 then some 63
  else none

/-- `=`. -/
def base64Pad : Nat := 61

def base64Encode : Bytes → Str
  | [] => []
  | [a] => [base64Char (a.toNat / 4), base64Char (a.toNat % 4 * 16), base64Pad, base64Pad]
  | [a, b] =>
    [base64Char (a.toNat / 4), base64Char (a.toNat % 4 * 16 + b.toNat / 16),
      base64Char (b.toNat % 16 * 4), base64Pad]
  | a :: b :: c :: rest =>
    [base64Char (a.toNat / 4), base64Char (a.toNat % 4 * 16 + b.toNat / 16),
      base64Char (b.toNat % 16 * 4 + c.toNat / 64), base64Char (c.toNat % 64)] ++ base64Encode rest

/-- The loop of `a2b_base64`: `quad` is the position in the group of four, `left` the bits carried from
the previous character, `pads` the padding characters counted, `started` that padding has begun. -/
def base64Loop (quad left pads : Nat) (started : Bool) : Str → Option Bytes
  | [] => if quad = 0 then some [] else none
  | c :: rest =>
    if c = base64Pad then
      if 2 ≤ quad then
        if 4 ≤ quad + (pads + 1) then if rest = [] then some [] else none
        else base64Loop quad left (pads + 1) true rest
      else base64Loop quad left pads true rest
    else
      match base64Value c with
      | none => none
      | some v =>
        if started then none
        else
          match quad with
          | 0 => base64Loop 1 v 0 false rest
          | 1 => (base64Loop 2 (v % 16) 0 false rest).map (.ofNat (left * 4 + v / 16) :: ·)
          | 2 => (base64Loop 3 (v % 4) 0 false rest).map (.ofNat (left * 16 + v / 4) :: ·)
          | _ => (base64Loop 0 0 0 false rest).map (.ofNat (left * 64 + v) :: ·)

def base64Decode (s : Str) : Option Bytes :=
  match s with
  | c :: _ => if c = base64Pad then none else base64Loop 0 0 0 false s
  | [] => some []

theorem base64Value_char {v : Nat} (h : v < 64) : base64Value (base64Char v) = some v := by
  interval_cases v <;> rfl

theorem base64Char_ne_pad {v : Nat} (h : v < 64) : base64Char v ≠ base64Pad := by
  interval_cases v <;> decide

theorem base64Char_ascii {v : Nat} (h : v < 64) : base64Char v < 0x80 := by
  interval_cases v <;> decide

/-- One data character at each position of the group. -/
theorem base64Loop_zero {v pads left : Nat} {rest : Str} (h : v < 64) :
    base64Loop 0 left pads false (base64Char v :: rest) = base64Loop 1 v 0 false rest := by
  rw [base64Loop, if_neg (base64Char_ne_pad h), base64Value_char h]
  rfl

theorem base64Loop_one {v pads left : Nat} {rest : Str} (h : v < 64) :
    base64Loop 1 left pads false (base64Char v :: rest) =
      (base64Loop 2 (v % 16) 0 false rest).map (.ofNat (left * 4 + v / 16) :: ·) := by
  rw [base64Loop, if_neg (base64Char_ne_pad h), base64Value_char h]
  rfl

theorem base64Loop_two {v pads left : Nat} {rest : Str} (h : v < 64) :
    base64Loop 2 left pads false (base64Char v :: rest) =
      (base64Loop 3 (v % 4) 0 false rest).map (.ofNat (left * 16 + v / 4) :: ·) := by
  rw [base64Loop, if_neg (base64Char_ne_pad h), base64Value_char h]
  rfl

theorem base64Loop_three {v pads left : Nat} {rest : Str} (h : v < 64) :
    base64Loop 3 left pads false (base64Char v :: rest) =
      (base64Loop 0 0 0 false rest).map (.ofNat (left * 64 + v) :: ·) := by
  rw [base64Loop, if_neg (base64Char_ne_pad h), base64Value_char h]
  rfl

theorem byte_split (a : UInt8) {x : Nat} (h : x = a.toNat) : UInt8.ofNat x = a := by
  rw [h, UInt8.ofNat_toNat]

theorem base64Loop_encode (bs : Bytes) : base64Loop 0 0 0 false (base64Encode bs) = some bs := by
  induction bs using base64Encode.induct with
  | case1 => rfl
  | case2 a =>
    have ha := a.toNat_lt
    rw [base64Encode, base64Loop_zero (by omega), base64Loop_one (by omega)]
    have hpad : base64Loop 2 (a.toNat % 4 * 16 % 16) 0 false [base64Pad, base64Pad] = some [] := by
      simp [base64Loop]
    rw [hpad, byte_split a (by omega)]
    rfl
  | case3 a b =>
    have ha := a.toNat_lt
    have hb := b.toNat_lt
    rw [base64Encode, base64Loop_zero (by omega), base64Loop_one (by omega), base64Loop_two (by omega)]
    have hpad : ∀ left, base64Loop 3 left 0 false [base64Pad] = some [] := by
      intro left
      simp [base64Loop]
    rw [hpad, byte_split a (by omega), Option.map_some, byte_split b (by omega)]
    rfl
  | case4 a b c rest ih =>
    have ha := a.toNat_lt
    have hb := b.toNat_lt
    have hc := c.toNat_lt
    rw [base64Encode, List.cons_append, List.cons_append, List.cons_append, List.cons_append,
      List.nil_append, base64Loop_zero (by omega), base64Loop_one (by omega), base64Loop_two (by omega),
      base64Loop_three (by omega), ih, byte_split a (by omega), Option.map_some, Option.map_some,
      byte_split b (by omega), byte_split c (by omega)]
    rfl

/-- Decoding undoes encoding. -/
theorem base64Decode_encode (bs : Bytes) : base64Decode (base64Encode bs) = some bs := by
  have hloop := base64Loop_encode bs
  cases bs with
  | nil => rfl
  | cons a bs =>
    have ha := a.toNat_lt
    have hhead : base64Encode (a :: bs) = base64Char (a.toNat / 4) :: (base64Encode (a :: bs)).tail := by
      rcases bs with _ | ⟨b, _ | ⟨c, bs⟩⟩ <;> rfl
    rw [hhead] at hloop ⊢
    rw [base64Decode, if_neg (base64Char_ne_pad (by omega)), hloop]

theorem base64Encode_ascii (bs : Bytes) : Ascii (base64Encode bs) := by
  have hpad : base64Pad < 0x80 := by decide
  have hnil : Ascii [] := fun _ hc => nomatch hc
  induction bs using base64Encode.induct with
  | case1 => exact hnil
  | case2 a =>
    have ha := a.toNat_lt
    exact .cons (base64Char_ascii (by omega)) (.cons (base64Char_ascii (by omega)) (.cons hpad (.cons hpad hnil)))
  | case3 a b =>
    have ha := a.toNat_lt
    have hb := b.toNat_lt
    exact .cons (base64Char_ascii (by omega)) (.cons (base64Char_ascii (by omega))
      (.cons (base64Char_ascii (by omega)) (.cons hpad hnil)))
  | case4 a b c rest ih =>
    have ha := a.toNat_lt
    have hb := b.toNat_lt
    have hc := c.toNat_lt
    exact .cons (base64Char_ascii (by omega)) (.cons (base64Char_ascii (by omega))
      (.cons (base64Char_ascii (by omega)) (.cons (base64Char_ascii (by omega)) ih)))

/-! ## What the decoder accepts -/

/-- The characters before the padding. -/
def base64Data (s : Str) : Str := s.takeWhile (· != base64Pad)

def base64Padding (s : Str) : Str := s.dropWhile (· != base64Pad)

/-- Characters of the alphabet, padded to whole groups of four by at most two `=` (RFC 4648, 4). -/
structure ValidBase64 (s : Str) : Prop where
  alphabet : ∀ c ∈ base64Data s, (base64Value c).isSome
  padding : ∀ c ∈ base64Padding s, c = base64Pad
  pads : (base64Padding s).length ≤ 2
  groups : s.length % 4 = 0

/-- Padding although the last group is complete. -/
def ExcessPadding (s : Str) : Prop := base64Padding s ≠ [] ∧ (base64Data s).length % 4 = 0

instance (s : Str) : Decidable (ExcessPadding s) :=
  inferInstanceAs (Decidable (base64Padding s ≠ [] ∧ (base64Data s).length % 4 = 0))

theorem base64Data_pad (rest : Str) : base64Data (base64Pad :: rest) = [] := rfl

theorem base64Padding_pad (rest : Str) : base64Padding (base64Pad :: rest) = base64Pad :: rest := rfl

theorem base64Data_cons {c : Nat} (h : c ≠ base64Pad) (rest : Str) : base64Data (c :: rest) = c :: base64Data rest :=
  List.takeWhile_cons_of_pos (by simpa using h)

theorem base64Padding_cons {c : Nat} (h : c ≠ base64Pad) (rest : Str) : base64Padding (c :: rest) = base64Padding rest :=
  List.dropWhile_cons_of_pos (by simpa using h)

theorem base64_length (s : Str) : (base64Data s).length + (base64Padding s).length = s.length := by
  rw [← List.length_append, base64Data, base64Padding, List.takeWhile_append_dropWhile]

/-- Behind the first `=` only `=` may follow, as many as complete the group. -/
theorem base64Loop_started {quad left pads : Nat} {s : Str} {bs : Bytes}
    (h : base64Loop quad left pads true s = some bs) :
    (∀ c ∈ s, c = base64Pad) ∧ (quad = 0 ∨ (2 ≤ quad ∧ (quad + pads < 4 → quad + pads + s.length = 4))) := by
  induction s generalizing pads bs with
  | nil =>
    rw [base64Loop] at h
    split at h
    · rename_i h0
      exact ⟨nofun, .inl h0⟩
    · cases h
  | cons c rest ih =>
    rw [base64Loop] at h
    split at h
    · rename_i hpad
      split at h
      · rename_i h2
        split at h
        · rename_i hfull
          split at h
          · rename_i hend
            subst hpad hend
            refine ⟨by simp, .inr ⟨h2, ?_⟩⟩
            simp only [List.length_singleton]
            omega
          · cases h
        · rename_i hmore
          obtain ⟨hall, hcount⟩ := ih h
          refine ⟨?_, .inr ⟨h2, ?_⟩⟩
          · intro d hd
            rcases List.mem_cons.1 hd with rfl | hd
            · exact hpad
            · exact hall d hd
          · rw [List.length_cons]
            omega
      · obtain ⟨hall, hcount⟩ := ih h
        refine ⟨?_, .inl (by omega)⟩
        intro d hd
        rcases List.mem_cons.1 hd with rfl | hd
        · exact hpad
        · exact hall d hd
    · split at h
      · cases h
      · cases h

/-- What the loop accepts from position `quad` of a group on. -/
theorem base64Loop_accepts {quad left : Nat} {s : Str} {bs : Bytes} (hq : quad < 4)
    (h : base64Loop quad left 0 false s = some bs) :
    (∀ c ∈ base64Data s, (base64Value c).isSome) ∧ (∀ c ∈ base64Padding s, c = base64Pad) ∧
    ((quad + (base64Data s).length) % 4 = 0 ∨ (2 ≤ (quad + (base64Data s).length) % 4 ∧
      (quad + (base64Data s).length) % 4 + (base64Padding s).length = 4)) := by
  induction s generalizing quad left bs with
  | nil =>
    rw [base64Loop] at h
    split at h
    · rename_i h0
      subst h0
      exact ⟨nofun, nofun, .inl rfl⟩
    · cases h
  | cons c rest ih =>
    rw [base64Loop] at h
    split at h
    · rename_i hpad
      subst hpad
      rw [base64Data_pad, base64Padding_pad, List.length_nil, Nat.add_zero, Nat.mod_eq_of_lt hq, List.length_cons]
      refine ⟨nofun, ?_⟩
      split at h
      · split at h
        · split at h
          · rename_i hend
            subst hend
            exact ⟨by simp, .inr ⟨by omega, by simp only [List.length_nil]; omega⟩⟩
          · cases h
        · obtain ⟨hall, hcount⟩ := base64Loop_started h
          exact ⟨by simpa using hall, by omega⟩
      · obtain ⟨hall, hcount⟩ := base64Loop_started h
        exact ⟨by simpa using hall, by omega⟩
    · rename_i hne
      split at h
      · cases h
      · rename_i v hv
        rw [base64Data_cons hne, base64Padding_cons hne, List.length_cons]
        -- one more character of the group
        have hnext : ∃ left' bs', base64Loop ((quad + 1) % 4) left' 0 false rest = some bs' := by
          rw [if_neg (by decide)] at h
          split at h
          · exact ⟨_, _, h⟩
          · obtain ⟨bs', hbs, -⟩ := Option.map_eq_some_iff.1 h
            exact ⟨_, _, hbs⟩
          · obtain ⟨bs', hbs, -⟩ := Option.map_eq_some_iff.1 h
            exact ⟨_, _, hbs⟩
          · rename_i h0 h1 h2
            obtain ⟨bs', hbs, -⟩ := Option.map_eq_some_iff.1 h
            have hthree : quad = 3 := by
              have h0 : quad ≠ 0 := h0
              have h1 : quad ≠ 1 := h1
              have h2 : quad ≠ 2 := h2
              omega
            subst hthree
            exact ⟨_, _, hbs⟩
        obtain ⟨left', bs', hbs⟩ := hnext
        obtain ⟨hdata, hpadding, hcount⟩ := ih (Nat.mod_lt _ (by decide)) hbs
        refine ⟨?_, hpadding, by omega⟩
        intro d hd
        rcases List.mem_cons.1 hd with rfl | hd
        · rw [hv]
          rfl
        · exact hdata d hd

theorem base64Decode_accepts {s : Str} {bs : Bytes} (h : base64Decode s = some bs) :
    (∀ c ∈ base64Data s, (base64Value c).isSome) ∧ (∀ c ∈ base64Padding s, c = base64Pad) ∧
    ((base64Data s).length % 4 = 0 ∨ (2 ≤ (base64Data s).length % 4 ∧
      (base64Data s).length % 4 + (base64Padding s).length = 4)) := by
  cases s with
  | nil => exact ⟨nofun, nofun, .inl rfl⟩
  | cons c rest =>
    rw [base64Decode] at h
    split at h
    · cases h
    · have := base64Loop_accepts (by decide) h
      simpa only [Nat.zero_add] using this

/-- Of the accepted texts, those padded behind a complete group are not base64. -/
theorem validBase64_iff {s : Str} {bs : Bytes} (h : base64Decode s = some bs) : ValidBase64 s ↔ ¬ ExcessPadding s := by
  obtain ⟨hdata, hpadding, hcount⟩ := base64Decode_accepts h
  have hlen := base64_length s
  constructor
  · rintro hv ⟨hne, hfull⟩
    have hpos := List.length_pos_of_ne_nil hne
    have h4 := hv.groups
    have h2 := hv.pads
    omega
  · intro hex
    have hnil : (base64Data s).length % 4 = 0 → (base64Padding s).length = 0 := by
      intro hfull
      by_contra hne
      exact hex ⟨fun h0 => hne (by rw [h0]; rfl), hfull⟩
    exact ⟨hdata, hpadding, by omega, by omega⟩

end Codec
