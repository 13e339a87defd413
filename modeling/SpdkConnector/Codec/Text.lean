import SpdkConnector.Codec.Sha256

/-!
# Text as code points, and UTF-8

A Python `str` is a list of code points; it may hold surrogates, which strict UTF-8 does not encode.
`utf8Decode` is `bytes.decode("utf-8")`, `utf8Encode` is `str.encode("utf-8")`; both give `none` where
Python raises.
-/
namespace Codec

abbrev Str := List Nat

/-- A literal of the source. -/
def text (s : String) : Str :=
  s.toList.map Char.toNat

def surrogate (c : Nat) : Bool := 0xd800 ≤ c && c ≤ 0xdfff

def utf8EncodeChar (c : Nat) : Option Bytes :=
  if c < 0x80 then some [.ofNat c]
  else if c < 0x800 then some [.ofNat (0xc0 + c / 0x40), .ofNat (0x80 + c % 0x40)]
  else if surrogate c then none
  else if c < 0x10000 then
    some [.ofNat (0xe0 + c / 0x1000), .ofNat (0x80 + c / 0x40 % 0x40), .ofNat (0x80 + c % 0x40)]
  else if c < 0x110000 then
    some [.ofNat (0xf0 + c / 0x40000), .ofNat (0x80 + c / 0x1000 % 0x40), .ofNat (0x80 + c / 0x40 % 0x40),
      .ofNat (0x80 + c % 0x40)]
  else none

def utf8Encode : Str → Option Bytes
  | [] => some []
  | c :: s => (utf8EncodeChar c).bind fun bs => (utf8Encode s).map (bs ++ ·)

/-- A continuation byte's six bits. -/
def tailBits (b : UInt8) : Option Nat :=
  if 0x80 ≤ b.toNat ∧ b.toNat ≤ 0xbf then some (b.toNat - 0x80) else none

/-- The code point two, three or four bytes spell, unless it is overlong, a surrogate or too large. -/
def utf8Char2 (a b : UInt8) : Option Nat :=
  if 0xc2 ≤ a.toNat ∧ a.toNat ≤ 0xdf then (tailBits b).map ((a.toNat - 0xc0) * 0x40 + ·) else none

def utf8Char3 (a b c : UInt8) : Option Nat :=
  if 0xe0 ≤ a.toNat ∧ a.toNat ≤ 0xef then
    (tailBits b).bind fun x => (tailBits c).bind fun y =>
      let u := ((a.toNat - 0xe0) * 0x40 + x) * 0x40 + y
      if u < 0x800 ∨ surrogate u then none else some u
  else none

def utf8Char4 (a b c d : UInt8) : Option Nat :=
  if 0xf0 ≤ a.toNat ∧ a.toNat ≤ 0xf4 then
    (tailBits b).bind fun x => (tailBits c).bind fun y => (tailBits d).bind fun z =>
      let u := (((a.toNat - 0xf0) * 0x40 + x) * 0x40 + y) * 0x40 + z
      if u < 0x10000 ∨ 0x110000 ≤ u then none else some u
  else none

def utf8Decode : Bytes → Option Str
  | [] => some []
  | a :: rest =>
    if a.toNat < 0x80 then (utf8Decode rest).map (a.toNat :: ·)
    else
      match rest with
      | [] => none
      | b :: rest =>
        match utf8Char2 a b with
        | some u => (utf8Decode rest).map (u :: ·)
        | none =>
          match rest with
          | [] => none
          | c :: rest =>
            match utf8Char3 a b c with
            | some u => (utf8Decode rest).map (u :: ·)
            | none =>
              match rest with
              | [] => none
              | d :: rest => (utf8Char4 a b c d).bind fun u => (utf8Decode rest).map (u :: ·)

/-- Code points below 128 are their own encoding. -/
def Ascii (s : Str) : Prop := ∀ c ∈ s, c < 0x80

theorem Ascii.cons {c : Nat} {s : Str} (hc : c < 0x80) (hs : Ascii s) : Ascii (c :: s) := by
  intro d hd
  rcases List.mem_cons.1 hd with rfl | hd
  · exact hc
  · exact hs d hd

theorem Ascii.append {s t : Str} (hs : Ascii s) (ht : Ascii t) : Ascii (s ++ t) := by
  intro c hc
  rcases List.mem_append.1 hc with hc | hc
  · exact hs c hc
  · exact ht c hc

theorem utf8Encode_ascii {s : Str} (h : Ascii s) : utf8Encode s = some (s.map UInt8.ofNat) := by
  induction s with
  | nil => rfl
  | cons c s ih =>
    have hc : c < 0x80 := h c List.mem_cons_self
    have hs : Ascii s := fun d hd => h d (List.mem_cons_of_mem c hd)
    simp [utf8Encode, utf8EncodeChar, hc, ih hs]

theorem utf8Decode_ascii {s : Str} (h : Ascii s) : utf8Decode (s.map UInt8.ofNat) = some s := by
  induction s with
  | nil => rfl
  | cons c s ih =>
    have hc : c < 0x80 := h c List.mem_cons_self
    have hs : Ascii s := fun d hd => h d (List.mem_cons_of_mem c hd)
    have hb : (UInt8.ofNat c).toNat = c := by
      rw [UInt8.toNat_ofNat']
      omega
    rw [List.map_cons, utf8Decode.eq_def]
    simp [hb, hc, ih hs]

end Codec
