import SpdkConnector.Codec.Json
import Mathlib.Data.List.TakeWhile
import Mathlib.Tactic.SplitIfs

/-!
# `int(text, 16)`

Whether Python reads a text as a hexadecimal integer: white space around it, a sign, `0x`, single
underscores between the digits, and any Unicode decimal digit for an ASCII one.
-/
namespace Codec

/-- The zeros of the Unicode decimal digits beyond ASCII; the nine digits after each follow it. -/
def decimalZeros : List Nat := [
  1632, 1776, 1984, 2406, 2534, 2662, 2790, 2918, 3046, 3174, 3302, 3430, 3558, 3664, 3792, 3872, 4160,
  4240, 6112, 6160, 6470, 6608, 6784, 6800, 6992, 7088, 7232, 7248, 42528, 43216, 43264, 43472, 43504,
  43600, 44016, 65296, 66720, 68912, 69734, 69872, 69942, 70096, 70384, 70736, 70864, 71248, 71360, 71472,
  71904, 72016, 72784, 73040, 73120, 92768, 92864, 93008, 120782, 120792, 120802, 120812, 120822, 123200,
  123632, 125264, 130032]

/-- White space beyond ASCII. -/
def unicodeSpaces : List Nat := [
  133, 160, 5760, 8192, 8193, 8194, 8195, 8196, 8197, 8198, 8199, 8200, 8201, 8202, 8232, 8233, 8239, 8287,
  12288]

/-- A character as `int` sees it: an ASCII digit or space for a Unicode one, `?` for any other. -/
def asciiDigit (c : Nat) : Nat :=
  if c < 127 then c
  else if c ∈ unicodeSpaces then 32
  else
    match decimalZeros.find? fun z => z ≤ c && c < z + 10 with
    | some z => 48 + (c - z)
    | none => 63

/-- C's `isspace`. -/
def isCSpace (c : Nat) : Bool := (9 ≤ c && c ≤ 13) || c == 32

def underscore : Nat := 95

def isHexRun (c : Nat) : Bool := (hexValue c).isSome || c == underscore

/-- No underscore starts the digits, ends them or follows another. -/
def goodUnderscores : Bool → Str → Bool
  | previous, [] => !previous
  | previous, c :: s => if c == underscore then !previous && goodUnderscores true s else goodUnderscores false s

/-- Behind the sign. -/
def hexDigitsOk (s : Str) : Bool :=
  let s :=
    if s.head? = some 48 ∧ (s.tail.head? = some 120 ∨ s.tail.head? = some 88) then
      if s.tail.tail.head? = some underscore then s.tail.tail.tail else s.tail.tail
    else s
  let run := s.takeWhile isHexRun
  run != [] && goodUnderscores true run && (s.dropWhile isHexRun).all isCSpace

/-- `int(text, 16)` does not raise `ValueError`. -/
def int16Ok (t : Str) : Bool :=
  let s := (t.map asciiDigit).dropWhile isCSpace
  hexDigitsOk (if s.head? = some 43 ∨ s.head? = some 45 then s.tail else s)

theorem hexValue_range {c : Nat} (h : (hexValue c).isSome) :
    (48 ≤ c ∧ c ≤ 57) ∨ (97 ≤ c ∧ c ≤ 102) ∨ (65 ≤ c ∧ c ≤ 70) := by
  unfold hexValue at h
  split_ifs at h <;> first | omega | cases h

theorem goodUnderscores_hex {s : Str} (h : ∀ c ∈ s, (hexValue c).isSome) (hne : s ≠ []) (b : Bool) :
    goodUnderscores b s = true := by
  induction s generalizing b with
  | nil => exact absurd rfl hne
  | cons c s ih =>
    have hc := hexValue_range (h c List.mem_cons_self)
    have hu : (c == underscore) = false := by
      simp only [underscore, beq_eq_false_iff_ne]
      omega
    rw [goodUnderscores, if_neg (by simp [hu])]
    cases s with
    | nil => rfl
    | cons d s => exact ih (fun e he => h e (List.mem_cons_of_mem c he)) (List.cons_ne_nil d s) false

/-- Hexadecimal digits are accepted. -/
theorem int16Ok_hex {s : Str} (h : ∀ c ∈ s, (hexValue c).isSome) (hne : s ≠ []) : int16Ok s = true := by
  have hmap : s.map asciiDigit = s := by
    conv => rhs; rw [← List.map_id s]
    refine List.map_congr_left fun c hc => ?_
    have := hexValue_range (h c hc)
    exact if_pos (by omega)
  have hrun : ∀ c ∈ s, isHexRun c = true := fun c hc => by simp [isHexRun, h c hc]
  have htake : s.takeWhile isHexRun = s := List.takeWhile_eq_self_iff.2 hrun
  have hdrop : s.dropWhile isHexRun = [] := List.dropWhile_eq_nil_iff.2 hrun
  cases s with
  | nil => exact absurd rfl hne
  | cons c s =>
    have hc := hexValue_range (h c List.mem_cons_self)
    have hspace : isCSpace c = false := by
      simp only [isCSpace, Bool.or_eq_false_iff, Bool.and_eq_false_iff, decide_eq_false_iff_not,
        beq_eq_false_iff_ne]
      omega
    have hsign : ¬ ((c :: s).head? = some 43 ∨ (c :: s).head? = some 45) := by
      simp only [List.head?_cons, Option.some.injEq]
      omega
    have hx : ¬ (s.head? = some 120 ∨ s.head? = some 88) := by
      cases s with
      | nil => simp
      | cons d s =>
        have := hexValue_range (h d (by simp))
        simp only [List.head?_cons, Option.some.injEq]
        omega
    rw [int16Ok, hmap, List.dropWhile_cons_of_neg (by simp [hspace]), if_neg hsign, hexDigitsOk,
      if_neg (fun hp => hx hp.2), htake, hdrop, goodUnderscores_hex h hne]
    rfl

end Codec
