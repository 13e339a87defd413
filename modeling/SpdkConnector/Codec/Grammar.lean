import SpdkConnector.Codec.Json

/-!
# The grammar of JSON

A part of a text is a relation between the text it begins and the text behind it: `Derives leaf .value s j r` reads
a value of the meaning `j` off `s` up to `r`. Nothing here scans. The numbers and words are a parameter:
`Standard` has those of JSON, `Lenient` also the words `NaN`, `Infinity` and `-Infinity`. Members keep the order of
the text, repeated names included, until an object becomes a value (`asDict`).

| relation | part of the text |
|---|---|
| `Ws`, `Hex4`, `Chars` | white space, four hexadecimal digits, a string behind its quote |
| `Whole`, `Fraction`, `Exponent`, `Number` | a number and its parts |
| `Derives`, `Text`, `ObjectText` | a value and its parts, a whole text |
| `Opens`, `Deep` | containers that stand open inside one another |
-/
namespace Codec

/-! ## Leaves -/

inductive Ws : Str → Str → Prop
  | done (s : Str) : Ws s s
  | space {c : Nat} {s r : Str} : isSpace c = true → Ws s r → Ws (c :: s) r

inductive Hex4 : Str → Nat → Str → Prop
  | digits {a b c d i j k l : Nat} {r : Str} : hexValue a = some i → hexValue b = some j → hexValue c = some k →
      hexValue d = some l → Hex4 (a :: b :: c :: d :: r) (((i * 16 + j) * 16 + k) * 16 + l) r

/-- The escape of a low surrogate. -/
def LowHalf (s : Str) (v : Nat) (r : Str) : Prop :=
  lowSurrogate v = true ∧ ∃ s', s = backslash :: 117 :: s' ∧ Hex4 s' v r

/-- The characters of a string up to its closing quote. Two escapes may make one character. -/
inductive Chars : Str → Str → Str → Prop
  | close (r : Str) : Chars (quote :: r) [] r
  | plain {c : Nat} {s t r : Str} : c ≠ quote → c ≠ backslash → 32 ≤ c → Chars s t r → Chars (c :: s) (c :: t) r
  | escape {e c : Nat} {s t r : Str} : unescape e = some c → Chars s t r → Chars (backslash :: e :: s) (c :: t) r
  | unicode {u : Nat} {s s' t r : Str} : Hex4 s u s' → (highSurrogate u = true → ∀ v q, ¬ LowHalf s' v q) →
      Chars s' t r → Chars (backslash :: 117 :: s) (u :: t) r
  | pair {u v : Nat} {s s' s'' t r : Str} : Hex4 s u s' → highSurrogate u = true → LowHalf s' v s'' →
      Chars s'' t r → Chars (backslash :: 117 :: s) ((0x10000 + (u - 0xd800) * 0x400 + (v - 0xdc00)) :: t) r

def Digits (ds : Str) : Prop := ds ≠ [] ∧ ∀ c ∈ ds, isDigit c = true

/-- An integer part: no zero stands before other digits. -/
def Whole (ds : Str) : Prop := Digits ds ∧ (ds.head? = some 48 → ds = [48])

/-- The text and its digits. -/
inductive Fraction : Str → Str → Prop
  | absent : Fraction [] []
  | digits {ds : Str} : Digits ds → Fraction (46 :: ds) ds

inductive Exponent : Str → Option Int → Prop
  | absent : Exponent [] none
  | plain {e : Nat} {ds : Str} : e = 101 ∨ e = 69 → Digits ds → Exponent (e :: ds) (some (decimal ds))
  | plus {e : Nat} {ds : Str} : e = 101 ∨ e = 69 → Digits ds → Exponent (e :: 43 :: ds) (some (decimal ds))
  | minus {e : Nat} {ds : Str} : e = 101 ∨ e = 69 → Digits ds → Exponent (e :: 45 :: ds) (some (-(decimal ds : Int)))

/-- A number behind its sign; `fits` bounds the digits of an integer. -/
inductive Unsigned (fits : Nat → Prop) (sign : Nat → Int) : Str → Json → Prop
  | int {ds : Str} : Whole ds → fits ds.length → Unsigned fits sign ds (.int (sign (decimal ds)))
  | float {ds f fs e : Str} {x : Option Int} : Whole ds → Fraction f fs → Exponent e x → ¬ (fs = [] ∧ x = none) →
      Unsigned fits sign (ds ++ (f ++ e)) (.float (.finite (sign (decimal (ds ++ fs))) (x.getD 0 - fs.length)))

inductive Number (fits : Nat → Prop) : Str → Json → Prop
  | positive {s : Str} {j : Json} : Unsigned fits (fun n => n) s j → Number fits s j
  | negative {s : Str} {j : Json} : Unsigned fits (fun n => -(n : Int)) s j → Number fits (45 :: s) j

def words : List (Str × Json) := [(text "null", .null), (text "true", .bool true), (text "false", .bool false)]

/-- The numbers and the words of JSON. -/
def Standard (w : Str) (j : Json) : Prop := Number (fun _ => True) w j ∨ (w, j) ∈ words

/-- Those that Python reads; where the text is `short`, no integer is too long for it. -/
def Lenient (short : Prop) (w : Str) (j : Json) : Prop :=
  Number (fun n => short → n ≤ maxStrDigits) w j ∨ (w, j) ∈ literals

/-! ## Values -/

inductive Part where
  | value
  | members
  | elements
  deriving DecidableEq, Repr

/-- The last of the members with one name counts. -/
def asDict (ms : List (Str × Json)) : List (Str × Json) := ms.foldl (fun d p => dictSet d p.1 p.2) []

/-- The members and the elements end with the bracket that closes them. -/
inductive Derives (leaf : Str → Json → Prop) : Part → Str → Json → Str → Prop
  | leaf {w r : Str} {j : Json} : leaf w j → Derives leaf .value (w ++ r) j r
  | string {s t r : Str} : Chars s t r → Derives leaf .value (quote :: s) (.str t) r
  | emptyObject {s r : Str} : Ws s (125 :: r) → Derives leaf .value (123 :: s) (.dict []) r
  | object {s s' r : Str} {ms : List (Str × Json)} : Ws s s' → Derives leaf .members s' (.dict ms) r →
      Derives leaf .value (123 :: s) (.dict (asDict ms)) r
  | emptyArray {s r : Str} : Ws s (93 :: r) → Derives leaf .value (91 :: s) (.list []) r
  | array {s s' r : Str} {xs : List Json} : Ws s s' → Derives leaf .elements s' (.list xs) r →
      Derives leaf .value (91 :: s) (.list xs) r
  | lastMember {s key s₁ s₂ s₃ s₄ r : Str} {x : Json} : Chars s key s₁ → Ws s₁ (58 :: s₂) → Ws s₂ s₃ →
      Derives leaf .value s₃ x s₄ → Ws s₄ (125 :: r) → Derives leaf .members (quote :: s) (.dict [(key, x)]) r
  | member {s key s₁ s₂ s₃ s₄ s₅ s₆ r : Str} {x : Json} {ms : List (Str × Json)} : Chars s key s₁ →
      Ws s₁ (58 :: s₂) → Ws s₂ s₃ → Derives leaf .value s₃ x s₄ → Ws s₄ (44 :: s₅) → Ws s₅ s₆ →
      Derives leaf .members s₆ (.dict ms) r → Derives leaf .members (quote :: s) (.dict ((key, x) :: ms)) r
  | lastElement {s s₁ r : Str} {x : Json} : Derives leaf .value s x s₁ → Ws s₁ (93 :: r) →
      Derives leaf .elements s (.list [x]) r
  | element {s s₁ s₂ s₃ r : Str} {x : Json} {xs : List Json} : Derives leaf .value s x s₁ → Ws s₁ (44 :: s₂) →
      Ws s₂ s₃ → Derives leaf .elements s₃ (.list xs) r → Derives leaf .elements s (.list (x :: xs)) r

/-- A text with the meaning `j`. -/
def Text (leaf : Str → Json → Prop) (s : Str) (j : Json) : Prop :=
  ∃ s' r, Ws s s' ∧ Derives leaf .value s' j r ∧ Ws r []

/-- A text for an object, and its members as the text has them. -/
inductive ObjectText (leaf : Str → Json → Prop) : Str → List (Str × Json) → Prop
  | empty {s s₁ r : Str} : Ws s (123 :: s₁) → Ws s₁ (125 :: r) → Ws r [] → ObjectText leaf s []
  | members {s s₁ s₂ r : Str} {ms : List (Str × Json)} : Ws s (123 :: s₁) → Ws s₁ s₂ →
      Derives leaf .members s₂ (.dict ms) r → Ws r [] → ObjectText leaf s ms

/-! ## Nesting -/

/-- `k` containers open inside one another on the way through the text; what is behind the last bracket may be
anything. -/
inductive Opens (leaf : Str → Json → Prop) : Nat → Part → Str → Prop
  | bracket {c : Nat} {s : Str} : c = 123 ∨ c = 91 → Opens leaf 1 .value (c :: s)
  | object {k : Nat} {s s' : Str} : Ws s s' → Opens leaf k .members s' → Opens leaf (k + 1) .value (123 :: s)
  | array {k : Nat} {s s' : Str} : Ws s s' → Opens leaf k .elements s' → Opens leaf (k + 1) .value (91 :: s)
  | member {k : Nat} {s key s₁ s₂ s₃ : Str} : Chars s key s₁ → Ws s₁ (58 :: s₂) → Ws s₂ s₃ →
      Opens leaf k .value s₃ → Opens leaf k .members (quote :: s)
  | laterMember {k : Nat} {s key s₁ s₂ s₃ s₄ s₅ s₆ : Str} {x : Json} : Chars s key s₁ → Ws s₁ (58 :: s₂) →
      Ws s₂ s₃ → Derives leaf .value s₃ x s₄ → Ws s₄ (44 :: s₅) → Ws s₅ s₆ → Opens leaf k .members s₆ →
      Opens leaf k .members (quote :: s)
  | element {k : Nat} {s : Str} : Opens leaf k .value s → Opens leaf k .elements s
  | laterElement {k : Nat} {s s₁ s₂ s₃ : Str} {x : Json} : Derives leaf .value s x s₁ → Ws s₁ (44 :: s₂) →
      Ws s₂ s₃ → Opens leaf k .elements s₃ → Opens leaf k .elements s

/-- The containers of a text nest at least `k` deep. -/
def Deep (leaf : Str → Json → Prop) (k : Nat) (s : Str) : Prop := ∃ s', Ws s s' ∧ Opens leaf k .value s'

/-! ## Facts about derivations -/

variable {leaf leaf' : Str → Json → Prop} {p : Part} {s r : Str} {j : Json} {k : Nat} {ms : List (Str × Json)}

theorem words_literals {w : Str} (h : (w, j) ∈ words) : (w, j) ∈ literals := by
  simp only [words, literals, List.mem_cons, List.not_mem_nil, or_false] at h ⊢
  rcases h with h | h | h
  · exact .inl h
  · exact .inr (.inl h)
  · exact .inr (.inr (.inl h))

theorem Unsigned.mono {fits fits' : Nat → Prop} (hfits : ∀ n, fits n → fits' n) {sign : Nat → Int} {w : Str}
    (h : Unsigned fits sign w j) : Unsigned fits' sign w j := by
  cases h with
  | int hds hn => exact .int hds (hfits _ hn)
  | float hds hf he hx => exact .float hds hf he hx

theorem Number.mono {fits fits' : Nat → Prop} (hfits : ∀ n, fits n → fits' n) {w : Str} (h : Number fits w j) :
    Number fits' w j := by
  cases h with
  | positive h => exact .positive (h.mono hfits)
  | negative h => exact .negative (h.mono hfits)

/-- Python reads all of JSON, but for an integer that is too long. -/
theorem Standard.lenient {w : Str} (h : Standard w j) : Lenient False w j := by
  rcases h with h | h
  · exact .inl (h.mono fun _ _ hshort => hshort.elim)
  · exact .inr (words_literals h)

theorem Lenient.unbounded {short : Prop} {w : Str} (h : Lenient short w j) : Lenient False w j := by
  rcases h with h | h
  · exact .inl (h.mono fun _ _ hshort => hshort.elim)
  · exact .inr h

theorem Derives.mono (hleaf : ∀ w x, leaf w x → leaf' w x) (h : Derives leaf p s j r) : Derives leaf' p s j r := by
  induction h with
  | leaf hw => exact .leaf (hleaf _ _ hw)
  | string hs => exact .string hs
  | emptyObject hws => exact .emptyObject hws
  | object hws _ ih => exact .object hws ih
  | emptyArray hws => exact .emptyArray hws
  | array hws _ ih => exact .array hws ih
  | lastMember hkey hcolon hws _ hend ih => exact .lastMember hkey hcolon hws ih hend
  | member hkey hcolon hws _ hcomma hws' _ ih ih' => exact .member hkey hcolon hws ih hcomma hws' ih'
  | lastElement _ hend ih => exact .lastElement ih hend
  | element _ hcomma hws _ ih ih' => exact .element ih hcomma hws ih'

theorem ObjectText.mono (hleaf : ∀ w x, leaf w x → leaf' w x) (h : ObjectText leaf s ms) : ObjectText leaf' s ms := by
  cases h with
  | empty hws hend hrest => exact .empty hws hend hrest
  | members hws hws' hms hrest => exact .members hws hws' (hms.mono hleaf) hrest

/-- An integer or a string. -/
def Json.isSimple : Json → Bool
  | .int _ | .str _ => true
  | _ => false

theorem Lenient.simple {short : Prop} {w : Str} (h : Lenient short w j) (hj : j.isSimple = true) : Standard w j := by
  rcases h with h | h
  · exact .inl (h.mono fun _ _ => trivial)
  · simp only [literals, List.mem_cons, List.not_mem_nil, or_false, Prod.mk.injEq] at h
    rcases h with ⟨-, rfl⟩ | ⟨-, rfl⟩ | ⟨-, rfl⟩ | ⟨-, rfl⟩ | ⟨-, rfl⟩ | ⟨-, rfl⟩ <;> cases hj

/-- Integers, strings and members that have nothing else are written alike in both grammars. -/
theorem Derives.simple {short : Prop} (h : Derives (Lenient short) p s j r) :
    (p = .value → j.isSimple = true → Derives Standard .value s j r) ∧
    (p = .members → ∀ ms, j = .dict ms → (∀ q ∈ ms, q.2.isSimple = true) → Derives Standard .members s j r) := by
  induction h with
  | leaf hw => exact ⟨fun _ hj => .leaf (hw.simple hj), nofun⟩
  | string hs => exact ⟨fun _ _ => .string hs, nofun⟩
  | emptyObject _ => exact ⟨nofun, nofun⟩
  | object _ _ _ => exact ⟨nofun, nofun⟩
  | emptyArray _ => exact ⟨nofun, nofun⟩
  | array _ _ _ => exact ⟨nofun, nofun⟩
  | lastMember hkey hcolon hws _ hend ih =>
    refine ⟨nofun, fun _ ms hms hsimple => ?_⟩
    cases hms
    exact .lastMember hkey hcolon hws (ih.1 rfl (hsimple _ List.mem_cons_self)) hend
  | member hkey hcolon hws _ hcomma hws' _ ih ih' =>
    refine ⟨nofun, fun _ ms hms hsimple => ?_⟩
    cases hms
    exact .member hkey hcolon hws (ih.1 rfl (hsimple _ List.mem_cons_self)) hcomma hws'
      (ih'.2 rfl _ rfl fun q hq => hsimple q (List.mem_cons_of_mem _ hq))
  | lastElement _ _ _ => exact ⟨nofun, nofun⟩
  | element _ _ _ _ _ _ => exact ⟨nofun, nofun⟩

theorem ObjectText.simple {short : Prop} (h : ObjectText (Lenient short) s ms) (hms : ∀ q ∈ ms, q.2.isSimple = true) :
    ObjectText Standard s ms := by
  cases h with
  | empty hws hend hrest => exact .empty hws hend hrest
  | members hws hws' hd hrest => exact .members hws hws' (hd.simple.2 rfl ms rfl hms) hrest

/-- An object is a text for the dictionary of its members. -/
theorem ObjectText.text (h : ObjectText leaf s ms) : Text leaf s (.dict (asDict ms)) := by
  cases h with
  | empty hws hend hrest => exact ⟨_, _, hws, .emptyObject hend, hrest⟩
  | members hws hws' hms hrest => exact ⟨_, _, hws, .object hws' hms, hrest⟩

theorem dictSet_new {d : List (Str × Json)} {key : Str} {v : Json} (h : ∀ p ∈ d, p.1 ≠ key) :
    dictSet d key v = d ++ [(key, v)] := by
  rw [dictSet, if_neg]
  simp only [List.any_eq_true, beq_iff_eq, not_exists, not_and]
  exact h

theorem foldl_dictSet {entries d : List (Str × Json)} (hk : (entries.map (·.1)).Nodup)
    (hd : ∀ p ∈ d, ∀ q ∈ entries, p.1 ≠ q.1) :
    entries.foldl (fun d p => dictSet d p.1 p.2) d = d ++ entries := by
  induction entries generalizing d with
  | nil => simp
  | cons p entries ih =>
    rw [List.map_cons, List.nodup_cons] at hk
    rw [List.foldl_cons, dictSet_new fun q hq => hd q hq p List.mem_cons_self, ih hk.2]
    · simp
    · intro q hq r hr
      rcases List.mem_append.1 hq with hq | hq
      · exact hd q hq r (List.mem_cons_of_mem p hr)
      · obtain rfl := List.mem_singleton.1 hq
        intro heq
        exact hk.1 (heq ▸ List.mem_map_of_mem hr)

/-- Where no name is repeated, the dictionary has the members as they stand. -/
theorem asDict_nodup (h : (ms.map (·.1)).Nodup) : asDict ms = ms :=
  foldl_dictSet (d := []) h fun _ hp => (List.not_mem_nil hp).elim

theorem Opens.pos (h : Opens leaf k p s) : 1 ≤ k := by
  induction h with
  | bracket => exact Nat.le_refl 1
  | object _ _ ih => exact Nat.le_succ_of_le ih
  | array _ _ ih => exact Nat.le_succ_of_le ih
  | member _ _ _ _ ih => exact ih
  | laterMember _ _ _ _ _ _ _ ih => exact ih
  | element _ ih => exact ih
  | laterElement _ _ _ _ ih => exact ih

/-- The outer ones of the open containers. -/
theorem Opens.outer (h : Opens leaf k p s) : ∀ {i : Nat}, 1 ≤ i → i ≤ k → Opens leaf i p s := by
  induction h with
  | bracket hc =>
    intro i hpos hle
    obtain rfl : i = 1 := Nat.le_antisymm hle hpos
    exact .bracket hc
  | object hws _ ih =>
    intro i hpos hle
    rcases Nat.eq_or_lt_of_le hpos with rfl | hlt
    · exact .bracket (.inl rfl)
    · obtain ⟨i, rfl⟩ : ∃ n, i = n + 1 := ⟨i - 1, by omega⟩
      exact .object hws (ih (by omega) (by omega))
  | array hws _ ih =>
    intro i hpos hle
    rcases Nat.eq_or_lt_of_le hpos with rfl | hlt
    · exact .bracket (.inr rfl)
    · obtain ⟨i, rfl⟩ : ∃ n, i = n + 1 := ⟨i - 1, by omega⟩
      exact .array hws (ih (by omega) (by omega))
  | member hkey hcolon hws _ ih => exact fun hpos hle => .member hkey hcolon hws (ih hpos hle)
  | laterMember hkey hcolon hws hx hcomma hws' _ ih =>
    exact fun hpos hle => .laterMember hkey hcolon hws hx hcomma hws' (ih hpos hle)
  | element _ ih => exact fun hpos hle => .element (ih hpos hle)
  | laterElement hx hcomma hws _ ih => exact fun hpos hle => .laterElement hx hcomma hws (ih hpos hle)

theorem Deep.outer {i : Nat} (h : Deep leaf k s) (hpos : 1 ≤ i) (hle : i ≤ k) : Deep leaf i s := by
  obtain ⟨s', hws, hopens⟩ := h
  exact ⟨s', hws, hopens.outer hpos hle⟩

end Codec
