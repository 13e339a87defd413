import SpdkConnector.Codec.Reading
import Mathlib.Tactic.IntervalCases

/-!
# What `dumps` writes, `loads` reads

Each piece `dumps` writes is a part of the grammar, whatever follows it in the text; `loads_dumps` puts them
together for a flat object with distinct keys.
-/
namespace Codec

/-! ## Strings -/

/-- A code point that is not half of a surrogate pair. -/
def Scalar (c : Nat) : Prop := c < 0x110000 ∧ surrogate c = false

theorem hexValue_digit {v : Nat} (h : v < 16) : hexValue (hexDigit v) = some v := by
  interval_cases v <;> rfl

theorem hex4_escape {u : Nat} (hu : u < 0x10000) (rest : Str) :
    Hex4 (hexDigit (u / 4096 % 16) :: hexDigit (u / 256 % 16) :: hexDigit (u / 16 % 16) :: hexDigit (u % 16) :: rest)
      u rest := by
  have hsum : ((u / 4096 % 16 * 16 + u / 256 % 16) * 16 + u / 16 % 16) * 16 + u % 16 = u := by omega
  have hvalue : ∀ v, hexValue (hexDigit (v % 16)) = some (v % 16) := fun v => hexValue_digit (Nat.mod_lt _ (by decide))
  have hhex := Hex4.digits (hvalue (u / 4096)) (hvalue (u / 256)) (hvalue (u / 16)) (hvalue u) (r := rest)
  rwa [hsum] at hhex

section
variable {c : Nat} {s t r : Str}

theorem chars_unicode (hc : c < 0x10000) (hs : surrogate c = false) (h : Chars s t r) :
    Chars (unicodeEscape c ++ s) (c :: t) r := by
  refine .unicode (hex4_escape hc s) (fun hhigh => ?_) h
  simp only [surrogate, highSurrogate, Bool.and_eq_false_iff, Bool.and_eq_true, decide_eq_true_eq,
    decide_eq_false_iff_not] at hs hhigh
  omega

theorem chars_pair (hlow : 0x10000 ≤ c) (hhigh : c < 0x110000) (h : Chars s t r) :
    Chars (unicodeEscape (0xd800 + (c - 0x10000) / 0x400) ++ (unicodeEscape (0xdc00 + (c - 0x10000) % 0x400) ++ s))
      (c :: t) r := by
  have h1 : highSurrogate (0xd800 + (c - 0x10000) / 0x400) = true := by
    simp only [highSurrogate, Bool.and_eq_true, decide_eq_true_eq]
    omega
  have h2 : lowSurrogate (0xdc00 + (c - 0x10000) % 0x400) = true := by
    simp only [lowSurrogate, Bool.and_eq_true, decide_eq_true_eq]
    omega
  have hjoin : 0x10000 + (0xd800 + (c - 0x10000) / 0x400 - 0xd800) * 0x400 +
      (0xdc00 + (c - 0x10000) % 0x400 - 0xdc00) = c := by omega
  have hpair := Chars.pair (hex4_escape (by omega) _) h1 ⟨h2, _, rfl, hex4_escape (by omega) s⟩ h
  rwa [hjoin] at hpair

/-- A written character. -/
theorem chars_escapeChar (hc : Scalar c) (h : Chars s t r) : Chars (escapeChar c ++ s) (c :: t) r := by
  unfold escapeChar
  split
  · rename_i hc
    refine .escape ?_ h
    rcases hc with rfl | rfl <;> rfl
  · rename_i hplain
    split
    · rename_i hc
      exact .escape (by rw [hc]; rfl) h
    · split
      · rename_i hc
        exact .escape (by rw [hc]; rfl) h
      · split
        · rename_i hc
          exact .escape (by rw [hc]; rfl) h
        · split
          · rename_i hc
            exact .escape (by rw [hc]; rfl) h
          · split
            · rename_i hc
              exact .escape (by rw [hc]; rfl) h
            · split
              · rename_i hrange
                exact .plain (fun heq => hplain (.inl heq)) (fun heq => hplain (.inr heq)) hrange.1 h
              · split
                · rename_i hlow
                  exact chars_unicode hlow hc.2 h
                · rename_i hhigh
                  rw [List.append_assoc]
                  exact chars_pair (Nat.le_of_not_lt hhigh) hc.1 h

theorem chars_dump (h : ∀ c ∈ s, Scalar c) (rest : Str) : Chars (s.flatMap escapeChar ++ quote :: rest) s rest := by
  induction s with
  | nil => exact .close rest
  | cons c s ih =>
    rw [List.flatMap_cons, List.append_assoc]
    exact chars_escapeChar (h c List.mem_cons_self) (ih fun d hd => h d (List.mem_cons_of_mem c hd))

end

/-! ## Integers -/

theorem digitChar_digit {d : Nat} (h : d < 10) : isDigit d.digitChar.toNat = true := by
  interval_cases d <;> rfl

theorem digitChar_pos {d : Nat} (h : d < 10) (hd : d ≠ 0) : d.digitChar.toNat ≠ 48 := by
  interval_cases d <;> first | exact absurd rfl hd | decide

/-- The digits of a number: they are digits, denote it, and do not start with zero unless it is zero. -/
theorem dumpNat_digits (n : Nat) : ∀ c ∈ dumpNat n, isDigit c = true := by
  induction n using Nat.strongRecOn with
  | ind n ih =>
    unfold dumpNat
    rw [Nat.toDigits_eq_if (by decide)]
    split
    · rename_i hn
      intro c hc
      simp only [List.map_cons, List.map_nil, List.mem_singleton] at hc
      exact hc ▸ digitChar_digit hn
    · rename_i hn
      intro c hc
      rw [List.map_append, List.mem_append] at hc
      rcases hc with hc | hc
      · exact ih (n / 10) (by omega) c hc
      · simp only [List.map_cons, List.map_nil, List.mem_singleton] at hc
        exact hc ▸ digitChar_digit (Nat.mod_lt n (by decide))

theorem dumpNat_head {n : Nat} (hn : n ≠ 0) : (dumpNat n).head? ≠ some 48 := by
  induction n using Nat.strongRecOn with
  | ind n ih =>
    unfold dumpNat
    rw [Nat.toDigits_eq_if (by decide)]
    split
    · rename_i hlt
      intro h
      exact digitChar_pos hlt hn (Option.some.inj h)
    · rename_i hge
      have hq := ih (n / 10) (by omega) (by omega)
      rw [List.map_append]
      change (dumpNat (n / 10) ++ _).head? ≠ some 48
      rw [List.head?_append]
      cases hd : (dumpNat (n / 10)).head? with
      | none =>
        have := (List.head?_eq_none_iff.1 hd)
        have hne : Nat.toDigits 10 (n / 10) ≠ [] := Nat.toDigits_ne_nil
        simp [dumpNat] at this
      | some c =>
        rw [hd] at hq
        exact hq

theorem decimal_dumpNat (n : Nat) : decimal (dumpNat n) = n := by
  have hfold : ∀ (cs : List Char) (x : Nat), (cs.map Char.toNat).foldl (fun x c => x * 10 + (c - 48)) x =
      Nat.ofDigitChars 10 cs x := by
    intro cs
    induction cs with
    | nil => intro x; simp
    | cons c cs ih =>
      intro x
      rw [List.map_cons, List.foldl_cons, ih, Nat.ofDigitChars_cons, Nat.mul_comm]
      rfl
  rw [decimal, dumpNat, hfold, Nat.ofDigitChars_ten_toDigits]

theorem dumpNat_ne_nil (n : Nat) : dumpNat n ≠ [] := by
  simp [dumpNat]

theorem whole_dumpNat (n : Nat) : Whole (dumpNat n) := by
  refine ⟨⟨dumpNat_ne_nil n, dumpNat_digits n⟩, fun hzero => ?_⟩
  rcases Nat.eq_zero_or_pos n with rfl | hn
  · rfl
  · exact absurd hzero (dumpNat_head (by omega))

theorem number_dumpInt {n : Int} {t : Str} (ht : dumpInt n = some t) :
    Number (fun k => True → k ≤ maxStrDigits) t (.int n) := by
  unfold dumpInt at ht
  split at ht
  · cases ht
  · rename_i hlen
    have hwhole := whole_dumpNat n.natAbs
    have hfits := Nat.le_of_not_lt hlen
    obtain rfl := Option.some.inj ht
    split
    · have h : Unsigned (fun k => True → k ≤ maxStrDigits) (fun n => -(n : Int)) (dumpNat n.natAbs) _ :=
        .int hwhole fun _ => hfits
      rw [decimal_dumpNat, show -(n.natAbs : Int) = n by omega] at h
      exact .negative h
    · have h : Unsigned (fun k => True → k ≤ maxStrDigits) (fun n => n) (dumpNat n.natAbs) _ :=
        .int hwhole fun _ => hfits
      rw [decimal_dumpNat, show (n.natAbs : Int) = n by omega] at h
      exact .positive h

/-! ## Values and objects -/

/-- A value `dumpScalar` writes and the scanner reads back. -/
def Json.Plain : Json → Prop
  | .int n => (dumpNat n.natAbs).length ≤ maxStrDigits
  | .bool _ => True
  | .str s => ∀ c ∈ s, Scalar c
  | _ => False

variable {v : Json} {t : Str}

/-- A written value is a word or a number, or a string. -/
theorem dumpScalar_leaf (hv : v.Plain) (ht : dumpScalar v = some t) :
    Lenient True t v ∨ ∃ s, v = .str s ∧ t = dumpStr s ∧ ∀ c ∈ s, Scalar c := by
  cases v with
  | int n => exact .inl (.inl (number_dumpInt ht))
  | bool b =>
    refine .inl (.inr ?_)
    cases b <;> cases ht <;> simp [literals]
  | str s => exact .inr ⟨s, rfl, (Option.some.inj ht).symm, hv⟩
  | null => cases hv
  | float x => cases hv
  | list xs => cases hv
  | dict d => cases hv

theorem dumpStr_append (s rest : Str) : dumpStr s ++ rest = quote :: (s.flatMap escapeChar ++ quote :: rest) := by
  simp [dumpStr]

theorem scanOnce_plain (hv : v.Plain) (ht : dumpScalar v = some t) {rest : Str} (hrest : Follow rest) (m limit : Nat) :
    scanOnce (m + 1) limit (t ++ rest) = .ok (v, rest) := by
  rcases dumpScalar_leaf hv ht with hleaf | ⟨s, rfl, rfl, hs⟩
  · exact (hleaf.scan hrest m limit).resolve_right fun h => h.1 trivial
  · rw [dumpStr_append]
    exact scanOnce_string (chars_dump hs rest)

theorem derives_plain (hv : v.Plain) (ht : dumpScalar v = some t) (rest : Str) :
    Derives (Lenient True) .value (t ++ rest) v rest := by
  rcases dumpScalar_leaf hv ht with hleaf | ⟨s, rfl, rfl, hs⟩
  · exact .leaf hleaf
  · rw [dumpStr_append]
    exact .string (chars_dump hs rest)

/-- What a written value starts with is not white space. -/
theorem dumpScalar_head (hv : v.Plain) (ht : dumpScalar v = some t) (rest : Str) : skipSpace (t ++ rest) = t ++ rest :=
  ((derives_plain hv ht rest).begins.skip (.done _)).1

def Entry.Plain (p : Str × Json) : Prop := (∀ c ∈ p.1, Scalar c) ∧ p.2.Plain

theorem dumpMembers_quote {p : Str × Json} {entries : List (Str × Json)} (ht : dumpMembers (p :: entries) = some t) :
    ∃ r, t = quote :: r := by
  cases entries with
  | nil =>
    simp only [dumpMembers, Option.map_eq_some_iff] at ht
    obtain ⟨_, -, rfl⟩ := ht
    exact ⟨_, rfl⟩
  | cons q entries =>
    simp only [dumpMembers, Option.bind_eq_some_iff, Option.map_eq_some_iff] at ht
    obtain ⟨_, -, _, -, rfl⟩ := ht
    exact ⟨_, rfl⟩

/-- What is written is in the grammar. -/
theorem derives_dump {entries : List (Str × Json)} (hne : entries ≠ []) (h : ∀ p ∈ entries, Entry.Plain p)
    (ht : dumpMembers entries = some t) (rest : Str) :
    Derives (Lenient True) .members (t ++ 125 :: rest) (.dict entries) rest := by
  induction entries generalizing t with
  | nil => exact absurd rfl hne
  | cons p entries ih =>
    obtain ⟨key, v⟩ := p
    obtain ⟨hkey, hv⟩ := h (key, v) List.mem_cons_self
    cases entries with
    | nil =>
      simp only [dumpMembers, Option.map_eq_some_iff] at ht
      obtain ⟨tv, htv, rfl⟩ := ht
      rw [List.append_assoc, dumpStr_append, List.cons_append]
      exact .lastMember (chars_dump hkey _) (.done _) (.done _) (derives_plain hv htv _) (.done _)
    | cons p' entries =>
      simp only [dumpMembers, Option.bind_eq_some_iff, Option.map_eq_some_iff] at ht
      obtain ⟨tv, htv, tr, htr, rfl⟩ := ht
      rw [List.append_assoc, dumpStr_append, List.cons_append, List.append_assoc, List.cons_append]
      exact .member (chars_dump hkey _) (.done _) (.done _) (derives_plain hv htv _) (.done _) (.done _)
        (ih (List.cons_ne_nil _ _) (fun q hq => h q (List.mem_cons_of_mem _ hq)) htr)

theorem dumps_text {entries : List (Str × Json)} (hne : entries ≠ []) (h : ∀ p ∈ entries, Entry.Plain p) {s : Str}
    (hs : dumps entries = some s) : ObjectText (Lenient True) s entries := by
  obtain ⟨t, ht, rfl⟩ := Option.map_eq_some_iff.1 hs
  exact .members (.done _) (.done _) (derives_dump hne h ht []) (.done _)

theorem parseMembers_dump {entries : List (Str × Json)} (hne : entries ≠ [])
    (h : ∀ p ∈ entries, Entry.Plain p) (ht : dumpMembers entries = some t) {n : Nat}
    (hn : entries.length < n) (limit : Nat) (d : List (Str × Json)) (rest : Str) :
    parseMembers n limit d (t ++ 125 :: rest) =
      .ok (.dict (entries.foldl (fun d p => dictSet d p.1 p.2) d), rest) := by
  induction entries generalizing n t d with
  | nil => exact absurd rfl hne
  | cons p entries ih =>
    obtain ⟨key, v⟩ := p
    obtain ⟨hkey, hv⟩ := h (key, v) List.mem_cons_self
    obtain ⟨m, rfl⟩ : ∃ m, n = m + 2 := ⟨n - 2, by simp only [List.length_cons] at hn; omega⟩
    cases entries with
    | nil =>
      simp only [dumpMembers, Option.map_eq_some_iff] at ht
      obtain ⟨tv, htv, rfl⟩ := ht
      have hend := Ws.done (125 :: rest)
      rw [List.append_assoc, dumpStr_append, List.cons_append]
      exact parseMembers_last (chars_dump hkey _) (.done _) (dumpScalar_head hv htv _)
        (scanOnce_plain hv htv (hend.follow (by decide)) m limit) hend
    | cons p' entries =>
      simp only [dumpMembers, Option.bind_eq_some_iff, Option.map_eq_some_iff] at ht
      obtain ⟨tv, htv, tr, htr, rfl⟩ := ht
      obtain ⟨r, hr⟩ := dumpMembers_quote htr
      have hskip : skipSpace (tr ++ 125 :: rest) = tr ++ 125 :: rest := by
        rw [hr]
        exact skipSpace_cons rfl _
      have hcomma := Ws.done (44 :: (tr ++ 125 :: rest))
      rw [List.append_assoc, dumpStr_append, List.cons_append, List.append_assoc, List.cons_append,
        parseMembers_next (chars_dump hkey _) (.done _) (dumpScalar_head hv htv _)
          (scanOnce_plain hv htv (hcomma.follow (by decide)) m limit) hcomma hskip,
        ih (List.cons_ne_nil _ _) (fun q hq => h q (List.mem_cons_of_mem _ hq)) htr
          (by simp only [List.length_cons] at hn ⊢; omega)]
      rfl

theorem dumpMembers_length {entries : List (Str × Json)} {t : Str} (ht : dumpMembers entries = some t) :
    entries.length ≤ t.length := by
  induction entries generalizing t with
  | nil => exact Nat.zero_le _
  | cons p entries ih =>
    obtain ⟨key, v⟩ := p
    cases entries with
    | nil =>
      simp only [dumpMembers, Option.map_eq_some_iff] at ht
      obtain ⟨_, -, rfl⟩ := ht
      simp [dumpStr]
    | cons p' entries =>
      simp only [dumpMembers, Option.bind_eq_some_iff, Option.map_eq_some_iff] at ht
      obtain ⟨_, -, tr, htr, rfl⟩ := ht
      have := ih htr
      simp only [List.length_cons, List.length_append] at this ⊢
      omega

/-- **Round trip**: an object of integers, booleans and texts with distinct keys is read back. -/
theorem loads_dumps {entries : List (Str × Json)} (hne : entries ≠ []) (h : ∀ p ∈ entries, Entry.Plain p)
    (hk : (entries.map (·.1)).Nodup) {s : Str} (hs : dumps entries = some s) (limit : Nat) :
    loads (limit + 1) s = .ok (.dict entries) := by
  obtain ⟨t, ht, rfl⟩ := Option.map_eq_some_iff.1 hs
  have hlen := dumpMembers_length ht
  have hquote : ∃ r, t = quote :: r := by
    cases entries with
    | nil => exact absurd rfl hne
    | cons p entries => exact dumpMembers_quote ht
  obtain ⟨r, hr⟩ := hquote
  have hskip : skipSpace (t ++ [125]) = t ++ [125] := by
    rw [hr]
    exact skipSpace_cons rfl _
  have hbody : (t ++ [125]).head? ≠ some 125 := by
    rw [hr]
    simp [quote]
  have hmembers := parseMembers_dump hne h ht (n := 2 * (t ++ [125]).length + 2)
    (by simp only [List.length_append, List.length_cons, List.length_nil]; omega) limit [] []
  rw [foldl_dictSet hk (fun _ hp => (List.not_mem_nil hp).elim), List.nil_append] at hmembers
  have hfuel : 2 * (123 :: (t ++ [125])).length + 1 = 2 * (t ++ [125]).length + 2 + 1 := by
    simp only [List.length_cons]
    omega
  rw [loads, if_neg (by simp), skipSpace_cons rfl, hfuel, scanOnce.eq_def]
  dsimp only
  rw [if_neg (by decide), if_pos rfl, hskip, if_neg hbody, hmembers]
  rfl

/-! ## The text is ASCII -/

theorem hexDigit_ascii (u : Nat) : hexDigit (u % 16) < 0x80 := by
  have := Nat.mod_lt u (by decide : 0 < 16)
  unfold hexDigit
  split <;> omega

theorem ascii_nil : Ascii [] := fun _ h => nomatch h

theorem unicodeEscape_ascii (u : Nat) : Ascii (unicodeEscape u) :=
  .cons (by decide) (.cons (by decide) (.cons (hexDigit_ascii _) (.cons (hexDigit_ascii _)
    (.cons (hexDigit_ascii _) (.cons (hexDigit_ascii _) ascii_nil)))))

theorem escapeChar_ascii (c : Nat) : Ascii (escapeChar c) := by
  unfold escapeChar
  split
  · rename_i h
    refine .cons (by decide) (.cons ?_ ascii_nil)
    rcases h with rfl | rfl <;> decide
  · split_ifs
    · exact .cons (by decide) (.cons (by decide) ascii_nil)
    · exact .cons (by decide) (.cons (by decide) ascii_nil)
    · exact .cons (by decide) (.cons (by decide) ascii_nil)
    · exact .cons (by decide) (.cons (by decide) ascii_nil)
    · exact .cons (by decide) (.cons (by decide) ascii_nil)
    · exact .cons (by omega) ascii_nil
    · exact unicodeEscape_ascii c
    · exact (unicodeEscape_ascii _).append (unicodeEscape_ascii _)

theorem dumpStr_ascii (s : Str) : Ascii (dumpStr s) := by
  refine .cons (by decide) (.append ?_ (.cons (by decide) ascii_nil))
  intro c hc
  obtain ⟨d, -, hd⟩ := List.mem_flatMap.1 hc
  exact escapeChar_ascii d c hd

theorem dumpNat_ascii (n : Nat) : Ascii (dumpNat n) := by
  intro c hc
  have h : 48 ≤ c ∧ c ≤ 57 := by simpa [isDigit] using dumpNat_digits n c hc
  omega

theorem dumpScalar_ascii {v : Json} {t : Str} (h : dumpScalar v = some t) : Ascii t := by
  cases v with
  | null =>
    obtain rfl := Option.some.inj h
    unfold Ascii
    decide
  | bool b =>
    cases b <;>
    · obtain rfl := Option.some.inj h
      unfold Ascii
      decide
  | int n =>
    simp only [dumpScalar, dumpInt] at h
    split at h
    · cases h
    · obtain rfl := Option.some.inj h
      split
      · exact .cons (by decide) (dumpNat_ascii _)
      · exact dumpNat_ascii _
  | str s =>
    obtain rfl := Option.some.inj h
    exact dumpStr_ascii s
  | float x => cases h
  | list xs => cases h
  | dict d => cases h

theorem dumpMembers_ascii {entries : List (Str × Json)} {t : Str} (h : dumpMembers entries = some t) :
    Ascii t := by
  induction entries generalizing t with
  | nil =>
    obtain rfl := Option.some.inj h
    exact ascii_nil
  | cons p entries ih =>
    obtain ⟨key, v⟩ := p
    cases entries with
    | nil =>
      simp only [dumpMembers, Option.map_eq_some_iff] at h
      obtain ⟨tv, hv, rfl⟩ := h
      exact (dumpStr_ascii key).append (.cons (by decide) (dumpScalar_ascii hv))
    | cons p' entries =>
      simp only [dumpMembers, Option.bind_eq_some_iff, Option.map_eq_some_iff] at h
      obtain ⟨tv, hv, tr, hr, rfl⟩ := h
      exact (dumpStr_ascii key).append (.cons (by decide)
        ((dumpScalar_ascii hv).append (.cons (by decide) (ih hr))))

theorem dumps_ascii {entries : List (Str × Json)} {s : Str} (h : dumps entries = some s) : Ascii s := by
  obtain ⟨t, ht, rfl⟩ := Option.map_eq_some_iff.1 h
  exact .cons (by decide) ((dumpMembers_ascii ht).append (.cons (by decide) ascii_nil))

end Codec
