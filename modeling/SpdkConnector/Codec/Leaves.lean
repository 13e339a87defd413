import SpdkConnector.Codec.Grammar
import SpdkConnector.Codec.JsonScan
import Mathlib.Data.List.TakeWhile

/-!
# The leaves of a JSON text are read

White space, strings, numbers and words: each function of the scanner is a relation of the grammar. It takes the
longest part there is, which is the only one where the rest of the text cannot go on with it (`Follow`).
-/
namespace Codec

variable {s r t q : Str}

/-! ## White space and strings -/

theorem skipSpace_cons {c : Nat} (h : isSpace c = false) (s : Str) : skipSpace (c :: s) = c :: s := by
  simp [skipSpace, h]

theorem ws_skipSpace (s : Str) : Ws s (skipSpace s) := by
  induction s with
  | nil => exact .done _
  | cons c s ih =>
    cases hc : isSpace c with
    | true =>
      have hskip : skipSpace (c :: s) = skipSpace s := by simp [skipSpace, hc]
      rw [hskip]
      exact .space hc ih
    | false =>
      rw [skipSpace_cons hc]
      exact .done _

theorem Ws.skipSpace_eq (h : Ws s r) : skipSpace s = skipSpace r := by
  induction h with
  | done s => rfl
  | @space c s r hc h ih => rw [← ih, skipSpace, List.dropWhile_cons_of_pos hc, skipSpace]

theorem Ws.skip {c : Nat} (h : Ws s (c :: r)) (hc : isSpace c = false) : skipSpace s = c :: r := by
  rw [h.skipSpace_eq, skipSpace_cons hc]

theorem Ws.eq_cons {c : Nat} (h : Ws (c :: s) r) (hc : isSpace c = false) : r = c :: s := by
  cases h with
  | done => rfl
  | space hspace _ =>
    rw [hc] at hspace
    cases hspace

theorem hex4_iff {u : Nat} : scanHex4 s = some (u, r) ↔ Hex4 s u r := by
  constructor
  · intro h
    unfold scanHex4 at h
    split at h
    · split at h
      · rename_i ha hb hc hd
        cases h
        exact .digits ha hb hc hd
      · cases h
    · cases h
  · rintro ⟨ha, hb, hc, hd⟩
    simp only [scanHex4, ha, hb, hc, hd]

theorem lowHalf_iff {v : Nat} : LowHalf s v r ↔
    s.take 2 = [backslash, 117] ∧ scanHex4 (s.drop 2) = some (v, r) ∧ lowSurrogate v = true := by
  constructor
  · rintro ⟨hlow, s', rfl, hhex⟩
    exact ⟨rfl, hex4_iff.2 hhex, hlow⟩
  · rintro ⟨htake, hhex, hlow⟩
    refine ⟨hlow, s.drop 2, ?_, hex4_iff.1 hhex⟩
    have hsplit := List.take_append_drop 2 s
    rw [htake] at hsplit
    exact hsplit.symm

/-- One escape, or the two halves of a pair. -/
theorem scanUnicode_some {c : Nat} (h : scanUnicode s = some (c, r)) :
    (Hex4 s c r ∧ (highSurrogate c = true → ∀ v q, ¬ LowHalf r v q)) ∨
    ∃ u v s', Hex4 s u s' ∧ highSurrogate u = true ∧ LowHalf s' v r ∧
      c = 0x10000 + (u - 0xd800) * 0x400 + (v - 0xdc00) := by
  unfold scanUnicode at h
  split at h
  · cases h
  · rename_i u rest hhex
    split at h
    · rename_i hfirst
      split at h
      · cases h
      · rename_i v rest' hhex'
        split at h
        · rename_i hlow
          simp only [Option.some.injEq, Prod.mk.injEq] at h
          obtain ⟨hc, rfl⟩ := h
          exact .inr ⟨u, v, rest, hex4_iff.1 hhex, hfirst.1, lowHalf_iff.2 ⟨hfirst.2, hhex', hlow⟩, hc.symm⟩
        · rename_i hlow
          cases h
          refine .inl ⟨hex4_iff.1 hhex, fun _ w q hhalf => ?_⟩
          obtain ⟨-, hw, hlow'⟩ := lowHalf_iff.1 hhalf
          rw [hhex'] at hw
          cases hw
          exact hlow hlow'
    · rename_i hfirst
      cases h
      exact .inl ⟨hex4_iff.1 hhex, fun hhigh w q hhalf => hfirst ⟨hhigh, (lowHalf_iff.1 hhalf).1⟩⟩

theorem chars_scan {n : Nat} (h : scanString n s = some (t, r)) : Chars s t r := by
  induction n generalizing s t with
  | zero => cases h
  | succ n ih =>
    rw [scanString] at h
    split at h
    · rename_i hquote
      cases h
      cases s with
      | nil => cases hquote
      | cons c s =>
        obtain rfl := Option.some.inj hquote
        exact .close s
    · rename_i hquote
      simp only [Option.bind_eq_some_iff, Option.map_eq_some_iff, Prod.mk.injEq, Prod.exists] at h
      obtain ⟨c, rest, hc, t, r', hs, rfl, rfl⟩ := h
      have hchars := ih hs
      unfold scanChar at hc
      split at hc
      · cases hc
      · rename_i d tail
        have hd : d ≠ quote := fun heq => hquote (by rw [heq]; rfl)
        split at hc
        · rename_i hback
          subst hback
          split at hc
          · cases hc
          · rename_i e tail
            split at hc
            · rename_i he
              subst he
              rcases scanUnicode_some hc with ⟨hhex, hlone⟩ | ⟨u, v, s', hhex, hhigh, hlow, hpair⟩
              · exact .unicode hhex hlone hchars
              · rw [hpair]
                exact .pair hhex hhigh hlow hchars
            · obtain ⟨c', hc', heq⟩ := Option.map_eq_some_iff.1 hc
              cases heq
              exact .escape hc' hchars
        · rename_i hback
          split at hc
          · cases hc
          · rename_i hlow
            cases hc
            exact .plain hd hback (Nat.le_of_not_lt hlow) hchars

/-- The digits that four places behind `\u` must be. -/
theorem Chars.digits (h : Chars (backslash :: 117 :: q) t r) : ∃ p, scanHex4 q = some p := by
  generalize hs : backslash :: 117 :: q = s at h
  cases h with
  | close r =>
    simp [backslash, quote] at hs
  | plain _ hback =>
    simp only [List.cons.injEq] at hs
    exact absurd hs.1.symm hback
  | escape he =>
    simp only [List.cons.injEq] at hs
    obtain ⟨-, rfl, -⟩ := hs
    simp [unescape, quote, backslash] at he
  | unicode hhex =>
    simp only [List.cons.injEq, true_and] at hs
    exact ⟨_, hs ▸ hex4_iff.2 hhex⟩
  | pair hhex =>
    simp only [List.cons.injEq, true_and] at hs
    exact ⟨_, hs ▸ hex4_iff.2 hhex⟩

theorem scanChar_plain {c : Nat} (hback : c ≠ backslash) (hlow : 32 ≤ c) : scanChar (c :: s) = some (c, s) := by
  simp [scanChar.eq_def, hback, Nat.not_lt.2 hlow]

theorem scanChar_simple {e c : Nat} (he : unescape e = some c) : scanChar (backslash :: e :: s) = some (c, s) := by
  have hnot : e ≠ 117 := by
    rintro rfl
    simp [unescape, quote, backslash] at he
  simp [scanChar.eq_def, hnot, he]

theorem scanChar_unicode (rest : Str) : scanChar (backslash :: 117 :: rest) = scanUnicode rest := rfl

/-- A character and the rest of its string. -/
theorem scanString_char {n c : Nat} (hchar : scanChar s = some (c, q)) (hquote : s.head? ≠ some quote)
    (hrest : scanString n q = some (t, r)) : scanString (n + 1) s = some (c :: t, r) := by
  rw [scanString, if_neg hquote, hchar, Option.bind_some, hrest]
  rfl

theorem Chars.scan (h : Chars s t r) : ∀ {n : Nat}, s.length ≤ n → scanString n s = some (t, r) := by
  induction h with
  | close r =>
    intro n hn
    obtain ⟨n, rfl⟩ : ∃ k, n = k + 1 := ⟨n - 1, by simp only [List.length_cons] at hn; omega⟩
    rw [scanString, if_pos (by rfl)]
    rfl
  | @plain c s t r hquote hback hlow _ ih =>
    intro n hn
    simp only [List.length_cons] at hn
    obtain ⟨n, rfl⟩ : ∃ k, n = k + 1 := ⟨n - 1, by omega⟩
    exact scanString_char (scanChar_plain hback hlow) (fun heq => hquote (Option.some.inj heq)) (ih (by omega))
  | @escape e c s t r he _ ih =>
    intro n hn
    simp only [List.length_cons] at hn
    obtain ⟨n, rfl⟩ : ∃ k, n = k + 1 := ⟨n - 1, by omega⟩
    exact scanString_char (scanChar_simple he) (by simp [backslash, quote]) (ih (by omega))
  | @unicode u s s' t r hu hlone hrest ih =>
    intro n hn
    simp only [List.length_cons] at hn
    obtain ⟨n, rfl⟩ : ∃ k, n = k + 1 := ⟨n - 1, by omega⟩
    have hlen := scanHex4_length (hex4_iff.2 hu)
    refine scanString_char ?_ (by simp [backslash, quote]) (ih (by omega))
    rw [scanChar_unicode, scanUnicode, hex4_iff.2 hu]
    dsimp only
    split
    · rename_i hfirst
      split
      · rename_i hnone
        obtain ⟨p, hp⟩ : ∃ p, scanHex4 (s'.drop 2) = some p := by
          have hsplit := List.take_append_drop 2 s'
          rw [hfirst.2] at hsplit
          exact Chars.digits (hsplit ▸ hrest)
        rw [hnone] at hp
        cases hp
      · rename_i v rest' hv
        rw [if_neg fun hlow => hlone hfirst.1 v rest' (lowHalf_iff.2 ⟨hfirst.2, hv, hlow⟩)]
    · rfl
  | @pair u v s s' s'' t r hu hhigh hv _ ih =>
    intro n hn
    simp only [List.length_cons] at hn
    obtain ⟨n, rfl⟩ : ∃ k, n = k + 1 := ⟨n - 1, by omega⟩
    have hlen := scanHex4_length (hex4_iff.2 hu)
    obtain ⟨htake, hhex, hlow⟩ := lowHalf_iff.1 hv
    have hlen' := scanHex4_length hhex
    have hdrop : (s'.drop 2).length ≤ s'.length := by simp
    refine scanString_char ?_ (by simp [backslash, quote]) (ih (by omega))
    rw [scanChar_unicode, scanUnicode, hex4_iff.2 hu]
    dsimp only
    rw [if_pos ⟨hhigh, htake⟩, hhex]
    dsimp only
    rw [if_pos hlow]

/-- Only one string stands behind a quote. -/
theorem Chars.unique {t' r' : Str} (h : Chars s t r) (h' : Chars s t' r') : t = t' ∧ r = r' := by
  have heq := (h.scan (Nat.le_refl _)).symm.trans (h'.scan (Nat.le_refl _))
  simpa using heq

theorem chars_plain (h : ∀ c ∈ t, c ≠ quote ∧ c ≠ backslash ∧ 32 ≤ c) (r : Str) : Chars (t ++ quote :: r) t r := by
  induction t with
  | nil => exact .close r
  | cons c t ih =>
    obtain ⟨hquote, hback, hlow⟩ := h c List.mem_cons_self
    exact .plain hquote hback hlow (ih fun d hd => h d (List.mem_cons_of_mem c hd))

/-! ## Numbers and words -/

/-- What may stand behind a value. -/
def Follow (r : Str) : Prop := ∀ c, r.head? = some c → isSpace c = true ∨ c = 44 ∨ c = 93 ∨ c = 125

theorem Follow.stops (h : Follow r) : (∀ c, r.head? = some c → isDigit c = false) ∧ r.head? ≠ some 46 ∧
    r.head? ≠ some 101 ∧ r.head? ≠ some 69 := by
  have hnot : ∀ c, c = 46 ∨ c = 101 ∨ c = 69 → r.head? ≠ some c := by
    rintro c hc heq
    rcases hc with rfl | rfl | rfl
    all_goals
      have := h _ heq
      simp [isSpace] at this
  refine ⟨?_, hnot _ (.inl rfl), hnot _ (.inr (.inl rfl)), hnot _ (.inr (.inr rfl))⟩
  intro c hc
  have hc := h c hc
  simp only [isSpace, Bool.or_eq_true, beq_iff_eq, isDigit, Bool.and_eq_false_iff, decide_eq_false_iff_not] at hc ⊢
  omega

theorem Ws.follow {c : Nat} (h : Ws s (c :: r)) (hc : c = 44 ∨ c = 93 ∨ c = 125) : Follow s := by
  cases h with
  | done =>
    intro d hd
    obtain rfl := Option.some.inj hd
    exact .inr hc
  | space hspace _ =>
    intro d hd
    obtain rfl := Option.some.inj hd
    exact .inl hspace

theorem Ws.follow_end (h : Ws s []) : Follow s := by
  cases h with
  | done =>
    intro d hd
    cases hd
  | space hspace _ =>
    intro d hd
    obtain rfl := Option.some.inj hd
    exact .inl hspace

theorem takeWhile_stop {ds : Str} (h : ∀ c ∈ ds, isDigit c = true) (hr : ∀ c, r.head? = some c → isDigit c = false) :
    (ds ++ r).takeWhile isDigit = ds ∧ (ds ++ r).dropWhile isDigit = r := by
  rw [List.takeWhile_append_of_pos h, List.dropWhile_append_of_pos h]
  cases r with
  | nil => simp
  | cons c r => simp [hr c rfl]

theorem takeWhile_all (s : Str) : ∀ c ∈ s.takeWhile isDigit, isDigit c = true := fun _ => List.mem_takeWhile_imp

theorem Whole.scan {ds : Str} (h : Whole ds) (hr : ∀ c, r.head? = some c → isDigit c = false) :
    scanInteger (ds ++ r) = (ds, r) := by
  obtain ⟨⟨hne, hdigits⟩, hzero⟩ := h
  unfold scanInteger
  by_cases h0 : ds.head? = some 48
  · rw [hzero h0]
    rfl
  · have hhead : (ds ++ r).head? ≠ some 48 := by
      cases ds with
      | nil => exact absurd rfl hne
      | cons d ds => exact h0
    obtain ⟨htake, hdrop⟩ := takeWhile_stop hdigits hr
    rw [if_neg hhead, htake, hdrop]

theorem whole_scan {ds : Str} (h : scanInteger s = (ds, r)) (hne : ds ≠ []) : Whole ds ∧ s = ds ++ r := by
  unfold scanInteger at h
  split at h
  · rename_i h0
    cases h
    cases s with
    | nil => cases h0
    | cons c s =>
      obtain rfl := Option.some.inj h0
      exact ⟨⟨⟨hne, by decide⟩, fun _ => rfl⟩, rfl⟩
  · rename_i h0
    cases h
    refine ⟨⟨⟨hne, takeWhile_all s⟩, fun hhead => ?_⟩, List.takeWhile_append_dropWhile.symm⟩
    cases s with
    | nil => cases hhead
    | cons c s =>
      rw [List.takeWhile_cons] at hhead
      split at hhead
      · exact absurd hhead h0
      · cases hhead

theorem Fraction.scan {f fs : Str} (h : Fraction f fs) (hr : ∀ c, r.head? = some c → isDigit c = false)
    (hdot : r.head? ≠ some 46) : scanFraction (f ++ r) = (fs, r) := by
  unfold scanFraction
  cases h with
  | absent =>
    rw [List.nil_append, if_neg fun hand => hdot hand.1]
  | @digits ds hds =>
    obtain ⟨htake, hdrop⟩ := takeWhile_stop hds.2 hr
    rw [List.cons_append, List.tail_cons, htake, hdrop, if_pos ⟨rfl, hds.1⟩]

theorem fraction_scan {fs : Str} (h : scanFraction s = (fs, r)) : ∃ f, Fraction f fs ∧ s = f ++ r := by
  unfold scanFraction at h
  split at h
  · rename_i hdot
    cases h
    refine ⟨46 :: s.tail.takeWhile isDigit, .digits ⟨hdot.2, takeWhile_all _⟩, ?_⟩
    rw [List.cons_append, List.takeWhile_append_dropWhile]
    cases s with
    | nil => cases hdot.1
    | cons c s =>
      obtain rfl := Option.some.inj hdot.1
      rfl
  · cases h
    exact ⟨[], .absent, rfl⟩

/-- Digits behind `e` and a sign. -/
theorem exponent_body (negative : Bool) {ds body : Str} {e : Nat} (he : e = 101 ∨ e = 69) (hds : Digits ds)
    (hsign : scanSign body = (negative, ds ++ r)) (hr : ∀ c, r.head? = some c → isDigit c = false) :
    scanExponent (e :: body) = (some (if negative then -(decimal ds : Int) else decimal ds), r) := by
  obtain ⟨htake, hdrop⟩ := takeWhile_stop hds.2 hr
  unfold scanExponent
  rw [if_pos (by rcases he with rfl | rfl <;> simp), List.tail_cons, hsign]
  dsimp only
  rw [htake, hdrop, if_neg hds.1]

theorem Exponent.scan {e : Str} {x : Option Int} (h : Exponent e x) (hr : Follow r) : scanExponent (e ++ r) = (x, r) := by
  obtain ⟨hdigit, -, h101, h69⟩ := hr.stops
  cases h with
  | absent =>
    unfold scanExponent
    rw [List.nil_append, if_neg (by simp [h101, h69])]
  | @plain e ds he hds =>
    refine exponent_body false he hds ?_ hdigit
    cases ds with
    | nil => exact absurd rfl hds.1
    | cons d ds =>
      have hd := hds.2 d (by simp)
      have hne : d ≠ 45 ∧ d ≠ 43 := by
        constructor <;> rintro rfl <;> cases hd
      simp [scanSign, hne]
  | plus he hds => exact exponent_body false he hds rfl hdigit
  | minus he hds => exact exponent_body true he hds rfl hdigit

theorem exponent_scan {x : Option Int} (h : scanExponent s = (x, r)) : ∃ e, Exponent e x ∧ s = e ++ r := by
  unfold scanExponent at h
  split at h
  · rename_i hfirst
    obtain ⟨e, t, rfl, he⟩ : ∃ e t, s = e :: t ∧ (e = 101 ∨ e = 69) := by
      cases s with
      | nil => simp at hfirst
      | cons e t => exact ⟨e, t, rfl, by simpa using hfirst⟩
    dsimp only [List.tail_cons] at h
    split at h
    · cases h
      exact ⟨[], .absent, rfl⟩
    · rename_i hne
      cases h
      have hsplit := List.takeWhile_append_dropWhile (p := isDigit) (l := (scanSign t).2)
      have hds : Digits ((scanSign t).2.takeWhile isDigit) := ⟨hne, takeWhile_all _⟩
      unfold scanSign at hsplit hds ⊢
      cases t with
      | nil => simp [Digits] at hds
      | cons c t =>
        by_cases hminus : c = 45
        · subst hminus
          refine ⟨_, .minus he hds, ?_⟩
          rw [List.cons_append, List.cons_append]
          exact congrArg (fun x => e :: 45 :: x) hsplit.symm
        · by_cases hplus : c = 43
          · subst hplus
            refine ⟨_, .plus he hds, ?_⟩
            rw [List.cons_append, List.cons_append]
            exact congrArg (fun x => e :: 43 :: x) hsplit.symm
          · simp only [List.head?_cons, Option.some.injEq, hminus, hplus, if_false] at hsplit hds ⊢
            refine ⟨_, .plain he hds, ?_⟩
            rw [List.cons_append, hsplit]
  · cases h
    exact ⟨[], .absent, rfl⟩

variable {short : Prop} {sign : Nat → Int} {w : Str} {j : Json}

theorem Fraction.stops {f fs : Str} (h : Fraction f fs) (hr : ∀ c, r.head? = some c → isDigit c = false) :
    ∀ c, (f ++ r).head? = some c → isDigit c = false := by
  cases h with
  | absent => exact hr
  | digits _ =>
    intro c hc
    obtain rfl := Option.some.inj hc
    rfl

theorem Exponent.stops {e : Str} {x : Option Int} (h : Exponent e x) (hr : Follow r) :
    (∀ c, (e ++ r).head? = some c → isDigit c = false) ∧ (e ++ r).head? ≠ some 46 := by
  have hfirst : ∀ {e : Nat} {t : Str}, e = 101 ∨ e = 69 →
      (∀ c, (e :: t).head? = some c → isDigit c = false) ∧ (e :: t).head? ≠ some 46 := by
    rintro e t (rfl | rfl) <;> simp [isDigit]
  cases h with
  | absent => exact ⟨hr.stops.1, hr.stops.2.1⟩
  | plain he _ => exact hfirst he
  | plus he _ => exact hfirst he
  | minus he _ => exact hfirst he

theorem Unsigned.scan (h : Unsigned (fun n => short → n ≤ maxStrDigits) sign w j) (hr : Follow r) :
    scanUnsigned sign (w ++ r) = .ok (j, r) ∨ ¬ short ∧ scanUnsigned sign (w ++ r) = .error .digits := by
  unfold scanUnsigned
  cases h with
  | @int ds hds hfits =>
    have hexp := Exponent.absent.scan hr
    have hfrac := Fraction.absent.scan hr.stops.1 hr.stops.2.1
    rw [List.nil_append] at hexp hfrac
    rw [hds.scan hr.stops.1]
    dsimp only
    rw [if_neg hds.1.1, hfrac]
    dsimp only
    rw [hexp]
    dsimp only
    rw [if_pos ⟨rfl, rfl⟩]
    split
    · rename_i hlong
      exact .inr ⟨fun hshort => absurd (hfits hshort) (Nat.not_le.2 hlong), rfl⟩
    · exact .inl rfl
  | @float ds f fs e x hds hf he hx =>
    obtain ⟨hdigit, hdot⟩ := he.stops hr
    rw [List.append_assoc, List.append_assoc, hds.scan (hf.stops hdigit)]
    dsimp only
    rw [if_neg hds.1.1, hf.scan hdigit hdot]
    dsimp only
    rw [he.scan hr]
    dsimp only
    rw [if_neg hx]
    exact .inl rfl

theorem unsigned_scan (h : scanUnsigned sign s = .ok (j, r)) :
    ∃ w, Unsigned (fun n => True → n ≤ maxStrDigits) sign w j ∧ s = w ++ r := by
  unfold scanUnsigned at h
  obtain ⟨ds, t, hi⟩ : ∃ ds t, scanInteger s = (ds, t) := ⟨_, _, rfl⟩
  obtain ⟨fs, t', hf⟩ : ∃ fs t', scanFraction t = (fs, t') := ⟨_, _, rfl⟩
  obtain ⟨x, t'', he⟩ : ∃ x t'', scanExponent t' = (x, t'') := ⟨_, _, rfl⟩
  simp only [hi, hf, he] at h
  split at h
  · cases h
  · rename_i hne
    obtain ⟨hwhole, rfl⟩ := whole_scan hi hne
    obtain ⟨f, hfrac, rfl⟩ := fraction_scan hf
    obtain ⟨e, hexp, rfl⟩ := exponent_scan he
    split at h
    · rename_i hnone
      obtain ⟨rfl, rfl⟩ := hnone
      split at h
      · cases h
      · rename_i hlong
        cases h
        cases hfrac with
        | digits hds => exact absurd rfl hds.1
        | absent =>
          cases hexp
          exact ⟨ds, .int hwhole fun _ => Nat.le_of_not_lt hlong, rfl⟩
    · rename_i hsome
      cases h
      exact ⟨ds ++ (f ++ e), .float hwhole hfrac hexp hsome, by simp⟩

theorem Unsigned.first {fits : Nat → Prop} (h : Unsigned fits sign w j) : ∃ d t, w = d :: t ∧ isDigit d = true := by
  have hwhole : ∀ {ds : Str}, Whole ds → ∃ d t, ds = d :: t ∧ isDigit d = true := by
    rintro (_ | ⟨d, t⟩) ⟨⟨hne, hdigits⟩, -⟩
    · exact absurd rfl hne
    · exact ⟨d, t, rfl, hdigits d (by simp)⟩
  cases h with
  | int hds _ => exact hwhole hds
  | float hds _ _ _ =>
    obtain ⟨d, t, rfl, hd⟩ := hwhole hds
    exact ⟨d, _, rfl, hd⟩

/-- A number starts with a digit, or a sign and a digit. -/
theorem Number.first {fits : Nat → Prop} (h : Number fits w j) :
    ∃ d t, (w = d :: t ∨ w = 45 :: d :: t) ∧ isDigit d = true := by
  cases h with
  | positive h =>
    obtain ⟨d, t, rfl, hd⟩ := h.first
    exact ⟨d, t, .inl rfl, hd⟩
  | negative h =>
    obtain ⟨d, t, rfl, hd⟩ := h.first
    exact ⟨d, t, .inr rfl, hd⟩

theorem Number.scan (h : Number (fun n => short → n ≤ maxStrDigits) w j) (hr : Follow r) :
    scanNumber (w ++ r) = .ok (j, r) ∨ ¬ short ∧ scanNumber (w ++ r) = .error .digits := by
  unfold scanNumber
  cases h with
  | positive h =>
    have hhead : (w ++ r).head? ≠ some 45 := by
      obtain ⟨d, t, rfl, hd⟩ := h.first
      intro heq
      obtain rfl := Option.some.inj heq
      cases hd
    rw [if_neg hhead]
    exact h.scan hr
  | negative h =>
    rw [if_pos (by rfl)]
    exact h.scan hr

theorem number_scan (h : scanNumber s = .ok (j, r)) :
    ∃ w, Number (fun n => True → n ≤ maxStrDigits) w j ∧ s = w ++ r := by
  unfold scanNumber at h
  split at h
  · rename_i hsign
    obtain ⟨w, hw, htail⟩ := unsigned_scan h
    cases s with
    | nil => cases hsign
    | cons c s =>
      obtain rfl := Option.some.inj hsign
      exact ⟨45 :: w, .negative hw, congrArg (45 :: ·) htail⟩
  · obtain ⟨w, hw, htail⟩ := unsigned_scan h
    exact ⟨w, .positive hw, htail⟩

theorem afterPrefix_ne {c d : Nat} (h : c ≠ d) (p s : Str) : afterPrefix (c :: p) (d :: s) = none := by
  rw [afterPrefix, if_neg h]

/-- No literal starts with a digit, and only one with a sign. -/
theorem scanLiteral_digit {d : Nat} (h : isDigit d = true) (s : Str) : scanLiteral (d :: s) = none := by
  have hd : 48 ≤ d ∧ d ≤ 57 := by simpa [isDigit] using h
  have hfirst : ∀ p ∈ literals, ∃ c q, p.1 = c :: q ∧ (c < 48 ∨ 57 < c) := by
    intro p hp
    simp only [literals, List.mem_cons, List.not_mem_nil, or_false] at hp
    rcases hp with rfl | rfl | rfl | rfl | rfl | rfl <;> exact ⟨_, _, rfl, by decide⟩
  refine List.findSome?_eq_none_iff.2 fun p hp => ?_
  obtain ⟨c, q, hpq, hc⟩ := hfirst p hp
  rw [hpq, afterPrefix_ne (by omega)]
  rfl

theorem scanLiteral_negative {d : Nat} (h : isDigit d = true) (s : Str) : scanLiteral (45 :: d :: s) = none := by
  have hd : 48 ≤ d ∧ d ≤ 57 := by simpa [isDigit] using h
  have hfirst : ∀ p ∈ literals, (∃ c q, p.1 = c :: q ∧ c ≠ 45) ∨ ∃ c q, p.1 = 45 :: c :: q ∧ 57 < c := by
    intro p hp
    simp only [literals, List.mem_cons, List.not_mem_nil, or_false] at hp
    rcases hp with rfl | rfl | rfl | rfl | rfl | rfl
    all_goals first
      | exact .inl ⟨_, _, rfl, by decide⟩
      | exact .inr ⟨_, _, rfl, by decide⟩
  refine List.findSome?_eq_none_iff.2 fun p hp => ?_
  rcases hfirst p hp with ⟨c, q, hpq, hc⟩ | ⟨c, q, hpq, hc⟩
  · rw [hpq, afterPrefix_ne hc]
    rfl
  · rw [hpq, afterPrefix, if_pos rfl, afterPrefix_ne (by omega)]
    rfl

theorem afterPrefix_some {p : Str} (h : afterPrefix p s = some r) : s = p ++ r := by
  induction p generalizing s with
  | nil => exact Option.some.inj h
  | cons c p ih =>
    cases s with
    | nil => cases h
    | cons d s =>
      rw [afterPrefix] at h
      split at h
      · rename_i hcd
        rw [hcd, ih h]
        rfl
      · cases h

theorem literal_scan (h : scanLiteral s = some (j, r)) : ∃ w, (w, j) ∈ literals ∧ s = w ++ r := by
  obtain ⟨p, hp, hr⟩ := List.exists_of_findSome?_eq_some h
  obtain ⟨q, hq, heq⟩ := Option.map_eq_some_iff.1 hr
  cases heq
  exact ⟨p.1, hp, afterPrefix_some hq⟩

theorem scanLiteral_word (h : (w, j) ∈ literals) (r : Str) : scanLiteral (w ++ r) = some (j, r) := by
  simp only [literals, List.mem_cons, List.not_mem_nil, or_false, Prod.mk.injEq] at h
  rcases h with ⟨rfl, rfl⟩ | ⟨rfl, rfl⟩ | ⟨rfl, rfl⟩ | ⟨rfl, rfl⟩ | ⟨rfl, rfl⟩ | ⟨rfl, rfl⟩ <;> rfl

/-- What a number or a word does not start with. -/
theorem Lenient.first (h : Lenient short w j) : ∃ c t, w = c :: t ∧ (c < 128 ∧ isSpace c = false ∧ c ≠ 93 ∧ c ≠ 125) ∧
    c ≠ quote ∧ c ≠ 123 ∧ c ≠ 91 := by
  rcases h with h | h
  · obtain ⟨d, t, rfl | rfl, hd⟩ := h.first
    · have hd : 48 ≤ d ∧ d ≤ 57 := by simpa [isDigit] using hd
      refine ⟨d, t, rfl, ?_⟩
      simp only [isSpace, quote, Bool.or_eq_false_iff, beq_eq_false_iff_ne]
      omega
    · exact ⟨45, _, rfl, by decide⟩
  · simp only [literals, List.mem_cons, List.not_mem_nil, or_false, Prod.mk.injEq] at h
    rcases h with ⟨rfl, rfl⟩ | ⟨rfl, rfl⟩ | ⟨rfl, rfl⟩ | ⟨rfl, rfl⟩ | ⟨rfl, rfl⟩ | ⟨rfl, rfl⟩
    all_goals exact ⟨_, _, rfl, by decide⟩

theorem Standard.first (h : Standard w j) : ∃ c t, w = c :: t ∧ (c < 65 ∨ 90 < c) := by
  rcases h with h | h
  · obtain ⟨d, t, rfl | rfl, hd⟩ := h.first
    · have hd : 48 ≤ d ∧ d ≤ 57 := by simpa [isDigit] using hd
      exact ⟨d, t, rfl, by omega⟩
    · exact ⟨45, _, rfl, by decide⟩
  · simp only [words, List.mem_cons, List.not_mem_nil, or_false, Prod.mk.injEq] at h
    rcases h with ⟨rfl, rfl⟩ | ⟨rfl, rfl⟩ | ⟨rfl, rfl⟩
    all_goals exact ⟨_, _, rfl, by decide⟩

/-- No value of JSON starts with a capital letter. -/
theorem no_capital {c : Nat} (h : Derives Standard .value s j r) (hs : s = c :: t) : c < 65 ∨ 90 < c := by
  cases h with
  | leaf hw =>
    obtain ⟨d, w, rfl, hd⟩ := hw.first
    cases hs
    exact hd
  | string _ =>
    cases hs
    decide
  | emptyObject _ =>
    cases hs
    decide
  | object _ _ =>
    cases hs
    decide
  | emptyArray _ =>
    cases hs
    decide
  | array _ _ =>
    cases hs
    decide

theorem Lenient.scan (h : Lenient short w j) (hr : Follow r) (n limit : Nat) :
    scanOnce (n + 1) limit (w ++ r) = .ok (j, r) ∨ ¬ short ∧ scanOnce (n + 1) limit (w ++ r) = .error .digits := by
  obtain ⟨c, t, rfl, -, hquote, hobject, harray⟩ := h.first
  rw [List.cons_append, scanOnce.eq_def]
  dsimp only
  rw [if_neg hquote, if_neg hobject, if_neg harray, ← List.cons_append]
  rcases h with h | h
  · have hnone : scanLiteral (c :: t ++ r) = none := by
      obtain ⟨d, t', heq | heq, hd⟩ := h.first
      · rw [heq]
        exact scanLiteral_digit hd _
      · rw [heq]
        exact scanLiteral_negative hd _
    rw [hnone]
    exact h.scan hr
  · rw [scanLiteral_word h]
    exact .inl rfl

end Codec
