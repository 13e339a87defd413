import SpdkConnector.Codec.Json

/-!
# The scanner consumes its text, and reads back what `dumps` writes

Every value the scanner reads is at least one character, so the fuel `loads` gives never runs out
(`loads_fuel`). `loads_dumps` is the round trip for flat objects.
-/
namespace Codec

/-! ## Consumption -/

theorem dropWhile_length {p : Nat → Bool} (s : Str) : (s.dropWhile p).length ≤ s.length :=
  (List.dropWhile_sublist p).length_le

theorem skipSpace_length (s : Str) : (skipSpace s).length ≤ s.length := dropWhile_length s

theorem scanHex4_length {s r : Str} {u : Nat} (h : scanHex4 s = some (u, r)) : r.length < s.length := by
  unfold scanHex4 at h
  split at h
  · split at h
    · simp only [Option.some.injEq, Prod.mk.injEq] at h
      simp only [List.length_cons, ← h.2]
      omega
    · cases h
  · cases h

theorem scanUnicode_length {s r : Str} {u : Nat} (h : scanUnicode s = some (u, r)) : r.length < s.length := by
  unfold scanUnicode at h
  split at h
  · cases h
  · rename_i u' rest hhex
    have hrest := scanHex4_length hhex
    split at h
    · split at h
      · cases h
      · rename_i v rest' hlow
        have hrest' := scanHex4_length hlow
        have hdrop : (rest.drop 2).length ≤ rest.length := by simp
        split at h
        · simp only [Option.some.injEq, Prod.mk.injEq] at h
          rw [← h.2]
          omega
        · simp only [Option.some.injEq, Prod.mk.injEq] at h
          rwa [← h.2]
    · simp only [Option.some.injEq, Prod.mk.injEq] at h
      rwa [← h.2]

theorem scanChar_length {s r : Str} {c : Nat} (h : scanChar s = some (c, r)) : r.length < s.length := by
  unfold scanChar at h
  split at h
  · cases h
  · split at h
    · split at h
      · cases h
      · split at h
        · have := scanUnicode_length h
          simp only [List.length_cons]
          omega
        · simp only [Option.map_eq_some_iff, Prod.mk.injEq] at h
          obtain ⟨_, -, -, rfl⟩ := h
          simp only [List.length_cons]
          omega
    · split at h
      · cases h
      · simp only [Option.some.injEq, Prod.mk.injEq] at h
        rw [← h.2]
        exact Nat.lt_succ_self _

theorem scanString_length {n : Nat} {s t r : Str} (h : scanString n s = some (t, r)) : r.length < s.length := by
  induction n generalizing s t with
  | zero => cases h
  | succ n ih =>
    rw [scanString] at h
    split at h
    · rename_i hq
      simp only [Option.some.injEq, Prod.mk.injEq] at h
      cases s with
      | nil => cases hq
      | cons c s =>
        rw [← h.2]
        exact Nat.lt_succ_self _
    · simp only [Option.bind_eq_some_iff, Option.map_eq_some_iff, Prod.mk.injEq, Prod.exists] at h
      obtain ⟨c, rest, hc, t', r', hs, -, rfl⟩ := h
      exact Nat.lt_trans (ih hs) (scanChar_length hc)

theorem scanInteger_length {s : Str} (h : (scanInteger s).1 ≠ []) : (scanInteger s).2.length < s.length := by
  unfold scanInteger at h ⊢
  split at h
  · rename_i h0
    rw [if_pos h0]
    cases s with
    | nil => cases h0
    | cons c s => exact Nat.lt_succ_self _
  · rename_i h0
    rw [if_neg h0]
    have hsplit := congrArg List.length (List.takeWhile_append_dropWhile (p := isDigit) (l := s))
    have hpos := List.length_pos_of_ne_nil h
    simp only [List.length_append] at hsplit hpos ⊢
    omega

theorem scanFraction_length (s : Str) : (scanFraction s).2.length ≤ s.length := by
  unfold scanFraction
  split
  · have h1 := dropWhile_length (p := isDigit) s.tail
    have h2 : s.tail.length ≤ s.length := by simp
    exact Nat.le_trans h1 h2
  · exact Nat.le_refl _

theorem tail_length (s : Str) : s.tail.length ≤ s.length := by simp

theorem scanSign_length (s : Str) : (scanSign s).2.length ≤ s.length := by
  unfold scanSign
  split
  · exact tail_length s
  · split
    · exact tail_length s
    · exact Nat.le_refl _

theorem scanExponent_length (s : Str) : (scanExponent s).2.length ≤ s.length := by
  unfold scanExponent
  split
  · dsimp only
    split
    · exact Nat.le_refl _
    · exact Nat.le_trans (dropWhile_length _) (Nat.le_trans (scanSign_length _) (tail_length s))
  · exact Nat.le_refl _

theorem afterPrefix_length : ∀ {p s r : Str}, afterPrefix p s = some r → r.length + p.length = s.length
  | [], s, r, h => by
    simp only [afterPrefix, Option.some.injEq] at h
    simp [h]
  | _ :: _, [], r, h => by cases h
  | c :: p, d :: s, r, h => by
    rw [afterPrefix] at h
    split at h
    · have := afterPrefix_length h
      simp only [List.length_cons]
      omega
    · cases h

/-- What was read is not empty, and the fuel sufficed. -/
def Consumes (s : Str) : Except JsonError (Json × Str) → Prop
  | .error e => e ≠ .outOfFuel
  | .ok p => p.2.length < s.length

theorem scanUnsigned_consumes (sign : Nat → Int) (s : Str) : Consumes s (scanUnsigned sign s) := by
  unfold scanUnsigned
  dsimp only
  split
  · exact fun h => nomatch h
  · rename_i hds
    have h1 := scanInteger_length hds
    have h2 := scanFraction_length (scanInteger s).2
    have h3 := scanExponent_length (scanFraction (scanInteger s).2).2
    split
    · split
      · exact fun h => nomatch h
      · simp only [Consumes]
        omega
    · simp only [Consumes]
      omega

/-- What is consumed of a shorter text is consumed of the text. -/
theorem Consumes.mono {s t : Str} {x : Except JsonError (Json × Str)} (h : Consumes s x)
    (hst : s.length ≤ t.length) : Consumes t x := by
  cases x with
  | error e => exact h
  | ok p => exact Nat.lt_of_lt_of_le h hst

theorem scanNumber_consumes (s : Str) : Consumes s (scanNumber s) := by
  unfold scanNumber
  split
  · exact (scanUnsigned_consumes _ _).mono (tail_length s)
  · exact scanUnsigned_consumes _ _

theorem literal_consumes {s : Str} {p : Json × Str} (h : scanLiteral s = some p) : p.2.length < s.length := by
  obtain ⟨q, hq, hp⟩ := List.exists_of_findSome?_eq_some h
  obtain ⟨r, hr, rfl⟩ := Option.map_eq_some_iff.1 hp
  have hlen := afterPrefix_length hr
  have hpos : ∀ q ∈ literals, 0 < q.1.length := by decide
  have := hpos q hq
  show r.length < s.length
  omega

theorem scan_consumes (n : Nat) :
    (∀ limit s, 2 * s.length + 1 ≤ n → Consumes s (scanOnce n limit s)) ∧
    (∀ limit d s, 2 * s.length + 2 ≤ n → Consumes s (parseMembers n limit d s)) ∧
    ∀ limit xs s, 2 * s.length + 2 ≤ n → Consumes s (parseElements n limit xs s) := by
  have herr : ∀ s, Consumes s (.error .decode) := fun _ h => nomatch h
  induction n with
  | zero =>
    refine ⟨?_, ?_, ?_⟩
    · intro _ s h
      omega
    · intro _ _ s h
      omega
    · intro _ _ s h
      omega
  | succ n ih =>
    obtain ⟨ihv, ihm, ihe⟩ := ih
    refine ⟨?_, ?_, ?_⟩
    · intro limit s hn
      cases s with
      | nil => exact herr _
      | cons c rest =>
        have hskip := skipSpace_length rest
        have htail := tail_length (skipSpace rest)
        simp only [List.length_cons] at hn
        rw [scanOnce.eq_def]
        dsimp only
        split
        · split
          · exact herr _
          · rename_i hs
            have := scanString_length hs
            simp only [Consumes, List.length_cons]
            omega
        · split
          · split
            · exact fun h => nomatch h
            · split
              · simp only [Consumes, List.length_cons]
                omega
              · exact (ihm _ [] (skipSpace rest) (by omega)).mono (by simp only [List.length_cons]; omega)
          · split
            · split
              · exact fun h => nomatch h
              · split
                · simp only [Consumes, List.length_cons]
                  omega
                · exact (ihe _ [] (skipSpace rest) (by omega)).mono (by simp only [List.length_cons]; omega)
            · split
              · rename_i hlit
                exact literal_consumes hlit
              · exact scanNumber_consumes _
    · intro limit d s hn
      rw [parseMembers.eq_def]
      dsimp only
      split
      · have htail := tail_length s
        split
        · exact herr _
        · rename_i key r hkey
          have hr := scanString_length hkey
          have h1 := skipSpace_length r
          have h2 := tail_length (skipSpace r)
          have h3 := skipSpace_length (skipSpace r).tail
          split
          · have hv := ihv limit (skipSpace (skipSpace r).tail) (by omega)
            split
            · rename_i e he
              rw [he] at hv
              exact hv
            · rename_i value q hq
              rw [hq] at hv
              have hq' : q.length < (skipSpace (skipSpace r).tail).length := hv
              have h4 := skipSpace_length q
              have h5 := tail_length (skipSpace q)
              have h6 := skipSpace_length (skipSpace q).tail
              split
              · simp only [Consumes]
                omega
              · split
                · exact (ihm limit _ (skipSpace (skipSpace q).tail) (by omega)).mono (by omega)
                · exact herr _
          · exact herr _
      · exact herr _
    · intro limit xs s hn
      rw [parseElements.eq_def]
      dsimp only
      have hv := ihv limit s (by omega)
      split
      · rename_i e he
        rw [he] at hv
        exact hv
      · rename_i value q hq
        rw [hq] at hv
        have hq' : q.length < s.length := hv
        have h4 := skipSpace_length q
        have h5 := tail_length (skipSpace q)
        have h6 := skipSpace_length (skipSpace q).tail
        split
        · simp only [Consumes]
          omega
        · split
          · exact (ihe limit _ (skipSpace (skipSpace q).tail) (by omega)).mono (by omega)
          · exact herr _

/-- The fuel `loads` gives is enough for every text. -/
theorem loads_fuel (limit : Nat) (s : Str) : loads limit s ≠ .error .outOfFuel := by
  have hfuel : 2 * (skipSpace s).length + 1 ≤ 2 * s.length + 1 := by
    have := skipSpace_length s
    omega
  have h := (scan_consumes _).1 limit (skipSpace s) hfuel
  unfold loads
  split
  · exact fun h => nomatch h
  · split
    · rename_i e he
      rw [he] at h
      intro hc
      exact h (Except.error.inj hc)
    · split
      · exact fun h => nomatch h
      · exact fun h => nomatch h

end Codec
