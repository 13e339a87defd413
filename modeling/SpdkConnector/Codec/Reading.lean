import SpdkConnector.Codec.Leaves

/-!
# `json.loads` reads the grammar

The three functions of the scanner on the parts of the grammar: what the grammar derives is read, or the scanner
gives up (`Derives.scan`); what is read is derived (`scan_derives`); the scanner gives up where one container more
than the limit is open (`scan_opens`, `Opens.scan`). `loads_ok_iff` and `loads_recursion_iff` say from this what
`loads` answers in terms of the text alone.
-/
namespace Codec

variable {short : Prop} {p : Part} {s r t : Str} {j : Json}

/-! ## Values -/

/-- What a part may start with. -/
def Begins (s : Str) : Prop := ∃ c t, s = c :: t ∧ c < 128 ∧ isSpace c = false ∧ c ≠ 93 ∧ c ≠ 125

theorem begins_quote (s : Str) : Begins (quote :: s) := ⟨quote, s, rfl, by decide⟩

theorem begins_bracket {c : Nat} (hc : c = 123 ∨ c = 91) (s : Str) : Begins (c :: s) := by
  refine ⟨c, s, rfl, ?_⟩
  rcases hc with rfl | rfl <;> decide

theorem Derives.begins (h : Derives (Lenient short) p s j r) : Begins s := by
  induction h with
  | leaf hw =>
    obtain ⟨c, t, rfl, hc, -⟩ := hw.first
    exact ⟨c, _, rfl, hc⟩
  | string _ => exact begins_quote _
  | emptyObject _ => exact begins_bracket (.inl rfl) _
  | object _ _ _ => exact begins_bracket (.inl rfl) _
  | emptyArray _ => exact begins_bracket (.inr rfl) _
  | array _ _ _ => exact begins_bracket (.inr rfl) _
  | lastMember _ _ _ _ _ _ => exact begins_quote _
  | member _ _ _ _ _ _ _ _ _ => exact begins_quote _
  | lastElement _ _ ih => exact ih
  | element _ _ _ _ ih _ => exact ih

theorem Opens.begins {k : Nat} (h : Opens (Lenient short) k p s) : Begins s := by
  induction h with
  | bracket hc => exact begins_bracket hc _
  | object _ _ _ => exact begins_bracket (.inl rfl) _
  | array _ _ _ => exact begins_bracket (.inr rfl) _
  | member _ _ _ _ _ => exact begins_quote _
  | laterMember _ _ _ _ _ _ _ _ => exact begins_quote _
  | element _ ih => exact ih
  | laterElement hx _ _ _ _ => exact hx.begins

/-- The white space before a part. -/
theorem Begins.skip {s' : Str} (h : Begins s') (hws : Ws s s') :
    skipSpace s = s' ∧ s'.head? ≠ some 93 ∧ s'.head? ≠ some 125 := by
  obtain ⟨c, t, rfl, -, hspace, harray, hobject⟩ := h
  exact ⟨hws.skip hspace, fun heq => harray (Option.some.inj heq), fun heq => hobject (Option.some.inj heq)⟩

/-- No byte order mark is before a value. -/
theorem Begins.no_mark {s' : Str} (h : Begins s') (hws : Ws s s') : s.head? ≠ some 0xfeff := by
  cases hws with
  | done =>
    obtain ⟨c, t, rfl, hlt, -⟩ := h
    intro heq
    have hc := Option.some.inj heq
    omega
  | space hc _ =>
    intro heq
    rw [Option.some.inj heq] at hc
    simp [isSpace] at hc

/-! One step of each of the three functions, the parts in the grammar's terms. -/

theorem scanOnce_string {n limit : Nat} (h : Chars s t r) : scanOnce (n + 1) limit (quote :: s) = .ok (.str t, r) := by
  rw [scanOnce.eq_def]
  dsimp only
  rw [if_pos rfl, h.scan (Nat.le_refl _)]

theorem scanOnce_object {n limit : Nat} (hws : skipSpace s = t) (ht : t.head? ≠ some 125) :
    scanOnce (n + 1) (limit + 1) (123 :: s) = parseMembers n limit [] t := by
  rw [scanOnce.eq_def]
  dsimp only
  rw [if_neg (by decide), if_pos rfl, hws, if_neg ht]

theorem scanOnce_array {n limit : Nat} (hws : skipSpace s = t) (ht : t.head? ≠ some 93) :
    scanOnce (n + 1) (limit + 1) (91 :: s) = parseElements n limit [] t := by
  rw [scanOnce.eq_def]
  dsimp only
  rw [if_neg (by decide), if_neg (by decide), if_pos rfl, hws, if_neg ht]

theorem scanOnce_deep {n c : Nat} (hc : c = 123 ∨ c = 91) : scanOnce (n + 1) 0 (c :: s) = .error .recursion := by
  rw [scanOnce.eq_def]
  dsimp only
  rcases hc with rfl | rfl
  · rw [if_neg (by decide), if_pos rfl]
  · rw [if_neg (by decide), if_neg (by decide), if_pos rfl]

section
variable {n limit : Nat} {d : List (Str × Json)} {key s₁ s₂ s₃ s₄ s₅ s₆ : Str} {x : Json} {xs : List Json} {e : JsonError}

theorem parseMembers_error (hkey : Chars s key s₁) (hcolon : Ws s₁ (58 :: s₂)) (hws : skipSpace s₂ = s₃)
    (hx : scanOnce n limit s₃ = .error e) : parseMembers (n + 1) limit d (quote :: s) = .error e := by
  rw [parseMembers.eq_def]
  dsimp only
  rw [if_pos (by rfl), List.tail_cons, hkey.scan (Nat.le_refl _)]
  dsimp only
  rw [hcolon.skip (by rfl), if_pos (by rfl), List.tail_cons, hws, hx]

theorem parseMembers_last (hkey : Chars s key s₁) (hcolon : Ws s₁ (58 :: s₂)) (hws : skipSpace s₂ = s₃)
    (hx : scanOnce n limit s₃ = .ok (x, s₄)) (hend : Ws s₄ (125 :: r)) :
    parseMembers (n + 1) limit d (quote :: s) = .ok (.dict (dictSet d key x), r) := by
  rw [parseMembers.eq_def]
  dsimp only
  rw [if_pos (by rfl), List.tail_cons, hkey.scan (Nat.le_refl _)]
  dsimp only
  rw [hcolon.skip (by rfl), if_pos (by rfl), List.tail_cons, hws, hx]
  dsimp only
  rw [hend.skip (by rfl), if_pos (by rfl), List.tail_cons]

theorem parseMembers_next (hkey : Chars s key s₁) (hcolon : Ws s₁ (58 :: s₂)) (hws : skipSpace s₂ = s₃)
    (hx : scanOnce n limit s₃ = .ok (x, s₄)) (hcomma : Ws s₄ (44 :: s₅)) (hws' : skipSpace s₅ = s₆) :
    parseMembers (n + 1) limit d (quote :: s) = parseMembers n limit (dictSet d key x) s₆ := by
  rw [parseMembers.eq_def]
  dsimp only
  rw [if_pos (by rfl), List.tail_cons, hkey.scan (Nat.le_refl _)]
  dsimp only
  rw [hcolon.skip (by rfl), if_pos (by rfl), List.tail_cons, hws, hx]
  dsimp only
  rw [hcomma.skip (by rfl), if_neg (by simp), if_pos (by rfl), List.tail_cons, hws']

theorem parseElements_error (hx : scanOnce n limit s = .error e) : parseElements (n + 1) limit xs s = .error e := by
  rw [parseElements.eq_def]
  dsimp only
  rw [hx]

theorem parseElements_last (hx : scanOnce n limit s = .ok (x, s₁)) (hend : Ws s₁ (93 :: r)) :
    parseElements (n + 1) limit xs s = .ok (.list (xs ++ [x]), r) := by
  rw [parseElements.eq_def]
  dsimp only
  rw [hx]
  dsimp only
  rw [hend.skip (by rfl), if_pos (by rfl), List.tail_cons]

theorem parseElements_next (hx : scanOnce n limit s = .ok (x, s₁)) (hcomma : Ws s₁ (44 :: s₂))
    (hws : skipSpace s₂ = s₃) : parseElements (n + 1) limit xs s = parseElements n limit (xs ++ [x]) s₃ := by
  rw [parseElements.eq_def]
  dsimp only
  rw [hx]
  dsimp only
  rw [hcomma.skip (by rfl), if_neg (by simp), if_pos (by rfl), List.tail_cons, hws]

end

/-- What is read where the rest cannot go on with the value: it, or an error. -/
def Reads (short : Prop) (x : Except JsonError (Json × Str)) (j : Json) (r : Str) : Prop :=
  x = .ok (j, r) ∨ ∃ e, x = .error e ∧ (short → e ≠ .decode ∧ e ≠ .digits)

/-- What reading a part gives, on top of the members or the elements before it. -/
def Agrees (short : Prop) (p : Part) (s : Str) (j : Json) (r : Str) : Prop :=
  match p with
  | .value => Follow r → ∀ n limit, Reads short (scanOnce n limit s) j r
  | .members => ∀ ms, j = .dict ms → ∀ n limit d,
      Reads short (parseMembers n limit d s) (.dict (ms.foldl (fun d p => dictSet d p.1 p.2) d)) r
  | .elements => ∀ ys, j = .list ys → ∀ n limit xs, Reads short (parseElements n limit xs s) (.list (xs ++ ys)) r

theorem Reads.fuel : Reads short (.error .outOfFuel) j r := .inr ⟨_, rfl, fun _ => by decide⟩

theorem Reads.deep : Reads short (.error .recursion) j r := .inr ⟨_, rfl, fun _ => by decide⟩

/-- **The grammar is read**: a part of a text is what the scanner makes of it, or the scanner gives up. -/
theorem Derives.scan (h : Derives (Lenient short) p s j r) : Agrees short p s j r := by
  induction h with
  | leaf hw =>
    intro hr n limit
    cases n with
    | zero => exact .fuel
    | succ n =>
      rcases hw.scan hr n limit with hok | ⟨hlong, herr⟩
      · exact .inl hok
      · exact .inr ⟨_, herr, fun hshort => absurd hshort hlong⟩
  | string hs =>
    intro _ n limit
    cases n with
    | zero => exact .fuel
    | succ n => exact .inl (scanOnce_string hs)
  | @emptyObject s r hws =>
    intro _ n limit
    cases n with
    | zero => exact .fuel
    | succ n =>
      cases limit with
      | zero =>
        rw [scanOnce_deep (.inl rfl)]
        exact .deep
      | succ limit =>
        rw [scanOnce.eq_def]
        dsimp only
        rw [if_neg (by decide), if_pos rfl, hws.skip (by rfl), if_pos (by rfl)]
        exact .inl rfl
  | object hws hms ih =>
    intro _ n limit
    cases n with
    | zero => exact .fuel
    | succ n =>
      cases limit with
      | zero =>
        rw [scanOnce_deep (.inl rfl)]
        exact .deep
      | succ limit =>
        obtain ⟨hskip, -, hobject⟩ := hms.begins.skip hws
        rw [scanOnce_object hskip hobject]
        exact ih _ rfl n limit []
  | @emptyArray s r hws =>
    intro _ n limit
    cases n with
    | zero => exact .fuel
    | succ n =>
      cases limit with
      | zero =>
        rw [scanOnce_deep (.inr rfl)]
        exact .deep
      | succ limit =>
        rw [scanOnce.eq_def]
        dsimp only
        rw [if_neg (by decide), if_neg (by decide), if_pos rfl, hws.skip (by rfl), if_pos (by rfl)]
        exact .inl rfl
  | array hws hxs ih =>
    intro _ n limit
    cases n with
    | zero => exact .fuel
    | succ n =>
      cases limit with
      | zero =>
        rw [scanOnce_deep (.inr rfl)]
        exact .deep
      | succ limit =>
        obtain ⟨hskip, harray, -⟩ := hxs.begins.skip hws
        rw [scanOnce_array hskip harray]
        exact ih _ rfl n limit []
  | lastMember hkey hcolon hws hx hend ih =>
    intro ms hms n limit d
    cases hms
    cases n with
    | zero => exact .fuel
    | succ n =>
      rcases ih (hend.follow (by decide)) n limit with hok | ⟨e, herr, hshort⟩
      · exact .inl (parseMembers_last hkey hcolon (hx.begins.skip hws).1 hok hend)
      · exact .inr ⟨e, parseMembers_error hkey hcolon (hx.begins.skip hws).1 herr, hshort⟩
  | member hkey hcolon hws hx hcomma hws' hms' ih ih' =>
    intro ms hms n limit d
    cases hms
    cases n with
    | zero => exact .fuel
    | succ n =>
      rcases ih (hcomma.follow (by decide)) n limit with hok | ⟨e, herr, hshort⟩
      · rw [parseMembers_next hkey hcolon (hx.begins.skip hws).1 hok hcomma (hms'.begins.skip hws').1]
        exact ih' _ rfl n limit _
      · exact .inr ⟨e, parseMembers_error hkey hcolon (hx.begins.skip hws).1 herr, hshort⟩
  | lastElement hx hend ih =>
    intro ys hys n limit xs
    cases hys
    cases n with
    | zero => exact .fuel
    | succ n =>
      rcases ih (hend.follow (by decide)) n limit with hok | ⟨e, herr, hshort⟩
      · exact .inl (parseElements_last hok hend)
      · exact .inr ⟨e, parseElements_error herr, hshort⟩
  | @element s s₁ s₂ s₃ r x xs' hx hcomma hws hxs ih ih' =>
    intro ys hys n limit xs
    cases hys
    cases n with
    | zero => exact .fuel
    | succ n =>
      rcases ih (hcomma.follow (by decide)) n limit with hok | ⟨e, herr, hshort⟩
      · rw [parseElements_next hok hcomma (hxs.begins.skip hws).1, show xs ++ x :: xs' = xs ++ [x] ++ xs' by simp]
        exact ih' _ rfl n limit _
      · exact .inr ⟨e, parseElements_error herr, hshort⟩

/-- What stands behind white space. -/
theorem ws_head {c : Nat} (h : (skipSpace s).head? = some c) : Ws s (c :: (skipSpace s).tail) := by
  have hws := ws_skipSpace s
  cases hs : skipSpace s with
  | nil =>
    rw [hs] at h
    cases h
  | cons d t =>
    rw [hs] at h hws
    obtain rfl := Option.some.inj h
    exact hws

/-- **What is read is in the grammar**, its integers within the length that Python reads. -/
theorem scan_derives (n : Nat) :
    (∀ limit s j r, scanOnce n limit s = .ok (j, r) → Derives (Lenient True) .value s j r) ∧
    (∀ limit d s j r, parseMembers n limit d s = .ok (j, r) → ∃ ms, Derives (Lenient True) .members s (.dict ms) r ∧
      j = .dict (ms.foldl (fun d p => dictSet d p.1 p.2) d)) ∧
    ∀ limit xs s j r, parseElements n limit xs s = .ok (j, r) → ∃ ys, Derives (Lenient True) .elements s (.list ys) r ∧
      j = .list (xs ++ ys) := by
  induction n with
  | zero => exact ⟨nofun, nofun, nofun⟩
  | succ n ih =>
    obtain ⟨ihv, ihm, ihe⟩ := ih
    refine ⟨?_, ?_, ?_⟩
    · intro limit s j r h
      cases s with
      | nil => cases h
      | cons c s =>
        rw [scanOnce.eq_def] at h
        dsimp only at h
        split at h
        · rename_i hquote
          split at h
          · cases h
          · rename_i hs
            cases h
            rw [hquote]
            exact .string (chars_scan hs)
        · split at h
          · rename_i hobject
            subst hobject
            split at h
            · cases h
            · split at h
              · rename_i hend
                cases h
                exact .emptyObject (ws_head hend)
              · obtain ⟨ms, hms, rfl⟩ := ihm _ _ _ _ _ h
                exact .object (ws_skipSpace s) hms
          · split at h
            · rename_i harray
              subst harray
              split at h
              · cases h
              · split at h
                · rename_i hend
                  cases h
                  exact .emptyArray (ws_head hend)
                · obtain ⟨ys, hys, rfl⟩ := ihe _ _ _ _ _ h
                  exact .array (ws_skipSpace s) hys
            · split at h
              · rename_i hword
                cases h
                obtain ⟨w, hw, hsplit⟩ := literal_scan hword
                rw [hsplit]
                exact .leaf (.inr hw)
              · obtain ⟨w, hw, hsplit⟩ := number_scan h
                rw [hsplit]
                exact .leaf (.inl hw)
    · intro limit d s j r h
      rw [parseMembers.eq_def] at h
      dsimp only at h
      split at h
      · rename_i hquote
        cases s with
        | nil => cases hquote
        | cons c s =>
          obtain rfl := Option.some.inj hquote
          split at h
          · cases h
          · rename_i key s₁ hkey
            have hchars := chars_scan hkey
            split at h
            · rename_i hcolon
              have hws := ws_head hcolon
              split at h
              · cases h
              · rename_i x s₄ hx
                have hvalue := ihv _ _ _ _ hx
                split at h
                · rename_i hend
                  cases h
                  exact ⟨[(key, x)], .lastMember hchars hws (ws_skipSpace _) hvalue (ws_head hend), rfl⟩
                · split at h
                  · rename_i hcomma
                    obtain ⟨ms, hms, rfl⟩ := ihm _ _ _ _ _ h
                    exact ⟨(key, x) :: ms, .member hchars hws (ws_skipSpace _) hvalue (ws_head hcomma)
                      (ws_skipSpace _) hms, rfl⟩
                  · cases h
            · cases h
      · cases h
    · intro limit xs s j r h
      rw [parseElements.eq_def] at h
      dsimp only at h
      split at h
      · cases h
      · rename_i x s₁ hx
        have hvalue := ihv _ _ _ _ hx
        split at h
        · rename_i hend
          cases h
          exact ⟨[x], .lastElement hvalue (ws_head hend), rfl⟩
        · split at h
          · rename_i hcomma
            obtain ⟨ys, hys, rfl⟩ := ihe _ _ _ _ _ h
            refine ⟨x :: ys, .element hvalue (ws_head hcomma) (ws_skipSpace _) hys, ?_⟩
            simp
          · cases h

/-! ## Nesting -/

theorem scanUnsigned_error {e : JsonError} (h : scanUnsigned sign s = .error e) : e = .decode ∨ e = .digits := by
  unfold scanUnsigned at h
  dsimp only at h
  split at h
  · cases h
    exact .inl rfl
  · split at h
    · split at h <;> cases h
      exact .inr rfl
    · cases h

theorem scanNumber_shallow (h : scanNumber s = .error .recursion) : False := by
  unfold scanNumber at h
  split at h
  · rcases scanUnsigned_error h with h | h <;> cases h
  · rcases scanUnsigned_error h with h | h <;> cases h

/-- **Where the scanner gives up**, one container more than the limit is open. -/
theorem scan_opens (n : Nat) :
    (∀ limit s, scanOnce n limit s = .error .recursion → Opens (Lenient True) (limit + 1) .value s) ∧
    (∀ limit d s, parseMembers n limit d s = .error .recursion → Opens (Lenient True) (limit + 1) .members s) ∧
    ∀ limit xs s, parseElements n limit xs s = .error .recursion → Opens (Lenient True) (limit + 1) .elements s := by
  induction n with
  | zero => exact ⟨nofun, nofun, nofun⟩
  | succ n ih =>
    obtain ⟨ihv, ihm, ihe⟩ := ih
    refine ⟨?_, ?_, ?_⟩
    · intro limit s h
      cases s with
      | nil => cases h
      | cons c s =>
        rw [scanOnce.eq_def] at h
        dsimp only at h
        split at h
        · split at h <;> cases h
        · split at h
          · rename_i hobject
            subst hobject
            cases limit with
            | zero => exact .bracket (.inl rfl)
            | succ limit =>
              dsimp only at h
              split at h
              · cases h
              · exact .object (ws_skipSpace s) (ihm _ _ _ h)
          · split at h
            · rename_i harray
              subst harray
              cases limit with
              | zero => exact .bracket (.inr rfl)
              | succ limit =>
                dsimp only at h
                split at h
                · cases h
                · exact .array (ws_skipSpace s) (ihe _ _ _ h)
            · split at h
              · cases h
              · exact (scanNumber_shallow h).elim
    · intro limit d s h
      rw [parseMembers.eq_def] at h
      dsimp only at h
      split at h
      · rename_i hquote
        cases s with
        | nil => cases hquote
        | cons c s =>
          obtain rfl := Option.some.inj hquote
          split at h
          · cases h
          · rename_i key s₁ hkey
            have hchars := chars_scan hkey
            split at h
            · rename_i hcolon
              have hws := ws_head hcolon
              split at h
              · rename_i e hx
                cases h
                exact .member hchars hws (ws_skipSpace _) (ihv _ _ hx)
              · rename_i x s₄ hx
                have hvalue := (scan_derives n).1 _ _ _ _ hx
                split at h
                · cases h
                · split at h
                  · rename_i hcomma
                    exact .laterMember hchars hws (ws_skipSpace _) hvalue (ws_head hcomma) (ws_skipSpace _) (ihm _ _ _ h)
                  · cases h
            · cases h
      · cases h
    · intro limit xs s h
      rw [parseElements.eq_def] at h
      dsimp only at h
      split at h
      · rename_i e hx
        cases h
        exact .element (ihv _ _ hx)
      · rename_i x s₁ hx
        have hvalue := (scan_derives n).1 _ _ _ _ hx
        split at h
        · cases h
        · split at h
          · rename_i hcomma
            exact .laterElement hvalue (ws_head hcomma) (ws_skipSpace _) (ihe _ _ _ h)
          · cases h

/-- The scanner has given up. -/
def GaveUp (x : Except JsonError (Json × Str)) : Prop := x = .error .recursion ∨ x = .error .outOfFuel

theorem Reads.gaveUp {x : Except JsonError (Json × Str)} (h : Reads True x j r) : x = .ok (j, r) ∨
    ∃ e, x = .error e ∧ GaveUp (.error e) := by
  rcases h with h | ⟨e, h, he⟩
  · exact .inl h
  · refine .inr ⟨e, h, ?_⟩
    cases e with
    | decode => exact absurd rfl (he trivial).1
    | digits => exact absurd rfl (he trivial).2
    | recursion => exact .inl rfl
    | outOfFuel => exact .inr rfl

/-- Giving up on a part. -/
def Stops (limit : Nat) (p : Part) (s : Str) : Prop :=
  match p with
  | .value => ∀ n, GaveUp (scanOnce n limit s)
  | .members => ∀ n d, GaveUp (parseMembers n limit d s)
  | .elements => ∀ n xs, GaveUp (parseElements n limit xs s)

/-- **The limit is exact**: with one container more than it open, the scanner gives up. -/
theorem Opens.scan {k : Nat} (h : Opens (Lenient True) k p s) : ∀ {limit : Nat}, k = limit + 1 → Stops limit p s := by
  induction h with
  | bracket hc =>
    intro limit hk n
    obtain rfl : limit = 0 := by omega
    cases n with
    | zero => exact .inr rfl
    | succ n => exact .inl (scanOnce_deep hc)
  | object hws hms ih =>
    intro limit hk n
    have hpos := hms.pos
    obtain ⟨limit, rfl⟩ : ∃ i, limit = i + 1 := ⟨limit - 1, by omega⟩
    cases n with
    | zero => exact .inr rfl
    | succ n =>
      obtain ⟨hskip, -, hobject⟩ := hms.begins.skip hws
      rw [scanOnce_object hskip hobject]
      exact ih (by omega) n []
  | array hws hxs ih =>
    intro limit hk n
    have hpos := hxs.pos
    obtain ⟨limit, rfl⟩ : ∃ i, limit = i + 1 := ⟨limit - 1, by omega⟩
    cases n with
    | zero => exact .inr rfl
    | succ n =>
      obtain ⟨hskip, harray, -⟩ := hxs.begins.skip hws
      rw [scanOnce_array hskip harray]
      exact ih (by omega) n []
  | member hkey hcolon hws hx ih =>
    intro limit hk n d
    cases n with
    | zero => exact .inr rfl
    | succ n =>
      rcases ih hk n with hdeep | hfuel
      · exact .inl (parseMembers_error hkey hcolon (hx.begins.skip hws).1 hdeep)
      · exact .inr (parseMembers_error hkey hcolon (hx.begins.skip hws).1 hfuel)
  | laterMember hkey hcolon hws hx hcomma hws' hms ih =>
    intro limit hk n d
    cases n with
    | zero => exact .inr rfl
    | succ n =>
      rcases (hx.scan (hcomma.follow (by decide)) n limit).gaveUp with hok | ⟨e, herr, he⟩
      · rw [parseMembers_next hkey hcolon (hx.begins.skip hws).1 hok hcomma (hms.begins.skip hws').1]
        exact ih hk n _
      · rw [parseMembers_error hkey hcolon (hx.begins.skip hws).1 herr]
        rcases he with he | he
        · exact .inl (by rw [Except.error.inj he])
        · exact .inr (by rw [Except.error.inj he])
  | element hx ih =>
    intro limit hk n xs
    cases n with
    | zero => exact .inr rfl
    | succ n =>
      rcases ih hk n with hdeep | hfuel
      · exact .inl (parseElements_error hdeep)
      · exact .inr (parseElements_error hfuel)
  | laterElement hx hcomma hws hxs ih =>
    intro limit hk n xs
    cases n with
    | zero => exact .inr rfl
    | succ n =>
      rcases (hx.scan (hcomma.follow (by decide)) n limit).gaveUp with hok | ⟨e, herr, he⟩
      · rw [parseElements_next hok hcomma (hxs.begins.skip hws).1]
        exact ih hk n _
      · rw [parseElements_error herr]
        rcases he with he | he
        · exact .inl (by rw [Except.error.inj he])
        · exact .inr (by rw [Except.error.inj he])

/-! ## Whole texts -/

variable {limit : Nat}

theorem loads_text (h : loads limit s = .ok j) : Text (Lenient True) s j := by
  unfold loads at h
  split at h
  · cases h
  · split at h
    · cases h
    · rename_i j' r hscan
      split at h
      · rename_i hend
        cases h
        have hws := ws_skipSpace r
        rw [hend] at hws
        exact ⟨_, r, ws_skipSpace s, (scan_derives _).1 _ _ _ _ hscan, hws⟩
      · cases h

/-- A text is read, or an error says why not. -/
theorem Text.loads (h : Text (Lenient short) s j) (limit : Nat) :
    loads limit s = .ok j ∨ ∃ e, loads limit s = .error e ∧ (short → e = .recursion) := by
  have hfuel := loads_fuel limit s
  obtain ⟨s', r, hws, hj, hend⟩ := h
  unfold Codec.loads at hfuel ⊢
  rw [if_neg (hj.begins.no_mark hws)] at hfuel ⊢
  rw [(hj.begins.skip hws).1] at hfuel ⊢
  rcases hj.scan hend.follow_end (2 * s.length + 1) limit with hok | ⟨e, herr, he⟩
  · rw [hok]
    dsimp only
    rw [if_pos (by rw [hend.skipSpace_eq]; rfl)]
    exact .inl rfl
  · rw [herr] at hfuel ⊢
    refine .inr ⟨e, rfl, fun hshort => ?_⟩
    cases e with
    | decode => exact absurd rfl (he hshort).1
    | digits => exact absurd rfl (he hshort).2
    | recursion => rfl
    | outOfFuel => exact absurd rfl hfuel

/-- **`RecursionError` is nesting**: it is raised on the texts whose containers nest beyond the limit. -/
theorem loads_recursion_iff : loads limit s = .error .recursion ↔ Deep (Lenient True) (limit + 1) s := by
  constructor
  · intro h
    unfold loads at h
    split at h
    · cases h
    · split at h
      · rename_i e hscan
        cases h
        exact ⟨_, ws_skipSpace s, (scan_opens _).1 _ _ hscan⟩
      · split at h <;> cases h
  · rintro ⟨s', hws, hopens⟩
    have hfuel := loads_fuel limit s
    unfold loads at hfuel ⊢
    rw [if_neg (hopens.begins.no_mark hws)] at hfuel ⊢
    rw [(hopens.begins.skip hws).1] at hfuel ⊢
    rcases hopens.scan rfl (2 * s.length + 1) with hdeep | hout
    · rw [hdeep]
    · rw [hout] at hfuel
      exact absurd rfl hfuel

/-- **`json.loads` in terms of the text.** -/
theorem loads_ok_iff : loads limit s = .ok j ↔ Text (Lenient True) s j ∧ ¬ Deep (Lenient True) (limit + 1) s := by
  rw [← loads_recursion_iff]
  constructor
  · intro h
    refine ⟨loads_text h, ?_⟩
    rw [h]
    nofun
  · rintro ⟨htext, hdeep⟩
    rcases htext.loads limit with hok | ⟨e, herr, he⟩
    · exact hok
    · exact absurd (herr.trans (by rw [he trivial])) hdeep

/-- A text that one limit admits is read alike under every larger one. -/
theorem loads_deeper {outer : Nat} (hle : limit ≤ outer) (h : loads limit s ≠ .error .recursion) :
    loads outer s ≠ .error .recursion ∧ ∀ j, loads outer s = .ok j ↔ loads limit s = .ok j := by
  have hshallow : ∀ {i : Nat}, limit ≤ i → ¬ Deep (Lenient True) (i + 1) s := by
    intro i hi hdeep
    exact h (loads_recursion_iff.2 (hdeep.outer (Nat.succ_pos _) (Nat.succ_le_succ hi)))
  refine ⟨fun hdeep => hshallow hle (loads_recursion_iff.1 hdeep), fun j => ?_⟩
  rw [loads_ok_iff, loads_ok_iff]
  constructor
  · exact fun hj => ⟨hj.1, hshallow (Nat.le_refl limit)⟩
  · exact fun hj => ⟨hj.1, hshallow hle⟩

end Codec
