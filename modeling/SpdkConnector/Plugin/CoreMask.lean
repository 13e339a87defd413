import SpdkConnector.Word
import Mathlib.Data.List.Induction
import Mathlib.Data.Nat.Bitwise
import Mathlib.Tactic.IntervalCases

/-!
# Core masks: `MakeCoreMask` (spdk_pybind_common.cpp:13-37)

The mask is built in place, one bit for each CPU, in a string of hexadecimal digits as long as the highest CPU
needs. `coreMask_spec` says which number the string writes; `coreMask_congr` and `coreMask_inj` that it stands
for the set of the CPUs.
-/

namespace SpdkConnector

/-- The `value` of a character (:25-28). -/
def maskValue (c : Char) : Nat := if c ≤ '9' then c.toNat - '0'.toNat else c.toNat - 'a'.toNat + 10

/-- The character of `updated` (:30-31). -/
def maskChar (updated : Nat) : Char :=
  if updated < 10 then .ofNat ('0'.toNat + updated) else .ofNat ('a'.toNat + updated - 10)

/-- One pass of the second loop. -/
def setCpu (digits : List Char) (cpu : Nat) : List Char :=
  let digit := digits.length - 1 - cpu / 4
  digits.set digit (maskChar (maskValue (digits.getD digit '0') ||| 1 <<< (cpu % 4)))

/-- The first loop. -/
def highestCpu (cpus : List Int) : Except Exn Int :=
  cpus.foldlM (fun highest cpu =>
    if cpu < 0 then throw ⟨.invalidArgument, "SPDK reactor CPU must be non-negative"⟩
    else pure (max highest cpu)) 0

def maskDigits (highest : Int) (cpus : List Int) : List Char :=
  cpus.foldl (fun digits cpu => setCpu digits cpu.toNat) (List.replicate (highest.toNat / 4 + 1) '0')

/-- `MakeCoreMask` (:13). -/
def makeCoreMask (cpus : List Int) : Except Exn String := do
  if cpus = [] then throw ⟨.invalidArgument, "reactor_cpus must not be empty"⟩
  let highest ← highestCpu cpus
  return "0x" ++ String.ofList (maskDigits highest cpus)

/-! ## Hexadecimal numbers -/

def hexDigits : List Char := "0123456789abcdef".toList

/-- The number that lower-case hexadecimal digits write. -/
def hexNumber (digits : List Char) : Nat := digits.foldl (fun n c => 16 * n + hexDigits.idxOf c) 0

theorem hexDigits_cases {c : Char} (h : c ∈ hexDigits) : ∃ v < 16, c = maskChar v := by
  have hall : hexDigits.all (fun c => maskChar (hexDigits.idxOf c) == c && decide (hexDigits.idxOf c < 16)) = true := by
    decide
  obtain ⟨hc, hlt⟩ := Bool.and_eq_true_iff.1 (List.all_eq_true.1 hall c h)
  exact ⟨_, of_decide_eq_true hlt, (eq_of_beq hc).symm⟩

/-- Reading a digit that was written. -/
theorem maskChar_spec {v : Nat} (h : v < 16) :
    maskChar v ∈ hexDigits ∧ maskValue (maskChar v) = v ∧ hexDigits.idxOf (maskChar v) = v := by
  interval_cases v <;> decide

theorem maskValue_eq {c : Char} (h : c ∈ hexDigits) : maskValue c = hexDigits.idxOf c ∧ maskValue c < 16 := by
  obtain ⟨v, hv, rfl⟩ := hexDigits_cases h
  obtain ⟨-, hvalue, hidx⟩ := maskChar_spec hv
  exact ⟨hvalue.trans hidx.symm, by omega⟩

theorem maskChar_value {c : Char} (h : c ∈ hexDigits) : maskChar (maskValue c) = c := by
  obtain ⟨v, hv, rfl⟩ := hexDigits_cases h
  rw [(maskChar_spec hv).2.1]

theorem hexNumber_concat (digits : List Char) (c : Char) :
    hexNumber (digits ++ [c]) = 16 * hexNumber digits + hexDigits.idxOf c := by
  rw [hexNumber, List.foldl_append]
  rfl

/-- Bit `k` of the digits, counted from the last one. -/
def bitAt (digits : List Char) (k : Nat) : Bool :=
  (maskValue (digits.getD (digits.length - 1 - k / 4) '0')).testBit (k % 4)

theorem bitAt_digit {digits : List Char} {i b : Nat} (hi : i < digits.length) (hb : b < 4) :
    bitAt digits (4 * (digits.length - 1 - i) + b) = (maskValue digits[i]).testBit b := by
  unfold bitAt
  rw [show digits.length - 1 - (4 * (digits.length - 1 - i) + b) / 4 = i by omega,
    show (4 * (digits.length - 1 - i) + b) % 4 = b by omega, List.getD_eq_getElem _ _ hi]

/-- Digits are known by their bits. -/
theorem digits_ext {digits digits' : List Char} (h : ∀ c ∈ digits, c ∈ hexDigits) (h' : ∀ c ∈ digits', c ∈ hexDigits)
    (hlen : digits.length = digits'.length) (hbits : ∀ k < 4 * digits.length, bitAt digits k = bitAt digits' k) :
    digits = digits' := by
  apply List.ext_getElem hlen
  intro i hi hi'
  have hc := h _ (List.getElem_mem hi)
  have hc' := h' _ (List.getElem_mem hi')
  rw [← maskChar_value hc, ← maskChar_value hc']
  congr 1
  apply Nat.eq_of_testBit_eq
  intro b
  rcases Nat.lt_or_ge b 4 with hb | hb
  · rw [← bitAt_digit hi hb, ← bitAt_digit hi' hb, ← hlen]
    exact hbits _ (by omega)
  · have hpow : 2 ^ 4 ≤ 2 ^ b := Nat.pow_le_pow_right (by decide) hb
    rw [Nat.testBit_lt_two_pow (Nat.lt_of_lt_of_le (maskValue_eq hc).2 hpow),
      Nat.testBit_lt_two_pow (Nat.lt_of_lt_of_le (maskValue_eq hc').2 hpow)]

theorem hexNumber_testBit {digits : List Char} (h : ∀ c ∈ digits, c ∈ hexDigits) (k : Nat) :
    (hexNumber digits).testBit k = (decide (k < 4 * digits.length) && bitAt digits k) := by
  induction digits using List.reverseRecOn generalizing k with
  | nil => simp [hexNumber]
  | append_singleton digits c ih =>
    have hc := maskValue_eq (h c (by simp))
    rw [hexNumber_concat, show (16 : Nat) = 2 ^ 4 by rfl, Nat.testBit_two_pow_mul_add _ (by omega)]
    unfold bitAt
    rw [List.length_append, List.length_singleton, Nat.add_sub_cancel]
    split
    · -- the last digit
      rename_i hk
      rw [Nat.div_eq_of_lt hk, Nat.mod_eq_of_lt hk, Nat.sub_zero, List.getD_append_right _ _ _ _ (Nat.le_refl _),
        Nat.sub_self, List.getD_cons_zero, hc.1, decide_eq_true (by omega), Bool.true_and]
    · rename_i hk
      rw [ih (fun d hd => h d (by simp [hd]))]
      unfold bitAt
      by_cases hlen : k < 4 * (digits.length + 1)
      · rw [decide_eq_true hlen, decide_eq_true (by omega), List.getD_append _ _ _ _ (by omega),
          show digits.length - 1 - (k - 4) / 4 = digits.length - k / 4 by omega, show (k - 4) % 4 = k % 4 by omega]
      · rw [decide_eq_false hlen, decide_eq_false (by omega), Bool.false_and, Bool.false_and]

/-! ## One CPU -/

section
variable {digits : List Char} {cpu : Nat}

theorem setCpu_length (digits : List Char) (cpu : Nat) : (setCpu digits cpu).length = digits.length :=
  List.length_set

theorem updated_lt {c : Char} (h : c ∈ hexDigits) (cpu : Nat) : maskValue c ||| 1 <<< (cpu % 4) < 16 := by
  have hbit : 1 <<< (cpu % 4) < 2 ^ 4 := by
    rw [Nat.one_shiftLeft]
    exact Nat.pow_lt_pow_right (by decide) (Nat.mod_lt _ (by decide))
  exact Nat.or_lt_two_pow (n := 4) (maskValue_eq h).2 hbit

theorem getD_hex (h : ∀ c ∈ digits, c ∈ hexDigits) (i : Nat) : digits.getD i '0' ∈ hexDigits := by
  rcases Nat.lt_or_ge i digits.length with hi | hi
  · rw [List.getD_eq_getElem _ _ hi]
    exact h _ (List.getElem_mem hi)
  · rw [List.getD_eq_default _ _ hi]
    decide

theorem setCpu_hex (h : ∀ c ∈ digits, c ∈ hexDigits) (cpu : Nat) : ∀ c ∈ setCpu digits cpu, c ∈ hexDigits := by
  intro c hc
  rcases List.mem_or_eq_of_mem_set hc with hc | rfl
  · exact h c hc
  · exact (maskChar_spec (updated_lt (getD_hex h _) cpu)).1

/-- The bit of the CPU is set, and no other changes. -/
theorem setCpu_bitAt (h : ∀ c ∈ digits, c ∈ hexDigits) (hcpu : cpu < 4 * digits.length) {k : Nat}
    (hk : k < 4 * digits.length) : bitAt (setCpu digits cpu) k = (decide (k = cpu) || bitAt digits k) := by
  unfold bitAt
  rw [setCpu_length]
  unfold setCpu
  dsimp only
  by_cases hdigit : k / 4 = cpu / 4
  · -- the digit of the CPU
    rw [hdigit, List.getD_eq_getElem _ _ (by rw [List.length_set]; omega), List.getElem_set_self,
      (maskChar_spec (updated_lt (getD_hex h _) cpu)).2.1, Nat.testBit_or, Nat.one_shiftLeft, Nat.testBit_two_pow,
      Bool.or_comm]
    congr 1
    exact decide_eq_decide.2 (by omega)
  · have hne : digits.length - 1 - cpu / 4 ≠ digits.length - 1 - k / 4 := by omega
    have hother : k ≠ cpu := by
      rintro rfl
      exact hdigit rfl
    rw [decide_eq_false hother, Bool.false_or, List.getD_eq_getElem?_getD, List.getElem?_set_ne hne,
      List.getD_eq_getElem?_getD]

end

/-! ## The loops -/

theorem highestCpu_ok {cpus : List Int} (h : ∀ cpu ∈ cpus, 0 ≤ cpu) : highestCpu cpus = .ok (cpus.foldl max 0) := by
  have hfrom : ∀ start : Int, cpus.foldlM (fun highest cpu =>
      if cpu < 0 then throw ⟨.invalidArgument, "SPDK reactor CPU must be non-negative"⟩
      else pure (max highest cpu)) start = (.ok (cpus.foldl max start) : Except Exn Int) := by
    induction cpus with
    | nil => exact fun _ => rfl
    | cons cpu cpus ih =>
      intro start
      rw [List.foldlM_cons, if_neg (Int.not_lt.2 (h cpu List.mem_cons_self))]
      exact ih (fun c hc => h c (List.mem_cons_of_mem cpu hc)) _
  exact hfrom 0

theorem le_foldl_max (cpus : List Int) (start : Int) :
    start ≤ cpus.foldl max start ∧ ∀ cpu ∈ cpus, cpu ≤ cpus.foldl max start := by
  induction cpus generalizing start with
  | nil => exact ⟨Int.le_refl _, nofun⟩
  | cons cpu cpus ih =>
    obtain ⟨hstart, hall⟩ := ih (max start cpu)
    rw [List.foldl_cons]
    refine ⟨Int.le_trans (Int.le_max_left _ _) hstart, ?_⟩
    intro c hc
    rcases List.mem_cons.1 hc with rfl | hc
    · exact Int.le_trans (Int.le_max_right _ _) hstart
    · exact hall c hc

theorem foldl_max_mem {cpus : List Int} (h : ∀ cpu ∈ cpus, 0 ≤ cpu) (hne : cpus ≠ []) : cpus.foldl max 0 ∈ cpus := by
  have hfrom : ∀ (cpus : List Int) (start : Int), cpus.foldl max start = start ∨ cpus.foldl max start ∈ cpus := by
    intro cpus
    induction cpus with
    | nil => exact fun _ => .inl rfl
    | cons cpu cpus ih =>
      intro start
      rw [List.foldl_cons]
      rcases ih (max start cpu) with heq | hmem
      · rcases Int.le_total cpu start with hle | hle
        · rw [Int.max_eq_left hle] at heq ⊢
          exact .inl heq
        · rw [Int.max_eq_right hle] at heq ⊢
          exact .inr (by rw [heq]; exact List.mem_cons_self)
      · exact .inr (List.mem_cons_of_mem cpu hmem)
  cases cpus with
  | nil => exact absurd rfl hne
  | cons cpu cpus =>
    rw [List.foldl_cons, Int.max_eq_right (h cpu List.mem_cons_self)]
    rcases hfrom cpus cpu with heq | hmem
    · rw [heq]
      exact List.mem_cons_self
    · exact List.mem_cons_of_mem cpu hmem

/-- The second loop sets the bits of its CPUs. -/
theorem foldl_setCpu {cpus : List Int} {digits : List Char} (hnat : ∀ cpu ∈ cpus, 0 ≤ cpu)
    (hfit : ∀ cpu ∈ cpus, cpu.toNat < 4 * digits.length) (h : ∀ c ∈ digits, c ∈ hexDigits) :
    let result := cpus.foldl (fun digits cpu => setCpu digits cpu.toNat) digits
    result.length = digits.length ∧ (∀ c ∈ result, c ∈ hexDigits) ∧
    ∀ k < 4 * digits.length, bitAt result k = true ↔ (k : Int) ∈ cpus ∨ bitAt digits k = true := by
  induction cpus generalizing digits with
  | nil => exact ⟨rfl, h, fun k _ => by simp⟩
  | cons cpu cpus ih =>
    have hcpu := hfit cpu List.mem_cons_self
    have hlen := setCpu_length digits cpu.toNat
    obtain ⟨hl, hhex, hbits⟩ := ih
      (fun c hc => hnat c (List.mem_cons_of_mem cpu hc))
      (fun c hc => by rw [hlen]; exact hfit c (List.mem_cons_of_mem cpu hc)) (setCpu_hex h cpu.toNat)
    refine ⟨hl.trans hlen, hhex, ?_⟩
    intro k hk
    rw [List.foldl_cons, hbits k (by rw [hlen]; exact hk), setCpu_bitAt h hcpu hk, List.mem_cons, Bool.or_eq_true,
      decide_eq_true_eq]
    have h0 := hnat cpu List.mem_cons_self
    have heq : k = cpu.toNat ↔ (k : Int) = cpu := by omega
    rw [heq]
    tauto

theorem bitAt_zeros (n k : Nat) : bitAt (List.replicate n '0') k = false := by
  have hzero : (List.replicate n '0').getD ((List.replicate n '0').length - 1 - k / 4) '0' = '0' := by
    rw [List.getD_eq_getElem?_getD, List.getElem?_replicate]
    split <;> rfl
  unfold bitAt
  rw [hzero]
  exact Nat.zero_testBit _

/-- The digits of a list of CPUs: as many as the highest needs, with its bits. -/
theorem maskDigits_spec {cpus : List Int} (hnat : ∀ cpu ∈ cpus, 0 ≤ cpu) :
    let digits := maskDigits (cpus.foldl max 0) cpus
    digits.length = (cpus.foldl max 0).toNat / 4 + 1 ∧ (∀ c ∈ digits, c ∈ hexDigits) ∧
    ∀ k < 4 * digits.length, bitAt digits k = true ↔ (k : Int) ∈ cpus := by
  have hhigh := (le_foldl_max cpus 0).2
  have hfit : ∀ cpu ∈ cpus, cpu.toNat < 4 * (List.replicate ((cpus.foldl max 0).toNat / 4 + 1) '0').length := by
    intro cpu hcpu
    have := hhigh cpu hcpu
    rw [List.length_replicate]
    omega
  have hzeros : ∀ c ∈ List.replicate ((cpus.foldl max 0).toNat / 4 + 1) '0', c ∈ hexDigits := by
    intro c hc
    rw [List.eq_of_mem_replicate hc]
    decide
  obtain ⟨hlen, hhex, hbits⟩ := foldl_setCpu hnat hfit hzeros
  rw [List.length_replicate] at hlen hbits
  refine ⟨hlen, hhex, ?_⟩
  intro k hk
  have hk : k < 4 * ((cpus.foldl max 0).toNat / 4 + 1) := by rwa [maskDigits, hlen] at hk
  have := hbits k hk
  rw [bitAt_zeros] at this
  unfold maskDigits
  simpa using this

theorem makeCoreMask_eq {cpus : List Int} (hne : cpus ≠ []) (hnat : ∀ cpu ∈ cpus, 0 ≤ cpu) :
    makeCoreMask cpus = .ok ("0x" ++ String.ofList (maskDigits (cpus.foldl max 0) cpus)) := by
  unfold makeCoreMask
  rw [if_neg hne, highestCpu_ok hnat]
  rfl

/-- **The mask writes the set of its CPUs**, without a leading zero. -/
theorem coreMask_spec {cpus : List Int} (hne : cpus ≠ []) (hnat : ∀ cpu ∈ cpus, 0 ≤ cpu) :
    ∃ digits, makeCoreMask cpus = .ok ("0x" ++ String.ofList digits) ∧ digits ≠ [] ∧ (∀ c ∈ digits, c ∈ hexDigits) ∧
      digits.head? ≠ some '0' ∧ ∀ k : Nat, (hexNumber digits).testBit k = true ↔ (k : Int) ∈ cpus := by
  obtain ⟨hlen, hhex, hbits⟩ := maskDigits_spec hnat
  have hmem := foldl_max_mem hnat hne
  have h0 := hnat _ hmem
  have hbound := (le_foldl_max cpus 0).2
  refine ⟨_, makeCoreMask_eq hne hnat, ?_, hhex, ?_, ?_⟩
  · intro hnil
    rw [hnil] at hlen
    cases hlen
  · -- the highest CPU has its bit in the first digit
    intro hhead
    have hbit := (hbits (cpus.foldl max 0).toNat (by omega)).2 (by rwa [Int.toNat_of_nonneg h0])
    obtain ⟨rest, hrest⟩ := List.head?_eq_some_iff.1 hhead
    unfold bitAt at hbit
    rw [hlen, Nat.add_sub_cancel, Nat.sub_self, hrest, List.getD_cons_zero] at hbit
    have hzero : maskValue '0' = 0 := by decide
    rw [hzero, Nat.zero_testBit] at hbit
    cases hbit
  · intro k
    rw [hexNumber_testBit hhex, Bool.and_eq_true, decide_eq_true_eq]
    constructor
    · rintro ⟨hk, hbit⟩
      exact (hbits k hk).1 hbit
    · intro hk
      have := hbound _ hk
      have hlt : k < 4 * (maskDigits (cpus.foldl max 0) cpus).length := by omega
      exact ⟨hlt, (hbits k hlt).2 hk⟩

/-- The order of the CPUs and their repetitions do not matter. -/
theorem coreMask_congr {cpus cpus' : List Int} (hne : cpus ≠ []) (hnat : ∀ cpu ∈ cpus, 0 ≤ cpu)
    (hsame : ∀ cpu, cpu ∈ cpus ↔ cpu ∈ cpus') : makeCoreMask cpus = makeCoreMask cpus' := by
  have hne' : cpus' ≠ [] := by
    obtain ⟨cpu, hcpu⟩ := List.exists_mem_of_ne_nil cpus hne
    exact List.ne_nil_of_mem ((hsame cpu).1 hcpu)
  have hnat' : ∀ cpu ∈ cpus', 0 ≤ cpu := fun cpu hcpu => hnat cpu ((hsame cpu).2 hcpu)
  have hmax : cpus.foldl max 0 = cpus'.foldl max 0 := by
    apply Int.le_antisymm
    · exact (le_foldl_max cpus' 0).2 _ ((hsame _).1 (foldl_max_mem hnat hne))
    · exact (le_foldl_max cpus 0).2 _ ((hsame _).2 (foldl_max_mem hnat' hne'))
  obtain ⟨hlen, hhex, hbits⟩ := maskDigits_spec hnat
  obtain ⟨hlen', hhex', hbits'⟩ := maskDigits_spec hnat'
  rw [makeCoreMask_eq hne hnat, makeCoreMask_eq hne' hnat']
  congr 3
  have hlens : (maskDigits (cpus.foldl max 0) cpus).length = (maskDigits (cpus'.foldl max 0) cpus').length := by
    rw [hlen, hlen', hmax]
  apply digits_ext hhex hhex' hlens
  intro k hk
  rw [Bool.eq_iff_iff, hbits k hk, hbits' k (hlens ▸ hk)]
  exact hsame k

/-- The mask determines the CPUs. -/
theorem coreMask_inj {cpus cpus' : List Int} (hne : cpus ≠ []) (hnat : ∀ cpu ∈ cpus, 0 ≤ cpu) (hne' : cpus' ≠ [])
    (hnat' : ∀ cpu ∈ cpus', 0 ≤ cpu) (h : makeCoreMask cpus = makeCoreMask cpus') : ∀ cpu, cpu ∈ cpus ↔ cpu ∈ cpus' := by
  obtain ⟨digits, hd, -, -, -, hbits⟩ := coreMask_spec hne hnat
  obtain ⟨digits', hd', -, -, -, hbits'⟩ := coreMask_spec hne' hnat'
  rw [hd, hd'] at h
  have heq : digits = digits' := String.ofList_injective ((String.append_right_inj _).1 (Except.ok.inj h))
  subst heq
  intro cpu
  rcases Int.lt_or_le cpu 0 with hneg | hpos
  · exact ⟨fun hc => absurd (hnat cpu hc) (by omega), fun hc => absurd (hnat' cpu hc) (by omega)⟩
  · obtain ⟨k, rfl⟩ := Int.eq_ofNat_of_zero_le hpos
    exact (hbits k).symm.trans (hbits' k)

end SpdkConnector
