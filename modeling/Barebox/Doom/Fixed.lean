import Barebox.Base

/-!
# Fixed point numbers — `commands/doom/m_fixed.c`

`FixedDiv` compares magnitudes before it divides, so that it never divides by zero and
what it divides fits. The magnitudes are computed by a macro in a `long`. With 64 bits that
is right for all numbers. With 32 bits the magnitude of the most negative number is that
number again, less than any other: such a dividend is divided by whatever there is, and such a
divisor is taken for too small. `fixed_div_iff` says what is left.

Mirroring notes:
- Signed numbers wrap around: the sources are built with `-fno-strict-overflow`.
- `a << 16` and the quotients are far from the ends of an `int64_t`. `div_s64` is C's
  division; where a `long` has 32 bits it is done by a library, with the same result. A
  division by zero is `none`.
-/

namespace Barebox.Doom

def abs (l : Long) (x : Int) : Int := if x < 0 then (-x).bmod (2 ^ l.bits) else x

def divS64 (dividend divisor : Int) : Option Int :=
  if divisor = 0 then none else some (dividend.tdiv divisor)

def fixedMul (a b : Int32) : Int32 := .ofInt ((a.toInt * b.toInt) >>> (16 : Nat))

/-- The largest or the smallest number -/
def saturated (a b : Int32) : Int32 := if a ^^^ b < 0 then .minValue else .maxValue

def fixedDiv (l : Long) (a b : Int32) : Option Int32 :=
  if abs l a.toInt >>> (14 : Nat) ≥ abs l b.toInt then some (saturated a b)
  else (divS64 (a.toInt * 2 ^ 16) b.toInt).map .ofInt

/-! ## What is expected -/

def quotient (a b : Int32) : Int := (a.toInt * 65536).tdiv b.toInt

/-- The quotient fits. In particular the divisor is not zero. -/
def InRange (a b : Int32) : Prop := a.toInt.natAbs < 2 ^ 14 * b.toInt.natAbs

structure DividesRight (l : Long) (a b : Int32) : Prop where
  total : fixedDiv l a b ≠ none
  quotient : InRange a b → ∀ q ∈ fixedDiv l a b, q.toInt = quotient a b
  otherwise : ¬ InRange a b → fixedDiv l a b = some (saturated a b)
  back : InRange a b → ∀ q ∈ fixedDiv l a b,
    ((fixedMul q b).toInt - a.toInt).natAbs ≤ b.toInt.natAbs / 65536 + 1

/-! ## Magnitudes -/

variable {l : Long} {a b : Int32}

theorem abs_toInt (h : l = .bits64 ∨ a ≠ .minValue) : abs l a.toInt = a.toInt.natAbs := by
  rw [ne_eq, ← Int32.toInt_inj, Int32.toInt_minValue] at h
  have hlow := a.le_toInt
  rw [abs, Int.bmod]
  cases l with
  | bits32 =>
    rw [Long.bits]
    grind
  | bits64 =>
    rw [Long.bits]
    grind

theorem abs_minValue : abs .bits32 (Int32.minValue).toInt = -2 ^ 31 := by decide

/-! ## Quotients -/

theorem quotient_natAbs (a b : Int32) : (quotient a b).natAbs = a.toInt.natAbs * 65536 / b.toInt.natAbs := by
  rw [quotient, Int.natAbs_tdiv, Int.natAbs_mul]
  rfl

theorem InRange.quotient_lt (h : InRange a b) : (quotient a b).natAbs < 2 ^ 30 := by
  rw [quotient_natAbs]
  exact Nat.div_lt_of_lt_mul (by unfold InRange at h; omega)

theorem InRange.toInt_quotient (h : InRange a b) : (Int32.ofInt (quotient a b)).toInt = quotient a b := by
  have hlt := h.quotient_lt
  exact Int32.toInt_ofInt_of_le (by omega) (by omega)

/-- The remainder has the sign of the dividend and is less than the divisor. -/
theorem InRange.back (h : InRange a b) :
    ((fixedMul (.ofInt (quotient a b)) b).toInt - a.toInt).natAbs ≤ b.toInt.natAbs / 65536 + 1 := by
  have hsum := Int.tdiv_mul_add_tmod (a.toInt * 65536) b.toInt
  have hlt : ((a.toInt * 65536).tmod b.toInt).natAbs < b.toInt.natAbs := by
    rw [Int.natAbs_tmod]
    exact Nat.mod_lt _ (by unfold InRange at h; omega)
  have hpos : 0 ≤ a.toInt → 0 ≤ (a.toInt * 65536).tmod b.toInt := fun ha => Int.tmod_nonneg _ (by omega)
  have hneg : a.toInt ≤ 0 → 0 ≤ -(a.toInt * 65536).tmod b.toInt := by
    intro ha
    rw [← Int.neg_tmod]
    exact Int.tmod_nonneg _ (by omega)
  have hlow := a.le_toInt
  have hhigh := a.toInt_lt
  have hdivisor := b.le_toInt
  have hdivisor' := b.toInt_lt
  rw [fixedMul, h.toInt_quotient, quotient, Int.shiftRight_eq_div_pow, Int32.toInt_ofInt_of_le (by omega) (by omega)]
  omega

theorem right_of_quotient (hin : InRange a b) (h : fixedDiv l a b = some (.ofInt (quotient a b))) :
    DividesRight l a b := by
  refine ⟨by rw [h]; nofun, fun _ q hq => ?_, fun hout => absurd hin hout, fun _ q hq => ?_⟩
  · cases h.symm.trans hq
    exact hin.toInt_quotient
  · cases h.symm.trans hq
    exact hin.back

theorem right_of_saturated (hout : ¬ InRange a b) (h : fixedDiv l a b = some (saturated a b)) : DividesRight l a b :=
  ⟨by rw [h]; nofun, fun hin => absurd hin hout, fun _ => h, fun hin => absurd hin hout⟩

theorem fixedDiv_quotient (hless : abs l a.toInt >>> (14 : Nat) < abs l b.toInt) (hb : b.toInt ≠ 0) :
    fixedDiv l a b = some (.ofInt (quotient a b)) := by
  rw [fixedDiv, if_neg (Int.not_le.mpr hless), divS64, if_neg hb]
  rfl

/-- With the magnitudes right, so is the division. -/
theorem right_of_abs (ha : abs l a.toInt = a.toInt.natAbs) (hb : abs l b.toInt = b.toInt.natAbs) :
    DividesRight l a b := by
  have hshift : abs l a.toInt >>> (14 : Nat) < abs l b.toInt ↔ InRange a b := by
    rw [ha, hb, Int.shiftRight_eq_div_pow, InRange]
    omega
  by_cases hin : InRange a b
  · refine right_of_quotient hin (fixedDiv_quotient (hshift.mpr hin) ?_)
    unfold InRange at hin
    omega
  · refine right_of_saturated hin ?_
    rw [fixedDiv, if_pos (Int.not_lt.mp fun hless => hin (hshift.mp hless))]

/-! ## The most negative number -/

/-- The quotients that are cut to the largest or the smallest number -/
theorem eq_of_quotient {n : Nat} (hn : 0 < n) (hlow : 2 ^ 31 - 1 ≤ 2 ^ 47 / n % 2 ^ 32)
    (hhigh : 2 ^ 47 / n % 2 ^ 32 ≤ 2 ^ 31 + 1) : n = 2 ^ 16 := by
  have hmul := Nat.mul_div_le (2 ^ 47) n
  have hlt := Nat.lt_mul_div_succ (2 ^ 47) hn
  generalize 2 ^ 47 / n = q at *
  obtain ⟨k, e, he, rfl⟩ : ∃ k e, e ≤ 2 ∧ q = 2 ^ 32 * k + (2 ^ 31 - 1 + e) :=
    ⟨q / 2 ^ 32, q % 2 ^ 32 - (2 ^ 31 - 1), by omega, by omega⟩
  -- the product is near a multiple of 2³¹, and 2⁴⁷ is one
  have hodd : n * (2 * k + 1) = 2 ^ 16 := by
    have hne : n * e ≤ n * 2 := Nat.mul_le_mul_left n he
    simp only [Nat.mul_add, Nat.mul_left_comm n] at hmul hlt ⊢
    omega
  obtain ⟨j, -, hj⟩ := (Nat.dvd_prime_pow Nat.prime_two).mp (Dvd.intro_left n hodd)
  cases j with
  | zero =>
    rw [hj] at hodd
    omega
  | succ j =>
    omega

theorem saturated_toInt (a b : Int32) : (saturated a b).toInt = -2 ^ 31 ∨ (saturated a b).toInt = 2 ^ 31 - 1 := by
  unfold saturated
  split
  next => exact Or.inl rfl
  next => exact Or.inr rfl

/-- Dividing the smallest number: the quotient is the saturated one for one divisor only. -/
theorem eq_of_saturated (hb : b.toInt ≠ 0)
    (h : Int32.ofInt (quotient .minValue b) = saturated .minValue b) : b = 65536 := by
  have hquot := quotient_natAbs .minValue b
  have hends := saturated_toInt .minValue b
  rw [← h, Int32.toInt_ofInt, Int.bmod] at hends
  have hn : b.toInt.natAbs = 2 ^ 16 := by
    have hnum : Int32.minValue.toInt.natAbs * 65536 = 2 ^ 47 := rfl
    exact eq_of_quotient (by omega) (by grind) (by grind)
  have hcases : b.toInt = (65536 : Int32).toInt ∨ b.toInt = (-65536 : Int32).toInt := by
    have hpos : (65536 : Int32).toInt = 2 ^ 16 := rfl
    have hneg : (-65536 : Int32).toInt = -2 ^ 16 := rfl
    omega
  rcases hcases with hpos | hneg
  · exact Int32.toInt_inj.mp hpos
  · cases Int32.toInt_inj.mp hneg
    exact absurd h (by decide)

/-- Every dividend is taken for too large. -/
theorem minValue_divisor (a : Int32) : ¬ DividesRight .bits32 a .minValue := by
  intro hright
  have hlow := a.le_toInt
  have hhigh := a.toInt_lt
  have hin : InRange a .minValue := by
    rw [InRange, Int32.toInt_minValue]
    omega
  have habs : -2 ^ 31 ≤ abs .bits32 a.toInt := by
    by_cases ha : a = .minValue
    · rw [ha, abs_minValue]
    · rw [abs_toInt (Or.inr ha)]
      omega
  have hdiv : fixedDiv .bits32 a .minValue = some (saturated a .minValue) := by
    rw [fixedDiv, abs_minValue, Int.shiftRight_eq_div_pow, if_pos (by omega)]
  have hquot := hright.quotient hin _ hdiv
  have hlt := hin.quotient_lt
  have hends := saturated_toInt a .minValue
  omega

/-- Every divisor is taken for large enough. -/
theorem minValue_dividend (hb : b ≠ .minValue) :
    DividesRight .bits32 .minValue b ↔ 2 ^ 17 < b.toInt.natAbs ∨ b = 65536 := by
  have hin : InRange .minValue b ↔ 2 ^ 17 < b.toInt.natAbs := by
    rw [InRange, Int32.toInt_minValue]
    omega
  have hless : abs .bits32 Int32.minValue.toInt >>> (14 : Nat) < abs .bits32 b.toInt := by
    rw [abs_minValue, abs_toInt (Or.inr hb), Int.shiftRight_eq_div_pow]
    omega
  by_cases hzero : b.toInt = 0
  · refine iff_of_false (fun hright => hright.total ?_) ?_
    · rw [fixedDiv, if_neg (Int.not_le.mpr hless), divS64, if_pos hzero]
      rfl
    · rintro (hlarge | rfl)
      · omega
      · exact absurd hzero (by decide)
  have hdiv : fixedDiv .bits32 .minValue b = _ := fixedDiv_quotient hless hzero
  by_cases hlarge : 2 ^ 17 < b.toInt.natAbs
  · exact iff_of_true (right_of_quotient (hin.mpr hlarge) hdiv) (Or.inl hlarge)
  rw [or_iff_right hlarge]
  constructor
  · intro hright
    have hout := hright.otherwise (fun h => hlarge (hin.mp h))
    exact eq_of_saturated hzero (Option.some.inj (hdiv.symm.trans hout))
  · rintro rfl
    exact right_of_saturated (fun h => hlarge (hin.mp h)) (by decide)

/-- For all numbers the quotient is right, and saturated where it does not fit, if and only if
a `long` has 64 bits or neither number is one that has no magnitude with 32. -/
theorem fixed_div_iff (l : Long) (a b : Int32) : DividesRight l a b
    ↔ l = .bits64 ∨ b ≠ .minValue ∧ (a ≠ .minValue ∨ 2 ^ 17 < b.toInt.natAbs ∨ b = 65536) := by
  by_cases hgood : l = .bits64 ∨ b ≠ .minValue ∧ a ≠ .minValue
  · refine iff_of_true (right_of_abs (abs_toInt ?_) (abs_toInt ?_)) ?_
    · exact hgood.imp_right And.right
    · exact hgood.imp_right And.left
    · exact hgood.imp_right fun h => ⟨h.1, Or.inl h.2⟩
  cases l with
  | bits64 => exact absurd (Or.inl rfl) hgood
  | bits32 =>
  rw [or_iff_right nofun]
  by_cases hb : b = .minValue
  · subst hb
    exact iff_of_false (minValue_divisor a) fun h => h.1 rfl
  obtain rfl : a = .minValue := by
    by_contra ha
    exact hgood (Or.inr ⟨hb, ha⟩)
  rw [and_iff_right hb, or_iff_right (fun h => h rfl)]
  exact minValue_dividend hb

/-- The most negative number is divided by zero. -/
theorem minValue_div_zero : fixedDiv .bits32 .minValue 0 = none ∧ ¬ DividesRight .bits32 .minValue 0 := by
  have hnone : fixedDiv .bits32 .minValue 0 = none := by decide
  exact ⟨hnone, fun h => h.total hnone⟩

end Barebox.Doom
