import Mathlib.Data.Nat.Digits.Lemmas
import SchemaCodec.Decimal.Integer
import SchemaCodec.Decimal.Rounding

/-!
# Integers as texts and as floats

The decimal form of an integer is read as the same integer. As a float, an integer that a 64-bit
word holds is finite: its significand has at most 54 bits after rounding, and the exponent that goes
with it is far below that of an infinity.
-/

namespace SchemaCodec

namespace Decimal

/-! ## Decimal texts -/

theorem readDigits_of_digits {digits : List Char} (h : ∀ c ∈ digits, c.isDigit = true) (n : Nat) :
    readDigits n digits = some (Nat.ofDigitChars 10 digits n) := by
  induction digits generalizing n with
  | nil => rw [readDigits, Nat.ofDigitChars_nil]
  | cons c rest ih =>
    rw [readDigits, if_pos (h c List.mem_cons_self), ih fun d hd ↦ h d (List.mem_cons_of_mem _ hd),
      Nat.ofDigitChars_cons, appendDigit, digitValue, Nat.mul_comm]

theorem readNat?_toDigits (n : Nat) : readNat? (Nat.toDigits 10 n) = some n := by
  have hdigits : ∀ c ∈ Nat.toDigits 10 n, c.isDigit = true :=
    fun _ ↦ Nat.isDigit_of_mem_toDigits (by decide) (by decide)
  have hread : readDigits 0 (Nat.toDigits 10 n) = some n := by
    rw [readDigits_of_digits hdigits, Nat.ofDigitChars_ten_toDigits]
  cases htext : Nat.toDigits 10 n with
  | nil => exact absurd htext Nat.toDigits_ne_nil
  | cons c rest =>
    rw [htext] at hdigits hread
    rw [readNat?, if_pos (hdigits c List.mem_cons_self), hread]

/-- The decimal form of an integer is read as this integer. -/
theorem readInt?_intText (i : Int) : readInt? (intText i) = some i := by
  rw [intText]
  split
  · next hneg =>
    have hlist : ("-" ++ natText i.natAbs).toList = '-' :: Nat.toDigits 10 i.natAbs := by
      simp [natText]
    simp only [readInt?, hlist]
    rw [readNat?_toDigits]
    change some (-(i.natAbs : Int)) = some i
    rw [Int.ofNat_natAbs_of_nonpos hneg.le, neg_neg]
  · next hpos =>
    have hlist : (natText i.natAbs).toList = Nat.toDigits 10 i.natAbs := by simp [natText]
    have hdigit : ∀ c ∈ Nat.toDigits 10 i.natAbs, c.isDigit = true :=
      fun _ ↦ Nat.isDigit_of_mem_toDigits (by decide) (by decide)
    -- the text starts with a digit, which is no sign
    have hread : readInt? (natText i.natAbs)
        = (readNat? (Nat.toDigits 10 i.natAbs)).map Int.ofNat := by
      rw [readInt?, hlist]
      split
      · next htext => exact absurd (hdigit _ (htext ▸ List.mem_cons_self)) (by decide)
      · next htext => exact absurd (hdigit _ (htext ▸ List.mem_cons_self)) (by decide)
      · rfl
    rw [hread, readNat?_toDigits, Option.map_some]
    exact congrArg some (Int.natAbs_of_nonneg (not_lt.mp hpos))

/-! ## Floats -/

theorem roundDiv_le (num den : Nat) : roundDiv num den ≤ num / den + 1 := by
  rw [roundDiv]
  split <;> omega

theorem roundDiv_one (num : Nat) : roundDiv num 1 = num := by
  rw [roundDiv, Nat.mod_one, Nat.div_one]
  exact if_neg (by simp)

/-- Rounding to the unit of a number leaves at most 54 bits. -/
theorem roundScaled_unit_le {num : Nat} {e : Int} (h : (num.log2 : Int) - 53 ≤ e) :
    roundScaled num 1 e ≤ 2 ^ 54 := by
  have hnum : num < 2 ^ (num.log2 + 1) := Nat.lt_log2_self
  rw [roundScaled]
  split
  · next hpos =>
    have hlt : num / (1 <<< e.toNat) < 2 ^ 54 := by
      rw [Nat.one_shiftLeft]
      refine Nat.div_lt_of_lt_mul (hnum.trans_le ?_)
      rw [← pow_add]
      exact Nat.pow_le_pow_right (by norm_num) (by omega)
    exact (roundDiv_le _ _).trans hlt
  · rw [roundDiv_one, Nat.shiftLeft_eq]
    calc num * 2 ^ (-e).toNat ≤ 2 ^ (num.log2 + 1) * 2 ^ (-e).toNat := by gcongr
      _ = 2 ^ (num.log2 + 1 + (-e).toNat) := (pow_add ..).symm
      _ ≤ 2 ^ 54 := Nat.pow_le_pow_right (by norm_num) (by omega)

theorem unitExponent_one_le (num : Nat) :
    (num.log2 : Int) - 53 ≤ unitExponent num 1 ∧ unitExponent num 1 ≤ (num.log2 : Int) - 52 := by
  have hone : Nat.log2 1 = 0 := by decide
  rw [unitExponent, hone]
  split <;> split <;> omega

theorem roundQuotient_lt_infinity {num : Nat} (h : num < 2 ^ 64) :
    roundQuotient num 1 < infinity := by
  rw [roundQuotient]
  split
  · decide
  · next hnum =>
    dsimp only
    obtain ⟨hlower, hupper⟩ := unitExponent_one_le num
    have hlog : num.log2 < 64 := (Nat.log2_lt hnum).mpr h
    have hscaled : roundScaled num 1 (max (unitExponent num 1) (-1074)) ≤ 2 ^ 54 :=
      roundScaled_unit_le (by omega)
    refine (min_le_left _ _).trans_lt ?_
    rw [infinity, Nat.shiftLeft_eq, Nat.shiftLeft_eq]
    have hexponent : (max (unitExponent num 1) (-1074) + 1074).toNat ≤ 1085 := by omega
    omega

/-- Bits below those of an infinity are finite, with either sign. -/
theorem isFinite_signed {bits : Nat} (h : bits < infinity) (negative : Bool) :
    (signed negative bits).isFinite = true := by
  have hbits : bits < 0x7ff * 2 ^ 52 := by rwa [infinity, Nat.shiftLeft_eq] at h
  have hexponent : ((UInt64.ofNat bits >>> 52) &&& 0x7ff).toNat = bits / 2 ^ 52 := by
    have hsize : bits % 2 ^ 64 = bits := Nat.mod_eq_of_lt (by omega)
    have hmask := Nat.and_two_pow_sub_one_eq_mod (bits / 2 ^ 52) 11
    simp only [UInt64.toNat_and, UInt64.toNat_shiftRight, UInt64.toNat_ofNat', hsize,
      Nat.shiftRight_eq_div_pow]
    exact hmask.trans (Nat.mod_eq_of_lt (by omega))
  have hbiased : (signed negative bits).biased = bits / 2 ^ 52 := by
    rw [← hexponent, signed, Binary64.biased]
    cases negative with
    | false => rfl
    | true =>
      -- the sign is no bit of the exponent
      have hsign : 0x8000000000000000 >>> 52 &&& 0x7ff = (0 : Nat) := by decide
      rw [if_pos rfl, UInt64.shiftRight_or, UInt64.toNat_and, UInt64.toNat_and, UInt64.toNat_or,
        Nat.and_or_distrib_right]
      exact (congrArg _ hsign).trans (Nat.or_zero _)
  rw [Binary64.isFinite, hbiased]
  simp only [decide_not, Bool.not_eq_true', decide_eq_false_iff_not]
  omega

/-- An integer that a 64-bit word holds, signed or unsigned, is a finite float. -/
theorem isFinite_ofInt {i : Int} (h : i.natAbs < 2 ^ 64) : (ofInt i).isFinite = true := by
  have hplaces : digitCount i.natAbs ≤ 20 := by
    rw [digitCount]
    split
    · exact Nat.zero_le _
    · exact (Nat.length_toDigits_le_iff (by norm_num) (by norm_num)).mpr (h.trans (by norm_num))
  refine isFinite_signed ?_ _
  split
  · decide
  · rw [if_neg (by omega), if_pos le_rfl]
    exact roundQuotient_lt_infinity (by simpa using h)

end Decimal

end SchemaCodec
