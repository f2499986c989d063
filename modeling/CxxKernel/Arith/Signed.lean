import CxxKernel.Arith.Division
import Mathlib.Data.Int.Order.Basic

/-! The signed 64-bit division of `math.cpp`: signs are stripped in front of the unsigned division and set again
behind it. -/
namespace CxxKernel.Arith

def my_divdi3 (fuel : ℕ) (num den : Long) : Option Long :=
  let minus := num.slt 0
  let num := if num.slt 0 then -num else num
  let minus := if den.slt 0 then !minus else minus
  let den := if den.slt 0 then -den else den
  (my_udivmoddi4 fuel num den).map fun v => if minus then -v.1 else v.1

/-- `my__moddi3`, which treats the signs as if it were the quotient. -/
def my_moddi3 (fuel : ℕ) (num den : Long) : Option Long :=
  let minus := num.slt 0
  let num := if num.slt 0 then -num else num
  let minus := if den.slt 0 then !minus else minus
  let den := if den.slt 0 then -den else den
  (my_udivmoddi4 fuel num den).map fun v => if minus then -v.2 else v.2

/-- What the compiler expects of a signed quotient and its remainder. -/
structure SignedDivided (num den quot rem : ℤ) : Prop where
  sum : num = quot * den + rem
  rest : rem.natAbs < den.natAbs
  sign : rem = 0 ∨ rem.sign = num.sign

/-- Both functions return, and their results belong together. -/
def SignedLaw (fuel : ℕ) (num den : Long) : Prop :=
  ∃ quot rem, my_divdi3 fuel num den = some quot ∧ my_moddi3 fuel num den = some rem ∧
    SignedDivided num.toInt den.toInt quot.toInt rem.toInt

section Signed
variable {num den : Long} {fuel : ℕ}

theorem slt_zero (w : Long) : w.slt 0 = w.msb := BitVec.slt_zero_eq_msb

theorem neg_ne_zero_of_ne (h : den ≠ 0) : -den ≠ 0 := fun hzero => h (BitVec.neg_eq_zero_iff.mp hzero)

theorem my_divdi3_eq (num : Long) (h : den ≠ 0) (hfuel : 65 ≤ fuel) :
    my_divdi3 fuel num den = some (num.sdiv den) := by
  have hneg := neg_ne_zero_of_ne h
  rw [my_divdi3, BitVec.sdiv_eq]
  simp only [slt_zero]
  cases num.msb <;> cases den.msb
  · exact congrArg (Option.map _) (my_udivmoddi4_eq num h hfuel)
  · exact congrArg (Option.map _) (my_udivmoddi4_eq num hneg hfuel)
  · exact congrArg (Option.map _) (my_udivmoddi4_eq (-num) h hfuel)
  · exact congrArg (Option.map _) (my_udivmoddi4_eq (-num) hneg hfuel)

/-- The remainder of a division by a negative number has the wrong sign. -/
theorem my_moddi3_eq (num : Long) (h : den ≠ 0) (hfuel : 65 ≤ fuel) :
    my_moddi3 fuel num den = some (if den.msb then -num.srem den else num.srem den) := by
  have hneg := neg_ne_zero_of_ne h
  rw [my_moddi3, BitVec.srem_eq]
  simp only [slt_zero]
  cases num.msb <;> cases den.msb
  · exact congrArg (Option.map _) (my_udivmoddi4_eq num h hfuel)
  · exact congrArg (Option.map _) (my_udivmoddi4_eq num hneg hfuel)
  · exact congrArg (Option.map _) (my_udivmoddi4_eq (-num) h hfuel)
  · rw [if_pos rfl, BitVec.neg_neg]
    exact congrArg (Option.map _) (my_udivmoddi4_eq (-num) hneg hfuel)

theorem natAbs_srem_lt (num : Long) (h : den ≠ 0) : (num.srem den).toInt.natAbs < den.toInt.natAbs := by
  have hden : den.toInt ≠ 0 := fun hzero => h (BitVec.eq_of_toInt_eq hzero)
  rw [BitVec.toInt_srem, Int.natAbs_tmod]
  exact Nat.mod_lt _ (Int.natAbs_pos.mpr hden)

theorem toInt_neg_srem (num : Long) (h : den ≠ 0) : (-num.srem den).toInt = -(num.srem den).toInt := by
  apply BitVec.toInt_neg_of_ne_intMin
  intro hmin
  have hlt := natAbs_srem_lt num h
  have hle : den.toInt.natAbs ≤ 2 ^ 63 := by
    have hlow := den.le_toInt
    have hhigh : den.toInt < 2 ^ 63 := BitVec.toInt_lt
    omega
  rw [hmin] at hlt
  have habs : (BitVec.intMin 64).toInt.natAbs = 2 ^ 63 := by decide
  omega

theorem toInt_sdiv_eq (h : ¬ (num = BitVec.intMin 64 ∧ den = -1)) :
    (num.sdiv den).toInt = num.toInt.tdiv den.toInt :=
  BitVec.toInt_sdiv_of_ne_or_ne num den (Decidable.not_and_iff_not_or_not.mp h)

theorem sdiv_sum (hmin : ¬ (num = BitVec.intMin 64 ∧ den = -1)) :
    (num.sdiv den).toInt * den.toInt + (num.srem den).toInt = num.toInt := by
  rw [toInt_sdiv_eq hmin, BitVec.toInt_srem]
  exact Int.tdiv_mul_add_tmod num.toInt den.toInt

theorem signedLaw_of_pos (h : den ≠ 0) (hmin : ¬ (num = BitVec.intMin 64 ∧ den = -1)) (hfuel : 65 ≤ fuel)
    (hmsb : den.msb = false) : SignedLaw fuel num den := by
  have hmod := my_moddi3_eq num h hfuel
  rw [hmsb, if_neg Bool.false_ne_true] at hmod
  refine ⟨_, _, my_divdi3_eq num h hfuel, hmod, (sdiv_sum hmin).symm, natAbs_srem_lt num h, ?_⟩
  rw [BitVec.toInt_srem, Int.sign_tmod]
  by_cases hexact : den.toInt ∣ num.toInt
  · exact .inl (Int.tmod_eq_zero_of_dvd hexact)
  · rw [if_neg hexact]
    exact .inr rfl

/-- For a negative one the remainder has the wrong sign, unless it is zero. -/
theorem signedLaw_neg_iff (h : den ≠ 0) (hmin : ¬ (num = BitVec.intMin 64 ∧ den = -1)) (hfuel : 65 ≤ fuel)
    (hmsb : den.msb = true) : SignedLaw fuel num den ↔ (num.srem den).toInt = 0 := by
  have hdiv := my_divdi3_eq num h hfuel
  have hmod := my_moddi3_eq num h hfuel
  have hsum := sdiv_sum hmin
  have hneg := BitVec.toInt_neg_of_msb_true hmsb
  rw [hmsb, if_pos rfl] at hmod
  constructor
  · rintro ⟨quot, rem, hquot, hrem, hdivided⟩
    obtain rfl := Option.some.inj (hdiv.symm.trans hquot)
    obtain rfl := Option.some.inj (hmod.symm.trans hrem)
    have hsum' := hdivided.sum
    rw [toInt_neg_srem num h] at hsum'
    omega
  · intro hzero
    have hrem : (-num.srem den).toInt = 0 := by rw [toInt_neg_srem num h, hzero, Int.neg_zero]
    refine ⟨_, _, hdiv, hmod, ?_, ?_, .inl hrem⟩
    · rw [hrem, ← hzero]
      exact hsum.symm
    · rw [hrem, ← hzero]
      exact natAbs_srem_lt num h

/-- Quotient and remainder belong together when the divisor is positive, and when the division is exact; for
other negative divisors the remainder has the wrong sign. -/
theorem signedLaw_iff (num : Long) {den : Long} (h : den ≠ 0)
    (hmin : ¬ (num = BitVec.intMin 64 ∧ den = -1)) {fuel : ℕ}
    (hfuel : 65 ≤ fuel) : SignedLaw fuel num den ↔ 0 < den.toInt ∨ den.toInt ∣ num.toInt := by
  cases hmsb : den.msb with
  | false =>
    have hpos : 0 < den.toInt := by
      have hnat := BitVec.toInt_eq_toNat_of_msb hmsb
      have hne : den.toNat ≠ 0 := fun hzero => h (BitVec.eq_of_toNat_eq hzero)
      omega
    exact iff_of_true (signedLaw_of_pos h hmin hfuel hmsb) (.inl hpos)
  | true =>
    have hneg := BitVec.toInt_neg_of_msb_true hmsb
    rw [or_iff_right (Int.not_lt.mpr (Int.le_of_lt hneg)), signedLaw_neg_iff h hmin hfuel hmsb, BitVec.toInt_srem]
    exact Int.dvd_iff_tmod_eq_zero.symm

/-- The division of -7 by 2. -/
theorem signedLaw_iff_seven : SignedLaw 65 (-7) 2 :=
  (signedLaw_iff (-7) (by decide) (by decide) (Nat.le_refl 65)).mpr (.inl (by decide))

/-- 7 divided by -2 is -3, and the remainder is -1. -/
theorem not_signedLaw_seven : ¬ SignedLaw 65 7 (-2) := by
  rintro ⟨quot, rem, hquot, hrem, hdivided⟩
  have hdiv : my_divdi3 65 7 (-2) = some (-3) := by decide +kernel
  have hmod : my_moddi3 65 7 (-2) = some (-1) := by decide +kernel
  obtain rfl := Option.some.inj (hdiv.symm.trans hquot)
  obtain rfl := Option.some.inj (hmod.symm.trans hrem)
  exact absurd hdivided.sum (by decide)

end Signed

end CxxKernel.Arith
