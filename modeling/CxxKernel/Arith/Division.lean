import Mathlib.Data.Nat.Log
import Mathlib.Data.Option.Basic
import Mathlib.Tactic.Ring

/-! The 64-bit division of `math.cpp`, by shifting and subtracting. -/
namespace CxxKernel.Arith

/-- `uint64_t`. -/
abbrev Long := BitVec 64

/-- The loop that left-justifies the divisor and counts the shift in `qbit`. The test is on `int64_t`. -/
def justify : ℕ → Long → Long → Option (Long × Long)
  | 0, _, _ => none
  | fuel + 1, den, qbit =>
    if (0 : Long).sle den then justify fuel (den <<< 1) (qbit <<< 1) else some (den, qbit)

/-- The loop that subtracts the divisor and shifts it back. -/
def divideLoop : ℕ → Long → Long → Long → Long → Option (Long × Long)
  | 0, _, _, _, _ => none
  | fuel + 1, num, den, quot, qbit =>
    if qbit ≠ 0 then
      if den ≤ num then divideLoop fuel (num - den) (den >>> 1) (quot + qbit) (qbit >>> 1)
      else divideLoop fuel num (den >>> 1) quot (qbit >>> 1)
    else some (quot, num)

/-- `my__udivmoddi4`: the quotient and the remainder. A zero divisor is divided by, which traps. `fuel` bounds
the rounds of each loop. -/
def my_udivmoddi4 (fuel : ℕ) (num den : Long) : Option (Long × Long) :=
  if den = 0 then none
  else do
    let (den, qbit) ← justify fuel den 1
    divideLoop fuel num den 0 qbit

def my_udivdi3 (fuel : ℕ) (num den : Long) : Option Long := (my_udivmoddi4 fuel num den).map Prod.fst

def my_umoddi3 (fuel : ℕ) (num den : Long) : Option Long := (my_udivmoddi4 fuel num den).map Prod.snd

section Division
variable {num den quot qbit : Long} {d n i k fuel : ℕ}

theorem zero_sle_iff (w : Long) : (0 : Long).sle w ↔ w.toNat < 2 ^ 63 := by
  have hzero : (0 : Long).toInt = 0 := rfl
  rw [BitVec.sle_iff_toInt_le, hzero, BitVec.toInt_eq_toNat_cond]
  split <;> omega

theorem toNat_shiftLeft_one {w : Long} (h : w.toNat < 2 ^ 63) : (w <<< 1).toNat = 2 * w.toNat := by
  rw [BitVec.toNat_shiftLeft, Nat.shiftLeft_eq]
  omega

theorem toNat_shiftRight_one (w : Long) : (w >>> 1).toNat = w.toNat / 2 := by
  rw [BitVec.toNat_ushiftRight, Nat.shiftRight_eq_div_pow]

/-- The divisor `d` times `2 ^ i`, and the bit of the quotient that belongs to it. -/
structure Shifted (d i : ℕ) (den qbit : Long) : Prop where
  den : den.toNat = d * 2 ^ i
  qbit : qbit.toNat = 2 ^ i

theorem Shifted.start (den : Long) : Shifted den.toNat 0 den 1 := ⟨(Nat.mul_one _).symm, rfl⟩

theorem Shifted.left (h : Shifted d i den qbit) (hi : i < 63) (hlow : den.toNat < 2 ^ 63) :
    Shifted d (i + 1) (den <<< 1) (qbit <<< 1) := by
  have hqbit : qbit.toNat < 2 ^ 63 := by
    rw [h.qbit]
    exact Nat.pow_lt_pow_right (by decide) hi
  constructor
  · rw [toNat_shiftLeft_one hlow, h.den, Nat.pow_succ]
    ring
  · rw [toNat_shiftLeft_one hqbit, h.qbit, Nat.pow_succ, Nat.mul_comm]

theorem Shifted.right (h : Shifted d (i + 1) den qbit) : Shifted d i (den >>> 1) (qbit >>> 1) := by
  constructor
  · rw [toNat_shiftRight_one, h.den, Nat.pow_succ, ← Nat.mul_assoc, Nat.mul_div_cancel _ (by decide)]
  · rw [toNat_shiftRight_one, h.qbit, Nat.pow_succ, Nat.mul_div_cancel _ (by decide)]

theorem justify_spec (hd : 0 < d) (h : Shifted d i den qbit) (hi : i ≤ 63) (hfuel : 63 - i < fuel) :
    ∃ k den' qbit', justify fuel den qbit = some (den', qbit') ∧ k ≤ 63 ∧ Shifted d k den' qbit' ∧
      2 ^ 63 ≤ den'.toNat := by
  induction fuel generalizing i den qbit with
  | zero => omega
  | succ fuel ih =>
    rw [justify]
    by_cases hlow : den.toNat < 2 ^ 63
    · have hlt : i < 63 := by
        by_contra hge
        obtain rfl : i = 63 := by omega
        have hden := h.den
        have hle : 2 ^ 63 ≤ d * 2 ^ 63 := Nat.le_mul_of_pos_left _ hd
        omega
      rw [if_pos ((zero_sle_iff den).mpr hlow)]
      exact ih (h.left hlt hlow) hlt (by omega)
    · rw [if_neg fun hsle => hlow ((zero_sle_iff den).mp hsle)]
      exact ⟨i, den, qbit, rfl, hi, h, Nat.not_lt.mp hlow⟩

/-- The numerator `n` is made up of the quotient so far and the rest, and the quotient has only bits that
are higher than those to come. -/
structure Divided (n d i : ℕ) (num quot : Long) : Prop where
  sum : n = quot.toNat * d + num.toNat
  rest : num.toNat < d * 2 ^ i

theorem Divided.subtract (h : Divided n d (i + 1) num quot) (hs : Shifted d i den qbit) (hn : n < 2 ^ 64)
    (hd : 0 < d) (hle : den ≤ num) : Divided n d i (num - den) (quot + qbit) := by
  have hle' : den.toNat ≤ num.toNat := hle
  have hnum : (num - den).toNat = num.toNat - d * 2 ^ i := by
    rw [BitVec.toNat_sub_of_le hle, hs.den]
  have hsum := h.sum
  have hrest := h.rest
  rw [Nat.pow_succ, ← Nat.mul_assoc] at hrest
  rw [hs.den] at hle'
  have hquot : (quot + qbit).toNat = quot.toNat + 2 ^ i := by
    rw [BitVec.toNat_add, hs.qbit, Nat.mod_eq_of_lt]
    have hmul : quot.toNat + 2 ^ i ≤ (quot.toNat + 2 ^ i) * d := Nat.le_mul_of_pos_right _ hd
    have hexpand : (quot.toNat + 2 ^ i) * d = quot.toNat * d + d * 2 ^ i := by ring
    omega
  constructor
  · rw [hquot, hnum, Nat.add_mul, Nat.mul_comm (2 ^ i) d]
    omega
  · rw [hnum]
    omega

theorem Divided.skip (h : Divided n d (i + 1) num quot) (hs : Shifted d i den qbit) (hlt : ¬ den ≤ num) :
    Divided n d i num quot := by
  refine ⟨h.sum, ?_⟩
  rw [← hs.den]
  exact Nat.not_le.mp hlt

theorem divideLoop_end (hfuel : 0 < fuel) : divideLoop fuel num den quot 0 = some (quot, num) := by
  obtain ⟨fuel, rfl⟩ := Nat.exists_eq_succ_of_ne_zero (Nat.ne_of_gt hfuel)
  rw [divideLoop, if_neg (not_not.mpr rfl)]

/-- The second loop runs down to bit 0, and leaves a rest that is smaller than the divisor. -/
theorem divideLoop_spec (hn : n < 2 ^ 64) (hd : 0 < d) (h : Divided n d (i + 1) num quot)
    (hs : Shifted d i den qbit) (hfuel : i + 1 < fuel) :
    ∃ quot' num', divideLoop fuel num den quot qbit = some (quot', num') ∧ Divided n d 0 num' quot' := by
  induction i generalizing num den quot qbit fuel with
  | zero =>
    obtain ⟨fuel, rfl⟩ := Nat.exists_eq_succ_of_ne_zero (n := fuel) (by omega)
    have hone : qbit = 1 := BitVec.eq_of_toNat_eq hs.qbit
    have hlast : qbit >>> 1 = 0 := by
      rw [hone]
      decide
    have hne : qbit ≠ 0 := by
      rw [hone]
      decide
    rw [divideLoop, if_pos hne, hlast]
    by_cases hle : den ≤ num
    · rw [if_pos hle]
      exact ⟨_, _, divideLoop_end (by omega), h.subtract hs hn hd hle⟩
    · rw [if_neg hle]
      exact ⟨_, _, divideLoop_end (by omega), h.skip hs hle⟩
  | succ i ih =>
    obtain ⟨fuel, rfl⟩ := Nat.exists_eq_succ_of_ne_zero (n := fuel) (by omega)
    have hne : qbit ≠ 0 := by
      rintro rfl
      have hpow : 0 < 2 ^ (i + 1) := Nat.two_pow_pos _
      exact Nat.ne_of_lt hpow hs.qbit
    rw [divideLoop, if_pos hne]
    by_cases hle : den ≤ num
    · rw [if_pos hle]
      exact ih (h.subtract hs hn hd hle) hs.right (by omega)
    · rw [if_neg hle]
      exact ih (h.skip hs hle) hs.right (by omega)

theorem my_udivmoddi4_spec (num : Long) (h : den ≠ 0) (hfuel : 65 ≤ fuel) :
    ∃ quot rem, my_udivmoddi4 fuel num den = some (quot, rem) ∧ Divided num.toNat den.toNat 0 rem quot := by
  have hd : 0 < den.toNat := Nat.pos_of_ne_zero fun hz => h (BitVec.eq_of_toNat_eq hz)
  obtain ⟨k, den', qbit, hjustify, hk, hs, hhigh⟩ :=
    justify_spec hd (.start den) (Nat.zero_le 63) (show 63 - 0 < fuel by omega)
  have hstart : Divided num.toNat den.toNat (k + 1) num 0 := by
    have hnum := num.isLt
    rw [hs.den] at hhigh
    constructor
    · have hzero : (0 : Long).toNat = 0 := rfl
      rw [hzero, Nat.zero_mul, Nat.zero_add]
    · rw [Nat.pow_succ, ← Nat.mul_assoc]
      omega
  obtain ⟨quot, rem, hloop, hdivided⟩ := divideLoop_spec num.isLt hd hstart hs (show k + 1 < fuel by omega)
  refine ⟨quot, rem, ?_, hdivided⟩
  rw [my_udivmoddi4, if_neg h, hjustify]
  exact hloop

theorem Divided.div_mod {rem : Long} (h : Divided num.toNat den.toNat 0 rem quot) :
    quot = num / den ∧ rem = num % den := by
  have hsum := h.sum
  have hrest := h.rest
  rw [Nat.pow_zero, Nat.mul_one] at hrest
  have hd : 0 < den.toNat := Nat.zero_lt_of_lt hrest
  constructor
  · apply BitVec.eq_of_toNat_eq
    rw [BitVec.toNat_udiv, hsum, Nat.add_comm, Nat.add_mul_div_right _ _ hd, Nat.div_eq_of_lt hrest, Nat.zero_add]
  · apply BitVec.eq_of_toNat_eq
    rw [BitVec.toNat_umod, hsum, Nat.add_comm, Nat.add_mul_mod_self_right, Nat.mod_eq_of_lt hrest]

theorem my_udivmoddi4_eq (num : Long) (h : den ≠ 0) (hfuel : 65 ≤ fuel) :
    my_udivmoddi4 fuel num den = some (num / den, num % den) := by
  obtain ⟨quot, rem, hexec, hdivided⟩ := my_udivmoddi4_spec num h hfuel
  obtain ⟨rfl, rfl⟩ := hdivided.div_mod
  exact hexec

/-- For every numerator and every divisor but zero the division ends after at most 64 rounds of each loop with
the quotient and the remainder. -/
theorem udivmod_exact (num : Long) {den : Long} (h : den ≠ 0) {fuel : ℕ} (hfuel : 65 ≤ fuel) :
    ∃ quot rem, my_udivmoddi4 fuel num den = some (quot, rem) ∧
      num.toNat = quot.toNat * den.toNat + rem.toNat ∧ rem.toNat < den.toNat ∧
      my_udivdi3 fuel num den = some (num / den) ∧ my_umoddi3 fuel num den = some (num % den) := by
  obtain ⟨quot, rem, hexec, hdivided⟩ := my_udivmoddi4_spec num h hfuel
  have hrest := hdivided.rest
  rw [Nat.pow_zero, Nat.mul_one] at hrest
  obtain ⟨hdiv, hmod⟩ := hdivided.div_mod
  refine ⟨quot, rem, hexec, hdivided.sum, hrest, ?_, ?_⟩
  · rw [my_udivdi3, hexec, hdiv]
    rfl
  · rw [my_umoddi3, hexec, hmod]
    rfl

/-- The largest numerator, divided by ten. -/
theorem udivmod_exact_ten : my_udivdi3 65 (-1) 10 = some 1844674407370955161 ∧ my_umoddi3 65 (-1) 10 = some 5 := by
  obtain ⟨quot, rem, -, -, -, hdiv, hmod⟩ := udivmod_exact (-1) (by decide : (10 : Long) ≠ 0) (Nat.le_refl 65)
  exact ⟨hdiv, hmod⟩

end Division

end CxxKernel.Arith
