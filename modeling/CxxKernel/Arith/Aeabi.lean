import Mathlib.Algebra.Group.Nat.Defs
import Mathlib.Data.Nat.Notation
import Mathlib.Tactic.Common

/-! The 32-bit division of `math.cpp` for ARM, by counting up multiples of the divisor. -/
namespace CxxKernel.Arith

/-- The loop of both functions, from the multiple `x` and the count `c` on. `fuel` bounds its rounds. -/
def countLoop (more : BitVec 32 → Bool) (den : BitVec 32) : ℕ → BitVec 32 → BitVec 32 → Option (BitVec 32)
  | 0, _, _ => none
  | fuel + 1, x, c => if more x then countLoop more den fuel (x + den) (c + 1) else some c

def aeabi_uidiv (fuel : ℕ) (num den : BitVec 32) : Option (BitVec 32) :=
  countLoop (fun x => x ≤ num) den fuel den 0

def aeabi_uidivmod (fuel : ℕ) (num den : BitVec 32) : Option (BitVec 32) := do
  let c ← countLoop (fun x => x < num) den fuel den 0
  some (num - c * den)

/-- Both functions end, and their results belong together, in arithmetic modulo `2 ^ 32`. -/
def CountLaw (num den : BitVec 32) : Prop :=
  ∃ quot rem, (∃ bound, ∀ fuel, bound ≤ fuel →
    aeabi_uidiv fuel num den = some quot ∧ aeabi_uidivmod fuel num den = some rem) ∧
    num = quot * den + rem ∧ rem < den

/-- The same with the quotient and the remainder of the numbers. -/
def ExactLaw (num den : BitVec 32) : Prop :=
  ∃ quot rem, (∃ bound, ∀ fuel, bound ≤ fuel →
    aeabi_uidiv fuel num den = some quot ∧ aeabi_uidivmod fuel num den = some rem) ∧
    num.toNat = quot.toNat * den.toNat + rem.toNat ∧ rem.toNat < den.toNat

/-- The multiple that the loops have come to after `n` rounds. -/
def multiple (den : BitVec 32) (n : ℕ) : BitVec 32 := BitVec.ofNat 32 n * den + den

/-- Of the multiples of the divisor, modulo `2 ^ 32`, the first one that is not below the numerator is above it. -/
def PassesOver (num den : BitVec 32) : Prop := ∃ n, (∀ j < n, multiple den j < num) ∧ num < multiple den n

section Count
variable {more : BitVec 32 → Bool} {num den c : BitVec 32} {fuel n k : ℕ}

theorem multiple_succ (den : BitVec 32) (n : ℕ) : multiple den n + den = multiple den (n + 1) := by
  rw [multiple, multiple, BitVec.ofNat_add, BitVec.add_mul, BitVec.one_mul]

theorem ofNat_succ (n : ℕ) : BitVec.ofNat 32 n + 1 = BitVec.ofNat 32 (n + 1) := (BitVec.ofNat_add n 1).symm

theorem countLoop_of_first (hmore : ∀ j, k ≤ j → j < n → more (multiple den j) = true)
    (hend : more (multiple den n) = false) (hk : k ≤ n) (hfuel : n < k + fuel) :
    countLoop more den fuel (multiple den k) (BitVec.ofNat 32 k) = some (BitVec.ofNat 32 n) := by
  induction fuel generalizing k with
  | zero => omega
  | succ fuel ih =>
    rw [countLoop]
    rcases Nat.eq_or_lt_of_le hk with rfl | hlt
    · rw [hend, if_neg Bool.false_ne_true]
    · rw [hmore k (Nat.le_refl k) hlt, if_pos rfl, multiple_succ, ofNat_succ]
      exact ih (fun j hj => hmore j (by omega)) hlt (by omega)

theorem first_of_countLoop (h : countLoop more den fuel (multiple den k) (BitVec.ofNat 32 k) = some c) :
    ∃ n, k ≤ n ∧ c = BitVec.ofNat 32 n ∧ (∀ j, k ≤ j → j < n → more (multiple den j) = true) ∧
      more (multiple den n) = false := by
  induction fuel generalizing k with
  | zero => cases h
  | succ fuel ih =>
    rw [countLoop] at h
    by_cases hmore : more (multiple den k) = true
    · rw [if_pos hmore, multiple_succ, ofNat_succ] at h
      obtain ⟨n, hk, hc, hbefore, hend⟩ := ih h
      refine ⟨n, by omega, hc, fun j hj hlt => ?_, hend⟩
      rcases Nat.eq_or_lt_of_le hj with rfl | hgt
      · exact hmore
      · exact hbefore j hgt hlt
    · rw [if_neg hmore] at h
      exact ⟨k, Nat.le_refl k, (Option.some.inj h).symm, fun j hj hlt => absurd hlt (by omega),
        eq_false_of_ne_true hmore⟩

theorem multiple_zero (den : BitVec 32) : multiple den 0 = den := by
  change 0#32 * den + den = den
  rw [BitVec.zero_mul, BitVec.zero_add]

theorem toNat_multiple (h : (n + 1) * den.toNat < 2 ^ 32) : (multiple den n).toNat = (n + 1) * den.toNat := by
  rw [Nat.succ_mul] at h ⊢
  rw [multiple, BitVec.toNat_add, BitVec.toNat_mul, BitVec.toNat_ofNat, Nat.mod_mul_mod, Nat.mod_add_mod,
    Nat.mod_eq_of_lt h]

theorem countLoop_start (more : BitVec 32 → Bool) (den : BitVec 32) (fuel : ℕ) : countLoop more den fuel den 0 =
    countLoop more den fuel (multiple den 0) (BitVec.ofNat 32 0) := by
  rw [multiple_zero]
  rfl

theorem aeabi_uidiv_some (h : aeabi_uidiv fuel num den = some c) :
    ∃ n, c = BitVec.ofNat 32 n ∧ (∀ j < n, multiple den j ≤ num) ∧ num < multiple den n := by
  rw [aeabi_uidiv, countLoop_start] at h
  obtain ⟨n, -, hc, hbefore, hend⟩ := first_of_countLoop h
  refine ⟨n, hc, fun j hj => of_decide_eq_true (hbefore j (Nat.zero_le j) hj), ?_⟩
  exact BitVec.not_le.mp (of_decide_eq_false hend)

theorem aeabi_uidivmod_some (h : aeabi_uidivmod fuel num den = some c) :
    ∃ n, c = num - BitVec.ofNat 32 n * den ∧ (∀ j < n, multiple den j < num) ∧ num ≤ multiple den n := by
  rw [aeabi_uidivmod, countLoop_start] at h
  obtain ⟨count, hcount, hc⟩ := Option.bind_eq_some_iff.mp h
  obtain ⟨n, -, rfl, hbefore, hend⟩ := first_of_countLoop hcount
  refine ⟨n, (Option.some.inj hc).symm, fun j hj => of_decide_eq_true (hbefore j (Nat.zero_le j) hj), ?_⟩
  exact BitVec.not_lt.mp (of_decide_eq_false hend)

/-- When the numerator is passed over, both loops count the same multiples. -/
theorem returns_of_passes (hbefore : ∀ j < n, multiple den j < num) (hend : num < multiple den n)
    (hfuel : n < fuel) : aeabi_uidiv fuel num den = some (BitVec.ofNat 32 n) ∧
      aeabi_uidivmod fuel num den = some (num - BitVec.ofNat 32 n * den) := by
  constructor
  · rw [aeabi_uidiv, countLoop_start]
    apply countLoop_of_first (fun j _ hj => decide_eq_true (BitVec.le_of_lt (hbefore j hj))) ?_ (Nat.zero_le n)
      (by omega)
    exact decide_eq_false (BitVec.not_le.mpr hend)
  · have hcount : countLoop (fun x => x < num) den fuel (multiple den 0) (BitVec.ofNat 32 0) =
        some (BitVec.ofNat 32 n) := by
      apply countLoop_of_first (fun j _ hj => decide_eq_true (hbefore j hj)) ?_ (Nat.zero_le n) (by omega)
      exact decide_eq_false (BitVec.not_lt.mpr (BitVec.le_of_lt hend))
    rw [aeabi_uidivmod, countLoop_start, hcount]
    rfl

theorem rest_lt (hbefore : ∀ j < n, multiple den j < num) (hend : num < multiple den n) :
    num - BitVec.ofNat 32 n * den < den ∧ BitVec.ofNat 32 n * den ≤ num := by
  have hlast : BitVec.ofNat 32 n * den ≤ num := by
    cases n with
    | zero =>
      rw [BitVec.zero_mul]
      exact Nat.zero_le num.toNat
    | succ n =>
      have hprevious := hbefore n (Nat.lt_succ_self n)
      rw [multiple] at hprevious
      rw [BitVec.ofNat_add, BitVec.add_mul, BitVec.one_mul]
      exact BitVec.le_of_lt hprevious
  refine ⟨?_, hlast⟩
  rw [multiple] at hend
  generalize BitVec.ofNat 32 n * den = m at hend hlast ⊢
  bv_omega

/-- The results belong together exactly where the multiples pass over the numerator. -/
theorem passes_iff (num den : BitVec 32) : CountLaw num den ↔ PassesOver num den := by
  constructor
  · rintro ⟨quot, rem, ⟨bound, hbound⟩, hsum, -⟩
    obtain ⟨hquot, hrem⟩ := hbound bound (Nat.le_refl bound)
    obtain ⟨n, rfl, -, hn⟩ := aeabi_uidiv_some hquot
    obtain ⟨m, rfl, hbefore, hm⟩ := aeabi_uidivmod_some hrem
    have hsame : multiple den m = multiple den n := by
      rw [multiple, multiple]
      generalize BitVec.ofNat 32 n * den = a at hsum ⊢
      generalize BitVec.ofNat 32 m * den = b at hsum ⊢
      bv_omega
    exact ⟨m, hbefore, hsame ▸ hn⟩
  · rintro ⟨n, hbefore, hend⟩
    obtain ⟨hrest, hle⟩ := rest_lt hbefore hend
    refine ⟨_, _, ⟨n + 1, fun fuel hfuel => returns_of_passes hbefore hend hfuel⟩, ?_, hrest⟩
    rw [BitVec.add_comm, BitVec.sub_add_cancel]

/-- A quotient that is right needs the next multiple to be a number of 32 bits. -/
theorem next_lt {quot rem : BitVec 32} (hend : num < quot * den + den)
    (hsum : num.toNat = quot.toNat * den.toNat + rem.toNat) : (quot.toNat + 1) * den.toNat < 2 ^ 32 := by
  have hnum := num.isLt
  have hden := den.isLt
  have hend' : num.toNat < (quot.toNat * den.toNat % 2 ^ 32 + den.toNat) % 2 ^ 32 := by
    rw [BitVec.lt_def, BitVec.toNat_add, BitVec.toNat_mul] at hend
    exact hend
  rw [Nat.succ_mul]
  rw [Nat.mod_eq_of_lt (show quot.toNat * den.toNat < 2 ^ 32 by omega)] at hend'
  omega

/-- A numerator that is met is no exact result: the remainder is the divisor. -/
theorem eq_zero_of_exact (hbefore : ∀ j < n, multiple den j < num) (hexact : num = BitVec.ofNat 32 n * den) :
    num = 0 := by
  cases n with
  | zero =>
    rw [hexact]
    exact BitVec.zero_mul
  | succ n =>
    have hlast := hbefore n (Nat.lt_succ_self n)
    rw [multiple] at hlast
    rw [BitVec.ofNat_add, BitVec.add_mul, BitVec.one_mul] at hexact
    rw [← hexact] at hlast
    exact absurd hlast (BitVec.lt_irrefl num)

theorem exact_iff {den : BitVec 32} (num : BitVec 32) (h : den ≠ 0) : ExactLaw num den ↔
    (num = 0 ∨ ¬ den.toNat ∣ num.toNat) ∧ (num.toNat / den.toNat + 1) * den.toNat < 2 ^ 32 := by
  have hpos : 0 < den.toNat := Nat.pos_of_ne_zero fun hzero => h (BitVec.eq_of_toNat_eq hzero)
  constructor
  · rintro ⟨quot, rem, ⟨bound, hbound⟩, hsum, hrest⟩
    obtain ⟨hquot, hrem⟩ := hbound bound (Nat.le_refl bound)
    obtain ⟨n, rfl, -, hend⟩ := aeabi_uidiv_some hquot
    obtain ⟨m, rfl, hbefore, -⟩ := aeabi_uidivmod_some hrem
    have hdiv : num.toNat / den.toNat = (BitVec.ofNat 32 n).toNat := by
      rw [hsum, Nat.add_comm, Nat.add_mul_div_right _ _ hpos, Nat.div_eq_of_lt hrest, Nat.zero_add]
    rw [hdiv]
    refine ⟨?_, next_lt hend hsum⟩
    by_cases hdvd : den.toNat ∣ num.toNat
    · left
      have hzero : (num - BitVec.ofNat 32 m * den).toNat = 0 := by
        rw [hsum, Nat.dvd_add_right (Nat.dvd_mul_left _ _)] at hdvd
        exact Nat.eq_zero_of_dvd_of_lt hdvd hrest
      apply eq_zero_of_exact hbefore
      generalize BitVec.ofNat 32 m * den = a at hzero ⊢
      bv_omega
    · exact .inr hdvd
  · rintro ⟨hdvd, hlt⟩
    have hmul : (num.toNat / den.toNat + 1) * den.toNat = num.toNat / den.toNat * den.toNat + den.toNat :=
      Nat.succ_mul _ _
    have hdecomp := Nat.div_add_mod' num.toNat den.toNat
    have hmod := Nat.mod_lt num.toNat hpos
    have hbefore : ∀ j < num.toNat / den.toNat, multiple den j < num := by
      intro j hj
      have hle : (j + 1) * den.toNat ≤ num.toNat / den.toNat * den.toNat := Nat.mul_le_mul_right _ hj
      rw [BitVec.lt_def, toNat_multiple (by omega)]
      rcases hdvd with rfl | hdvd
      · have hzero : (0 : BitVec 32).toNat = 0 := rfl
        rw [hzero, Nat.zero_div] at hj
        exact absurd hj (Nat.not_lt_zero j)
      · have hne : num.toNat % den.toNat ≠ 0 := fun hzero => hdvd (Nat.dvd_of_mod_eq_zero hzero)
        omega
    have hend : num < multiple den (num.toNat / den.toNat) := by
      rw [BitVec.lt_def, toNat_multiple hlt]
      omega
    obtain ⟨hrest, hle⟩ := rest_lt hbefore hend
    have hquot : (BitVec.ofNat 32 (num.toNat / den.toNat)).toNat = num.toNat / den.toNat := by
      rw [BitVec.toNat_ofNat, Nat.mod_eq_of_lt (Nat.lt_of_le_of_lt (Nat.div_le_self _ _) num.isLt)]
    have hproduct : (BitVec.ofNat 32 (num.toNat / den.toNat) * den).toNat = num.toNat / den.toNat * den.toNat := by
      rw [BitVec.toNat_mul, hquot, Nat.mod_eq_of_lt (by omega)]
    refine ⟨_, _, ⟨_, fun fuel hfuel => returns_of_passes hbefore hend hfuel⟩, ?_, hrest⟩
    rw [BitVec.toNat_sub_of_le hle, hproduct, hquot]
    omega

/-- The functions divide modulo `2 ^ 32` exactly where the multiples of the divisor pass over the numerator, and they
divide the numbers exactly where the next multiple needs no more than 32 bits and the division is not exact. -/
theorem countLaw_iff (num : BitVec 32) {den : BitVec 32} (h : den ≠ 0) : (CountLaw num den ↔ PassesOver num den) ∧
    (ExactLaw num den ↔ (num = 0 ∨ ¬ den.toNat ∣ num.toNat) ∧ (num.toNat / den.toNat + 1) * den.toNat < 2 ^ 32) :=
  ⟨passes_iff num den, exact_iff num h⟩

theorem countLaw_iff_seven : CountLaw 7 2 ∧ ExactLaw 7 2 := by
  obtain ⟨hcount, hexact⟩ := countLaw_iff 7 (by decide : (2 : BitVec 32) ≠ 0)
  exact ⟨hcount.mpr ⟨3, by decide, by decide⟩, hexact.mpr (by decide)⟩

/-- The remainder of 4 divided by 2 is 2. -/
theorem not_countLaw_four : ¬ CountLaw 4 2 := by
  rw [passes_iff]
  rintro ⟨n, hbefore, hend⟩
  match n, hbefore, hend with
  | 0, _, hend => exact absurd hend (by decide)
  | 1, _, hend => exact absurd hend (by decide)
  | n + 2, hbefore, _ => exact absurd (hbefore 1 (by omega)) (by decide)

end Count

end CxxKernel.Arith
