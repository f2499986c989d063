import CxxKernel.Fs.Ustar
import Mathlib.Data.Nat.ModEq

/-! What `parseOct` makes of any bytes: it reads on over the digits `8` and `9`. -/
namespace CxxKernel.Fs

def isOctal (c : Byte) : Bool := 0x30 ≤ c ∧ c ≤ 0x37

def isDecimal (c : Byte) : Bool := 0x30 ≤ c ∧ c ≤ 0x39

def digitValue (c : Byte) : ℕ := c.toNat - 0x30

/-- The value of the characters as digits to base 8. -/
def octal (cs : List Byte) : ℕ := Nat.ofDigits 8 (cs.map digitValue).reverse

/-- What stands behind the octal digits and is read all the same. -/
def misread (data : List Byte) : List Byte := (data.dropWhile isOctal).takeWhile isDecimal

/-- The lowest `k` octal digits of `n`, from the highest one on. -/
def octalDigits : ℕ → ℕ → List ℕ
  | 0, _ => []
  | k + 1, n => octalDigits k (n / 8) ++ [n % 8]

/-- The field of an archive for `n`. -/
def octalField (n : ℕ) : List Byte := (octalDigits 11 n).map digitChar ++ [0]

section Octal
variable {c : Byte} {cs data : List Byte} {res : BitVec 64} {k n : ℕ}

theorem octal_nil : octal [] = 0 := rfl

theorem octal_cons (c : Byte) (cs : List Byte) : octal (c :: cs) = digitValue c * 8 ^ cs.length + octal cs := by
  rw [octal, List.map_cons, List.reverse_cons, Nat.ofDigits_append, Nat.ofDigits_singleton, List.length_reverse,
    List.length_map, octal]
  ring

theorem octal_append (as bs : List Byte) : octal (as ++ bs) = octal as * 8 ^ bs.length + octal bs := by
  rw [octal, List.map_append, List.reverse_append, Nat.ofDigits_append, List.length_reverse, List.length_map,
    octal, octal]
  ring

theorem stops_iff : ∀ c : Byte, (c = 0 ∨ c.slt 0x30 ∨ BitVec.slt 0x39 c) ↔ isDecimal c = false := by decide

theorem decimal_value : ∀ c : Byte, isDecimal c = true → digitValue c ≤ 9 ∧
    c.setWidth 64 - 0x30 = BitVec.ofNat 64 (digitValue c) := by decide

theorem octal_value : ∀ c : Byte, isOctal c = true → isDecimal c = true ∧ digitValue c ≤ 7 := by decide

theorem misread_iff : ∀ c : Byte, isOctal c = false → (isDecimal c = true ↔ c = 0x38 ∨ c = 0x39) := by decide

theorem parseOctFrom_cons (res : BitVec 64) (cs : List Byte) (h : isDecimal c = true) :
    parseOctFrom res (c :: cs) = parseOctFrom (res * 8 + BitVec.ofNat 64 (digitValue c)) cs := by
  have hgo := mt (stops_iff c).mp (Bool.not_eq_false _ ▸ h)
  obtain ⟨hzero, hdigit⟩ := not_or.mp hgo
  rw [parseOctFrom, if_neg hzero, if_neg hdigit, (decimal_value c h).2]

theorem parseOctFrom_stop (res : BitVec 64) (cs : List Byte) (h : isDecimal c = false) :
    parseOctFrom res (c :: cs) = res := by
  rw [parseOctFrom]
  rcases (stops_iff c).mpr h with hzero | hdigit
  · rw [if_pos hzero]
  · rw [if_pos hdigit, ite_self]

/-- The loop takes the decimal digits in front, as digits to base 8 and modulo `2 ^ 64`. -/
theorem parseOctFrom_toNat (res : BitVec 64) (data : List Byte) : (parseOctFrom res data).toNat =
    (res.toNat * 8 ^ (data.takeWhile isDecimal).length + octal (data.takeWhile isDecimal)) % 2 ^ 64 := by
  have hnone (res : BitVec 64) : res.toNat = (res.toNat * 8 ^ ([] : List Byte).length + octal []) % 2 ^ 64 := by
    rw [octal_nil, List.length_nil, Nat.pow_zero, Nat.mul_one, Nat.add_zero, Nat.mod_eq_of_lt res.isLt]
  induction data generalizing res with
  | nil => exact hnone res
  | cons c cs ih =>
    by_cases hc : isDecimal c = true
    · have hnext : Nat.ModEq (2 ^ 64) (res * 8 + BitVec.ofNat 64 (digitValue c)).toNat
          (res.toNat * 8 + digitValue c) := by
        rw [BitVec.toNat_add, BitVec.toNat_mul, BitVec.toNat_ofNat]
        exact (Nat.mod_modEq _ _).trans ((Nat.mod_modEq _ _).add (Nat.mod_modEq _ _))
      rw [parseOctFrom_cons res cs hc, ih, List.takeWhile_cons_of_pos hc, List.length_cons, octal_cons]
      refine ((hnext.mul_right _).add_right _).trans (congrArg (· % 2 ^ 64) ?_)
      ring
    · rw [List.takeWhile_cons_of_neg hc, parseOctFrom_stop res cs (Bool.not_eq_true _ ▸ hc)]
      exact hnone res

/-- What the loop takes are the octal digits in front and what it misreads. -/
theorem takeWhile_isDecimal (data : List Byte) :
    data.takeWhile isDecimal = data.takeWhile isOctal ++ misread data := by
  unfold misread
  induction data with
  | nil => rfl
  | cons c cs ih =>
    by_cases hc : isOctal c = true
    · rw [List.takeWhile_cons_of_pos (octal_value c hc).1, List.takeWhile_cons_of_pos hc,
        List.dropWhile_cons_of_pos hc,
        ih, List.cons_append]
    · rw [List.takeWhile_cons_of_neg hc, List.dropWhile_cons_of_neg hc, List.nil_append]

theorem head_dropWhile (h : c ∈ (data.dropWhile isOctal).head?) : isOctal c = false := by
  have hhead := List.head?_dropWhile_not isOctal data
  rw [Option.mem_def.mp h] at hhead
  simpa using hhead

theorem misread_cons (h : misread data = c :: cs) : c ∈ (data.dropWhile isOctal).head? ∧ (c = 0x38 ∨ c = 0x39) := by
  rw [misread] at h
  cases hrest : data.dropWhile isOctal with
  | nil =>
    rw [hrest] at h
    cases h
  | cons d ds =>
    have hd := @head_dropWhile d data (hrest ▸ rfl)
    rw [hrest] at h
    by_cases hdec : isDecimal d = true
    · rw [List.takeWhile_cons_of_pos hdec] at h
      obtain rfl := (List.cons.inj h).1
      exact ⟨rfl, (misread_iff d hd).mp hdec⟩
    · rw [List.takeWhile_cons_of_neg hdec] at h
      cases h

theorem misread_eq_nil_iff (data : List Byte) :
    misread data = [] ↔ ∀ c ∈ (data.dropWhile isOctal).head?, c ≠ 0x38 ∧ c ≠ 0x39 := by
  constructor
  · intro hnil c hc
    obtain ⟨cs, hrest⟩ := List.head?_eq_some_iff.mp (Option.mem_def.mp hc)
    have hdec : ¬ isDecimal c = true := by
      intro hdec
      rw [misread, hrest, List.takeWhile_cons_of_pos hdec] at hnil
      cases hnil
    exact not_or.mp (mt (misread_iff c (head_dropWhile hc)).mpr hdec)
  · intro hnone
    cases hmis : misread data with
    | nil => rfl
    | cons c cs =>
      obtain ⟨hc, hvalue⟩ := misread_cons hmis
      exact absurd hvalue (not_or.mpr (hnone c hc))

theorem octal_misread_pos (h : misread data ≠ []) : 0 < octal (misread data) := by
  obtain ⟨c, cs, hmis⟩ := List.exists_cons_of_ne_nil h
  have hvalue : 0 < digitValue c := by
    rcases (misread_cons hmis).2 with rfl | rfl <;> decide
  rw [hmis, octal_cons]
  exact Nat.add_pos_left (Nat.mul_pos hvalue (Nat.pow_pos (by decide))) _

theorem parseOct_toNat (data : List Byte) : (parseOct data).toNat =
    (octal (data.takeWhile isOctal) * 8 ^ (misread data).length + octal (misread data)) % 2 ^ 64 := by
  rw [parseOct, parseOctFrom_toNat, takeWhile_isDecimal, octal_append]
  have hzero : (0 : BitVec 64).toNat = 0 := rfl
  rw [hzero, Nat.zero_mul, Nat.zero_add]

/-- A number and what is added to it leave the number modulo `m`. -/
theorem add_mod_eq_iff {m v d : ℕ} (hm : 0 < m) : (v + d) % m = v ↔ v < m ∧ m ∣ d := by
  constructor
  · intro h
    have hlt : v < m := h ▸ Nat.mod_lt _ hm
    have hmod : Nat.ModEq m (v + d) (v + 0) := h.trans (Nat.mod_eq_of_lt hlt).symm
    exact ⟨hlt, Nat.modEq_zero_iff_dvd.mp (Nat.ModEq.add_left_cancel' v hmod)⟩
  · rintro ⟨hlt, k, rfl⟩
    rw [Nat.add_mul_mod_self_left, Nat.mod_eq_of_lt hlt]

theorem parseOct_eq_iff (data : List Byte) : (parseOct data).toNat = octal (data.takeWhile isOctal) ↔
    octal (data.takeWhile isOctal) < 2 ^ 64 ∧
      2 ^ 64 ∣ octal (data.takeWhile isOctal) * (8 ^ (misread data).length - 1) + octal (misread data) := by
  have hpos : 0 < 8 ^ (misread data).length := Nat.pow_pos (by decide)
  have hsplit : octal (data.takeWhile isOctal) * 8 ^ (misread data).length + octal (misread data) =
      octal (data.takeWhile isOctal) + (octal (data.takeWhile isOctal) * (8 ^ (misread data).length - 1) +
        octal (misread data)) := by
    obtain ⟨p, hp⟩ : ∃ p, 8 ^ (misread data).length = p + 1 := ⟨_, (Nat.sub_add_cancel hpos).symm⟩
    rw [hp, Nat.add_sub_cancel]
    ring
  rw [parseOct_toNat, hsplit, add_mod_eq_iff (by decide)]

theorem octal_lt (data : List Byte) : octal (data.takeWhile isDecimal) + 2 ≤ 2 * 8 ^ data.length := by
  induction data with
  | nil => exact Nat.le_refl _
  | cons c cs ih =>
    have hpow : 0 < 8 ^ cs.length := Nat.pow_pos (by decide)
    rw [List.length_cons, Nat.pow_succ]
    by_cases hc : isDecimal c = true
    · have hvalue := (decimal_value c hc).1
      have hle : 8 ^ (cs.takeWhile isDecimal).length ≤ 8 ^ cs.length :=
        Nat.pow_le_pow_right (by decide) (List.takeWhile_prefix isDecimal).length_le
      have hmul : digitValue c * 8 ^ (cs.takeWhile isDecimal).length ≤ 9 * 8 ^ cs.length := Nat.mul_le_mul hvalue hle
      rw [List.takeWhile_cons_of_pos hc, octal_cons]
      omega
    · rw [List.takeWhile_cons_of_neg hc, octal_nil]
      omega

theorem length_octalDigits (k n : ℕ) : (octalDigits k n).length = k := by
  induction k generalizing n with
  | zero => rfl
  | succ k ih => rw [octalDigits, List.length_append, ih, List.length_singleton]

theorem octalDigits_lt (k n : ℕ) : ∀ x ∈ octalDigits k n, x < 8 := by
  induction k generalizing n with
  | zero => exact fun x hx => absurd hx List.not_mem_nil
  | succ k ih =>
    intro x hx
    rcases List.mem_append.mp hx with hx | hx
    · exact ih (n / 8) x hx
    · rw [List.mem_singleton.mp hx]
      exact Nat.mod_lt n (by decide)

theorem ofDigits_octalDigits (h : n < 8 ^ k) : Nat.ofDigits 8 (octalDigits k n).reverse = n := by
  induction k generalizing n with
  | zero => exact (Nat.lt_one_iff.mp h).symm
  | succ k ih =>
    rw [Nat.pow_succ] at h
    rw [octalDigits, List.reverse_append, List.reverse_singleton, List.singleton_append, Nat.ofDigits_cons,
      ih (Nat.div_lt_of_lt_mul (Nat.mul_comm _ _ ▸ h))]
    exact Nat.mod_add_div n 8

/-- Every number of eleven octal digits is read back. -/
theorem parseOct_octalField (h : n < 8 ^ 11) : (parseOct (octalField n)).toNat = n := by
  have hdigits := @parseOctFrom_digits _ (octalDigits_lt 11 n) 0 [] (by rw [length_octalDigits]; decide)
  have hzero : (0 : BitVec 64).toNat = 0 := rfl
  rw [octalField, parseOct, hdigits, ofDigits_octalDigits h, hzero, Nat.zero_mul, Nat.zero_add]

/-- In a field of at most 21 bytes, which leaves no digit over in 64 bits, only an `8` or a `9` behind the octal
digits does harm. -/
theorem parseOct_eq_iff_of_short (h : data.length ≤ 21) :
    (parseOct data).toNat = octal (data.takeWhile isOctal) ↔
      ∀ c ∈ (data.dropWhile isOctal).head?, c ≠ 0x38 ∧ c ≠ 0x39 := by
  have hlt := octal_lt data
  have hpow : 8 ^ data.length ≤ 8 ^ 21 := Nat.pow_le_pow_right (by decide) h
  rw [takeWhile_isDecimal, octal_append] at hlt
  rw [← misread_eq_nil_iff, parseOct_toNat, Nat.mod_eq_of_lt (by omega)]
  constructor
  · intro heq
    by_contra hne
    have hpos := octal_misread_pos hne
    have hone : 0 < 8 ^ (misread data).length := Nat.pow_pos (by decide)
    have hle := Nat.le_mul_of_pos_right (octal (data.takeWhile isOctal)) hone
    omega
  · intro hnil
    rw [hnil, octal_nil, List.length_nil, Nat.pow_zero, Nat.mul_one, Nat.add_zero]

/-- The value of the octal digits in front is what `parseOct` returns, exactly if it fits 64 bits, and either the
digits do not end at an `8` or a `9`, or what is misread is lost in the overflow. A field of twelve bytes does not
overflow, and the field of a number of eleven digits is read back. -/
theorem parseOct_law (data : List Byte) :
    ((parseOct data).toNat = octal (data.takeWhile isOctal) ↔
      octal (data.takeWhile isOctal) < 2 ^ 64 ∧
        ((∀ c ∈ (data.dropWhile isOctal).head?, c ≠ 0x38 ∧ c ≠ 0x39) ∨
          2 ^ 64 ∣ octal (data.takeWhile isOctal) * (8 ^ (misread data).length - 1) + octal (misread data))) ∧
      (data.length ≤ 12 → octal (data.takeWhile isDecimal) < 2 ^ 64) ∧
      ∀ n, n < 8 ^ 11 → (parseOct (octalField n)).toNat = n := by
  refine ⟨?_, fun hlen => ?_, fun n => parseOct_octalField⟩
  · rw [parseOct_eq_iff, ← misread_eq_nil_iff]
    refine and_congr_right fun _ => ⟨Or.inr, ?_⟩
    rintro (hnil | hdvd)
    · rw [hnil, octal_nil]
      exact dvd_zero _
    · exact hdvd
  · have hlt := octal_lt data
    have hpow : 8 ^ data.length ≤ 8 ^ 12 := Nat.pow_le_pow_right (by decide) hlen
    omega

/-- `"18"` is read as 16. -/
theorem parseOct_eighteen : ¬ (parseOct [0x31, 0x38]).toNat = octal ([0x31, 0x38].takeWhile isOctal) := by decide

end Octal

end CxxKernel.Fs
