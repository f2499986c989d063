import CxxKernel.Memory
import Mathlib.Data.List.Basic
import Mathlib.Tactic.Common

/-! Blocks in memory, and the numbers and names in them. -/
namespace CxxKernel.Clothes

/-- A buffer for a block. -/
abbrev Block := ℕ → Byte

/-- `m_blocksize` as the constructor sets it and as `format` writes it. -/
def blocksize : ℕ := 512

/-- A C string. -/
structure CString where
  bytes : List Byte
  noNul : 0 ∉ bytes

theorem slash_noNul : (0 : Byte) ∉ [(0x2F : Byte)] := by decide

/-- `ClothesFS::clearBuffer`. -/
def clearBuffer : Block := fun _ => 0

/-- `ClothesFS::dataToNum`. A byte is shifted as an `int`, by its count modulo 32. -/
def dataToNum (buf : Block) (start cnt : ℕ) : Word :=
  (List.range cnt).foldl (fun res i => res + (buf (start + i)).setWidth 32 <<< (8 * i % 32)) 0

/-- `ClothesFS::numToData`. -/
def numToData (num : ℕ) (buf : Block) (start cnt : ℕ) : Block :=
  (List.range cnt).foldl
    (fun buf i => Function.update buf (start + i) (BitVec.ofNat 8 (num >>> (8 * i)))) buf

/-- A loop that copies bytes into a buffer. -/
def copyTo (buf : Block) (pos : ℕ) : List Byte → Block
  | [] => buf
  | c :: cs => copyTo (Function.update buf pos c) (pos + 1) cs

section Bytes
variable {b b' : Block} {n p q start cnt : ℕ} {cs : List Byte}

theorem dataToNum_congr (h : ∀ i < cnt, b (start + i) = b' (start + i)) :
    dataToNum b start cnt = dataToNum b' start cnt := by
  apply List.foldl_ext
  intro res i hi
  rw [h i (List.mem_range.mp hi)]

theorem numToData_apply (n : ℕ) (b : Block) (start cnt q : ℕ) :
    numToData n b start cnt q =
      if start ≤ q ∧ q < start + cnt then BitVec.ofNat 8 (n >>> (8 * (q - start))) else b q := by
  unfold numToData
  induction cnt with
  | zero =>
    have hnone : ¬ (start ≤ q ∧ q < start + 0) := by omega
    rw [if_neg hnone]
    rfl
  | succ cnt ih =>
    rw [List.range_succ, List.foldl_append, List.foldl_cons, List.foldl_nil, Function.update_apply,
      ih]
    by_cases hq : q = start + cnt
    · subst hq
      have hlast : start ≤ start + cnt ∧ start + cnt < start + (cnt + 1) := by omega
      rw [if_pos rfl, if_pos hlast, Nat.add_sub_cancel_left]
    · have hsame : (start ≤ q ∧ q < start + cnt) ↔ start ≤ q ∧ q < start + (cnt + 1) := by omega
      rw [if_neg hq]
      simp only [hsame]

theorem numToData_of_notMem (h : q < start ∨ start + cnt ≤ q) : numToData n b start cnt q = b q := by
  rw [numToData_apply, if_neg (by omega)]

theorem copyTo_of_notMem (h : q < p ∨ p + cs.length ≤ q) : copyTo b p cs q = b q := by
  induction cs generalizing b p with
  | nil => rfl
  | cons c cs ih =>
    rw [List.length_cons] at h
    have hqp : q ≠ p := by omega
    rw [copyTo, ih (by omega), Function.update_of_ne hqp]

theorem copyTo_mem {c : Byte} {i : ℕ} (h : cs[i]? = some c) : copyTo b p cs (p + i) = c := by
  induction cs generalizing b p i with
  | nil => cases h
  | cons a cs ih =>
    rw [copyTo]
    cases i with
    | zero =>
      rw [copyTo_of_notMem (by omega), Nat.add_zero, Function.update_self]
      exact Option.some.inj h
    | succ i =>
      rw [show p + (i + 1) = p + 1 + i by omega]
      exact ih h

theorem dataToNum_numToData_ne {m : ℕ} (h : p + m ≤ start ∨ start + cnt ≤ p) :
    dataToNum (numToData n b start cnt) p m = dataToNum b p m := by
  apply dataToNum_congr
  intro i hi
  exact numToData_of_notMem (by omega)

end Bytes

abbrev word (b : Block) (p : ℕ) : Word := dataToNum b p 4

section Words
variable {b b' : Block} {n p q : ℕ}

theorem toNat_word (b : Block) (p : ℕ) :
    (word b p).toNat = (b p).toNat + 2 ^ 8 * (b (p + 1)).toNat + 2 ^ 16 * (b (p + 2)).toNat +
      2 ^ 24 * (b (p + 3)).toNat := by
  have h0 := (b p).isLt
  have h1 := (b (p + 1)).isLt
  have h2 := (b (p + 2)).isLt
  have h3 := (b (p + 3)).isLt
  have hsum : word b p = 0 + (b p).setWidth 32 <<< 0 + (b (p + 1)).setWidth 32 <<< 8 +
    (b (p + 2)).setWidth 32 <<< 16 + (b (p + 3)).setWidth 32 <<< 24 := rfl
  rw [hsum]
  simp only [BitVec.toNat_add, BitVec.toNat_shiftLeft, BitVec.toNat_setWidth, Nat.shiftLeft_eq]
  simp
  omega

theorem word_congr (h : ∀ i < 4, b (p + i) = b' (p + i)) : word b p = word b' p :=
  dataToNum_congr h

theorem word_eq_zero_iff : word b p = 0 ↔ ∀ i < 4, b (p + i) = 0 := by
  have hsum := toNat_word b p
  constructor
  · intro h
    rw [h] at hsum
    have hzero : ∀ c : Byte, c.toNat = 0 → c = 0 := fun c hc => BitVec.eq_of_toNat_eq hc
    intro i hi
    apply hzero
    change 0 = _ at hsum
    rcases (by omega : i = 0 ∨ i = 1 ∨ i = 2 ∨ i = 3) with rfl | rfl | rfl | rfl
    · rw [Nat.add_zero]
      omega
    · omega
    · omega
    · omega
  · intro h
    have hb : ∀ i < 4, (b (p + i)).toNat = 0 := fun i hi => by rw [h i hi]; rfl
    have h0 := hb 0 (by omega)
    have h1 := hb 1 (by omega)
    have h2 := hb 2 (by omega)
    have h3 := hb 3 (by omega)
    rw [Nat.add_zero] at h0
    apply BitVec.eq_of_toNat_eq
    change _ = 0
    omega

theorem word_numToData_nat (n : ℕ) (b : Block) (p : ℕ) :
    word (numToData n b p 4) p = BitVec.ofNat 32 n := by
  apply BitVec.eq_of_toNat_eq
  rw [toNat_word, BitVec.toNat_ofNat]
  have hbyte : ∀ i < 4, (numToData n b p 4 (p + i)).toNat = n / 2 ^ (8 * i) % 2 ^ 8 := by
    intro i hi
    rw [numToData_apply, if_pos (by omega), Nat.add_sub_cancel_left, BitVec.toNat_ofNat,
      Nat.shiftRight_eq_div_pow]
  have h0 := hbyte 0 (by omega)
  have h1 := hbyte 1 (by omega)
  have h2 := hbyte 2 (by omega)
  have h3 := hbyte 3 (by omega)
  rw [Nat.add_zero] at h0
  rw [h0, h1, h2, h3]
  omega

theorem word_numToData (w : Word) (b : Block) (p : ℕ) : word (numToData w.toNat b p 4) p = w := by
  rw [word_numToData_nat]
  exact BitVec.eq_of_toNat_eq (by simp)

theorem word_numToData_ne {cnt start : ℕ} (h : p + 4 ≤ start ∨ start + cnt ≤ p) :
    word (numToData n b start cnt) p = word b p :=
  dataToNum_numToData_ne h

end Words

end CxxKernel.Clothes
