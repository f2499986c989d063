import CxxKernel.Clothes.Format
import CxxKernel.Clothes.Iterator

/-! The numbers in the fields of a block, written and read back, and the size of a file among them. -/
namespace CxxKernel.Clothes
open Fallible ClothesFS

/-- The number is read back, and the bytes beside the field are as before. -/
structure FieldLaw (n : ℕ) (buf : Block) (start cnt : ℕ) : Prop where
  value : (dataToNum (numToData n buf start cnt) start cnt).toNat = n
  frame : ∀ q, q < start ∨ start + cnt ≤ q → numToData n buf start cnt q = buf q

section Fields
variable {n start cnt k : ℕ} {buf : Block}

theorem dataToNum_succ (b : Block) (start cnt : ℕ) : dataToNum b start (cnt + 1) =
    dataToNum b start cnt + (b (start + cnt)).setWidth 32 <<< (8 * cnt % 32) := by
  rw [dataToNum, List.range_succ, List.foldl_append]
  rfl

theorem numToData_byte (n : ℕ) (buf : Block) (start : ℕ) (h : k < cnt) :
    (numToData n buf start cnt (start + k)).toNat = n / 2 ^ (8 * k) % 2 ^ 8 := by
  rw [numToData_apply, if_pos (by omega), Nat.add_sub_cancel_left, BitVec.toNat_ofNat, Nat.shiftRight_eq_div_pow]

/-- Up to the width of the result the bytes of the field add up to the number. -/
theorem toNat_dataToNum_low (n : ℕ) (buf : Block) (start : ℕ) (hk : k ≤ cnt) (hword : k ≤ 4) :
    (dataToNum (numToData n buf start cnt) start k).toNat = n % 2 ^ (8 * k) := by
  induction k with
  | zero =>
    rw [Nat.mul_zero, Nat.pow_zero, Nat.mod_one]
    rfl
  | succ k ih =>
    have hbyte := numToData_byte n buf start (show k < cnt by omega)
    have hmod : 8 * k % 32 = 8 * k := Nat.mod_eq_of_lt (by omega)
    have hpow : 2 ^ (8 * (k + 1)) = 2 ^ (8 * k) * 2 ^ 8 := by
      rw [Nat.mul_succ, Nat.pow_add]
    have hsplit : n % (2 ^ (8 * k) * 2 ^ 8) = n % 2 ^ (8 * k) + 2 ^ (8 * k) * (n / 2 ^ (8 * k) % 2 ^ 8) :=
      Nat.mod_mul
    have hlt : n % (2 ^ (8 * k) * 2 ^ 8) < 2 ^ 32 := by
      rw [← hpow]
      exact Nat.lt_of_lt_of_le (Nat.mod_lt _ (Nat.two_pow_pos _)) (Nat.pow_le_pow_right (by decide) (by omega))
    have hhigh : 2 ^ (8 * k) * (n / 2 ^ (8 * k) % 2 ^ 8) < 2 ^ 32 := by omega
    rw [dataToNum_succ, BitVec.toNat_add, ih (by omega) (by omega), hmod, BitVec.toNat_shiftLeft,
      BitVec.toNat_setWidth,
      hbyte, Nat.shiftLeft_eq, Nat.mod_eq_of_lt (by omega : n / 2 ^ (8 * k) % 2 ^ 8 < 2 ^ 32),
      Nat.mul_comm (n / 2 ^ (8 * k) % 2 ^ 8), Nat.mod_eq_of_lt hhigh, hpow, ← hsplit, Nat.mod_eq_of_lt hlt]

/-- The bytes behind the word are zero, and add nothing wherever they are shifted. -/
theorem toNat_dataToNum_high (hn : n < 2 ^ 32) (buf : Block) (start : ℕ) (h : 4 + k ≤ cnt) :
    (dataToNum (numToData n buf start cnt) start (4 + k)).toNat = n := by
  induction k with
  | zero =>
    rw [Nat.add_zero, toNat_dataToNum_low n buf start (by omega) (Nat.le_refl 4)]
    exact Nat.mod_eq_of_lt hn
  | succ k ih =>
    have hbyte := numToData_byte n buf start (show 4 + k < cnt by omega)
    have hpow : 2 ^ 32 ≤ 2 ^ (8 * (4 + k)) := Nat.pow_le_pow_right (by decide) (by omega)
    rw [Nat.div_eq_of_lt (by omega), Nat.zero_mod] at hbyte
    have hzero : numToData n buf start cnt (start + (4 + k)) = 0 := BitVec.eq_of_toNat_eq hbyte
    have hshift : (0 : Byte).setWidth 32 <<< (8 * (4 + k) % 32) = 0#32 := BitVec.zero_shiftLeft _
    rw [← Nat.add_assoc, dataToNum_succ, hzero, hshift, BitVec.add_zero]
    exact ih (by omega)

theorem toNat_dataToNum_numToData (buf : Block) (start : ℕ) (hn : n < 2 ^ (8 * cnt)) (hword : n < 2 ^ 32) :
    (dataToNum (numToData n buf start cnt) start cnt).toNat = n := by
  by_cases hcnt : cnt ≤ 4
  · rw [toNat_dataToNum_low n buf start (Nat.le_refl cnt) hcnt]
    exact Nat.mod_eq_of_lt hn
  · obtain ⟨k, rfl⟩ := Nat.exists_eq_add_of_le (Nat.le_of_not_le hcnt)
    exact toNat_dataToNum_high hword buf start (Nat.le_refl _)

theorem fieldLaw_iff (buf : Block) (start : ℕ) (hn : n < 2 ^ (8 * cnt)) : FieldLaw n buf start cnt ↔ n < 2 ^ 32 := by
  constructor
  · intro h
    rw [← h.value]
    exact BitVec.isLt _
  · intro hword
    exact ⟨toNat_dataToNum_numToData buf start hn hword, fun q hq => numToData_of_notMem hq⟩

end Fields

section Size
variable {fs : ClothesFS} {d d' : Disk} {index : Word} {name : CString} {size : ℕ} {it : Iterator}

theorem blockAt_updateMeta (hr : Returns (fs.updateMeta index name size) d () d') :
    ∃ data, fs.blockAt d' index = some (named data name size) := by
  simp only [updateMeta, returns_bind, returns_getBlock, returns_guard] at hr
  obtain ⟨data, _, ⟨-, rfl⟩, _, _, ⟨-, rfl⟩, hput⟩ := hr
  obtain ⟨hpos, rfl⟩ := returns_putBlock.mp hput
  exact ⟨data, blockAt_eq_some.mpr ⟨hpos, Function.update_self ..⟩⟩

theorem size_named (data : Block) (name : CString) (size : ℕ) :
    dataToNum (named data name size) 4 8 = dataToNum (numToData size data 4 8) 4 8 := by
  apply dataToNum_congr
  intro i hi
  rw [named, numToData_of_notMem (by omega), copyTo_of_notMem (by omega)]

/-- A field of any width gives back exactly the numbers of less than 32 bits, and so does the size of a file. -/
theorem fields_iff (n : ℕ) (buf : Block) (start cnt : ℕ) (hn : n < 2 ^ (8 * cnt)) (hsize : size < 2 ^ 64)
    (hr : Returns (fs.updateMeta index name size) d () d') (hit : fs.blockAt d' index = some it.data) :
    (FieldLaw n buf start cnt ↔ n < 2 ^ 32) ∧ (it.size.toNat = size ↔ size < 2 ^ 32) := by
  obtain ⟨data, hdata⟩ := blockAt_updateMeta hr
  have hfield := fieldLaw_iff data 4 (show size < 2 ^ (8 * 8) from hsize)
  refine ⟨fieldLaw_iff buf start hn, ?_⟩
  rw [← hfield, Iterator.size, ← Option.some.inj (hdata.symm.trans hit), size_named]
  exact ⟨fun h => ⟨h, fun q hq => numToData_of_notMem hq⟩, fun h => h.value⟩

def twoBlocks : ClothesFS := ⟨2 * 512⟩

theorem letter_noNul : (0 : Byte) ∉ [(0x61 : Byte)] := by decide

def letter : CString := ⟨[0x61], letter_noNul⟩

/-- The device after `updateMeta` on a fresh metadata block. -/
def sized (size : ℕ) : Disk := (exec (twoBlocks.updateMeta 1 letter size) fun _ => freshMeta META_FILE).2

theorem fields_iff_sized : FieldLaw 7 clearBuffer 0 1 ∧
    (Iterator.mk true 1 0 0 0 0 clearBuffer (sized 7 1) clearBuffer).size.toNat = 7 := by
  have hr : Returns (twoBlocks.updateMeta 1 letter 7) (fun _ => freshMeta META_FILE) () (sized 7) :=
    returns_of_fst (by decide +kernel)
  have hsector : sectorOf 1 = 1 := by decide
  have hit : twoBlocks.blockAt (sized 7) 1 =
      some (Iterator.mk true 1 0 0 0 0 clearBuffer (sized 7 1) clearBuffer).data :=
    blockAt_eq_some.mpr ⟨by decide, congrArg (sized 7) hsector⟩
  obtain ⟨hfield, hsize⟩ := fields_iff 7 clearBuffer 0 1 (by decide) (by decide) hr hit
  exact ⟨hfield.mpr (by decide), hsize.mpr (by decide)⟩

/-- A number of 33 bits: its fifth byte is shifted by 32, and comes back in the lowest one. -/
theorem not_fieldLaw_wide : ¬ FieldLaw (2 ^ 32) clearBuffer 4 8 ∧
    Returns (twoBlocks.updateMeta 1 letter (2 ^ 32)) (fun _ => freshMeta META_FILE) () (sized (2 ^ 32)) ∧
    (Iterator.mk true 1 0 0 0 0 clearBuffer (sized (2 ^ 32) 1) clearBuffer).size = 1 := by
  refine ⟨fun h => ?_, returns_of_fst (by decide +kernel), by decide +kernel⟩
  have hvalue : dataToNum (numToData (2 ^ 32) clearBuffer 4 8) 4 8 = 1 := by decide +kernel
  have hone := h.value
  rw [hvalue] at hone
  cases hone

end Size

end CxxKernel.Clothes
