import CxxKernel.Clothes.Iterator
import CxxKernel.Lib.LinkedChain

/-! The blocks of a volume of less than 4 GiB, where `index * m_blocksize` does not wrap, and the
chain of the free ones. -/
namespace CxxKernel.Clothes
open Fallible LinkedChain

/-- The sector that `getBlock` and `putBlock` reach, also for a number behind the last block. -/
def sectorOf (index : Word) : ℕ := blockPos index / sectorSize

namespace ClothesFS

/-- The number of whole blocks on the device. -/
def count (fs : ClothesFS) : ℕ := fs.size / blocksize

def Small (fs : ClothesFS) : Prop := fs.size < 2 ^ 32

section Access
variable {fs : ClothesFS} {d d' : Disk} {i : Word} {b : Block}

@[simp] theorem returns_getBlock :
    Returns (fs.getBlock i) d b d' ↔ fs.blockAt d i = some b ∧ d = d' := by
  have hexec : exec (fs.getBlock i) d = (fs.blockAt d i, d) := rfl
  rw [Returns, hexec, Prod.mk.injEq]

@[simp] theorem fails_getBlock : Fails (fs.getBlock i) d d' ↔ fs.blockAt d i = none ∧ d = d' := by
  have hexec : exec (fs.getBlock i) d = (fs.blockAt d i, d) := rfl
  rw [Fails, hexec, Prod.mk.injEq]

theorem exec_putBlock (fs : ClothesFS) (i : Word) (b : Block) (d : Disk) :
    exec (fs.putBlock i b) d = if blockPos i + sectorSize ≤ fs.size then
      (some (), Function.update d (sectorOf i) b) else (none, d) := by
  unfold putBlock physWrite
  by_cases hpos : blockPos i + sectorSize ≤ fs.size
  · rw [if_pos hpos, guard, if_pos hpos]
    rfl
  · rw [if_neg hpos, guard, if_neg hpos]
    rfl

theorem returns_putBlock {u : Unit} : Returns (fs.putBlock i b) d u d' ↔
    blockPos i + sectorSize ≤ fs.size ∧ Function.update d (sectorOf i) b = d' := by
  rw [Returns, exec_putBlock]
  by_cases hpos : blockPos i + sectorSize ≤ fs.size <;> simp [hpos]

theorem blockAt_eq_some : fs.blockAt d i = some b ↔
    blockPos i + sectorSize ≤ fs.size ∧ d (sectorOf i) = b := by
  unfold blockAt physRead
  by_cases hpos : blockPos i + sectorSize ≤ fs.size <;> simp [hpos, sectorOf]

theorem blockAt_eq_none (hi : i.toNat < 2 ^ 23)
    (hout : ¬ i.toNat < fs.count) : fs.blockAt d i = none := by
  rw [Option.eq_none_iff_forall_ne_some]
  intro b hb
  obtain ⟨hpos, -⟩ := blockAt_eq_some.mp hb
  have hsize : (BitVec.ofNat 32 blocksize).toNat = 512 := rfl
  rw [blockPos, BitVec.toNat_mul, hsize, Nat.mod_eq_of_lt (by omega)] at hpos
  unfold count blocksize at hout
  unfold sectorSize at hpos
  omega

theorem Small.count_lt (h : fs.Small) : fs.count < 2 ^ 23 := by
  unfold Small at h
  unfold count blocksize
  omega

theorem Small.blockPos_eq (h : fs.Small) (hi : i.toNat < fs.count) :
    blockPos i = i.toNat * blocksize := by
  have hcount := h.count_lt
  have hsize : (BitVec.ofNat 32 blocksize).toNat = 512 := rfl
  rw [blockPos, BitVec.toNat_mul, hsize, Nat.mod_eq_of_lt (by omega)]
  rfl

theorem Small.pos_le (h : fs.Small) (hi : i.toNat < fs.count) :
    blockPos i + sectorSize ≤ fs.size := by
  rw [h.blockPos_eq hi]
  unfold count blocksize at hi
  unfold blocksize sectorSize
  omega

theorem Small.sector_eq (h : fs.Small) (hi : i.toNat < fs.count) :
    sectorOf i = i.toNat := by
  rw [sectorOf, h.blockPos_eq hi]
  exact Nat.mul_div_cancel _ (by decide)

theorem Small.blockAt_eq (h : fs.Small) (hi : i.toNat < fs.count) (d : Disk) :
    fs.blockAt d i = some (d i.toNat) := by
  rw [blockAt_eq_some, h.sector_eq hi]
  exact ⟨h.pos_le hi, rfl⟩

theorem Small.returns_putBlock {u : Unit} (h : fs.Small) (hi : i.toNat < fs.count) :
    Returns (fs.putBlock i b) d u d' ↔ Function.update d i.toNat b = d' := by
  rw [ClothesFS.returns_putBlock, and_iff_right (h.pos_le hi), h.sector_eq hi]

end Access

end ClothesFS

end CxxKernel.Clothes
