import CxxKernel.Clothes.FreeRun
import CxxKernel.Clothes.Listing

/-! A formatted volume: the root directory is empty, and the free blocks come out in order. -/
namespace CxxKernel.Clothes
open Fallible Cursor

namespace ClothesFS

/-- The device after `k` calls of `takeFreeBlock`. -/
def taking (fs : ClothesFS) (d : Disk) : ℕ → Disk
  | 0 => d
  | k + 1 => (exec fs.takeFreeBlock (taking fs d k)).2

def taken (fs : ClothesFS) (d : Disk) (k : ℕ) : Option Word := (exec fs.takeFreeBlock (fs.taking d k)).1

section FormatRun
variable {fs : ClothesFS} {d : Disk} {volid : Option CString}

/-- `format` succeeds on every device that has a block for the root directory. -/
theorem returns_format (hs : fs.Small) (htwo : 2 ≤ fs.count) (volid : Option CString) (d : Disk) :
    ∃ d', Returns (fs.format volid) d () d' := by
  have hone : (1 : Word).toNat < fs.count := htwo
  have hblocks := hs.returns_formatBlocks htwo d
  have hheader := hs.returns_header htwo volid 2 (formatted (fs.count - 1) 0 d)
  simp only [format, returns_bind, returns_guard, hs.returns_initMeta hone, hs.returns_updateMeta hone]
  refine ⟨_, _, _, hblocks, _, _, hheader, (), _, rfl, (), _, ⟨?_, rfl⟩, rfl, rfl⟩
  rw [Function.update_self]
  exact .inr rfl

theorem FreeInv.taking (hs : fs.Small) {free : List Word} (h : FreeInv fs d free) (k : ℕ) :
    FreeInv fs (fs.taking d k) (free.drop k) := by
  induction k with
  | zero => exact h
  | succ k ih =>
    have hr := ih.returns_take hs
    have hnext : fs.taking d (k + 1) = popHeader (fs.taking d k) := by rw [ClothesFS.taking, hr]
    rw [hnext, ← List.tail_drop]
    exact ih.pop

theorem FreeInv.taken_eq (hs : fs.Small) {free : List Word} (h : FreeInv fs d free) (k : ℕ) :
    fs.taken d k = some ((free.drop k).headD 0) := by
  rw [taken, (h.taking hs k).returns_take hs]

theorem Fresh.taken_eq (hs : fs.Small) (h : Fresh fs volid d) (k : ℕ) :
    fs.taken d k = some (if k + 2 < fs.count then BitVec.ofNat 32 (k + 2) else 0) := by
  rcases Nat.eq_or_lt_of_le h.two_le with htwo | hthree
  · have hr := h.returns_take_two hs htwo.symm
    have hsame : fs.taking d k = d := by
      induction k with
      | zero => rfl
      | succ k ih => rw [taking, ih, hr]
    rw [if_neg (by omega), taken, hsame, hr]
  · have htaken := (h.freeInv hs hthree).taken_eq hs k
    rw [List.headD_eq_head?_getD, List.head?_drop, freshFree, List.getElem?_map] at htaken
    rw [htaken]
    by_cases hlt : k + 2 < fs.count
    · rw [if_pos hlt, List.getElem?_range' (by omega), Nat.one_mul, Nat.add_comm 2 k]
      rfl
    · have hend : (List.range' 2 (fs.count - 2))[k]? = none := by
        rw [List.getElem?_eq_none]
        rw [List.length_range']
        omega
      rw [if_neg hlt, hend]
      rfl

/-- After `format`, successive calls of `takeFreeBlock` return 2, 3, up to the last block, and then zero for
ever, and the root directory is empty. -/
theorem format_freeList (hs : fs.Small) (htwo : 2 ≤ fs.count) (volid : Option CString) (d : Disk) :
    ∃ d', Returns (fs.format volid) d () d' ∧
      (∀ k, fs.taken d' k = some (if k + 2 < fs.count then BitVec.ofNat 32 (k + 2) else 0)) ∧
      Yields (fs.visit d') (fs.list d' 1) [] := by
  obtain ⟨d', hr⟩ := returns_format hs htwo volid d
  have hfresh := fresh_of_format hs hr
  exact ⟨d', hr, hfresh.taken_eq hs, list_yields hs hfresh.rootOk (by decide)⟩

/-- A device of four blocks. -/
theorem format_freeList_fourBlocks : ∃ d, Returns (fourBlocks.format none) (fun _ => clearBuffer) () d ∧
    fourBlocks.taken d 0 = some 2 ∧ fourBlocks.taken d 1 = some 3 ∧ ∀ k, 2 ≤ k → fourBlocks.taken d k = some 0 := by
  have hcount : fourBlocks.count = 4 := by decide
  obtain ⟨d, hr, htaken, -⟩ := format_freeList fourBlocks_small (by decide) none fun _ => clearBuffer
  refine ⟨d, hr, htaken 0, htaken 1, fun k hk => ?_⟩
  rw [htaken k, hcount, if_neg (by omega)]

end FormatRun

end ClothesFS

end CxxKernel.Clothes
