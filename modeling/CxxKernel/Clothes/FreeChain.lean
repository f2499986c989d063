import CxxKernel.Clothes.Volume

/-! The chain of the free blocks, and what `takeFreeBlock` and `format` make of it. -/
namespace CxxKernel.Clothes
open Fallible LinkedChain

/-- A block number in a chain; zero ends it. -/
def link (w : Word) : Option Word := if w = 0 then none else some w

/-- The last 4 bytes of a block name the next one. -/
def nextFree (d : Disk) (b : Word) : Option Word := link (word (d b.toNat) (blocksize - 4))

/-- The `freechain` field of the header. -/
def freeHead (d : Disk) : Option Word := link (word (d 0) 104)

theorem link_eq_some {w b : Word} : link w = some b ↔ w = b ∧ b ≠ 0 := by
  unfold link
  by_cases hw : w = 0
  · rw [if_pos hw]
    constructor
    · intro h
      cases h
    · rintro ⟨rfl, hb⟩
      exact absurd hw hb
  · rw [if_neg hw, Option.some.injEq]
    constructor
    · rintro rfl
      exact ⟨rfl, hw⟩
    · exact fun h => h.1

theorem link_eq_none {w : Word} : link w = none ↔ w = 0 := by
  unfold link
  by_cases hw : w = 0 <;> simp [hw]

namespace ClothesFS

/-- The chain links exactly the blocks `free`. They are blank, and the header is no metadata. -/
structure FreeInv (fs : ClothesFS) (d : Disk) (free : List Word) : Prop where
  chain : Chain (nextFree d) (freeHead d) free
  nodup : free.Nodup
  inside : ∀ b ∈ free, 2 ≤ b.toNat ∧ b.toNat < fs.count
  blank : ∀ b ∈ free, dataToNum (d b.toNat) 2 1 = META_FREE
  positive : 0 < fs.count
  header_id : dataToNum (d 0) 0 2 = 0
  header_end : word (d 0) (blocksize - 4) = 0

section Chain
variable {fs : ClothesFS} {d d' : Disk} {free : List Word} {b r : Word} {j : ℕ} {blk : Block}

theorem FreeInv.ne_zero (h : FreeInv fs d free) (hb : b ∈ free) : b.toNat ≠ 0 := by
  have hin := h.inside b hb
  omega

theorem FreeInv.write (h : FreeInv fs d free) (hj : j ≠ 0) (hfree : ∀ b ∈ free, b.toNat ≠ j) :
    FreeInv fs (Function.update d j blk) free := by
  have hkeep : ∀ i, i ≠ j → Function.update d j blk i = d i := fun i hi =>
    Function.update_of_ne hi blk d
  have hzero := hkeep 0 (Ne.symm hj)
  refine ⟨?_, h.nodup, h.inside, fun b hb => ?_, h.positive, ?_, ?_⟩
  · have hhead : freeHead (Function.update d j blk) = freeHead d := by
      rw [freeHead, hzero, freeHead]
    rw [hhead]
    apply h.chain.congr
    intro b hb
    rw [nextFree, hkeep _ (hfree b hb), nextFree]
  · rw [hkeep _ (hfree b hb)]
    exact h.blank b hb
  · rw [hzero]
    exact h.header_id
  · rw [hzero]
    exact h.header_end

theorem FreeInv.write_taken (h : FreeInv fs d free) (hb : b.toNat ≠ 0) (hnot : b ∉ free) :
    FreeInv fs (Function.update d b.toNat blk) free :=
  h.write hb fun _ hc he => hnot (BitVec.eq_of_toNat_eq he ▸ hc)

/-- What `takeFreeBlock` writes into the header. -/
def popHeader (d : Disk) : Disk :=
  Function.update d 0
    (numToData (word (d (word (d 0) 104).toNat) (blocksize - 4)).toNat (d 0) 104 4)

theorem popHeader_of_ne (d : Disk) (hj : j ≠ 0) : popHeader d j = d j :=
  Function.update_of_ne hj _ d

theorem FreeInv.head_eq (h : FreeInv fs d free) : word (d 0) 104 = free.headD 0 := by
  have hstart : link (word (d 0) 104) = free.head? := h.chain.start_eq
  cases free with
  | nil => exact link_eq_none.mp hstart
  | cons b free => exact (link_eq_some.mp hstart).1

theorem FreeInv.head_inside (h : FreeInv fs d free) : (free.headD 0).toNat < fs.count := by
  cases free with
  | nil => exact h.positive
  | cons b free => exact (h.inside b List.mem_cons_self).2

theorem FreeInv.chain_tail (h : FreeInv fs d free) :
    Chain (nextFree d) (link (word (d (free.headD 0).toNat) (blocksize - 4))) free.tail := by
  cases free with
  | nil => exact link_eq_none.mpr h.header_end
  | cons b free => exact h.chain.2

/-- `takeFreeBlock` unlinks the first free block, and returns zero when there is none. -/
theorem FreeInv.returns_take (hs : fs.Small) (h : FreeInv fs d free) :
    Returns fs.takeFreeBlock d (free.headD 0) (popHeader d) := by
  have hzero : (0 : Word).toNat < fs.count := h.positive
  unfold takeFreeBlock
  rw [returns_orElse]
  left
  simp only [returns_bind, returns_getBlock, returns_pure]
  refine ⟨d 0, d, ⟨hs.blockAt_eq hzero d, rfl⟩, d (free.headD 0).toNat, d, ⟨?_, rfl⟩, (),
    popHeader d, (hs.returns_putBlock hzero).mpr ?_, ?_, rfl⟩
  · change fs.blockAt d (word (d 0) 104) = _
    rw [h.head_eq]
    exact hs.blockAt_eq h.head_inside d
  · rw [popHeader, h.head_eq]
    rfl
  · exact h.head_eq

theorem FreeInv.pop (h : FreeInv fs d free) : FreeInv fs (popHeader d) free.tail := by
  have htail : ∀ b ∈ free.tail, b ∈ free := fun b hb => List.mem_of_mem_tail hb
  have hheader : popHeader d 0 =
      numToData (word (d (free.headD 0).toNat) (blocksize - 4)).toNat (d 0) 104 4 := by
    rw [popHeader, Function.update_self, h.head_eq]
  have hkeep : ∀ b ∈ free.tail, popHeader d b.toNat = d b.toNat := fun b hb =>
    popHeader_of_ne d (h.ne_zero (htail b hb))
  refine ⟨?_, h.nodup.tail, fun b hb => h.inside b (htail b hb), fun b hb => ?_, h.positive, ?_, ?_⟩
  · have hhead : freeHead (popHeader d) =
        link (word (d (free.headD 0).toNat) (blocksize - 4)) := by
      rw [freeHead, hheader, word_numToData]
    rw [hhead]
    apply h.chain_tail.congr
    intro b hb
    rw [nextFree, hkeep b hb, nextFree]
  · rw [hkeep b hb]
    exact h.blank b (htail b hb)
  · rw [hheader, dataToNum_numToData_ne (by omega)]
    exact h.header_id
  · rw [hheader, word_numToData_ne (by decide)]
    exact h.header_end

theorem FreeInv.head_notMem (h : FreeInv fs d (b :: free)) : b ∉ free := (List.nodup_cons.mp h.nodup).1

theorem FreeInv.head_ne_zero (h : FreeInv fs d (b :: free)) : b ≠ 0 := by
  rintro rfl
  exact absurd (h.inside 0 List.mem_cons_self).1 (by decide)

theorem FreeInv.take_spec (hs : fs.Small) (h : FreeInv fs d free)
    (hr : Returns fs.takeFreeBlock d r d') : r = free.headD 0 ∧ d' = popHeader d := by
  obtain ⟨hr, hd⟩ := (h.returns_take hs).unique hr
  exact ⟨hr.symm, hd.symm⟩

theorem FreeInv.take_cons (hs : fs.Small) (h : FreeInv fs d free)
    (hr : Returns fs.takeFreeBlock d r d') (hne : r ≠ 0) :
    ∃ rest, free = r :: rest ∧ d' = popHeader d ∧ FreeInv fs d' rest := by
  obtain ⟨hhead, rfl⟩ := h.take_spec hs hr
  cases free with
  | nil => exact absurd hhead hne
  | cons b rest => exact ⟨rest, by rw [hhead]; rfl, rfl, h.pop⟩

end Chain

end ClothesFS

end CxxKernel.Clothes
