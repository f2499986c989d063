import CxxKernel.Clothes.Format
import CxxKernel.Lib.Runs

/-! Runs of `takeFreeBlock` and `addFreeBlock`, and the free chain as a stack. -/
namespace CxxKernel.Clothes
open Fallible LinkedChain Runs

/-- A block that has been overwritten with metadata or payload. -/
def Used (data : Block) : Prop :=
  (dataToNum data 0 2 = metadata_id ∨ dataToNum data 0 2 = payload_id) ∧
    dataToNum data 2 1 ≠ META_FREE

/-- The device, the blocks that are taken, and those of them that have been overwritten since. -/
structure FreeState where
  disk : Disk
  taken : List Word
  written : List Word

inductive FreeOp
  | take
  | overwrite (id : Word) (data : Block)
  | add (id : Word)

namespace ClothesFS

/-- `takeFreeBlock`, a write to a taken block, or a successful `addFreeBlock` of a taken and
overwritten one. -/
def FreeStep (fs : ClothesFS) (s : FreeState) : FreeOp → FreeState → Prop
  | .take, s' => ∃ r, Returns fs.takeFreeBlock s.disk r s'.disk ∧
      s'.taken = (if r = 0 then s.taken else r :: s.taken) ∧ s'.written = s.written.erase r
  | .overwrite id data, s' => id ∈ s.taken ∧ Used data ∧
      Returns (fs.putBlock id data) s.disk () s'.disk ∧
      s'.taken = s.taken ∧ s'.written = id :: s.written.erase id
  | .add id, s' => id ∈ s.taken ∧ id ∈ s.written ∧
      Returns (fs.addFreeBlock id) s.disk () s'.disk ∧
      s'.taken = s.taken.erase id ∧ s'.written = s.written.erase id

/-- A formatted volume, nothing taken. -/
def FreeStart (fs : ClothesFS) (s : FreeState) : Prop :=
  (∃ volid d, Returns (fs.format volid) d () s.disk) ∧ s.taken = [] ∧ s.written = []

/-- The chain of the header is finite, meets no block twice, and consists of the blocks behind the
root directory that are not taken. -/
def ChainOk (fs : ClothesFS) (s : FreeState) : Prop :=
  ∃ q, Chain (nextFree s.disk) (freeHead s.disk) q ∧ q.Nodup ∧
    ∀ b, b ∈ q ↔ 2 ≤ b.toNat ∧ b.toNat < fs.count ∧ b ∉ s.taken

/-- The next `takeFreeBlock` undoes the `addFreeBlock`, and a second `addFreeBlock` is refused. -/
def StackLaw (fs : ClothesFS) (s : FreeState) (id : Word) (s' : FreeState) : Prop :=
  (∀ r d, Returns fs.takeFreeBlock s'.disk r d → r = id ∧
    ∀ q, Chain (nextFree s.disk) (freeHead s.disk) q → Chain (nextFree d) (freeHead d) q) ∧
  ∀ d, ¬ Returns (fs.addFreeBlock id) s'.disk () d

def AddLaw (fs : ClothesFS) (s : FreeState) (op : FreeOp) (s' : FreeState) : Prop :=
  ∀ id, op = .add id → fs.StackLaw s id s'

/-- What is to hold along a run. -/
def FreeLaw (fs : ClothesFS) (s : FreeState) (ops : List FreeOp) (t : FreeState) : Prop :=
  Always fs.FreeStep fs.ChainOk s ops t ∧ Run (Guarded fs.FreeStep fs.AddLaw) s ops t

section Steps
variable {fs : ClothesFS} {s s' : FreeState} {id : Word} {data : Block}

/-- The free blocks are those that are not taken, and the taken ones can be written. -/
structure FreeRunInv (fs : ClothesFS) (s : FreeState) (free : List Word) : Prop where
  chain : FreeInv fs s.disk free
  free : ∀ b, b ∈ free ↔ 2 ≤ b.toNat ∧ b.toNat < fs.count ∧ b ∉ s.taken
  taken : ∀ b ∈ s.taken, 2 ≤ b.toNat ∧ b.toNat < fs.count

theorem take_inv {free : List Word} (hs : fs.Small) (h : FreeRunInv fs s free)
    (hstep : fs.FreeStep s .take s') : FreeRunInv fs s' free.tail := by
  obtain ⟨r, hr, htaken, -⟩ := hstep
  obtain ⟨hhead, hdisk⟩ := h.chain.take_spec hs hr
  have hchain : FreeInv fs s'.disk free.tail := hdisk ▸ h.chain.pop
  cases free with
  | nil =>
    have hsame : s'.taken = s.taken := by
      rw [htaken]
      exact if_pos hhead
    exact ⟨hchain, fun b => by rw [hsame]; exact h.free b, fun b => by rw [hsame]; exact h.taken b⟩
  | cons a rest =>
    obtain rfl : r = a := hhead
    have hin := h.chain.inside r List.mem_cons_self
    have hne : r ≠ 0 := by
      rintro rfl
      exact absurd hin.1 (by decide)
    have hcons : s'.taken = r :: s.taken := by
      rw [htaken]
      exact if_neg hne
    have hnot : r ∉ rest := h.chain.head_notMem
    refine ⟨hchain, fun b => ?_, fun b hb => ?_⟩
    · have hfree := h.free b
      rw [List.mem_cons] at hfree
      rw [hcons, List.mem_cons, not_or, List.tail_cons]
      constructor
      · intro hb
        obtain ⟨hge, hlt, htk⟩ := hfree.mp (.inr hb)
        exact ⟨hge, hlt, fun he => hnot (he ▸ hb), htk⟩
      · rintro ⟨hge, hlt, hbr, htk⟩
        exact (hfree.mpr ⟨hge, hlt, htk⟩).resolve_left hbr
    · rw [hcons, List.mem_cons] at hb
      rcases hb with rfl | hb
      · exact hin
      · exact h.taken b hb

end Steps

section Law
variable {fs : ClothesFS} {s t : FreeState} {ops : List FreeOp}

theorem inv_of_start (hs : fs.Small) (hstart : fs.FreeStart s) (hthree : 3 ≤ fs.count) :
    FreeRunInv fs s fs.freshFree := by
  obtain ⟨⟨volid, d, hformat⟩, htaken, -⟩ := hstart
  refine ⟨(fresh_of_format hs hformat).freeInv hs hthree, fun b => ?_, fun b hb => ?_⟩
  · rw [mem_freshFree hs, htaken]
    simp
  · rw [htaken] at hb
    cases hb

def fourBlocks : ClothesFS := ⟨4 * 512⟩

theorem fourBlocks_small : fourBlocks.Small := by
  change 4 * 512 < 2 ^ 32
  omega

end Law

end ClothesFS

end CxxKernel.Clothes
