import Mathlib.Data.Fin.VecNotation
import CxxKernel.Memory

/-! `memcpy` and `memmove`, and the MMX copy of `memcpy.asm`. -/
namespace CxxKernel
open Copying Mem

def memcpy (mem : Bytes) (dest src n : Word) : Bytes := Mem.move mem dest src n

def memmove (mem : Bytes) (dest src n : Word) : Bytes := Mem.move mem dest src n

namespace Memcpy

/-- The eight bytes of an MMX register. -/
abbrev Quad := Fin 8 → UInt8

/-- `movq mm, [a]`. -/
def load (mem : Bytes) (a : Word) : Quad := fun i => mem (cells a i)

/-- `movq [a], mm`. -/
def store (mem : Bytes) (a : Word) (mm : Quad) : Bytes := fun x =>
  if h : (x - a).toNat < 8 then mm ⟨(x - a).toNat, h⟩ else mem x

/-- All eight registers are filled before the first one is stored. -/
def loadBlock (mem : Bytes) (esi : Word) : Fin 8 → Quad :=
  ![load mem esi, load mem (esi + 8), load mem (esi + 16), load mem (esi + 24),
    load mem (esi + 32), load mem (esi + 40), load mem (esi + 48), load mem (esi + 56)]

def storeBlock (mem : Bytes) (edi : Word) (mm : Fin 8 → Quad) : Bytes :=
  let mem := store mem edi (mm 0)
  let mem := store mem (edi + 8) (mm 1)
  let mem := store mem (edi + 16) (mm 2)
  let mem := store mem (edi + 24) (mm 3)
  let mem := store mem (edi + 32) (mm 4)
  let mem := store mem (edi + 40) (mm 5)
  let mem := store mem (edi + 48) (mm 6)
  store mem (edi + 56) (mm 7)

/-- `__mmx_memcpy_loop`: the memory, `esi` and `edi` behind the last block. `fuel` bounds its rounds. -/
def mmxLoop : ℕ → Bytes → Word → Word → Word → Option (Bytes × Word × Word)
  | 0, _, _, _, _ => none
  | fuel + 1, mem, esi, edi, ecx =>
    let mem := storeBlock mem edi (loadBlock mem esi)
    let esi := esi + 64
    let edi := edi + 64
    let ecx := ecx - 1
    if ecx = 0 then some (mem, esi, edi) else mmxLoop fuel mem esi edi ecx

/-- `jz __mmx_memcpy_rest` in front of the loop. -/
def mmxBlocks (fuel : ℕ) (mem : Bytes) (esi edi ecx : Word) : Option (Bytes × Word × Word) :=
  if ecx = 0 then some (mem, esi, edi) else mmxLoop fuel mem esi edi ecx

/-- The stack and the flag of `memcpy_opt` lie outside of `mem`. -/
def mmx_memcpy (fuel : ℕ) (mem : Bytes) (dest src n : Word) : Option Bytes := do
  let ecx := n >>> 6
  let ebx := n - ecx <<< 6
  let (mem, esi, edi) ← mmxBlocks fuel mem src dest ecx
  -- `rep movsb` copies upwards, one byte at a time.
  some (if ebx = 0 then mem else copyLoop ebx.toNat edi esi mem)

/-- A feature bit of the word that `cpuid` leaves in `ecx`. -/
def cpuid_has_feature (cpuid feature : Word) : Word := (cpuid >>> (feature.toNat % 32)) &&& 1

def mmx_has (cpuid : Word) : Word := cpuid_has_feature cpuid 23

/-- The memory and `__memcpy_internal_has_mmx` after the call. -/
def memcpy_opt (fuel : ℕ) (cpuid has_mmx : Word) (mem : Bytes) (dest src n : Word) : Option (Bytes × Word) :=
  if has_mmx = 1 then do
    let mem ← mmx_memcpy fuel mem dest src n
    some (mem, has_mmx)
  else if has_mmx = 2 then some (memcpy mem dest src n, has_mmx)
  else if mmx_has cpuid = 1 then do
    let mem ← mmx_memcpy fuel mem dest src n
    some (mem, 1)
  else some (memcpy mem dest src n, 2)

/-- Both paths of `memcpy_opt` end with the same memory, in which exactly the region has been copied. -/
def FastLaw (mem : Bytes) (dest src n : Word) : Prop :=
  ∃ mem', Copied (cells dest) (cells src) n.toNat mem mem' ∧ memcpy mem dest src n = mem' ∧
    (∃ bound, ∀ fuel, bound ≤ fuel → mmx_memcpy fuel mem dest src n = some mem') ∧
    ∀ cpuid has_mmx, ∃ flag bound, ∀ fuel, bound ≤ fuel →
      memcpy_opt fuel cpuid has_mmx mem dest src n = some (mem', flag)

section Blocks
variable {mem mem₀ : Bytes} {d s a : Word} {k n : ℕ}

theorem store_filled (mem mem₀ : Bytes) (d s : Word) :
    Filled (cells d) (fun i => mem₀ (cells s i)) 8 mem (store mem d (load mem₀ s)) := by
  refine ⟨fun i hi => ?_, fun x hx => ?_⟩
  · have hback : (cells d i - d).toNat = i := by
      rw [cells, BitVec.add_comm, BitVec.add_sub_cancel, BitVec.toNat_ofNat]
      omega
    rw [store, dif_pos (by omega), load]
    dsimp only
    rw [hback]
  · by_cases hin : (x - d).toNat < 8
    · exact absurd (cells_sub d x).symm (hx _ hin)
    · rw [store, dif_neg hin]

theorem store_next (h : Filled (cells d) (fun i => mem₀ (cells s i)) (8 * k) mem₀ mem) (hk : k < 8) :
    Filled (cells d) (fun i => mem₀ (cells s i)) (8 * (k + 1)) mem₀
      (store mem (d + BitVec.ofNat 32 (8 * k)) (load mem₀ (s + BitVec.ofNat 32 (8 * k)))) := by
  have hstore := store_filled mem mem₀ (d + BitVec.ofNat 32 (8 * k)) (s + BitVec.ofNat 32 (8 * k))
  rw [← cells_from, ← cells_from] at hstore
  exact h.append hstore (fun i hi j hj => cells_ne (by omega) (by omega) (by omega))

theorem block_copied (mem : Bytes) (d s : Word) :
    Copied (cells d) (cells s) 64 mem (storeBlock mem d (loadBlock mem s)) := by
  have h₁ := store_filled mem mem d s
  have h₂ := store_next (k := 1) h₁ (by omega)
  have h₃ := store_next (k := 2) h₂ (by omega)
  have h₄ := store_next (k := 3) h₃ (by omega)
  have h₅ := store_next (k := 4) h₄ (by omega)
  have h₆ := store_next (k := 5) h₅ (by omega)
  have h₇ := store_next (k := 6) h₆ (by omega)
  exact store_next (k := 7) h₇ (by omega)

theorem apart_from (h : Apart (cells d) (cells s) (k + n)) :
    Apart (cells (d + BitVec.ofNat 32 k)) (cells (s + BitVec.ofNat 32 k)) n := by
  intro i hi j hj
  rw [cells_add, cells_add]
  exact h (k + i) (by omega) (k + j) (by omega)

theorem apart_of_toNat (hd : d.toNat + n ≤ 2 ^ 32) (hs : s.toNat + n ≤ 2 ^ 32)
    (h : d.toNat + n ≤ s.toNat ∨ s.toNat + n ≤ d.toNat) : Apart (cells d) (cells s) n := by
  intro i hi j hj heq
  have hnat := congrArg BitVec.toNat heq
  rw [toNat_cells (by omega), toNat_cells (by omega)] at hnat
  omega

theorem copied_then {mem' : Bytes} (hapart : Apart (cells d) (cells s) (k + n)) (hn : k + n ≤ 2 ^ 32)
    (hfirst : Copied (cells d) (cells s) k mem₀ mem)
    (hrest : Copied (cells (d + BitVec.ofNat 32 k)) (cells (s + BitVec.ofNat 32 k)) n mem mem') :
    Copied (cells d) (cells s) (k + n) mem₀ mem' := by
  rw [← cells_from, ← cells_from] at hrest
  exact hfirst.append hrest (fun i hi j hj => hapart i (by omega) (k + j) (by omega))
    (fun i hi j hj => cells_ne (by omega) (by omega) (by omega))

theorem mmxLoop_copied (mem : Bytes) {fuel : ℕ} {ecx : Word} (hpos : ecx ≠ 0) (hfuel : ecx.toNat ≤ fuel)
    (hn : 64 * ecx.toNat ≤ 2 ^ 32) (hapart : Apart (cells d) (cells s) (64 * ecx.toNat)) :
    ∃ mem', mmxLoop fuel mem s d ecx = some (mem', s + BitVec.ofNat 32 (64 * ecx.toNat),
      d + BitVec.ofNat 32 (64 * ecx.toNat)) ∧ Copied (cells d) (cells s) (64 * ecx.toNat) mem mem' := by
  induction fuel generalizing mem s d ecx with
  | zero => exact absurd (BitVec.eq_of_toNat_eq (Nat.le_zero.mp hfuel)) hpos
  | succ fuel ih =>
    have hblock := block_copied mem d s
    rw [mmxLoop]
    by_cases hlast : ecx - 1 = 0
    · have hone : ecx = 1 := by bv_omega
      rw [if_pos hlast, hone]
      exact ⟨_, rfl, hblock⟩
    · have hdec : (ecx - 1).toNat = ecx.toNat - 1 := by bv_omega
      have hcount : 64 * ecx.toNat = 64 + 64 * (ecx - 1).toNat := by
        have : ecx.toNat ≠ 0 := fun h => hpos (BitVec.eq_of_toNat_eq h)
        omega
      rw [hcount] at hapart hn ⊢
      rw [if_neg hlast]
      have hrounds : (ecx - 1).toNat ≤ fuel := by omega
      obtain ⟨mem', hloop, hrest⟩ := ih (storeBlock mem d (loadBlock mem s)) hlast hrounds (by omega)
        (apart_from hapart)
      refine ⟨mem', ?_, copied_then hapart hn hblock hrest⟩
      rw [BitVec.ofNat_add, ← BitVec.add_assoc, ← BitVec.add_assoc]
      exact hloop

theorem blocks_copied (mem : Bytes) {fuel : ℕ} {ecx : Word} (hfuel : ecx.toNat ≤ fuel)
    (hn : 64 * ecx.toNat ≤ 2 ^ 32) (hapart : Apart (cells d) (cells s) (64 * ecx.toNat)) :
    ∃ mem', mmxBlocks fuel mem s d ecx = some (mem', s + BitVec.ofNat 32 (64 * ecx.toNat),
      d + BitVec.ofNat 32 (64 * ecx.toNat)) ∧ Copied (cells d) (cells s) (64 * ecx.toNat) mem mem' := by
  rw [mmxBlocks]
  by_cases hzero : ecx = 0
  · have hstay : ∀ a : Word, a + BitVec.ofNat 32 (64 * (0 : Word).toNat) = a := fun a => BitVec.add_zero a
    rw [if_pos hzero, hzero, hstay, hstay]
    exact ⟨mem, rfl, Filled.zero⟩
  · rw [if_neg hzero]
    exact mmxLoop_copied mem hzero hfuel hn hapart

theorem rest_copied (mem : Bytes) {ebx : Word} (hapart : Apart (cells d) (cells s) ebx.toNat) :
    Copied (cells d) (cells s) ebx.toNat mem (if ebx = 0 then mem else copyLoop ebx.toNat d s mem) := by
  split_ifs with hzero
  · rw [hzero]
    exact Filled.zero
  · exact copyLoop_copied (Nat.le_of_lt ebx.isLt) (fun i j hij hj => hapart i (by omega) j hj)

theorem mmx_memcpy_copied (mem : Bytes) {fuel : ℕ} {dest src size : Word} (hfuel : size.toNat / 64 ≤ fuel)
    (hapart : Apart (cells dest) (cells src) size.toNat) :
    ∃ mem', mmx_memcpy fuel mem dest src size = some mem' ∧
      Copied (cells dest) (cells src) size.toNat mem mem' := by
  have hblocks : (size >>> 6).toNat = size.toNat / 64 := by
    rw [BitVec.toNat_ushiftRight, Nat.shiftRight_eq_div_pow]
  have hshift : ((size >>> 6) <<< 6).toNat = 64 * (size.toNat / 64) := by
    rw [BitVec.toNat_shiftLeft, hblocks, Nat.shiftLeft_eq]
    omega
  have hrest : (size - (size >>> 6) <<< 6).toNat = size.toNat % 64 := by bv_omega
  have hsplit : size.toNat = 64 * (size >>> 6).toNat + (size - (size >>> 6) <<< 6).toNat := by omega
  have hsize : size.toNat ≤ 2 ^ 32 := Nat.le_of_lt size.isLt
  rw [hsplit] at hapart hsize ⊢
  have hcount : (size >>> 6).toNat ≤ fuel := by omega
  obtain ⟨mid, hloop, hcopied⟩ := blocks_copied mem hcount (by omega)
    (fun i hi j hj => hapart i (by omega) j (by omega))
  have hbytes := rest_copied mid (apart_from hapart)
  refine ⟨_, ?_, copied_then hapart hsize hcopied hbytes⟩
  rw [mmx_memcpy, hloop]
  rfl

theorem memcpy_copied {dest src size : Word} (hdest : dest ≠ 0) (hsrc : src ≠ 0)
    (hapart : Apart (cells dest) (cells src) size.toNat) :
    Copied (cells dest) (cells src) size.toNat mem (memcpy mem dest src size) :=
  move_copied hdest hsrc (fun _ i j hij hj => hapart i (by omega) j hj)
    (fun _ i j hji hi => hapart i hi j (by omega))

theorem memcpy_null {dest src : Word} (size : Word) (hnull : dest = 0 ∨ src = 0) :
    memcpy mem dest src size = mem := by
  rw [memcpy, move, if_pos hnull]

/-- `memcpy_opt` takes one of the two paths, whatever the flag and the processor say. -/
theorem memcpy_opt_of_paths {dest src size : Word} {mem' : Bytes} (cpuid has_mmx : Word)
    (hplain : memcpy mem dest src size = mem') :
    ∃ flag, ∀ fuel, mmx_memcpy fuel mem dest src size = some mem' →
      memcpy_opt fuel cpuid has_mmx mem dest src size = some (mem', flag) := by
  by_cases hmmx : has_mmx = 1
  · refine ⟨has_mmx, fun fuel hfast => ?_⟩
    rw [memcpy_opt, if_pos hmmx, hfast]
    rfl
  by_cases htrad : has_mmx = 2
  · refine ⟨has_mmx, fun fuel _ => ?_⟩
    rw [memcpy_opt, if_neg hmmx, if_pos htrad, hplain]
  by_cases hcpu : mmx_has cpuid = 1
  · refine ⟨1, fun fuel hfast => ?_⟩
    rw [memcpy_opt, if_neg hmmx, if_neg htrad, if_pos hcpu, hfast]
    rfl
  · refine ⟨2, fun fuel _ => ?_⟩
    rw [memcpy_opt, if_neg hmmx, if_neg htrad, if_neg hcpu, hplain]

end Blocks

/-- `Mem::move`, `memmove` and `memcpy` copy a region to another one, whatever the overlap. -/
theorem overlapping_copy (mem : Bytes) {dest src size : Word} (hdest : dest ≠ 0) (hsrc : src ≠ 0)
    (hd : dest.toNat + size.toNat ≤ 2 ^ 32) (hs : src.toNat + size.toNat ≤ 2 ^ 32) :
    Copied (cells dest) (cells src) size.toNat mem (Mem.move mem dest src size) ∧
      Copied (cells dest) (cells src) size.toNat mem (memmove mem dest src size) ∧
      Copied (cells dest) (cells src) size.toNat mem (memcpy mem dest src size) := by
  have hmove : Copied (cells dest) (cells src) size.toNat mem (Mem.move mem dest src size) :=
    move_copied_inside hdest hsrc hd hs
  exact ⟨hmove, hmove, hmove⟩

/-- Three bytes, one byte up. -/
theorem overlapping_copy_three : Copied (cells 0x1001) (cells 0x1000) 3 (fun x => UInt8.ofNat x.toNat)
    (Mem.move (fun x => UInt8.ofNat x.toNat) 0x1001 0x1000 3) :=
  (@overlapping_copy _ 0x1001 0x1000 3 (by decide) (by decide) (by decide) (by decide)).1

/-- The paths of `memcpy_opt` agree unless the null check of the plain one stops it. -/
theorem fast_copy {mem : Bytes} {dest src size : Word} (hapart : Apart (cells dest) (cells src) size.toNat) :
    (size = 0 ∨ dest ≠ 0 ∧ src ≠ 0 → FastLaw mem dest src size) ∧
      (dest = 0 ∨ src = 0 → memcpy mem dest src size = mem) := by
  refine ⟨fun hnull => ?_, memcpy_null size⟩
  have hplain : Copied (cells dest) (cells src) size.toNat mem (memcpy mem dest src size) := by
    rcases hnull with rfl | ⟨hdest, hsrc⟩
    · rw [memcpy, move_zero]
      exact Filled.zero
    · exact memcpy_copied hdest hsrc hapart
  have hfast : ∀ fuel, size.toNat / 64 ≤ fuel →
      mmx_memcpy fuel mem dest src size = some (memcpy mem dest src size) := by
    intro fuel hfuel
    obtain ⟨mem', hmmx, hcopied⟩ := mmx_memcpy_copied mem hfuel hapart
    rw [hmmx, Filled.unique hcopied hplain]
  refine ⟨_, hplain, rfl, ⟨_, hfast⟩, fun cpuid has_mmx => ?_⟩
  obtain ⟨flag, hopt⟩ := memcpy_opt_of_paths cpuid has_mmx (rfl : memcpy mem dest src size = _)
  exact ⟨flag, _, fun fuel hfuel => hopt fuel (hfast fuel hfuel)⟩

/-- Two blocks and three bytes. -/
theorem fast_copy_131 : FastLaw (fun _ => 7) 0x2000 0x1000 131 :=
  (fast_copy (apart_of_toNat (by decide) (by decide) (by decide))).1 (.inr ⟨by decide, by decide⟩)

/-- To the address 0: the MMX path stores the byte there. -/
theorem not_fastLaw_null : Apart (cells 0) (cells 0x1000) (1 : Word).toNat ∧
    ¬ FastLaw (fun x => if x = 0x1000 then 7 else 0) 0 0x1000 1 := by
  refine ⟨apart_of_toNat (by decide) (by decide) (by decide), fun ⟨mem', hcopied, hplain, _⟩ => ?_⟩
  have hbyte := hcopied.inside 0 (by decide)
  rw [← hplain, memcpy_null 1 (.inl rfl), cells_zero, cells_zero] at hbyte
  exact absurd hbyte (by decide)

end Memcpy
end CxxKernel
