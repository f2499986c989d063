import Mathlib.Algebra.Group.Nat.Defs
import Mathlib.Data.Nat.Notation
import Mathlib.Tactic.Common
import CxxKernel.Lib.Copying

/-! Byte memory of the 32-bit targets and the copy routines `Mem::copy` and `Mem::move`. -/
namespace CxxKernel
open Copying

/-- `ptr_val_t` and `size_t` on the 32-bit targets. -/
abbrev Word := BitVec 32

abbrev Byte := BitVec 8

abbrev Bytes := Word → UInt8

namespace Mem

def copyLoop : ℕ → Word → Word → Bytes → Bytes
  | 0, _, _, mem => mem
  | n + 1, d, s, mem => copyLoop n (d + 1) (s + 1) (Function.update mem d (mem s))

def copy (mem : Bytes) (dest src size : Word) : Bytes :=
  if dest = src then mem
  else if dest = 0 then mem
  else if src = 0 then mem
  else copyLoop size.toNat dest src mem

def moveLoop : ℕ → Word → Word → Bytes → Bytes
  | 0, _, _, mem => mem
  | n + 1, d, s, mem => moveLoop n (d - 1) (s - 1) (Function.update mem d (mem s))

/-- Copies from the far end when the destination is the higher address. -/
def move (mem : Bytes) (dest src size : Word) : Bytes :=
  if dest = 0 ∨ src = 0 then mem
  else if dest = src then mem
  else if src < dest then moveLoop size.toNat (dest + size - 1) (src + size - 1) mem
  else copy mem dest src size

def cells (a : Word) (i : ℕ) : Word := a + BitVec.ofNat 32 i

section Copies
variable {mem mem' : Bytes} {d s x : Word} {i j n : ℕ}

theorem cells_zero (a : Word) : cells a 0 = a := BitVec.add_zero a

theorem cells_add (a : Word) (k i : ℕ) : cells (a + BitVec.ofNat 32 k) i = cells a (k + i) := by
  rw [cells, cells, BitVec.ofNat_add, BitVec.add_assoc]

theorem cells_from (a : Word) (k : ℕ) : (fun i => cells a (k + i)) = cells (a + BitVec.ofNat 32 k) :=
  funext fun i => (cells_add a k i).symm

theorem cells_ne {a : Word} (hi : i < 2 ^ 32) (hj : j < 2 ^ 32) (hne : i ≠ j) : cells a i ≠ cells a j := by
  intro heq
  have hsame : BitVec.ofNat 32 i = BitVec.ofNat 32 j := (BitVec.add_right_inj a).mp heq
  have hnat := congrArg BitVec.toNat hsame
  rw [BitVec.toNat_ofNat, BitVec.toNat_ofNat, Nat.mod_eq_of_lt hi, Nat.mod_eq_of_lt hj] at hnat
  exact hne hnat

theorem toNat_cells {a : Word} (h : a.toNat + i < 2 ^ 32) : (cells a i).toNat = a.toNat + i := by
  rw [cells, BitVec.toNat_add, BitVec.toNat_ofNat, Nat.add_mod_mod, Nat.mod_eq_of_lt h]

theorem cells_sub (a x : Word) : cells a (x - a).toNat = x := by
  rw [cells, BitVec.ofNat_toNat, BitVec.setWidth_eq]
  bv_omega

theorem read_copied (h : Copied (cells d) (cells s) n mem mem') (hd : d.toNat + n ≤ 2 ^ 32) :
    mem' x = if d.toNat ≤ x.toNat ∧ x.toNat < d.toNat + n then mem (s + (x - d)) else mem x := by
  split_ifs with hx
  · have hi : (x - d).toNat < n := by bv_omega
    have hinside := h.inside _ hi
    rw [cells_sub] at hinside
    rw [hinside, cells, BitVec.ofNat_toNat, BitVec.setWidth_eq]
  · refine h.outside x (fun i hi he => hx ?_)
    rw [he, toNat_cells (by omega)]
    omega

theorem copied_first (d s : Word) (mem : Bytes) :
    Copied (cells d) (cells s) 1 mem (Function.update mem d (mem s)) := by
  have hone := Filled.update (d := cells d) (v := fun i => mem (cells s i)) (m := mem)
  rwa [cells_zero, cells_zero] at hone

/-- The loop from the first byte on: no store may come before a read of the same byte. -/
theorem copyLoop_copied (hn : n ≤ 2 ^ 32) (hread : ∀ i j, i < j → j < n → cells d i ≠ cells s j) :
    Copied (cells d) (cells s) n mem (copyLoop n d s mem) := by
  induction n generalizing d s mem with
  | zero => exact Filled.zero
  | succ n ih =>
    have hone : (1 : Word) = BitVec.ofNat 32 1 := rfl
    rw [copyLoop, Nat.add_comm n 1]
    refine (copied_first d s mem).append ?_ (fun i hi j hj => hread i (1 + j) (by omega) (by omega))
      (fun i hi j hj => cells_ne (by omega) (by omega) (by omega))
    rw [cells_from, cells_from, ← hone]
    refine ih (by omega) (fun i j hij hj => ?_)
    rw [hone, cells_add, cells_add]
    exact hread (1 + i) (1 + j) (by omega) (by omega)

theorem moveLoop_copied (mem : Bytes) (hn : n ≤ 2 ^ 32) (hread : ∀ i j, j < i → i < n → cells d i ≠ cells s j) :
    Copied (cells d) (cells s) n mem
      (moveLoop n (d + BitVec.ofNat 32 n - 1) (s + BitVec.ofNat 32 n - 1) mem) := by
  induction n generalizing mem with
  | zero => exact Filled.zero
  | succ n ih =>
    have hlast : ∀ a : Word, a + BitVec.ofNat 32 (n + 1) - 1 = a + BitVec.ofNat 32 n := by
      intro a
      rw [BitVec.ofNat_add]
      bv_omega
    rw [moveLoop, hlast, hlast]
    refine Copied.before ?_ (ih _ (by omega) (fun i j hj hi => hread i j hj (by omega)))
      (fun i hi j hj => hread (n + j) i (by omega) (by omega))
      (fun i hi j hj => cells_ne (by omega) (by omega) (by omega))
    rw [cells_from, cells_from]
    exact copied_first _ _ mem

/-- `Mem::move` of regions of which one direction never stores to a byte that it still has to read. -/
theorem move_copied {dest src size : Word} (hdest : dest ≠ 0) (hsrc : src ≠ 0)
    (hup : dest ≤ src → ∀ i j, i < j → j < size.toNat → cells dest i ≠ cells src j)
    (hdown : src < dest → ∀ i j, j < i → i < size.toNat → cells dest i ≠ cells src j) :
    Copied (cells dest) (cells src) size.toNat mem (move mem dest src size) := by
  have hsize : size.toNat ≤ 2 ^ 32 := Nat.le_of_lt size.isLt
  rw [move, if_neg (not_or.mpr ⟨hdest, hsrc⟩)]
  by_cases heq : dest = src
  · rw [if_pos heq, heq]
    exact Copied.self
  rw [if_neg heq]
  by_cases hlt : src < dest
  · have hmove := moveLoop_copied mem hsize (hdown hlt)
    rw [BitVec.ofNat_toNat, BitVec.setWidth_eq] at hmove
    rw [if_pos hlt]
    exact hmove
  · rw [if_neg hlt, copy, if_neg heq, if_neg hdest, if_neg hsrc]
    exact copyLoop_copied hsize (hup (BitVec.not_lt.mp hlt))

theorem copyLoop_outside (h : ∀ i < n, cells d i ≠ x) : copyLoop n d s mem x = mem x := by
  induction n generalizing d s mem with
  | zero => rfl
  | succ n ih =>
    have hfirst : x ≠ d := (h 0 (Nat.succ_pos n)).symm.trans_eq (cells_zero d)
    rw [copyLoop, ih fun i hi => ?_, Function.update_of_ne hfirst]
    have hone : (1 : Word) = BitVec.ofNat 32 1 := rfl
    rw [hone, cells_add]
    exact h (1 + i) (by omega)

theorem moveLoop_outside (h : ∀ i < n, cells d i ≠ x) :
    moveLoop n (d + BitVec.ofNat 32 n - 1) s mem x = mem x := by
  induction n generalizing s mem with
  | zero => rfl
  | succ n ih =>
    have hlast : d + BitVec.ofNat 32 (n + 1) - 1 = d + BitVec.ofNat 32 n := by
      rw [BitVec.ofNat_add]
      bv_omega
    have hne : x ≠ d + BitVec.ofNat 32 n := (h n (Nat.lt_succ_self n)).symm
    rw [moveLoop, hlast, ih fun i hi => h i (by omega), Function.update_of_ne hne]

/-- Whatever the regions are, `Mem::move` stores to the destination only. -/
theorem move_outside {dest src size : Word} (h : ∀ i < size.toNat, cells dest i ≠ x) :
    move mem dest src size x = mem x := by
  have hdown : moveLoop size.toNat (dest + BitVec.ofNat 32 size.toNat - 1) (src + size - 1) mem x = mem x :=
    moveLoop_outside h
  rw [BitVec.ofNat_toNat, BitVec.setWidth_eq] at hdown
  unfold move copy
  split_ifs
  · rfl
  · rfl
  · exact hdown
  · rfl
  · rfl
  · exact copyLoop_outside h

/-- A copy from the first byte on, to a lower address or to a range behind the source. -/
theorem copyLoop_apply (hs : s.toNat + n ≤ 2 ^ 32) (hd : d.toNat + n ≤ 2 ^ 32)
    (hle : d ≤ s ∨ s.toNat + n ≤ d.toNat) :
    copyLoop n d s mem x =
      if d.toNat ≤ x.toNat ∧ x.toNat < d.toNat + n then mem (s + (x - d)) else mem x := by
  refine read_copied (copyLoop_copied (by omega) (fun i j hij hj heq => ?_)) hd
  have hnat := congrArg BitVec.toNat heq
  rw [toNat_cells (by omega), toNat_cells (by omega)] at hnat
  have hle' : d.toNat ≤ s.toNat ∨ s.toNat + n ≤ d.toNat := hle
  omega

theorem copy_apply {dest src size : Word} (hdest : dest ≠ 0) (hsrc : src ≠ 0)
    (hd : dest.toNat + size.toNat ≤ 2 ^ 32) (hs : src.toNat + size.toNat ≤ 2 ^ 32)
    (hapart : dest.toNat + size.toNat ≤ src.toNat ∨ src.toNat + size.toNat ≤ dest.toNat) :
    copy mem dest src size x =
      if dest.toNat ≤ x.toNat ∧ x.toNat < dest.toNat + size.toNat then mem (src + (x - dest)) else mem x := by
  by_cases heq : dest = src
  · have hback : src + (x - src) = x := by bv_omega
    rw [copy, if_pos heq, heq, hback, ite_self]
  · have hle : dest ≤ src ∨ src.toNat + size.toNat ≤ dest.toNat := by
      rw [BitVec.le_def]
      omega
    rw [copy, if_neg heq, if_neg hdest, if_neg hsrc, copyLoop_apply hs hd hle]

/-- Regions inside the address space, whatever the overlap: the order of the addresses decides which
direction is safe. -/
theorem move_copied_inside {dest src size : Word} (hdest : dest ≠ 0) (hsrc : src ≠ 0)
    (hd : dest.toNat + size.toNat ≤ 2 ^ 32) (hs : src.toNat + size.toNat ≤ 2 ^ 32) :
    Copied (cells dest) (cells src) size.toNat mem (move mem dest src size) := by
  refine move_copied hdest hsrc (fun hle i j hij hj heq => ?_) (fun hlt i j hji hi heq => ?_)
  · have hle' : dest.toNat ≤ src.toNat := hle
    have hnat := congrArg BitVec.toNat heq
    rw [toNat_cells (by omega), toNat_cells (by omega)] at hnat
    omega
  · have hlt' : src.toNat < dest.toNat := hlt
    have hnat := congrArg BitVec.toNat heq
    rw [toNat_cells (by omega), toNat_cells (by omega)] at hnat
    omega

/-- `Mem::move` leaves at the destination what the source held before, whatever the overlap, and
changes nothing else. -/
theorem move_apply {dest src size : Word} (hdest : dest ≠ 0) (hsrc : src ≠ 0)
    (hd : dest.toNat + size.toNat ≤ 2 ^ 32) (hs : src.toNat + size.toNat ≤ 2 ^ 32) :
    move mem dest src size x =
      if dest.toNat ≤ x.toNat ∧ x.toNat < dest.toNat + size.toNat then mem (src + (x - dest)) else mem x :=
  read_copied (move_copied_inside hdest hsrc hd hs) hd

theorem copy_zero (mem : Bytes) (dest src : Word) : copy mem dest src 0 = mem := by
  simp [copy, copyLoop]

theorem move_self (mem : Bytes) (a size : Word) : move mem a a size = mem := by
  simp [move]

theorem move_zero (mem : Bytes) (dest src : Word) : move mem dest src 0 = mem := by
  have hcopy : copy mem dest src 0#32 = mem := copy_zero mem dest src
  simp [move, moveLoop, hcopy]

end Copies
end Mem

end CxxKernel
