import CxxKernel.Paging.Bits
import CxxKernel.Lib.Runs

/-! What `Bits::findUnset` finds after any calls of `set`, `clear` and `findUnset`. -/
namespace CxxKernel.Paging.Bits
open Runs

variable {b b' : Bits} {cnt i k : ℕ}

inductive BitsOp
  | set (i : ℕ)
  | clear (i : ℕ)
  | findUnset

def BitsOp.exec (b : Bits) : BitsOp → Bits
  | .set i => b.set i
  | .clear i => b.clear i
  | .findUnset => b.findUnset.2

def BitsStep (b : Bits) (op : BitsOp) (b' : Bits) : Prop := op.exec b = b'

theorem run_foldl (b : Bits) (ops : List BitsOp) : Run BitsStep b ops (ops.foldl BitsOp.exec b) := by
  induction ops generalizing b with
  | nil => exact .nil b
  | cons op ops ih => exact .cons rfl (ih _)

theorem ok_step {op : BitsOp} (h : b.Ok ∧ b.cnt = cnt) (hstep : BitsStep b op b') : b'.Ok ∧ b'.cnt = cnt := by
  obtain ⟨hok, hcnt⟩ := h
  rw [← hstep]
  cases op with
  | set i => exact ⟨hok.set i, (set_cnt b i).trans hcnt⟩
  | clear i => exact ⟨hok.clear i, (clear_cnt b i).trans hcnt⟩
  | findUnset => exact ⟨hok.findUnset, (findUnset_cnt b).trans hcnt⟩

theorem ok_run {ops : List BitsOp} (h : Run BitsStep (new cnt) ops b) : b.Ok ∧ b.cnt = cnt := by
  have hkeep : ∀ s op s', s.Ok ∧ s.cnt = cnt → BitsStep s op s' → s'.Ok ∧ s'.cnt = cnt :=
    fun _ _ _ => ok_step
  exact h.invariant hkeep ⟨ok_new cnt, rfl⟩

/-- The search fails exactly if it finds each bit marked that it looks at, those behind the bits in
use included. -/
theorem Ok.findUnset_eq_none_iff (h : b.Ok) :
    b.findUnset.1 = none ↔ ∀ k < b.len * 32, k % 32 ≠ 31 → b.marked k = true := by
  constructor
  · exact fun hfind k hk hmod => h.findUnset_none hfind hk hmod
  · intro hfull
    by_contra hfind
    obtain ⟨k, hk⟩ := Option.ne_none_iff_exists'.mp hfind
    obtain ⟨hlt, hmod, hzero, -⟩ := h.findUnset_some hk
    rw [hfull k hlt hmod] at hzero
    cases hzero

/-- Behind the bits in use there is one that the search looks at, unless they fill the words but for
bit 31. -/
theorem Ok.exists_behind_iff (h : b.Ok) :
    (∃ k, b.cnt ≤ k ∧ k < b.len * 32 ∧ k % 32 ≠ 31) ↔ b.cnt % 32 ≠ 0 ∧ b.cnt % 32 ≠ 31 := by
  have hlen := h.len
  constructor
  · rintro ⟨k, hle, hlt, hmod⟩
    omega
  · rintro ⟨hzero, hmod⟩
    exact ⟨b.cnt, Nat.le_refl _, by omega, hmod⟩

theorem Ok.isSet (h : b.Ok) (i : ℕ) : b.isSet i = b.marked i := by
  rw [isSet_eq]
  by_cases hi : i < b.cnt
  · rw [decide_eq_true hi, Bool.true_and]
  · rw [h.behind i (Nat.not_lt.mp hi), Bool.and_false]

/-- Where the search fails, the bits in use are all set but for the bits 31 of the words. -/
theorem Ok.findUnset_none_iff (h : b.Ok) : b.findUnset.1 = none ↔
    (b.cnt % 32 = 0 ∨ b.cnt % 32 = 31) ∧ ∀ i < b.cnt, i % 32 ≠ 31 → b.isSet i = true := by
  have hbehind := h.exists_behind_iff
  have hlen := h.len
  rw [h.findUnset_eq_none_iff]
  constructor
  · intro hfull
    refine ⟨?_, fun i hi hmod => ?_⟩
    · by_contra hcnt
      obtain ⟨k, hle, hlt, hmod⟩ := hbehind.mpr (not_or.mp hcnt)
      have hzero := h.behind k hle
      rw [hfull k hlt hmod] at hzero
      cases hzero
    · rw [h.isSet]
      exact hfull i (by omega) hmod
  · rintro ⟨hcnt, hset⟩ k hk hmod
    rw [← h.isSet]
    exact hset k (by omega) hmod

/-- After any calls, the failure of the search says that all bits are set, exactly if it does not
fail, or the bits 31 of the words are set. -/
theorem findUnset_complete_iff {ops : List BitsOp} (h : Run BitsStep (new cnt) ops b) :
    (b.findUnset.1 = none → ∀ i < cnt, b.isSet i = true) ↔
      (cnt % 32 ≠ 0 ∧ cnt % 32 ≠ 31) ∨ (∃ i < cnt, i % 32 ≠ 31 ∧ b.isSet i = false) ∨
        ∀ i < cnt, i % 32 = 31 → b.isSet i = true := by
  obtain ⟨hok, rfl⟩ := ok_run h
  rw [hok.findUnset_none_iff]
  constructor
  · intro hlaw
    by_cases hcnt : b.cnt % 32 = 0 ∨ b.cnt % 32 = 31
    · right
      by_cases hfull : ∀ i < b.cnt, i % 32 ≠ 31 → b.isSet i = true
      · exact Or.inr fun i hi _ => hlaw ⟨hcnt, hfull⟩ i hi
      · left
        simp only [not_forall, Bool.not_eq_true, exists_prop] at hfull
        exact hfull
    · exact Or.inl (not_or.mp hcnt)
  · rintro hcond ⟨hcnt, hfull⟩ i hi
    by_cases hmod : i % 32 = 31
    · rcases hcond with ⟨hzero, hend⟩ | ⟨k, hk, hkmod, hset⟩ | hlast
      · omega
      · rw [hfull k hk hkmod] at hset
        cases hset
      · exact hlast i hi hmod
    · exact hfull i hi hmod

/-- The bits 0 to 30 are set. -/
def firstBits : List BitsOp := (List.range 31).map .set

theorem findUnset_complete_iff_firstBits : ((firstBits.foldl BitsOp.exec (new 32)).findUnset.1 = none →
      ∀ i < 32, (firstBits.foldl BitsOp.exec (new 32)).isSet i = true) ↔
    (32 % 32 ≠ 0 ∧ 32 % 32 ≠ 31) ∨
      (∃ i < 32, i % 32 ≠ 31 ∧ (firstBits.foldl BitsOp.exec (new 32)).isSet i = false) ∨
      ∀ i < 32, i % 32 = 31 → (firstBits.foldl BitsOp.exec (new 32)).isSet i = true :=
  findUnset_complete_iff (run_foldl _ _)

/-- Bit 31 is free, and the search does not find it. -/
theorem findUnset_misses : ∃ b, Run BitsStep (new 32) firstBits b ∧ b.findUnset.1 = none ∧ b.isSet 31 = false :=
  ⟨_, run_foldl _ _, by decide, by decide⟩

/-- The same search from word 0 on. -/
theorem findUnset_from_zero {ops : List BitsOp} (h : Run BitsStep (new cnt) ops b) :
    ({ b with last := 0 } : Bits).findUnset.1 = b.findUnset.1 := by
  have hok := (ok_run h).1
  have hzero : ({ b with last := 0 } : Bits).Ok :=
    ⟨hok.len, hok.behind, fun k hk => absurd hk (by simp)⟩
  cases hfind : b.findUnset.1 with
  | none => exact hzero.findUnset_eq_none_iff.mpr (hok.findUnset_eq_none_iff.mp hfind)
  | some k =>
    obtain ⟨hk, hmod, hfree, hbefore⟩ := hok.findUnset_some hfind
    cases hfind' : ({ b with last := 0 } : Bits).findUnset.1 with
    | none =>
      have hset := hzero.findUnset_eq_none_iff.mp hfind' k hk hmod
      cases hset.symm.trans hfree
    | some k' =>
      obtain ⟨-, hmod', hfree', hbefore'⟩ := hzero.findUnset_some hfind'
      -- both are the first free bit
      rcases Nat.lt_trichotomy k' k with hlt | rfl | hgt
      · cases (hbefore k' hlt hmod').symm.trans hfree'
      · rfl
      · cases (hbefore' k hgt hmod).symm.trans hfree

/-- The first word is full, and a search has moved the hint behind it. -/
def firstWord : List BitsOp := (List.range 32).map .set ++ [.findUnset]

theorem findUnset_from_zero_firstWord :
    ({ firstWord.foldl BitsOp.exec (new 64) with last := 0 } : Bits).findUnset.1 =
      (firstWord.foldl BitsOp.exec (new 64)).findUnset.1 :=
  findUnset_from_zero (run_foldl _ _)

end CxxKernel.Paging.Bits
