import CxxKernel.Memory
import Mathlib.Data.List.Induction
import Mathlib.Data.Nat.Basic
import Mathlib.Logic.Function.Basic
import Mathlib.Tactic.Common

/-! `Bits`: a bitmap of `uint32_t` words, and the search for a bit that is not set. -/
namespace CxxKernel.Paging

/-- The words are the array `bits` of `m_len` words. All indices fit a `uint32_t`. -/
structure Bits where
  words : ℕ → Word
  len : ℕ
  cnt : ℕ
  last : ℕ

namespace Bits

def BIT_CONVERT : ℕ := 8 * 4

def new (cnt : ℕ) : Bits :=
  let len := cnt / BIT_CONVERT
  let len := if cnt % BIT_CONVERT ≠ 0 then len + 1 else len
  ⟨fun _ => 0, len, cnt, 0⟩

def set (b : Bits) (i : ℕ) : Bits :=
  if b.cnt ≤ i then b
  else
    let num := i / BIT_CONVERT
    { b with words := Function.update b.words num (b.words num ||| (1 : Word) <<< (i % BIT_CONVERT)) }

def clear (b : Bits) (i : ℕ) : Bits :=
  if b.cnt ≤ i then b
  else
    let num := i / BIT_CONVERT
    { b with
      words := Function.update b.words num (b.words num &&& ~~~((1 : Word) <<< (i % BIT_CONVERT)))
      last := 0 }

def isSet (b : Bits) (i : ℕ) : Bool :=
  if b.cnt ≤ i then false else b.words (i / BIT_CONVERT) &&& (1 : Word) <<< (i % BIT_CONVERT) ≠ 0

/-- The inner loop of `findUnset` over the bits from `j` on. It does not look at bit 31. -/
def findBit (word : Word) : ℕ → ℕ → Option ℕ
  | 0, _ => none
  | fuel + 1, j =>
    if j < 31 then if word &&& (1 : Word) <<< j = 0 then some j else findBit word fuel (j + 1) else none

/-- The outer loop over the words from `i` on. Inside it `i >= m_len` does not hold, so that the
search never starts again from the first word. -/
def findFrom (b : Bits) : ℕ → ℕ → Option (ℕ × ℕ)
  | 0, _ => none
  | fuel + 1, i =>
    if i < b.len then
      if ~~~(b.words i) ≠ 0 then
        match findBit (b.words i) 31 0 with
        | some j => some (i, j)
        | none => findFrom b fuel (i + 1)
      else findFrom b fuel (i + 1)
    else none

/-- The index, if `*ok` becomes true. -/
def findUnset (b : Bits) : Option ℕ × Bits :=
  match b.findFrom b.len b.last with
  | some (i, j) => (some (i * BIT_CONVERT + j), { b with last := i })
  | none => (none, b)

section Marks
variable {b : Bits} {i j k : ℕ} {w : Word}

/-- Bit `i` of the array, also behind the bits that are in use. -/
def marked (b : Bits) (i : ℕ) : Bool := (b.words (i / BIT_CONVERT)).getLsbD (i % BIT_CONVERT)

theorem getLsbD_one_shift (hj : j < 32) : ((1 : Word) <<< j).getLsbD k = decide (k = j) := by
  rw [BitVec.getLsbD_shiftLeft]
  simp only [BitVec.ofNat_eq_ofNat, BitVec.getLsbD_one]
  by_cases hkj : k = j
  · subst hkj
    simp [hj]
  · by_cases hlt : k < j
    · simp [hlt, hkj]
    · have hne : k - j ≠ 0 := by omega
      simp [hne, hkj]

theorem and_shift_eq_zero (w : Word) (hj : j < 32) :
    w &&& (1 : Word) <<< j = 0 ↔ w.getLsbD j = false := by
  constructor
  · intro h
    have hbit : (w &&& (1 : Word) <<< j).getLsbD j = false := by
      rw [h]
      exact BitVec.getLsbD_zero
    rw [BitVec.getLsbD_and, getLsbD_one_shift hj, decide_eq_true rfl, Bool.and_true] at hbit
    exact hbit
  · intro h
    apply BitVec.eq_of_getLsbD_eq
    intro k hk
    rw [BitVec.getLsbD_and, getLsbD_one_shift hj]
    by_cases hkj : k = j
    · simp [hkj, h]
    · simp [hkj]

theorem mod_lt (i : ℕ) : i % BIT_CONVERT < 32 := Nat.mod_lt i (by decide)

theorem index_eq (h : i / BIT_CONVERT = k / BIT_CONVERT) : i % BIT_CONVERT = k % BIT_CONVERT ↔ i = k := by
  unfold BIT_CONVERT at *
  omega

theorem marked_set (b : Bits) (i k : ℕ) : (b.set i).marked k = (b.marked k || decide (k = i ∧ i < b.cnt)) := by
  unfold set
  split_ifs with hle
  · simp [Nat.not_lt.mpr hle]
  · simp only [marked]
    by_cases hnum : k / BIT_CONVERT = i / BIT_CONVERT
    · rw [hnum, Function.update_self, BitVec.getLsbD_or, getLsbD_one_shift (mod_lt i)]
      simp only [index_eq hnum, Nat.not_le.mp hle, and_true]
    · have hne : k ≠ i := fun he => hnum (he ▸ rfl)
      rw [Function.update_of_ne hnum]
      simp [hne]

theorem marked_clear (b : Bits) (i k : ℕ) :
    (b.clear i).marked k = (b.marked k && !decide (k = i ∧ i < b.cnt)) := by
  unfold clear
  split_ifs with hle
  · simp [Nat.not_lt.mpr hle]
  · simp only [marked]
    by_cases hnum : k / BIT_CONVERT = i / BIT_CONVERT
    · rw [hnum, Function.update_self, BitVec.getLsbD_and, BitVec.getLsbD_not,
        getLsbD_one_shift (mod_lt i)]
      simp only [index_eq hnum, Nat.not_le.mp hle, and_true, mod_lt k, decide_true, Bool.true_and]
    · have hne : k ≠ i := fun he => hnum (he ▸ rfl)
      rw [Function.update_of_ne hnum]
      simp [hne]

theorem isSet_eq (b : Bits) (i : ℕ) : b.isSet i = (decide (i < b.cnt) && b.marked i) := by
  unfold isSet
  split_ifs with hle
  · simp [Nat.not_lt.mpr hle]
  · have hbit := and_shift_eq_zero (b.words (i / BIT_CONVERT)) (mod_lt i)
    simp only [Nat.not_le.mp hle, decide_true, Bool.true_and, marked]
    rw [Bool.eq_iff_iff, decide_eq_true_eq, ne_eq, hbit, Bool.not_eq_false]

@[simp] theorem set_cnt (b : Bits) (i : ℕ) : (b.set i).cnt = b.cnt := by
  unfold set
  split_ifs <;> rfl

@[simp] theorem set_len (b : Bits) (i : ℕ) : (b.set i).len = b.len := by
  unfold set
  split_ifs <;> rfl

@[simp] theorem set_last (b : Bits) (i : ℕ) : (b.set i).last = b.last := by
  unfold set
  split_ifs <;> rfl

@[simp] theorem clear_cnt (b : Bits) (i : ℕ) : (b.clear i).cnt = b.cnt := by
  unfold clear
  split_ifs <;> rfl

@[simp] theorem clear_len (b : Bits) (i : ℕ) : (b.clear i).len = b.len := by
  unfold clear
  split_ifs <;> rfl

end Marks

section Search
variable {b : Bits} {i j k n fuel start : ℕ} {w : Word}

theorem findBit_some (h : findBit w fuel start = some j) :
    start ≤ j ∧ j < 31 ∧ w.getLsbD j = false ∧ ∀ k, start ≤ k → k < j → w.getLsbD k = true := by
  induction fuel generalizing start with
  | zero => cases h
  | succ fuel ih =>
    rw [findBit] at h
    split_ifs at h with hlt hzero
    · obtain rfl := Option.some.inj h
      exact ⟨Nat.le_refl _, hlt, (and_shift_eq_zero w (by omega)).mp hzero, fun k _ hk => by omega⟩
    · obtain ⟨hle, hj, hbit, hbefore⟩ := ih h
      refine ⟨by omega, hj, hbit, fun k hk hkj => ?_⟩
      rcases Nat.eq_or_lt_of_le hk with rfl | hlt'
      · exact eq_true_of_ne_false fun hf => hzero ((and_shift_eq_zero w (by omega)).mpr hf)
      · exact hbefore k hlt' hkj

theorem findBit_none (h : findBit w fuel start = none) (hfuel : 31 ≤ start + fuel) (hk : start ≤ k)
    (hlt : k < 31) : w.getLsbD k = true := by
  induction fuel generalizing start with
  | zero => omega
  | succ fuel ih =>
    rw [findBit] at h
    split_ifs at h with hstart hzero
    · rcases Nat.eq_or_lt_of_le hk with rfl | hlt'
      · exact eq_true_of_ne_false fun hf => hzero ((and_shift_eq_zero w (by omega)).mpr hf)
      · exact ih h (by omega) hlt'
    · omega

theorem full_word (h : ¬ ~~~w ≠ 0) (hj : j < 32) : w.getLsbD j = true := by
  have hzero : ~~~w = 0 := not_not.mp h
  have hbit : (~~~w).getLsbD j = false := by
    rw [hzero]
    exact BitVec.getLsbD_zero
  rw [BitVec.getLsbD_not, decide_eq_true hj, Bool.true_and, Bool.not_eq_false'] at hbit
  exact hbit

/-- The search stops in word `start` or has found it full, apart from bit 31. -/
theorem findFrom_succ (h : findFrom b (fuel + 1) start = some (i, j)) :
    start < b.len ∧ (i = start ∧ j < 31 ∧ (b.words start).getLsbD j = false ∧
        (∀ k < j, (b.words start).getLsbD k = true) ∨
      findFrom b fuel (start + 1) = some (i, j) ∧ ∀ k < 31, (b.words start).getLsbD k = true) := by
  rw [findFrom] at h
  split_ifs at h with hlt hfull
  · refine ⟨hlt, ?_⟩
    cases hbit : findBit (b.words start) 31 0 with
    | some j' =>
      rw [hbit] at h
      obtain ⟨rfl, rfl⟩ := Prod.mk.inj (Option.some.inj h)
      obtain ⟨-, hj, hzero, hbefore⟩ := findBit_some hbit
      exact .inl ⟨rfl, hj, hzero, fun k hk => hbefore k (Nat.zero_le k) hk⟩
    | none =>
      rw [hbit] at h
      exact .inr ⟨h, fun k hk => findBit_none hbit (Nat.le_refl 31) (Nat.zero_le k) hk⟩
  · exact ⟨hlt, .inr ⟨h, fun k hk => full_word hfull (by omega)⟩⟩

theorem findFrom_succ_none (h : findFrom b (fuel + 1) start = none) (hlt : start < b.len) :
    findFrom b fuel (start + 1) = none ∧ ∀ k < 31, (b.words start).getLsbD k = true := by
  rw [findFrom, if_pos hlt] at h
  split_ifs at h with hfull
  · cases hbit : findBit (b.words start) 31 0 with
    | some j' =>
      rw [hbit] at h
      cases h
    | none =>
      rw [hbit] at h
      exact ⟨h, fun k hk => findBit_none hbit (Nat.le_refl 31) (Nat.zero_le k) hk⟩
  · exact ⟨h, fun k hk => full_word hfull (by omega)⟩

theorem marked_eq (hdiv : k / 32 = i) (hmod : k % 32 = j) : b.marked k = (b.words i).getLsbD j := by
  unfold marked BIT_CONVERT
  rw [hdiv, hmod]

/-- The first bit that is not set, from word `start` on, when bit 31 of each word is left out. -/
theorem findFrom_some (h : findFrom b fuel start = some (i, j)) :
    start ≤ i ∧ i < b.len ∧ j < 31 ∧ b.marked (i * 32 + j) = false ∧
      ∀ k, start * 32 ≤ k → k < i * 32 + j → k % 32 ≠ 31 → b.marked k = true := by
  induction fuel generalizing start with
  | zero => cases h
  | succ fuel ih =>
    obtain ⟨hlt, ⟨rfl, hj, hzero, hbefore⟩ | ⟨hnext, hfull⟩⟩ := findFrom_succ h
    · refine ⟨Nat.le_refl _, hlt, hj, ?_, fun k hk hki _ => ?_⟩
      · rw [marked_eq (by omega : (i * 32 + j) / 32 = i) (by omega : (i * 32 + j) % 32 = j)]
        exact hzero
      · rw [marked_eq (by omega : k / 32 = i) rfl]
        exact hbefore _ (by omega)
    · obtain ⟨hle, hi, hj, hzero, hbefore⟩ := ih hnext
      refine ⟨by omega, hi, hj, hzero, fun k hk hki hmod => ?_⟩
      by_cases hdiv : k / 32 = start
      · rw [marked_eq hdiv rfl]
        exact hfull _ (by omega)
      · exact hbefore k (by omega) hki hmod

theorem findFrom_none (h : findFrom b fuel start = none) (hfuel : b.len ≤ start + fuel)
    (hk : start * 32 ≤ k) (hlt : k < b.len * 32) (hmod : k % 32 ≠ 31) : b.marked k = true := by
  induction fuel generalizing start with
  | zero => omega
  | succ fuel ih =>
    obtain ⟨hnext, hfull⟩ := findFrom_succ_none h (by omega)
    by_cases hdiv : k / 32 = start
    · rw [marked_eq hdiv rfl]
      exact hfull _ (by omega)
    · exact ih hnext (by omega) (by omega)

end Search

/-- The words that a bitmap of `cnt` bits takes, nothing behind the bits in use, and a hint before
which the search finds nothing. -/
structure Ok (b : Bits) : Prop where
  len : b.len = (b.cnt + 31) / 32
  behind : ∀ k, b.cnt ≤ k → b.marked k = false
  hint : ∀ k, k < b.last * 32 → k % 32 ≠ 31 → b.marked k = true

section Ok
variable {b : Bits} {i k : ℕ}

theorem ok_new (cnt : ℕ) : (new cnt).Ok := by
  refine ⟨?_, fun k _ => ?_, fun k hk => ?_⟩
  · unfold new BIT_CONVERT
    dsimp only
    split_ifs <;> omega
  · simp [new, marked]
  · simp [new] at hk

theorem Ok.set (h : b.Ok) (i : ℕ) : (b.set i).Ok := by
  refine ⟨by simpa using h.len, fun k hk => ?_, fun k hk hmod => ?_⟩
  · rw [set_cnt] at hk
    have hne : ¬ (k = i ∧ i < b.cnt) := by omega
    rw [marked_set, h.behind k hk, decide_eq_false hne]
    rfl
  · rw [set_last] at hk
    rw [marked_set, h.hint k hk hmod]
    rfl

theorem Ok.clear (h : b.Ok) (i : ℕ) : (b.clear i).Ok := by
  by_cases hi : b.cnt ≤ i
  · rwa [Bits.clear, if_pos hi]
  · refine ⟨by simpa using h.len, fun k hk => ?_, fun k hk => ?_⟩
    · rw [clear_cnt] at hk
      rw [marked_clear, h.behind k hk]
      rfl
    · rw [Bits.clear, if_neg hi] at hk
      simp at hk

/-- The first bit that is not set, when bit 31 of each word is left out. -/
theorem Ok.findUnset_some (h : b.Ok) (hfind : b.findUnset.1 = some k) :
    k < b.len * 32 ∧ k % 32 ≠ 31 ∧ b.marked k = false ∧
      ∀ i < k, i % 32 ≠ 31 → b.marked i = true := by
  rw [findUnset] at hfind
  cases hfrom : b.findFrom b.len b.last with
  | none =>
    rw [hfrom] at hfind
    cases hfind
  | some p =>
    obtain ⟨i, j⟩ := p
    rw [hfrom] at hfind
    obtain rfl := Option.some.inj hfind
    obtain ⟨hle, hi, hj, hzero, hbefore⟩ := findFrom_some hfrom
    unfold BIT_CONVERT
    refine ⟨by omega, by omega, hzero, fun k hk hmod => ?_⟩
    by_cases hlast : k < b.last * 32
    · exact h.hint k hlast hmod
    · exact hbefore k (Nat.not_lt.mp hlast) hk hmod

theorem Ok.findUnset_none (h : b.Ok) (hfind : b.findUnset.1 = none) (hk : k < b.len * 32)
    (hmod : k % 32 ≠ 31) : b.marked k = true := by
  rw [findUnset] at hfind
  cases hfrom : b.findFrom b.len b.last with
  | some p =>
    rw [hfrom] at hfind
    cases hfind
  | none =>
    by_cases hlast : k < b.last * 32
    · exact h.hint k hlast hmod
    · exact findFrom_none hfrom (Nat.le_add_left _ _) (Nat.not_lt.mp hlast) hk hmod

theorem findUnset_marked (b : Bits) (k : ℕ) : b.findUnset.2.marked k = b.marked k := by
  rw [findUnset]
  split <;> rfl

@[simp] theorem findUnset_cnt (b : Bits) : b.findUnset.2.cnt = b.cnt := by
  rw [findUnset]
  split <;> rfl

@[simp] theorem findUnset_len (b : Bits) : b.findUnset.2.len = b.len := by
  rw [findUnset]
  split <;> rfl

theorem Ok.findUnset (h : b.Ok) : b.findUnset.2.Ok := by
  refine ⟨by simpa using h.len, fun k hk => ?_, fun k hk hmod => ?_⟩
  · rw [findUnset_cnt] at hk
    rw [findUnset_marked]
    exact h.behind k hk
  · rw [findUnset_marked]
    rw [Bits.findUnset] at hk
    cases hfrom : b.findFrom b.len b.last with
    | none =>
      rw [hfrom] at hk
      exact h.hint k hk hmod
    | some p =>
      obtain ⟨i, j⟩ := p
      rw [hfrom] at hk
      change k < i * 32 at hk
      obtain ⟨-, -, -, -, hbefore⟩ := findFrom_some hfrom
      by_cases hlast : k < b.last * 32
      · exact h.hint k hlast hmod
      · exact hbefore k (Nat.not_lt.mp hlast) (by omega) hmod

end Ok

/-- `set` with the value that it returns. -/
def setCall (b : Bits) (i : ℕ) : Bool × Bits := if b.cnt ≤ i then (false, b) else (true, b.set i)

/-- `clear` with the value that it returns. -/
def clearCall (b : Bits) (i : ℕ) : Bool × Bits := if b.cnt ≤ i then (false, b) else (true, b.clear i)

inductive BitsCall
  | set (i : ℕ)
  | clear (i : ℕ)
  | isSet (i : ℕ)
  deriving DecidableEq

def BitsCall.exec (b : Bits) : BitsCall → Bool × Bits
  | .set i => b.setCall i
  | .clear i => b.clearCall i
  | .isSet i => (b.isSet i, b)

/-- The bitmap after the calls. -/
def afterCalls (b : Bits) (calls : List BitsCall) : Bits := calls.foldl (fun b call => (call.exec b).2) b

/-- A `set` or a `clear` of `i`. -/
def BitsCall.marks (i : ℕ) : BitsCall → Bool
  | .set k => k = i
  | .clear k => k = i
  | .isSet _ => false

def lastMark (i : ℕ) (calls : List BitsCall) : Option BitsCall := (calls.filter (BitsCall.marks i)).getLast?

section Calls
variable {b : Bits} {cnt i k : ℕ} {call : BitsCall} {calls : List BitsCall}

theorem setCall_snd (b : Bits) (i : ℕ) : (b.setCall i).2 = b.set i := by
  unfold setCall set
  split_ifs <;> rfl

theorem clearCall_snd (b : Bits) (i : ℕ) : (b.clearCall i).2 = b.clear i := by
  unfold clearCall clear
  split_ifs <;> rfl

theorem isSet_set (b : Bits) (i k : ℕ) :
    (b.set i).isSet k = (decide (k < b.cnt) && (b.marked k || decide (k = i))) := by
  rw [isSet_eq, set_cnt, marked_set]
  by_cases hk : k < b.cnt
  · by_cases hki : k = i
    · subst hki
      simp [hk]
    · simp [hki]
  · simp [hk]

theorem isSet_clear (b : Bits) (i k : ℕ) :
    (b.clear i).isSet k = (decide (k < b.cnt) && (b.marked k && !decide (k = i))) := by
  rw [isSet_eq, clear_cnt, marked_clear]
  by_cases hk : k < b.cnt
  · by_cases hki : k = i
    · subst hki
      simp [hk]
    · simp [hki]
  · simp [hk]

theorem isSet_set_of_ne (h : k ≠ i) : (b.set i).isSet k = b.isSet k := by
  rw [isSet_set, isSet_eq, decide_eq_false h, Bool.or_false]

theorem isSet_clear_of_ne (h : k ≠ i) : (b.clear i).isSet k = b.isSet k := by
  rw [isSet_clear, isSet_eq, decide_eq_false h, Bool.not_false, Bool.and_true]

@[simp] theorem exec_cnt (b : Bits) (call : BitsCall) : (call.exec b).2.cnt = b.cnt := by
  cases call with
  | set i => exact (congrArg Bits.cnt (setCall_snd b i)).trans (set_cnt b i)
  | clear i => exact (congrArg Bits.cnt (clearCall_snd b i)).trans (clear_cnt b i)
  | isSet i => rfl

theorem exec_ok (h : b.Ok) (call : BitsCall) : (call.exec b).2.Ok := by
  cases call with
  | set i => exact (setCall_snd b i) ▸ h.set i
  | clear i => exact (clearCall_snd b i) ▸ h.clear i
  | isSet i => exact h

/-- One call: only a mark of `i` changes what `isSet` says about it. -/
theorem exec_isSet (b : Bits) (call : BitsCall) (i : ℕ) :
    (call.exec b).2.isSet i = if call.marks i then decide (i < b.cnt ∧ call = .set i) else b.isSet i := by
  cases call with
  | set k =>
    change (b.setCall k).2.isSet i = _
    rw [setCall_snd]
    by_cases hki : k = i
    · subst hki
      simp [isSet_set, BitsCall.marks]
    · simp [isSet_set_of_ne (Ne.symm hki), BitsCall.marks, hki]
  | clear k =>
    change (b.clearCall k).2.isSet i = _
    rw [clearCall_snd]
    by_cases hki : k = i
    · subst hki
      simp [isSet_clear, BitsCall.marks]
    · simp [isSet_clear_of_ne (Ne.symm hki), BitsCall.marks, hki]
  | isSet k => rfl

theorem afterCalls_append (b : Bits) (calls : List BitsCall) (call : BitsCall) :
    b.afterCalls (calls ++ [call]) = (call.exec (b.afterCalls calls)).2 := by
  rw [afterCalls, List.foldl_append]
  rfl

theorem lastMark_append (i : ℕ) (calls : List BitsCall) (call : BitsCall) :
    lastMark i (calls ++ [call]) = if call.marks i then some call else lastMark i calls := by
  rw [lastMark, List.filter_append]
  by_cases hmark : call.marks i = true
  · rw [if_pos hmark, List.filter_cons_of_pos hmark, List.filter_nil, List.getLast?_concat]
  · rw [if_neg hmark, List.filter_cons_of_neg hmark, List.filter_nil, List.append_nil, lastMark]

theorem afterCalls_ok (cnt : ℕ) (calls : List BitsCall) :
    ((new cnt).afterCalls calls).Ok ∧ ((new cnt).afterCalls calls).cnt = cnt := by
  induction calls using List.reverseRecOn with
  | nil => exact ⟨ok_new cnt, rfl⟩
  | append_singleton calls call ih =>
    rw [afterCalls_append, exec_cnt]
    exact ⟨exec_ok ih.1 call, ih.2⟩

theorem afterCalls_isSet (cnt : ℕ) (calls : List BitsCall) (i : ℕ) :
    ((new cnt).afterCalls calls).isSet i = true ↔ i < cnt ∧ lastMark i calls = some (.set i) := by
  induction calls using List.reverseRecOn with
  | nil => simp [afterCalls, isSet, new, lastMark]
  | append_singleton calls call ih =>
    have hcnt := (afterCalls_ok cnt calls).2
    rw [afterCalls_append, exec_isSet, lastMark_append, hcnt]
    by_cases hmark : call.marks i = true
    · rw [if_pos hmark, if_pos hmark, decide_eq_true_eq, Option.some_inj]
    · rw [if_neg hmark, if_neg hmark, ih]

/-- After any calls the bits in use that are set are those last marked by a `set`. A call changes no
other bit, it writes into the array, and outside of the bits in use it fails and changes nothing. -/
theorem bitSet_run (cnt : ℕ) (calls : List BitsCall) (i : ℕ) :
    let b := (new cnt).afterCalls calls
    (b.isSet i = true ↔ i < cnt ∧ lastMark i calls = some (.set i)) ∧
      (∀ k, k ≠ i → (b.setCall i).2.isSet k = b.isSet k ∧ (b.clearCall i).2.isSet k = b.isSet k) ∧
      (i < cnt → i / BIT_CONVERT < b.len ∧ (b.setCall i).1 = true ∧ (b.clearCall i).1 = true) ∧
      (cnt ≤ i → b.setCall i = (false, b) ∧ b.clearCall i = (false, b)) := by
  intro b
  obtain ⟨hok, hcnt⟩ : b.Ok ∧ b.cnt = cnt := afterCalls_ok cnt calls
  refine ⟨afterCalls_isSet cnt calls i, fun k hk => ?_, fun hi => ?_, fun hi => ?_⟩
  · rw [setCall_snd, clearCall_snd]
    exact ⟨isSet_set_of_ne hk, isSet_clear_of_ne hk⟩
  · have hlen := hok.len
    have hle : ¬ b.cnt ≤ i := by omega
    refine ⟨?_, by rw [setCall, if_neg hle], by rw [clearCall, if_neg hle]⟩
    unfold BIT_CONVERT
    omega
  · have hle : b.cnt ≤ i := by omega
    exact ⟨by rw [setCall, if_pos hle], by rw [clearCall, if_pos hle]⟩

end Calls

end Bits

end CxxKernel.Paging
