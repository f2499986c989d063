import CxxKernel.Memory
import CxxKernel.Text.Values
import Mathlib.Data.List.Basic
import Mathlib.Data.List.GetD
import Mathlib.Tactic.Common

/-! The parts of a path, as `Filesystem::pathParts` and `Filesystem::pathPart` find them. -/
namespace CxxKernel.Fs
open Text

/-- The characters of a path. -/
abbrev Chars := List (BitVec 8)

def slash : BitVec 8 := 0x2F

section Loops
variable {α : Type} [DecidableEq α] (slash : α)

/-- The loop of `pathParts` over the rest of a path that has a buffer. -/
def countSlashes (cnt : Word) (path : List α) : Word :=
  path.foldl (fun cnt c => if c = slash then cnt + 1 else cnt) cnt

/-- The loop of `pathPart` over the rest of a path that has a buffer. -/
def collectPart (index : Word) : Word → List α → List α → List α
  | _, res, [] => res
  | cnt, res, c :: path =>
    if c = slash then
      if 0 < res.length then res else collectPart index (cnt + 1) res path
    else if cnt = index then collectPart index cnt (res ++ [c]) path
    else collectPart index cnt res path

end Loops

namespace Chars

/-- `Filesystem::pathParts` for a path with a buffer, whose copy has the same characters. -/
def pathParts (path : Chars) : Word := countSlashes slash 0 path

/-- `Filesystem::pathPart` for such a path. -/
def pathPart (path : Chars) (index : Word) : Chars := collectPart slash index 0 [] path

end Chars

/-- The loop of `pathParts`. Each round takes a character. -/
def pathPartsLoop (path : Value) : ℕ → ℕ → Word → Option Word
  | 0, _, cnt => some cnt
  | fuel + 1, p, cnt =>
    (path.at' p).bind fun c => pathPartsLoop path fuel (p + 1) (if c = 0x2F then cnt + 1 else cnt)

/-- `Filesystem::pathParts`, which counts the slashes. Its parameter is a copy of the path, in memory with
the length `raw`. -/
def pathParts (raw : Word) (path : Value) : Option Word :=
  let path := path.init raw
  pathPartsLoop path path.length 0 0

/-- The loop of `pathPart`, with the characters that are collected. -/
def pathPartLoop (path : Value) (index : Word) : ℕ → ℕ → Word → List UInt8 → Option (List UInt8)
  | 0, _, _, res => some res
  | fuel + 1, p, cnt, res =>
    (path.at' p).bind fun c =>
      if c = 0x2F then
        if 0 < res.length then some res else pathPartLoop path index fuel (p + 1) (cnt + 1) res
      else if cnt = index then pathPartLoop path index fuel (p + 1) cnt (res ++ [c])
      else pathPartLoop path index fuel (p + 1) cnt res

/-- `Filesystem::pathPart`, with a copy of the path as well. -/
def pathPart (raw : Word) (path : Value) (index : Word) : Option Value :=
  let path := path.init raw
  (pathPartLoop path index path.length 0 0 []).map .ofChars

section Parts
variable {α : Type} [DecidableEq α] {slash : α} {index cnt : Word} {path : List α}

theorem countSlashes_eq (cnt : Word) (path : List α) :
    countSlashes slash cnt path = cnt + BitVec.ofNat 32 (path.count slash) := by
  unfold countSlashes
  induction path generalizing cnt with
  | nil => exact (BitVec.add_zero cnt).symm
  | cons c path ih =>
    rw [List.foldl_cons, ih, List.count_cons]
    by_cases hc : c = slash
    · have hbeq : (c == slash) = true := beq_iff_eq.mpr hc
      have hone : (1 : Word) = BitVec.ofNat 32 1 := rfl
      rw [if_pos hc, if_pos hbeq, BitVec.add_assoc, Nat.add_comm, BitVec.ofNat_add, hone]
    · have hbeq : ¬ (c == slash) = true := fun h => hc (beq_iff_eq.mp h)
      rw [if_neg hc, if_neg hbeq, Nat.add_zero]

theorem countSlashes_toNat (h : path.length < 2 ^ 32) : (countSlashes slash 0 path).toNat = path.count slash := by
  have hcount : path.count slash ≤ path.length := List.count_le_length
  have hzero : (0 : Word) + BitVec.ofNat 32 (path.count slash) = BitVec.ofNat 32 (path.count slash) :=
    BitVec.zero_add _
  rw [countSlashes_eq, hzero, BitVec.toNat_ofNat, Nat.mod_eq_of_lt (by omega)]

theorem length_splitOn (path : List α) : (path.splitOn slash).length = path.count slash + 1 := by
  induction path with
  | nil => rfl
  | cons c path ih =>
    rw [List.splitOn_cons_eq_if_modifyHead, List.count_cons]
    by_cases hc : (c == slash) = true
    · rw [if_pos hc, if_pos hc, List.length_cons, ih]
    · rw [if_neg hc, if_neg hc, List.length_modifyHead, ih]

theorem toNat_succ (h : cnt.toNat + 1 < 2 ^ 32) : (cnt + 1).toNat = cnt.toNat + 1 := by
  have hone : (1 : Word).toNat = 1 := rfl
  rw [BitVec.toNat_add, hone, Nat.mod_eq_of_lt h]

theorem collectPart_slash (index cnt : Word) (path : List α) :
    collectPart slash index cnt [] (slash :: path) = collectPart slash index (cnt + 1) [] path := by
  rw [collectPart, if_pos rfl, List.length_nil, if_neg (Nat.lt_irrefl 0)]

/-- Behind the part nothing is collected: the counter does not come back to its number. -/
theorem collectPart_behind (hroom : cnt.toNat + path.count slash < 2 ^ 32) (hlt : index.toNat < cnt.toNat) :
    collectPart slash index cnt [] path = [] := by
  induction path generalizing cnt with
  | nil => rfl
  | cons c path ih =>
    rw [List.count_cons] at hroom
    have hne : cnt ≠ index := fun h => absurd hlt (h ▸ Nat.lt_irrefl _)
    by_cases hc : c = slash
    · rw [if_pos (beq_iff_eq.mpr hc)] at hroom
      have hnext : (cnt + 1).toNat = cnt.toNat + 1 := toNat_succ (by omega)
      rw [hc, collectPart_slash]
      exact ih (by omega) (by omega)
    · rw [collectPart, if_neg hc, if_neg hne]
      exact ih (by omega) hlt

theorem collectPart_inside (hroom : cnt.toNat + path.count slash < 2 ^ 32) (res : List α) :
    collectPart slash cnt cnt res path = res ++ (path.splitOn slash).headD [] := by
  induction path generalizing res with
  | nil => exact (List.append_nil res).symm
  | cons c path ih =>
    rw [List.count_cons] at hroom
    rw [List.splitOn_cons_eq_if_modifyHead]
    by_cases hc : c = slash
    · have hbeq : (c == slash) = true := beq_iff_eq.mpr hc
      rw [if_pos hbeq] at hroom
      rw [collectPart, if_pos hc, if_pos hbeq, List.headD_cons, List.append_nil]
      by_cases hres : 0 < res.length
      · rw [if_pos hres]
      · have hnil : res = [] := List.length_eq_zero_iff.mp (Nat.eq_zero_of_not_pos hres)
        have hnext : (cnt + 1).toNat = cnt.toNat + 1 := toNat_succ (by omega)
        rw [if_neg hres, hnil]
        exact collectPart_behind (by omega) (by omega)
    · have hbeq : ¬ (c == slash) = true := fun h => hc (beq_iff_eq.mp h)
      rw [if_neg hbeq] at hroom
      rw [collectPart, if_neg hc, if_neg hbeq, if_pos rfl, ih (by omega)]
      obtain ⟨part, parts, hparts⟩ := List.exists_cons_of_ne_nil (List.splitOn_ne_nil slash path)
      rw [hparts, List.modifyHead_cons, List.headD_cons, List.headD_cons, List.append_assoc]
      rfl

theorem collectPart_before (hroom : cnt.toNat + path.count slash < 2 ^ 32) {i : ℕ}
    (hi : cnt.toNat + i = index.toNat) :
    collectPart slash index cnt [] path = (path.splitOn slash).getD i [] := by
  induction path generalizing cnt i with
  | nil => cases i <;> rfl
  | cons c path ih =>
    cases i with
    | zero =>
      obtain rfl : cnt = index := BitVec.eq_of_toNat_eq hi
      rw [collectPart_inside hroom, List.nil_append]
      obtain ⟨part, parts, hparts⟩ := List.exists_cons_of_ne_nil (List.splitOn_ne_nil slash (c :: path))
      rw [hparts]
      rfl
    | succ i =>
      rw [List.count_cons] at hroom
      rw [List.splitOn_cons_eq_if_modifyHead]
      have hne : cnt ≠ index := fun h => by rw [h] at hi; omega
      by_cases hc : c = slash
      · have hbeq : (c == slash) = true := beq_iff_eq.mpr hc
        rw [if_pos hbeq] at hroom
        have hnext : (cnt + 1).toNat = cnt.toNat + 1 := toNat_succ (by omega)
        rw [if_pos hbeq, List.getD_cons_succ, hc, collectPart_slash]
        exact ih (by omega) (by omega)
      · have hbeq : ¬ (c == slash) = true := fun h => hc (beq_iff_eq.mp h)
        rw [if_neg hbeq] at hroom
        rw [collectPart, if_neg hc, if_neg hne, if_neg hbeq, ih hroom hi]
        obtain ⟨part, parts, hparts⟩ := List.exists_cons_of_ne_nil (List.splitOn_ne_nil slash path)
        rw [hparts]
        rfl

/-- The loop finds the parts between the slashes. -/
theorem collectPart_eq (h : path.length < 2 ^ 32) (index : Word) :
    collectPart slash index 0 [] path = (path.splitOn slash).getD index.toNat [] := by
  have hcount : path.count slash ≤ path.length := List.count_le_length
  have hzero : (0 : Word).toNat = 0 := rfl
  exact collectPart_before (by omega) (by omega)

end Parts

theorem Chars.pathParts_toNat {path : Chars} (h : path.length < 2 ^ 32) :
    (Chars.pathParts path).toNat = path.count slash := countSlashes_toNat h

theorem Chars.pathPart_eq {path : Chars} (h : path.length < 2 ^ 32) (index : Word) :
    Chars.pathPart path index = (path.splitOn slash).getD index.toNat [] := collectPart_eq h index

/-- The functions see the path split at every slash, with its empty parts. -/
def PartsLaw (path : Value) (chars : List UInt8) : Prop :=
  ∀ raw, (∀ index : Word, ∃ part, pathPart raw path index = some part ∧
      part.Denotes ((chars.splitOn 0x2F).getD index.toNat [])) ∧
    ∃ parts, pathParts raw path = some parts ∧ parts.toNat + 1 = (chars.splitOn 0x2F).length

section Values
variable {path : Value} {chars : List UInt8} {index raw : Word} {fuel p : ℕ}

theorem at'_text (hp : p < chars.length) : (Value.text chars).at' p = some (chars.getD p 0) :=
  congrArg some (if_neg (Nat.not_le.mpr hp))

theorem drop_eq_getD (hp : p < chars.length) : chars.drop p = chars.getD p 0 :: chars.drop (p + 1) := by
  rw [List.drop_eq_getElem_cons hp, List.getD_eq_getElem _ _ hp]

theorem pathPartsLoop_text (h : p + fuel = chars.length) (cnt : Word) :
    pathPartsLoop (.text chars) fuel p cnt = some (countSlashes 0x2F cnt (chars.drop p)) := by
  induction fuel generalizing p cnt with
  | zero =>
    rw [List.drop_of_length_le (by omega)]
    rfl
  | succ fuel ih =>
    have hp : p < chars.length := by omega
    rw [pathPartsLoop, at'_text hp, Option.bind_some, ih (by omega), drop_eq_getD hp]
    rfl

theorem pathPartLoop_text (h : p + fuel = chars.length) (cnt : Word) (res : List UInt8) :
    pathPartLoop (.text chars) index fuel p cnt res = some (collectPart 0x2F index cnt res (chars.drop p)) := by
  induction fuel generalizing p cnt res with
  | zero =>
    rw [List.drop_of_length_le (by omega)]
    rfl
  | succ fuel ih =>
    have hp : p < chars.length := by omega
    have hnext : p + 1 + fuel = chars.length := by omega
    rw [pathPartLoop, at'_text hp, Option.bind_some, drop_eq_getD hp, collectPart, ih hnext, ih hnext, ih hnext]
    split_ifs <;> rfl

/-- With a buffer, the slashes of what is copied are counted. -/
theorem pathParts_text (raw : Word) (chars : List UInt8) :
    pathParts raw (.text chars) = some (countSlashes 0x2F 0 (Value.measured chars)) :=
  pathPartsLoop_text (Nat.zero_add _) 0

theorem pathPart_text (h : chars.length < 2 ^ 32) (raw index : Word) : pathPart raw (.text chars) index =
    some (.ofChars (((Value.measured chars).splitOn 0x2F).getD index.toNat [])) := by
  have hle := Value.length_measured_le chars
  have hloop := @pathPartLoop_text _ index _ _ (Nat.zero_add (Value.measured chars).length) 0 []
  rw [List.drop_zero, collectPart_eq (by omega)] at hloop
  exact congrArg (Option.map Value.ofChars) hloop

/-- The copy of a path without a buffer has a length, and the first character is looked up at null. -/
theorem pathParts_null (m_length : Word) : pathParts 1 (.null m_length) = none := rfl

/-- The parts give the path back, so that the whole of it has been copied. -/
theorem PartsLaw.measured (h : PartsLaw (.text chars) chars) (hshort : chars.length < 2 ^ 32) :
    Value.measured chars = chars := by
  have hle := Value.length_measured_le chars
  obtain ⟨hpart, parts, hparts, hcount⟩ := h 0
  rw [pathParts_text] at hparts
  cases hparts
  rw [countSlashes_toNat (by omega), ← length_splitOn] at hcount
  have hbound : (chars.splitOn 0x2F).length ≤ chars.length + 1 := by
    rw [length_splitOn]
    exact Nat.succ_le_succ List.count_le_length
  have hsplit : (Value.measured chars).splitOn 0x2F = chars.splitOn 0x2F := by
    refine List.ext_getElem hcount fun i hi hi' => ?_
    obtain ⟨part, hcall, hdenotes⟩ := hpart (BitVec.ofNat 32 i)
    rw [toNat_ofNat_of_lt (by omega), List.getD_eq_getElem _ _ hi'] at hdenotes
    rw [pathPart_text hshort, toNat_ofNat_of_lt (by omega), List.getD_eq_getElem _ _ hi] at hcall
    cases hcall
    exact (Value.denotes_ofChars _).unique hdenotes
  have hjoin := congrArg (List.intercalate [0x2F]) hsplit
  rwa [List.intercalate_splitOn, List.intercalate_splitOn] at hjoin

/-- A path is split as it should be exactly if it has a buffer and the whole of it is copied: not the empty
path that has none. The length of a `String` is a `size_t`. -/
theorem partsLaw_iff (h : path.Denotes chars) (hshort : chars.length < 2 ^ 32) :
    PartsLaw path chars ↔ path.Whole := by
  cases path with
  | null m_length =>
    refine iff_of_false (fun hlaw => ?_) not_false
    obtain ⟨parts, hparts, -⟩ := (hlaw 1).2
    rw [pathParts_null] at hparts
    cases hparts
  | text chars' =>
    obtain rfl : chars' = chars := h
    rw [Value.Whole, ← Value.measured_eq_self_iff]
    refine ⟨fun hlaw => hlaw.measured hshort, fun hwhole raw => ?_⟩
    refine ⟨fun index => ⟨_, pathPart_text hshort raw index, ?_⟩, _, pathParts_text raw chars', ?_⟩
    · rw [hwhole]
      exact Value.denotes_ofChars _
    · rw [hwhole, countSlashes_toNat hshort, ← length_splitOn]

/-- The path `/a//b`. -/
theorem partsLaw_iff_ab : PartsLaw (.text [0x2F, 0x61, 0x2F, 0x2F, 0x62]) [0x2F, 0x61, 0x2F, 0x2F, 0x62] ↔
    (Value.text [0x2F, 0x61, 0x2F, 0x2F, 0x62]).Whole :=
  partsLaw_iff rfl (by decide)

/-- The empty path without a buffer. -/
theorem not_partsLaw_null : (Value.null 0).Denotes [] ∧ ¬ PartsLaw (.null 0) [] := by
  refine ⟨⟨rfl, rfl⟩, fun hlaw => ?_⟩
  obtain ⟨parts, hparts, -⟩ := (hlaw 1).2
  rw [pathParts_null] at hparts
  cases hparts

end Values

end CxxKernel.Fs
