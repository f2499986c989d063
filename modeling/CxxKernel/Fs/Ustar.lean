import CxxKernel.Lib.Cursor
import CxxKernel.Memory
import Mathlib.Data.Nat.Digits.Defs
import Mathlib.Tactic.Ring

/-! `Ustar`: the functions that walk an archive. A sector holds one block, so that the loop of `getBlock` runs once.
Error messages are left out. -/
namespace CxxKernel.Fs

/-- The bytes of a buffer that holds one block. -/
abbrev Buffer := ℕ → Byte

/-- A device: its size in bytes, and one sector from a byte position on, if it can be read. -/
structure FilesystemPhys where
  size : ℕ
  read : ℕ → Option Buffer

/-- `Mem::cmp` on two buffers of one length, byte by byte as `char`. -/
def memCmp : List Byte → List Byte → ℤ
  | a :: as, b :: bs => if a.slt b then -1 else if b.slt a then 1 else memCmp as bs
  | _, _ => 0

theorem memCmp_eq_zero {as bs : List Byte} (h : as.length = bs.length) :
    memCmp as bs = 0 ↔ as = bs := by
  induction as generalizing bs with
  | nil =>
    obtain rfl := List.length_eq_zero_iff.mp h.symm
    simp [memCmp]
  | cons a as ih =>
    cases bs with
    | nil => cases h
    | cons b bs =>
      rw [memCmp, List.cons.injEq]
      by_cases hab : a = b
      · subst hab
        have hlt : a.slt a = false := by simp [BitVec.slt]
        simp only [hlt, Bool.false_eq_true, if_false, true_and]
        exact ih (Nat.succ.inj h)
      · have hint : a.toInt ≠ b.toInt := fun he => hab (BitVec.eq_of_toInt_eq he)
        simp only [hab, false_and, iff_false]
        by_cases hlt : a.slt b
        · simp [hlt]
        · have hgt : b.slt a := by
            simp only [BitVec.slt, decide_eq_true_eq] at hlt ⊢
            omega
          simp [hlt, hgt]

/-- The bytes of a field of a header. -/
def field (data : Buffer) (start len : ℕ) : List Byte := (List.range len).map fun i => data (start + i)

theorem length_field (data : Buffer) (start len : ℕ) : (field data start len).length = len := by
  rw [field, List.length_map, List.length_range]

theorem field_succ (data : Buffer) (start len : ℕ) :
    field data start (len + 1) = data start :: field data (start + 1) len := by
  unfold field
  rw [List.range_succ_eq_map, List.map_cons, List.map_map, Nat.add_zero]
  refine congrArg _ (List.map_congr_left fun i _ => congrArg data ?_)
  omega

/-- The loop of `parseOct`: `'8'` and `'9'` count as digits, too. -/
def parseOctFrom (res : BitVec 64) : List Byte → BitVec 64
  | [] => res
  | c :: cs =>
    if c = 0 then res
    else if c.slt 0x30 ∨ BitVec.slt 0x39 c then res
    else parseOctFrom (res * 8 + (c.setWidth 64 - 0x30)) cs

def parseOct (data : List Byte) : BitVec 64 := parseOctFrom 0 data

section Octal
variable {digits : List ℕ}

/-- The character of an octal digit. -/
def digitChar (x : ℕ) : Byte := BitVec.ofNat 8 (0x30 + x)

theorem digitChar_spec : ∀ x < 8, digitChar x ≠ 0 ∧
    ¬ ((digitChar x).slt 0x30 ∨ BitVec.slt 0x39 (digitChar x)) ∧
    (digitChar x).setWidth 64 - 0x30 = BitVec.ofNat 64 x := by
  decide

theorem parseOctFrom_digits (h : ∀ x ∈ digits, x < 8) {res : BitVec 64} (rest : List Byte)
    (hlt : (res.toNat + 1) * 8 ^ digits.length ≤ 2 ^ 64) :
    (parseOctFrom res (digits.map digitChar ++ 0 :: rest)).toNat =
      res.toNat * 8 ^ digits.length + Nat.ofDigits 8 digits.reverse := by
  induction digits generalizing res with
  | nil => simp [parseOctFrom]
  | cons x xs ih =>
    have hx : x < 8 := h x List.mem_cons_self
    obtain ⟨hzero, hdigit, hvalue⟩ := digitChar_spec x hx
    have hpow : 0 < 8 ^ xs.length := Nat.pow_pos (by decide)
    rw [List.length_cons, Nat.pow_succ, Nat.mul_comm (8 ^ xs.length), ← Nat.mul_assoc] at hlt ⊢
    have hle : (res.toNat + 1) * 8 ≤ 2 ^ 64 :=
      Nat.le_trans (Nat.le_mul_of_pos_right _ hpow) hlt
    have hres : (res * 8 + BitVec.ofNat 64 x).toNat = res.toNat * 8 + x := by
      have height : (8 : BitVec 64).toNat = 8 := rfl
      rw [BitVec.toNat_add, BitVec.toNat_mul, BitVec.toNat_ofNat, height]
      omega
    have hnext : ((res * 8 + BitVec.ofNat 64 x).toNat + 1) * 8 ^ xs.length ≤ 2 ^ 64 := by
      rw [hres]
      exact Nat.le_trans (Nat.mul_le_mul_right _ (by omega)) hlt
    rw [List.map_cons, List.cons_append, parseOctFrom, if_neg hzero, if_neg hdigit, hvalue,
      ih (fun y hy => h y (List.mem_cons_of_mem x hy)) hnext, hres, List.reverse_cons,
      Nat.ofDigits_append, Nat.ofDigits_singleton, List.length_reverse]
    ring

end Octal

def ustarMagic : List Byte := [0x75, 0x73, 0x74, 0x61, 0x72]

theorem memCmp_magic (data : Buffer) : memCmp (field data 257 5) ustarMagic = 0 ↔ field data 257 5 = ustarMagic :=
  memCmp_eq_zero (length_field data 257 5)

/-- `Ustar` with its block size of 512 bytes. -/
structure Ustar where
  phys : FilesystemPhys

namespace Ustar

def blockSize : Word := 512

structure Iterator where
  ok : Bool
  block : Word
  index : Word
  pos : BitVec 64
  data_block : Word
  data_index : Word
  size : BitVec 64
  data : Buffer

variable (fs : Ustar)

/-- The position is a product of two `uint32_t`. -/
def getBlock (index : Word) : Option Buffer := fs.phys.read (index * blockSize).toNat

/-- The end of `getCurrent`, from the label `out` on. -/
def loadEntry (it : Iterator) : Iterator × Bool :=
  let it := { it with data_block := it.block + 1 }
  if memCmp (field it.data 257 5) ustarMagic ≠ 0 then (it, false)
  else ({ it with size := parseOct (field it.data 124 12) }, true)

def getCurrent (it : Iterator) : Iterator × Bool :=
  if fs.phys.size ≤ (it.index * blockSize).toNat then (it, false)
  else if it.block = it.index then loadEntry it
  else
    let blocks := (it.size + blockSize.setWidth 64 - 1) / blockSize.setWidth 64
    let next_block := (it.block.setWidth 64 + blocks + 1).setWidth 32
    if next_block < it.index then (it, false)
    else
      let it := { it with index := next_block }
      if fs.phys.size ≤ (it.index * blockSize).toNat then (it, false)
      else match fs.getBlock it.index with
        | none => (it, false)
        | some data => loadEntry { it with data, block := it.index }

/-- The size is not read before an entry is found. -/
def list (parent : Word) : Iterator :=
  let iter : Iterator := ⟨false, parent, 0, 0, 0, 0, 0, fun _ => 0⟩
  match fs.getBlock parent with
  | none => iter
  | some data =>
    let (iter, found) := fs.getCurrent { iter with data }
    if found then { iter with ok := true } else iter

def next (it : Iterator) : Iterator :=
  let (it, ok) := fs.getCurrent { it with index := it.index + 1 }
  { it with ok, pos := 0, data_index := 0 }

/-- The loop of `findFile`, with at most `fuel` entries. `name` is the string that starts in the header: it
ends at a NUL, which can lie behind the block. -/
def findLoop (name : Buffer → List Byte) (path : List Byte) : ℕ → Iterator → Option Iterator
  | 0, _ => none
  | fuel + 1, iter =>
    if iter.ok then
      if name iter.data = path then some iter
      else
        let iter := fs.next iter
        if iter.ok then findLoop name path fuel iter else some iter
    else some iter

/-- `UstarFilesystem::findFile`, which does not use `part`. All callers leave `part` and `parent` at 0. -/
def findFile (name : Buffer → List Byte) (fuel : ℕ) (path : List Byte) (_part parent : Word) : Option Iterator :=
  fs.findLoop name path fuel (fs.list parent)

/-- The first block behind the data of the entry, as `read` computes it. -/
def Iterator.end_block (it : Iterator) : Word :=
  (it.block.setWidth 64 + (it.size + blockSize.setWidth 64 - 1) / blockSize.setWidth 64 + 1).setWidth 32

/-- How many bytes a round of `read` copies: up to the count, the end of the block and the end of the file. -/
def Iterator.bcnt (it : Iterator) (cnt : BitVec 64) : BitVec 64 :=
  let bcnt := if blockSize.setWidth 64 < cnt then blockSize.setWidth 64 else cnt
  let offset := it.data_index % blockSize
  let bcnt :=
    if blockSize.setWidth 64 < offset.setWidth 64 + bcnt then (blockSize - offset).setWidth 64 else bcnt
  if it.size < it.data_index.setWidth 64 + bcnt then it.size - it.data_index.setWidth 64 else bcnt

/-- The loop of `read`, each round of which takes a byte off `cnt` at least: `readcnt`, what is copied to
the buffer, one part behind the other, and the iterator. -/
def readLoop (end_block : Word) : ℕ → BitVec 64 → Word → Iterator → Word × List Byte × Iterator
  | 0, _, readcnt, it => (readcnt, [], it)
  | fuel + 1, cnt, readcnt, it =>
    if 0 < cnt ∧ it.data_index.setWidth 64 < it.size then
      let cblock := it.data_index / blockSize
      if end_block ≤ it.data_block + cblock then (readcnt, [], it)
      else match fs.getBlock (it.data_block + cblock) with
        | none => (readcnt, [], it)
        | some content =>
          let bcnt := it.bcnt cnt
          let part := field content (it.data_index % blockSize).toNat bcnt.toNat
          let (readcnt, rest, it) := readLoop end_block fuel (cnt - bcnt) (readcnt + bcnt.setWidth 32)
            { it with data_index := it.data_index + bcnt.setWidth 32 }
          (readcnt, part ++ rest, it)
    else (readcnt, [], it)

/-- `Iterator::read`. `ssize_t` is a word. -/
def read (it : Iterator) (cnt : BitVec 64) : Word × List Byte × Iterator :=
  fs.readLoop it.end_block cnt.toNat cnt 0 it

/-- A loop over the archive: the block, the size and the data start of the entry on which the
iterator stands, and the iterator behind it. -/
def visit (it : Iterator) : Option ((ℕ × ℕ × ℕ) × Iterator) :=
  if it.ok then some ((it.block.toNat, it.size.toNat, it.data_block.toNat), fs.next it) else none

end Ustar

end CxxKernel.Fs
