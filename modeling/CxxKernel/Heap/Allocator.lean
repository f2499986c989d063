import CxxKernel.Memory
import Mathlib.Data.Nat.Notation

/-! The allocator of `mm.cpp` on the 32-bit targets, function by function. A result `none`
says that the source does not come back: one of its pointer walks goes round in a circle. -/
namespace CxxKernel.Heap

/-- `sizeof(PtrInfo)`: four words and the byte that holds `state` and `used`, padded. -/
def sizeofPtrInfo : Word := 20
def PAGE_SIZE : Word := 4096
def SIZEMASK : Word := 0xFFFFFFFF

/-- A walk over 32-bit pointers with more steps than this has met one of them twice. -/
def walkFuel : ℕ := 2 ^ 32

inductive PtrState
  | none
  | used
  | freed
  deriving DecidableEq, Repr

structure PtrInfo where
  prev : Word
  next : Word
  size : Word
  ressize : Word
  state : PtrState
  used : Bool
  deriving DecidableEq, Repr

inductive AllocType
  | normal
  | fast
  | clear
  | page
  deriving DecidableEq, Repr

/-- The `MM` instance, the global `__mm_last_free`, and the memory split into block headers
and bytes. `runs` records the page runs (base and page count) got from `allocPage`. -/
structure MM where
  info : Word → PtrInfo
  byte : Bytes
  lastFree : Word
  lastPage : Word
  freeTop : Word
  freeMax : Word
  runs : List (Word × Word)

def ptrToPtrinfo (val : Word) : Word := val - sizeofPtrInfo

def ptrinfoToPtr (info : Word) : Word := info + sizeofPtrInfo

namespace MM

def setInfo (m : MM) (a : Word) (i : PtrInfo) : MM :=
  { m with info := Function.update m.info a i }

def setPrev (m : MM) (a p : Word) : MM := m.setInfo a { m.info a with prev := p }

def setNext (m : MM) (a p : Word) : MM := m.setInfo a { m.info a with next := p }

/-- `allocPage`, its answer `page` given: a null answer gets no pages. -/
def allocPage (m : MM) (cnt page : Word) : MM × Word :=
  if page = 0 then (m, 0) else ({ m with runs := (page, cnt) :: m.runs }, page)

/-- The loop of `treeAdd`: go down from `tmp` and hang `cur` at the first free link. -/
def treeAddLoop (cur : Word) : ℕ → MM → Word → Option MM
  | 0, _, _ => none
  | fuel + 1, m, tmp =>
    if tmp = 0 then some m
    else if (m.info cur).size < (m.info tmp).size then
      if (m.info tmp).prev = 0 then some (m.setPrev tmp (ptrinfoToPtr cur))
      else treeAddLoop cur fuel m (ptrToPtrinfo (m.info tmp).prev)
    else
      if (m.info tmp).next = 0 then some (m.setNext tmp (ptrinfoToPtr cur))
      else treeAddLoop cur fuel m (ptrToPtrinfo (m.info tmp).next)

def treeAdd (m : MM) (cur : Word) : Option MM :=
  if cur = 0 then some m
  else
    let m := (m.setNext cur 0).setPrev cur 0
    if m.lastFree = 0 then some { m with lastFree := ptrinfoToPtr cur }
    else treeAddLoop cur walkFuel m (ptrToPtrinfo m.lastFree)

/-- The part of `releaseFree` for the root of the tree. -/
def releaseRoot (m : MM) (p : Word) : Option MM :=
  if (m.info p).prev = 0 ∧ (m.info p).next ≠ 0 then
    some { m with lastFree := (m.info p).next }
  else if (m.info p).prev ≠ 0 ∧ (m.info p).next = 0 then
    some { m with lastFree := (m.info p).prev }
  else if (m.info p).prev ≠ 0 ∧ (m.info p).next ≠ 0 then
    treeAdd { m with lastFree := (m.info p).next } (ptrToPtrinfo (m.info p).prev)
  else some { m with lastFree := 0 }

/-- Clear the link of `parent` that points to `ptr`. -/
def unlinkParent (m : MM) (ptr parent : Word) : MM :=
  if (m.info parent).prev = ptr then m.setPrev parent 0
  else if (m.info parent).next = ptr then m.setNext parent 0
  else m

/-- Insert the node a link points to, if there is one. -/
def treeAddChild (m : MM) (link : Word) : Option MM :=
  if link ≠ 0 then treeAdd m (ptrToPtrinfo link) else some m

/-- The part of `releaseFree` for every other node. -/
def releaseInner (m : MM) (p parent : Word) : Option MM :=
  let m := m.unlinkParent (ptrinfoToPtr p) parent
  (m.treeAddChild (m.info p).prev).bind fun m => m.treeAddChild (m.info p).next

def releaseFree (m : MM) (p parent : Word) : Option (MM × Word) :=
  if p = 0 then some (m, 0)
  else (if parent = 0 then m.releaseRoot p else m.releaseInner p parent).map fun m =>
    ((m.setNext p 0).setPrev p 0, p)

/-- The loop of `findAvail`: the node of the wanted size with its parent, if the walk meets
one. -/
def findAvailLoop (m : MM) (size : Word) : ℕ → Word → Word → Option (Option (Word × Word))
  | 0, _, _ => none
  | fuel + 1, tmp, tmp2 =>
    if tmp = 0 then some none
    else if (m.info tmp).size = size then some (some (tmp, tmp2))
    else if size < (m.info tmp).size then
      if (m.info tmp).prev ≠ 0 then
        findAvailLoop m size fuel (ptrToPtrinfo (m.info tmp).prev) tmp
      else if (m.info tmp).next ≠ 0 ∧ size ≤ (m.info (ptrToPtrinfo (m.info tmp).next)).size then
        findAvailLoop m size fuel (ptrToPtrinfo (m.info tmp).next) tmp
      else some none
    else
      if (m.info tmp).next ≠ 0 then
        findAvailLoop m size fuel (ptrToPtrinfo (m.info tmp).next) tmp
      else if (m.info tmp).prev ≠ 0 ∧ (m.info (ptrToPtrinfo (m.info tmp).prev)).size ≤ size then
        findAvailLoop m size fuel (ptrToPtrinfo (m.info tmp).prev) tmp
      else some none

def searchAvail (m : MM) (size : Word) : Option (Option (Word × Word)) :=
  if m.lastFree = 0 then some none
  else m.findAvailLoop size walkFuel (ptrToPtrinfo m.lastFree) 0

def findAvail (m : MM) (size : Word) : Option (MM × Word) :=
  (m.searchAvail size).bind fun
    | none => some (m, 0)
    | some (p, parent) => m.releaseFree p parent

def freeNoLock (m : MM) (p : Word) : Option (MM × Bool) :=
  if p = 0 then some (m, false)
  else
    let cur := ptrToPtrinfo p
    if (m.info cur).used = false then some (m, false)
    else if (m.info cur).state = .freed then some (m, false)
    else if (m.info cur).state ≠ .used then some (m, false)
    else
      let i := { m.info cur with prev := 0, next := 0, state := .freed, used := false }
      ((m.setInfo cur i).treeAdd cur).map fun m => (m, true)

/-- The bump region `[m_freeTop, m_freeMax)` of the last page run is in use. -/
def BumpReady (m : MM) : Prop := m.lastPage ≠ 0 ∧ m.freeTop ≠ 0 ∧ m.freeMax ≠ 0

instance (m : MM) : Decidable m.BumpReady :=
  inferInstanceAs (Decidable (m.lastPage ≠ 0 ∧ m.freeTop ≠ 0 ∧ m.freeMax ≠ 0))

/-- The bump test of `allocMem` asks for new pages. -/
def NeedsPages (m : MM) (size2 : Word) : Prop := ¬ m.BumpReady ∨ m.freeMax ≤ m.freeTop + size2

instance (m : MM) (size2 : Word) : Decidable (m.NeedsPages size2) :=
  inferInstanceAs (Decidable (¬ m.BumpReady ∨ m.freeMax ≤ m.freeTop + size2))

/-- What is left of the bump region is worth a block of its own. -/
def HasTail (m : MM) : Prop := m.BumpReady ∧ m.freeTop + sizeofPtrInfo + 4 < m.freeMax

instance (m : MM) : Decidable m.HasTail :=
  inferInstanceAs (Decidable (m.BumpReady ∧ m.freeTop + sizeofPtrInfo + 4 < m.freeMax))

/-- The header `allocMem` writes over the rest of the bump region before it frees it. -/
def tailInfo (m : MM) : PtrInfo :=
  let diff := m.freeMax - m.freeTop
  { prev := 0, next := 0, size := (diff - sizeofPtrInfo) &&& SIZEMASK,
    ressize := diff &&& SIZEMASK, state := .used, used := true }

def reclaimTail (m : MM) : Option MM :=
  if m.HasTail then
    ((m.setInfo m.freeTop m.tailInfo).freeNoLock (ptrinfoToPtr m.freeTop)).map Prod.fst
  else some m

/-- The end of the bump branch: move `m_freeTop` past the new block. -/
def advance (m : MM) (size2 : Word) : MM :=
  if m.freeTop ≠ 0 then { m with freeTop := m.freeTop + size2 } else m

/-- The branch of `allocMem` that finds no free block: bump, or get new pages first. -/
def bumpAlloc (m : MM) (size2 cnt page : Word) : Option (MM × Word) :=
  if m.NeedsPages size2 then
    m.reclaimTail.map fun m =>
      let (m, ptr) := m.allocPage cnt page
      if ptr = 0 then (m, 0)
      else
        (({ m with lastPage := ptr, freeTop := ptr, freeMax := ptr + cnt * PAGE_SIZE }).advance
          size2, ptr)
  else some (m.advance size2, m.freeTop)

/-- The header of a block that is handed out. -/
def usedInfo (size size2 : Word) : PtrInfo :=
  { prev := 0, next := 0, size := size &&& SIZEMASK, ressize := size2 &&& SIZEMASK,
    state := .used, used := true }

def pagesFor (size2 : Word) : Word :=
  if size2 % PAGE_SIZE ≠ 0 then size2 / PAGE_SIZE + 1 else size2 / PAGE_SIZE

def allocMem (m : MM) (size : Word) (t : AllocType) (page : Word) : Option (MM × Word) :=
  let size2 := size + sizeofPtrInfo
  (if t = .normal then m.findAvail size else some (m, 0)).bind fun (m, avail) =>
    (if avail = 0 then m.bumpAlloc size2 (pagesFor size2) page else some (m, avail)).map
      fun (m, ptr) =>
        if ptr = 0 then (m, 0) else (m.setInfo ptr (usedInfo size size2), ptrinfoToPtr ptr)

def clearLoop (ptr : Word) : ℕ → Bytes → Bytes
  | 0, mem => mem
  | n + 1, mem => Function.update (clearLoop ptr n mem) (ptr + BitVec.ofNat 32 n) 0

def allocMemClear (m : MM) (size page : Word) : Option (MM × Word) :=
  (m.allocMem size .normal page).map fun (m, ptr) =>
    if ptr = 0 then (m, 0) else ({ m with byte := clearLoop ptr size.toNat m.byte }, ptr)

def alloc (m : MM) (size : Word) (t : AllocType) (page : Word) : Option (MM × Word) :=
  if SIZEMASK - sizeofPtrInfo < size then some (m, 0)
  else
    match t with
    | .normal => m.allocMem size t page
    | .fast => m.allocMem size t page
    | .clear => m.allocMemClear size page
    | .page => some (m.allocPage size page)

def free (m : MM) (p : Word) : Option (MM × Bool) := m.freeNoLock p

/-- The end of `realloc`: copy what fits of the old block and free it. -/
def reallocMove (m : MM) (ptr tmp size : Word) : Option (MM × Word) :=
  let old := ptrToPtrinfo ptr
  let min := if size < (m.info old).size then size else (m.info old).size
  let m := if old ≠ 0 then { m with byte := Mem.move m.byte tmp ptr min } else m
  (m.freeNoLock ptr).map fun (m, _) => (m, tmp)

def realloc (m : MM) (ptr size page : Word) : Option (MM × Word) :=
  if size = 0 ∧ ptr ≠ 0 then (m.free ptr).map fun (m, _) => (m, 0)
  else if ptr ≠ 0 ∧ (m.info (ptrToPtrinfo ptr)).size = size then some (m, ptr)
  else
    let ptr' := if ptr ≠ 0 ∧ (m.info (ptrToPtrinfo ptr)).state = .freed then 0 else ptr
    (m.alloc size .normal page).bind fun (m, tmp) =>
      if tmp = 0 then some (m, 0)
      else if ptr' = 0 then some (m, tmp)
      else m.reallocMove ptr' tmp size

/-- `calloc`: its product has 32 bits. -/
def calloc (m : MM) (cnt size page : Word) : Option (MM × Word) := m.alloc (cnt * size) .clear page

/-- The heap before the first call: `MM::MM` and the static initialisers. -/
def start (info : Word → PtrInfo) (byte : Bytes) : MM :=
  { info, byte, lastFree := 0, lastPage := 0, freeTop := 0, freeMax := 0, runs := [] }

end MM

end CxxKernel.Heap
