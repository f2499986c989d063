import CxxKernel.Paging.Bits
import Mathlib.Logic.Function.Iterate

/-! `PagingPrivate` on x86: page table entries, the page directory, and the functions that map and
unmap pages. The locks are left out, and so is what only the processor reads. -/
namespace CxxKernel.Paging

def PAGES_PER_TABLE : ℕ := 1024
def PAGE_SIZE : ℕ := 4096

def PAGING_MAP_USED : Word := 1
def PAGING_MAP_RW : Word := 1 <<< 1
def PAGING_MAP_USER : Word := 1 <<< 2
def PAGING_MAP_R0 : Word := PAGING_MAP_USED ||| PAGING_MAP_RW

/-- A page table entry. -/
structure Page where
  val : Word

namespace Page
variable (p : Page)

def getPresent : Bool := p.val &&& 1 ≠ 0
def getRw : Bool := p.val >>> 1 &&& 1 ≠ 0
def getUserspace : Bool := p.val >>> 2 &&& 1 ≠ 0
def getAddress : Word := p.val &&& 0xFFFFF000

/-- `setPresent`, `setRw` and `setUserspace` are this for the bits 0, 1 and 2. -/
def setBit (i : ℕ) (is : Bool) : Page :=
  if is then ⟨p.val ||| (1 : Word) <<< i⟩ else ⟨p.val &&& ~~~((1 : Word) <<< i)⟩

def setPresent (is : Bool) : Page := p.setBit 0 is
def setRw (is : Bool) : Page := p.setBit 1 is
def setUserspace (is : Bool) : Page := p.setBit 2 is
def setAddress (adr : Word) : Page := ⟨adr &&& 0xFFFFF000 ||| p.val &&& 0xFFF⟩

def isAvail : Bool := p.getAddress = 0 && !p.getPresent

end Page

/-- The entries of a table. -/
abbrev PageTable := ℕ → Page

/-- The constructor clears the entries. -/
def PageTable.new : PageTable := fun _ => ⟨0⟩

/-- A `Page *`: the number of a table and the place in it. -/
abbrev PagePtr := ℕ × ℕ

structure PageDir where
  tables : ℕ → Option PageTable

namespace PageDir
variable (d : PageDir)

/-- The entry behind a pointer. -/
def load (p : PagePtr) : Page :=
  match d.tables p.1 with
  | some table => table p.2
  | none => ⟨0⟩

def store (p : PagePtr) (page : Page) : PageDir :=
  match d.tables p.1 with
  | some table => ⟨Function.update d.tables p.1 (some (Function.update table p.2 page))⟩
  | none => d

end PageDir

inductive PageReserve
  | dontReserve
  | doReserve

inductive MapType
  | kernel
  | user
  deriving DecidableEq

inductive MapPermissions
  | readOnly
  | rw
  deriving DecidableEq

/-- The bitmap of the frames, the directory, and the three addresses from which memory is given
out: static memory, kernel heap and user heap. -/
structure PagingPrivate where
  bits : Bits
  directory : PageDir
  free_page_address : Word
  heap_address : Word
  user_heap_address : Word

namespace PagingPrivate
variable (s : PagingPrivate)

/-- The loop of `pageAlign`, which takes less rounds than a page has bytes. -/
def pageAlignLoop : ℕ → PagingPrivate → PagingPrivate
  | 0, s => s
  | fuel + 1, s =>
    if s.free_page_address.toNat % PAGE_SIZE ≠ 0 then
      pageAlignLoop fuel { s with
        bits := s.bits.set (s.free_page_address.toNat / PAGE_SIZE)
        free_page_address := s.free_page_address + 1 }
    else s

/-- `pageAlign` with the alignment of all its calls. -/
def pageAlign : PagingPrivate := pageAlignLoop PAGE_SIZE s

def freePageAddress : Word × PagingPrivate :=
  let i := s.free_page_address.toNat / PAGE_SIZE
  (s.free_page_address, if s.bits.isSet i then s else { s with bits := s.bits.set i })

/-- The loop of `incFreePageAddress` over `fuel` pages from page `i` on. -/
def markPages : ℕ → ℕ → Bits → Bits
  | 0, _, b => b
  | fuel + 1, i, b => markPages fuel (i + 1) (if b.isSet i then b else b.set i)

def incFreePageAddress (size : Word) : PagingPrivate :=
  let i := s.free_page_address.toNat / PAGE_SIZE
  let target := (s.free_page_address + size).toNat / PAGE_SIZE
  { s with
    bits := markPages (target + 1 - i) i s.bits
    free_page_address := s.free_page_address + size }

/-- `Paging::allocStatic`. The physical address is the one that is returned. -/
def allocStatic (size : Word) : Word × PagingPrivate :=
  let (tmp, s) := s.pageAlign.freePageAddress
  (tmp, s.incFreePageAddress size)

/-- `PageDir::getPage`. A new table is static memory. -/
def dirGetPage (addr : Word) (reserve : PageReserve) : Option PagePtr × PagingPrivate :=
  let page := addr.toNat / PAGE_SIZE
  let index := page / PAGES_PER_TABLE
  match s.directory.tables index with
  | some _ => (some (index, page % PAGES_PER_TABLE), s)
  | none =>
    match reserve with
    | .dontReserve => (none, s)
    | .doReserve =>
      let (physPtr, s) := s.allocStatic (BitVec.ofNat 32 (4 * PAGES_PER_TABLE))
      if physPtr = 0 then (none, s)
      else
        (some (index, page % PAGES_PER_TABLE),
          { s with directory := ⟨Function.update s.directory.tables index (some PageTable.new)⟩ })

/-- The entry as the two mapping functions write it. -/
def mapped (page : Page) (addr : Word) (type : MapType) (perms : MapPermissions) : Page :=
  (((page.setPresent true).setRw (perms = .rw)).setUserspace (type = .user)).setAddress addr

def identityMapFrame (p : Option PagePtr) (addr : Word) (type : MapType) (perms : MapPermissions) :
    Bool × PagingPrivate :=
  match p with
  | none => (false, s)
  | some p =>
    let i := addr.toNat / PAGE_SIZE
    let res := !s.bits.isSet i
    (res, { s with
      bits := s.bits.set i
      directory := s.directory.store p (mapped (s.directory.load p) addr type perms) })

/-- Without a free frame the function does not return. -/
def mapFrame (p : Option PagePtr) (type : MapType) (perms : MapPermissions) :
    Option (Bool × PagingPrivate) :=
  match p with
  | none => some (false, s)
  | some p =>
    if (s.directory.load p).isAvail then
      match s.bits.findUnset with
      | (none, _) => none
      | (some i, bits) =>
        some (true, { s with
          bits := bits.set i
          directory := s.directory.store p
            (mapped (s.directory.load p) (BitVec.ofNat 32 (i * PAGE_SIZE)) type perms) })
    else some (true, s)

/-- The frame's address, or null. -/
def getPage : Word × PagingPrivate :=
  match s.bits.findUnset with
  | (none, bits) => (0, { s with bits })
  | (some i, bits) => (BitVec.ofNat 32 (i * PAGE_SIZE), { s with bits := bits.set i })

def freePage (ptr : Word) : PagingPrivate := { s with bits := s.bits.clear (ptr.toNat / PAGE_SIZE) }

/-- The loop that moves a heap address to the next page. -/
def alignAddress : ℕ → Word → Word
  | 0, addr => addr
  | fuel + 1, addr => if addr.toNat % PAGE_SIZE ≠ 0 then alignAddress fuel (addr + 1) else addr

/-- The heap address that the flags choose. -/
def heap (flags : Word) : Word :=
  if flags &&& PAGING_MAP_USER ≠ 0 then s.user_heap_address else s.heap_address

def setHeap (flags addr : Word) : PagingPrivate :=
  if flags &&& PAGING_MAP_USER ≠ 0 then { s with user_heap_address := addr }
  else { s with heap_address := addr }

def mapType (flags : Word) : MapType := if flags &&& PAGING_MAP_USER ≠ 0 then .user else .kernel

/-- The result, what is stored in `*virt`, and the new state. -/
def mapPhys (phys flags : Word) : Bool × Option Word × PagingPrivate :=
  let i := alignAddress PAGE_SIZE (s.heap flags)
  let s := s.setHeap flags (i + BitVec.ofNat 32 PAGE_SIZE)
  match s.dirGetPage i .doReserve with
  | (none, s) => (false, none, s)
  | (some p, s) =>
    if (s.directory.load p).isAvail then
      let (res, s) := s.identityMapFrame (some p) phys (mapType flags) .rw
      (res, some i, s)
    else (false, none, s)

/-- The loop of `map` over `cnt` pages from address `i` on. -/
def mapLoop (type : MapType) : ℕ → Word → PagingPrivate → Option (Bool × PagingPrivate)
  | 0, _, s => some (true, s)
  | cnt + 1, i, s =>
    match s.dirGetPage i .doReserve with
    | (none, s) => some (false, s)
    | (some p, s) =>
      if (s.directory.load p).isAvail then
        match s.mapFrame (some p) type .rw with
        | none => none
        | some (false, s) => some (false, s)
        | some (true, s) => mapLoop type cnt (i + BitVec.ofNat 32 PAGE_SIZE) s
      else some (false, s)

/-- The heap address moves by the pages that are asked for before the first of them is mapped. -/
def map (flags cnt : Word) : Option (Bool × Option Word × PagingPrivate) :=
  let i := alignAddress PAGE_SIZE (s.heap flags)
  let s := s.setHeap flags (Nat.iterate (· + BitVec.ofNat 32 PAGE_SIZE) cnt.toNat i)
  match mapLoop (mapType flags) cnt.toNat i s with
  | none => none
  | some (false, s) => some (false, none, s)
  | some (true, s) => some (true, some i, s)

/-- The page that is looked up is the one whose address is the number of the page of `ptr`. -/
def unmap (ptr : Word) : Word × PagingPrivate :=
  let i : Word := BitVec.ofNat 32 (ptr.toNat / PAGE_SIZE)
  match s.dirGetPage i .dontReserve with
  | (none, s) => (0, s)
  | (some p, s) =>
    let page := s.directory.load p
    let unmap_index := page.getAddress.toNat / PAGE_SIZE
    let page := (((page.setPresent false).setRw false).setUserspace false).setAddress 0
    (0, { s with
      bits := s.bits.clear unmap_index
      directory := s.directory.store p page })

/-- `Paging::alloc`: the address, or null. -/
def alloc (cnt : Word) : Option (Word × PagingPrivate) :=
  match s.map PAGING_MAP_R0 cnt with
  | none => none
  | some (true, some pos, s) => some (pos, s)
  | some (_, _, s) => some (0, s)

/-- The loop of `Paging::free`: what `unmap` returns is passed to `freePage`. -/
def freeLoop : ℕ → Word → PagingPrivate → PagingPrivate
  | 0, _, s => s
  | cnt + 1, ptr, s =>
    let (frame, s) := s.unmap ptr
    freeLoop cnt (ptr + BitVec.ofNat 32 PAGE_SIZE) (s.freePage frame)

def free (ptr cnt : Word) : PagingPrivate := freeLoop cnt.toNat ptr s

end PagingPrivate

end CxxKernel.Paging
