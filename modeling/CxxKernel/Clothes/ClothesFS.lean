import CxxKernel.Clothes.Block
import CxxKernel.Lib.Fallible

/-! `ClothesFS`: the volume and the functions that write it. A sector holds one block, so that the
loops of `getBlock` and `putBlock` run once. Error messages are left out. -/
namespace CxxKernel.Clothes
open Fallible

/-- The sectors of the device. -/
abbrev Disk := ℕ → Block

def header_begin : ℕ := 8 * 4
def metadata_id : Word := 0x42
def payload_id : Word := 0x4242

def META_FREE : Word := 0x00
def META_FILE : Word := 0x02
def META_DIR : Word := 0x04
def META_FILE_CONT : Word := 0x08
def META_DIR_CONT : Word := 0x10

def ATTRIB_NONE : Word := 0x00
def PAYLOAD_USED : Word := 0x01

/-- `ATAPhys::sectorSize`. -/
def sectorSize : ℕ := 512

/-- The byte that `getBlock` and `putBlock` ask for: a product of two `uint32_t`. -/
def blockPos (index : Word) : ℕ := (index * BitVec.ofNat 32 blocksize).toNat

def baseType (type : Word) : Word :=
  if type = META_FILE_CONT then META_FILE
  else if type = META_DIR_CONT then META_DIR
  else type

def validType (type valid : Word) : Bool := baseType type = baseType valid

def alignLoop : ℕ → Word → Word
  | 0, ptr => ptr
  | n + 1, ptr => if ptr % 4 ≠ 0 then alignLoop n (ptr + 1) else ptr

/-- `while (ptr % 4 != 0) ++ptr`, which takes three rounds at most. -/
def align (ptr : Word) : Word := alignLoop 3 ptr

/-- Where `addToMeta` starts to look for a free entry. The length of the name is not skipped. -/
def addStart (data : Block) (type : Word) : Word :=
  if type = META_FILE ∨ type = META_DIR then align (4 + 8 + dataToNum data (4 + 8) 4) else 4

/-- The loop of `addToMeta` over the entries of a block. -/
def freeEntry (data : Block) : ℕ → Word → Option Word
  | 0, _ => none
  | fuel + 1, ptr =>
    if ptr.toNat < blocksize - 4 then
      if dataToNum data ptr.toNat 4 = 0 then some ptr else freeEntry data fuel (ptr + 4)
    else none

/-- The first block as `format` writes it. Without a host library the volume id stays zero. -/
def header (size : ℕ) (volid : Option CString) (freechain : Word) : Block :=
  let buf := copyTo clearBuffer header_begin [0x00, 0x42, 0x00, 0x41]
  let pos := header_begin + 4
  let buf := numToData blocksize buf pos 2
  let pos := pos + 2
  let buf := copyTo buf pos [0x00, 0x00]
  let pos := pos + 2 + 8
  let buf := numToData size buf pos 4
  let pos := pos + 8
  let buf := copyTo buf pos ((volid.elim [] CString.bytes).take 32)
  let pos := pos + 32
  let buf := numToData 1 buf pos 4
  let buf := numToData 2 buf (pos + 4) 4
  let buf := numToData 0 buf (pos + 8) 4
  let buf := numToData 0 buf (pos + 12) 4
  numToData freechain.toNat buf (pos + 16) 4

/-- A device of `size` bytes under the file system. -/
structure ClothesFS where
  size : ℕ

namespace ClothesFS
variable (fs : ClothesFS)

def blocks : Word := BitVec.ofNat 32 (fs.size / blocksize)

/-- A sector inside the device can be read. -/
def physRead (disk : Disk) (pos : ℕ) : Option Block :=
  if pos + sectorSize ≤ fs.size then some (disk (pos / sectorSize)) else none

def physWrite (pos : ℕ) (data : Block) : Prog Disk Unit := do
  guard (pos + sectorSize ≤ fs.size)
  modify fun disk => Function.update disk (pos / sectorSize) data

/-- What `getBlock` finds on the device. -/
def blockAt (disk : Disk) (index : Word) : Option Block := fs.physRead disk (blockPos index)

def getBlock (index : Word) : Prog Disk Block := OptionT.mk fun disk => (fs.blockAt disk index, disk)

def putBlock (index : Word) (data : Block) : Prog Disk Unit := fs.physWrite (blockPos index) data

def formatBlock (num next : Word) : Prog Disk Unit := do
  let buf := numToData metadata_id.toNat clearBuffer 0 4
  let buf := numToData next.toNat buf (blocksize - 4) 4
  fs.putBlock num buf

/-- The loop of `formatBlocks` from block `i` down to block 2. -/
def formatBlocksFrom : ℕ → Word → Prog Disk Unit
  | i + 2, next => do
    fs.formatBlock (BitVec.ofNat 32 (i + 2)) next
    formatBlocksFrom (i + 1) (BitVec.ofNat 32 (i + 2))
  | _, _ => pure ()

def formatBlocks : Prog Disk Word :=
  (do
    fs.formatBlocksFrom (fs.blocks - 1).toNat 0
    pure 2) <|> pure 0

def initMeta (index type : Word) : Prog Disk Unit := do
  let data := numToData metadata_id.toNat clearBuffer 0 2
  let data := numToData type.toNat data 2 1
  let data := numToData ATTRIB_NONE.toNat data 3 1
  fs.putBlock index data

def initData (index type algo : Word) : Prog Disk Word :=
  (do
    let data := numToData payload_id.toNat clearBuffer 0 2
    let data := numToData type.toNat data 2 1
    let data := numToData algo.toNat data 3 1
    fs.putBlock index data
    pure 4) <|> pure 0

/-- A null name is as an empty one. -/
def updateMeta (index : Word) (name : CString) (size : ℕ) : Prog Disk Unit := do
  let data ← fs.getBlock index
  let type := baseType (dataToNum data 2 1)
  guard (type = META_FILE ∨ type = META_DIR)
  let data := numToData size data 4 8
  let data := copyTo data 16 name.bytes
  let data := numToData name.bytes.length data 12 4
  fs.putBlock index data

def format (volid : Option CString) : Prog Disk Unit := do
  let freechain ← fs.formatBlocks
  let res ← (do
    fs.physWrite 0 (header fs.size volid freechain)
    pure true) <|> pure false
  fs.initMeta 1 META_DIR
  fs.updateMeta 1 ⟨[0x2F], slash_noNul⟩ 0x0
  guard (res = true)

def takeFreeBlock : Prog Disk Word :=
  (do
    let data ← fs.getBlock 0
    let freechain := dataToNum data 104 4
    let block ← fs.getBlock freechain
    let next_freechain := dataToNum block (blocksize - 4) 4
    fs.putBlock 0 (numToData next_freechain.toNat data 104 4)
    pure freechain) <|> pure 0

/-- The freed block is changed in memory only: of the two blocks the header alone is written. -/
def addFreeBlock (id : Word) : Prog Disk Unit := do
  guard (id ≠ 0)
  let data ← fs.getBlock 0
  let block ← fs.getBlock id
  let status := dataToNum block 2 1
  guard (status ≠ META_FREE)
  fs.putBlock 0 (numToData id.toNat data 104 4)

def dirContinues (index next : Word) : Prog Disk Unit := do
  let data ← fs.getBlock index
  fs.putBlock index (numToData next.toNat data (blocksize - 4) 4)

/-- `fuel` bounds the depth of the recursion. -/
def addToMeta : ℕ → Word → Word → Word → Prog Disk Unit
  | 0, _, _, _ => failure
  | fuel + 1, index, entry, type => do
    let data ← fs.getBlock index
    guard (dataToNum data 0 2 = metadata_id)
    guard (validType (dataToNum data 2 1) type)
    match freeEntry data blocksize (addStart data type) with
    | some ptr => fs.putBlock index (numToData entry.toNat data ptr.toNat 4)
    | none =>
      if dataToNum data (blocksize - 4) 4 ≠ 0 then
        addToMeta fuel (dataToNum data (blocksize - 4) 4) entry type
      else do
        let next ← fs.takeFreeBlock
        guard (next ≠ 0)
        fs.dirContinues index next
        fs.initMeta next
          (if type = META_FILE ∨ type = META_FILE_CONT then META_FILE_CONT else META_DIR_CONT)
        addToMeta fuel next entry type

/-- `pos` is what `initData` returns, also where it fails. -/
def addData : ℕ → Word → List Byte → Prog Disk Unit
  | 0, _, _ => failure
  | fuel + 1, index, contents => do
    let data_block ← fs.takeFreeBlock
    guard (data_block ≠ 0)
    fs.addToMeta fuel index data_block META_FILE
    let pos ← fs.initData data_block PAYLOAD_USED 0
    let data ← fs.getBlock data_block
    let fit := blocksize - pos.toNat
    fs.putBlock data_block (copyTo data pos.toNat (contents.take fit))
    if contents.drop fit ≠ [] then addData fuel index (contents.drop fit) else pure ()

def addFile (fuel : ℕ) (parent : Word) (name : CString) (contents : List Byte) :
    Prog Disk Unit := do
  guard (parent ≠ 0)
  let block ← fs.takeFreeBlock
  guard (block ≠ 0)
  fs.addToMeta fuel parent block META_DIR
  fs.initMeta block META_FILE
  fs.updateMeta block name contents.length
  fs.addData fuel block contents

def addDir (fuel : ℕ) (parent : Word) (name : CString) : Prog Disk Unit := do
  guard (parent ≠ 0)
  let block ← fs.takeFreeBlock
  guard (block ≠ 0)
  fs.addToMeta fuel parent block META_DIR
  fs.initMeta block META_DIR
  fs.updateMeta block name 0

end ClothesFS

end CxxKernel.Clothes
