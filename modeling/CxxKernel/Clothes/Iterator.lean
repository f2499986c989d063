import CxxKernel.Clothes.ClothesFS
import CxxKernel.Lib.Cursor

/-! `ClothesFS::Iterator` and `ClothesFS::list`: the functions that read a volume. -/
namespace CxxKernel.Clothes

structure Iterator where
  ok : Bool
  block : Word
  index : Word
  pos : ℕ
  data_block : Word
  data_index : Word
  parent : Block
  data : Block
  content : Block

/-- Where the entries of a directory block start for `getCurrent`. -/
def listStart (parent : Block) (type : Word) : Word :=
  if type = META_FILE ∨ type = META_DIR then align (4 + 8 + 4 + dataToNum parent (4 + 8) 4) else 4

/-- Where the payload entries start for `read`. -/
def readStart (data : Block) (type : Word) : Word :=
  if type = META_FILE then align (4 + 8 + 4 + dataToNum data (4 + 8) 4) else 4

namespace Iterator

/-- The copying loop of `read`. -/
def copyOut (it : Iterator) (cnt : ℕ) : Iterator × List Byte :=
  let got := min cnt (blocksize - it.pos)
  ({ it with pos := it.pos + got }, (List.range got).map fun i => it.content (it.pos + i))

def nameLen (it : Iterator) : Word := dataToNum it.data 12 4

def name (it : Iterator) : List Byte := (List.range it.nameLen.toNat).map fun i => it.data (16 + i)

def size (it : Iterator) : Word := dataToNum it.data 4 8

end Iterator

namespace ClothesFS
variable (fs : ClothesFS) (disk : Disk)

/-- The end of `getCurrent`, when the entry is at `pos`. -/
def loadEntry (it : Iterator) (pos : Word) : Iterator × Bool :=
  let it := { it with block := dataToNum it.parent pos.toNat 4 }
  if it.block = 0 then (it, false)
  else match fs.blockAt disk it.block with
    | none => (it, false)
    | some data => ({ it with data }, true)

def getCurrent (it : Iterator) : Iterator × Bool :=
  let type := dataToNum it.parent 2 1
  if type = 0 then (it, false)
  else
    let pos := 4 * it.index + listStart it.parent type
    if blocksize - 4 ≤ pos.toNat then
      let next_block := dataToNum it.parent (blocksize - 4) 4
      if next_block = 0 then (it, false)
      else match fs.blockAt disk next_block with
        | none => (it, false)
        | some parent => fs.loadEntry disk { it with parent, index := 0 } 0
    else fs.loadEntry disk it pos

/-- The new buffers are not read before they are filled. -/
def list (parent : Word) : Iterator :=
  let iter : Iterator := ⟨false, parent, 0, 0, 0, 0, clearBuffer, clearBuffer, clearBuffer⟩
  if parent = 0 then iter
  else match fs.blockAt disk parent with
    | none => iter
    | some data =>
      let (iter, found) := fs.getCurrent disk { iter with parent := data }
      if found then { iter with ok := true } else iter

def next (it : Iterator) : Iterator :=
  let (it, ok) := fs.getCurrent disk { it with index := it.index + 1 }
  { it with ok, pos := 0, data_block := 0, data_index := 0 }

/-- The part of `read` that opens the payload block whose entry is at `pos`. -/
def openPayload (it : Iterator) (pos : Word) : Iterator × Bool :=
  let it := { it with data_block := dataToNum it.data pos.toNat 4 }
  if it.data_block = 0 then (it, false)
  else match fs.blockAt disk it.data_block with
    | none => (it, false)
    | some content =>
      let it := { it with content }
      if dataToNum content 0 2 ≠ payload_id then (it, false)
      else if dataToNum content 2 1 ≠ PAYLOAD_USED then (it, false)
      else ({ it with pos := 4 }, true)

def read (it : Iterator) (cnt : ℕ) : Iterator × List Byte :=
  if (it.pos = 0 ∧ it.data_block = 0) ∨ blocksize ≤ it.pos then
    let pos := 4 * it.data_index + readStart it.data (dataToNum it.data 2 1)
    if blocksize - 4 ≤ pos.toNat then
      let next_block := dataToNum it.data (blocksize - 4) 4
      if next_block = 0 then (it, [])
      else match fs.blockAt disk next_block with
        | none => (it, [])
        | some data =>
          let (it, opened) := fs.openPayload disk { it with data, data_index := 0 } 4
          if opened then it.copyOut cnt else (it, [])
    else
      let (it, opened) := fs.openPayload disk it pos
      if opened then it.copyOut cnt else (it, [])
  else it.copyOut cnt

/-- A loop over a listing: the block on which the iterator stands, and the iterator behind it. -/
def visit (it : Iterator) : Option (Word × Iterator) :=
  if it.ok then some (it.block, fs.next disk it) else none

end ClothesFS

end CxxKernel.Clothes
