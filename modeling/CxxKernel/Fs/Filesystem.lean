import CxxKernel.Containers.Sequence
import CxxKernel.Text.Values

/-! The open files that all filesystems share. A result `none` says that the source follows a null
pointer. The locks are left out. -/
namespace CxxKernel.Fs
open Containers Text

/-- The characters of a C string, or of a `String` that cannot be without a buffer. -/
abbrev Str := List UInt8

def EBADF : Word := 9

/-- `int` is a word here. -/
structure FileData (φ κ : Type) where
  m_fs : Value
  m_name : Value
  m_id : Word
  m_owner : Option φ
  m_custom : Option κ
  m_fcntl : Word

/-- The test of `getfile`. -/
def FileData.isNamed {φ κ : Type} (d : FileData φ κ) (fs name : Value) : Option Bool :=
  (d.m_fs.eq fs).bind fun same => if same then d.m_name.eq name else some false

/-- The static fields of the class `Filesystem`, whose objects are of type `φ`, the `FileData` objects
that exist, and `errno`. -/
structure Filesystem (φ κ : Type) where
  m_filehandle : Word
  m_files : LinkedList Ptr
  data : Ptr → Option (FileData φ κ)
  errno : Word

namespace Filesystem
variable {φ κ : Type} (s : Filesystem φ κ)

def new : Filesystem φ κ := ⟨2, .new, fun _ => none, 0⟩

/-- `node` and `file` are the addresses that `new` returns for the node of the list and the data. The
constructor of `FileData` takes copies of the names, and the fields are copies of these; `raw` has the lengths
in the memory of the four. -/
def mapfile (raw : ℕ → Word) (node file : Ptr) (fs name : Value) (owner : Option φ) (custom : Option κ) :
    Option (Word × Filesystem φ κ) :=
  let m_filehandle := s.m_filehandle + 1
  let tmp : FileData φ κ :=
    ⟨(fs.init (raw 0)).init (raw 1), (name.init (raw 2)).init (raw 3), m_filehandle, owner, custom, 0⟩
  (s.m_files.append node (some file)).map fun m_files =>
    (tmp.m_id, { s with m_filehandle, m_files, data := Function.update s.data file (some tmp) })

/-- The loop over the positions of `m_files`, from `i` on: the first file that meets `test`, and its
position. -/
def search (test : FileData φ κ → Option Bool) : ℕ → Word → Option (Option (Word × Ptr × FileData φ κ))
  | 0, _ => some none
  | fuel + 1, i =>
    if i < s.m_files.size then
      (s.m_files.at' i).bind fun tmp => tmp.bind fun tmp => (s.data tmp).bind fun d =>
        (test d).bind fun found => if found then some (some (i, tmp, d)) else search test fuel (i + 1)
    else some none

def find (fh : Word) : Option (Option (Word × Ptr × FileData φ κ)) :=
  s.search (fun d => some (d.m_id = fh)) s.m_files.size.toNat 0

/-- What a function returns that looks for a handle and reads a field. -/
def lookup {α : Type} (fh : Word) (notFound : α) (field : FileData φ κ → α) : Option α :=
  (s.find fh).map fun found => found.elim notFound fun (_, _, d) => field d

def getfile (fs name : Value) : Option Word :=
  (s.search (·.isNamed fs name) s.m_files.size.toNat 0).map fun found => found.elim (-1) fun (_, _, d) => d.m_id

/-- What is returned is a copy. -/
def getFS (raw fh : Word) : Option Value := s.lookup fh (.text []) fun d => d.m_fs.init raw

def getCustom (fh : Word) : Option (Option κ) := s.lookup fh none FileData.m_custom

def getFilesystem (fh : Word) : Option (Option φ) := s.lookup fh none FileData.m_owner

def getName (raw fh : Word) : Option Value := s.lookup fh (.text []) fun d => d.m_name.init raw

def closefile (fh : Word) : Option (Bool × Filesystem φ κ) :=
  (s.find fh).bind fun found =>
    match found with
    | some (i, _, _) => (s.m_files.deleteAt i).map fun (_, m_files) => (true, { s with m_files })
    | none => some (false, s)

def getFcntl (fh : Word) : Option (Word × Filesystem φ κ) :=
  (s.find fh).map fun found =>
    match found with
    | some (_, _, d) => (d.m_fcntl, s)
    | none => (-1, { s with errno := EBADF })

def setFcntl (fh mode : Word) : Option (Word × Filesystem φ κ) :=
  (s.find fh).map fun found =>
    match found with
    | some (_, tmp, d) =>
      (0, { s with data := Function.update s.data tmp (some { d with m_fcntl := mode }) })
    | none => (-1, { s with errno := EBADF })

end Filesystem

end CxxKernel.Fs
