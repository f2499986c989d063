import CxxKernel.Fs.Filesystem

/-! `VFS`: the mounted filesystems, and the path that is left for each of them. -/
namespace CxxKernel.Fs
open Containers Text

def ENOENT : Word := 2

def Str.startsWith (s other : Str) : Bool :=
  let len := other.length
  if s.length < len then false else (List.range len).all fun i => s.getD i 0 = other.getD i 0

/-- The mounts are objects of `φ`, and `mountpoint` is their virtual function. -/
structure VFS (φ : Type) where
  mountpoint : φ → Str
  m_mounts : LinkedList φ

namespace VFS
variable {φ κ : Type} (v : VFS φ)

/-- The end of `mount`, with the object that the filesystem of the given type has made. -/
def mount (fresh : Ptr) : Option φ → Option (Bool × VFS φ)
  | none => some (false, v)
  | some mount => (v.m_mounts.append fresh (some mount)).map fun m_mounts =>
      (true, { v with m_mounts })

/-- All filesystems share the open files, so that the first mount answers. -/
def accessHandle (s : Filesystem φ κ) (fd : Word) : Option (Option φ) :=
  (v.m_mounts.findItem (fun tmp => tmp.map fun _ => s.getFilesystem fd) (v.m_mounts.size.toNat + 1)
    v.m_mounts.m_first).bind fun res => res.elim (some none) id

/-- The path is made of a C string, so that it has a buffer. -/
def access (file : Str) : Option (Option φ) :=
  v.m_mounts.findItem
    (fun tmp => tmp.bind fun tmp => if Str.startsWith file (v.mountpoint tmp) then some tmp else none)
    (v.m_mounts.size.toNat + 1) v.m_mounts.m_first

/-- The path is made of a C string here too. What `right` returns when nothing is left has no buffer. -/
def basedir (file : Str) : Option φ → Value
  | none => .text (Value.measured file)
  | some fs => .ofChars (file.drop ((v.mountpoint fs).length + 1))

/-- The loop of `stripslash`, with an assignment to `res` in each round. A round takes a character, so that
the fuel does not run out. -/
def stripslashLoop : ℕ → Value → Option Value
  | 0, _ => none
  | fuel + 1, res =>
    (res.at' 0).bind fun c =>
      if c = 0x2F then (res.right 1).bind fun rest => stripslashLoop fuel (rest.init res.m_length) else some res

/-- `raw` is the length in the memory of `res`, which is a copy of the name. -/
def stripslash (raw : Word) (name : Value) : Option Value := stripslashLoop (name.length + 1) (name.init raw)

/-- `fsOpen` is the virtual function `open`, which takes a copy of the path; `raw` has the lengths in the
memory where copies are made. -/
def syscall_open (fsOpen : φ → Value → Word → Word) (raw : ℕ → Word) (name : Option Str) (flags : Word) :
    Option Word :=
  match name with
  | none => some (-ENOENT)
  | some name => (v.access name).bind fun fs =>
      match fs with
      | none => some (-ENOENT)
      | some fs => (stripslash (raw 0) (v.basedir name (some fs))).map fun base => fsOpen fs (base.init (raw 1)) flags

end VFS

end CxxKernel.Fs
