import CxxKernel.Devices.Console
import CxxKernel.Fs.Stat
import CxxKernel.Fs.Stdin

/-! The system calls on files: `open`, `read`, `write`, `close` and `fcntl`, over the functions of the mounted
file systems. -/
namespace CxxKernel.Fs
open Containers Fallible Text
open Clothes (ClothesFS)

def F_GETFD : Word := 1
def F_SETFD : Word := 2

/-- The open files and their iterators, the memory of the caller, and the console. -/
structure SysState extends StatState where
  memory : Word → Byte
  video : Devices.Video

/-- What `UstarFilesystem::read` sees of the state. -/
def SysState.ustar (s : SysState) : FileState MountedFs where
  files := s.files
  iterators p :=
    match s.iterators p with
    | some (.ustar it) => some it
    | _ => none
  memory := s.memory

/-- The state behind `UstarFilesystem::read`. -/
def SysState.withUstar (s : SysState) (t : FileState MountedFs) : SysState :=
  { s with
    files := t.files
    iterators := fun p =>
      match t.iterators p with
      | some it => some (.ustar it)
      | none => s.iterators p
    memory := t.memory }

def SysState.fail (s : SysState) (errno : Word) : SysState := { s with files := { s.files with errno } }

/-- `ints` are the answers of `getRandomInt`, one after the other, and `raw` is the length in the memory of the
name. -/
def DevFS.read (fh buf count raw : Word) (ints : ℕ → Word) (s : SysState) : Option (Word × SysState) :=
  (s.files.getName raw fh).bind fun name => (DevFS.isDevice name).map fun found =>
    if found then
      let cnt := count.toInt.toNat
      (BitVec.ofNat 32 cnt,
        { s with memory := store s.memory buf ((List.range cnt).map fun i => (ints i % 256).setWidth 8) })
    else (-1, s.fail ENOENT)

/-- The name that is looked up first is not used here either. -/
def ClothesFilesystem.read (m_clothes : ClothesFS) (disk : Clothes.Disk) (fh buf count : Word) (s : SysState) :
    Option (Word × SysState) :=
  (s.files.getName 0 fh).bind fun _ => (s.files.getCustom fh).bind fun data =>
    match data with
    | none => some (-1, s.fail ENOENT)
    | some data =>
      match s.iterators data with
      | some (.clothes it) =>
        let (it, bytes) := m_clothes.read disk it count.toNat
        some (BitVec.ofNat 32 bytes.length, { s with
          iterators := Function.update s.iterators data (some (.clothes it))
          memory := store s.memory buf bytes })
      | _ => none

/-- `delete` of an iterator. -/
def deleteIterator (data : Ptr) : Prog StatState Unit := do
  let _ ← look fun s => s.iterators data
  step fun s => ((), { s with iterators := Function.update s.iterators data none })

def closeFile (fh : Word) : Prog StatState Word := do
  let closed ← OptionT.mk fun s =>
    match s.files.closefile fh with
    | none => (none, s)
    | some (closed, files) => (some closed, { s with files })
  if closed then pure 0 else failWith EBADF

/-- `close` of a file system whose files have iterators. -/
def closeIterator (fh : Word) : Prog StatState Word := do
  let data ← look fun s => s.files.getCustom fh
  match data with
  | none => closeFile fh
  | some data => do
    deleteIterator data
    closeFile fh

def UstarFilesystem.close (fh : Word) : Prog StatState Word := closeIterator fh

def ClothesFilesystem.close (fh : Word) : Prog StatState Word := closeIterator fh

def DevFS.close (fh : Word) : Prog StatState Word := closeFile fh

namespace MountedFs

/-- The virtual function `read`. -/
def read (fh buf count raw : Word) (ints : ℕ → Word) (s : SysState) : MountedFs → Option (Word × SysState)
  | ustar m_ustar _ => (UstarFilesystem.read m_ustar fh buf count s.ustar).map fun (res, t) => (res, s.withUstar t)
  | clothes m_clothes disk _ => ClothesFilesystem.read m_clothes disk fh buf count s
  | dev _ => DevFS.read fh buf count raw ints s

/-- The virtual function `write`, which no file system has. -/
def write (_ : MountedFs) : Prog StatState Word := failWith EPERM

/-- The virtual function `close`. -/
def close (fh : Word) : MountedFs → Prog StatState Word
  | ustar .. => UstarFilesystem.close fh
  | clothes .. => ClothesFilesystem.close fh
  | dev _ => DevFS.close fh

end MountedFs

namespace Syscalls
variable (v : VFS MountedFs)

/-- The program runs on the open files. -/
def onFiles (x : Prog StatState Word) (s : SysState) : Option (Word × SysState) :=
  match exec x s.toStatState with
  | (some res, t) => some (res, { s with toStatState := t })
  | (none, _) => none

/-- The file system of an open file does the rest of the call. -/
def withHandle (fd : Word) (f : MountedFs → SysState → Option (Word × SysState)) (s : SysState) :
    Option (Word × SysState) :=
  (v.accessHandle s.files fd).bind fun fs =>
    match fs with
    | none => some (-EPERM, s)
    | some fs => f fs s

/-- `raw` has the lengths in the memory of the copies, as for `open'`. -/
def syscall_open (raw : ℕ → Word) (new : NewFile) (fuel : ℕ) (name : Option Str) (flags : Word) (s : SysState) :
    Option (Word × SysState) :=
  match name with
  | none => some (-ENOENT, s)
  | some name => (v.access name).bind fun fs =>
      match fs with
      | none => some (-ENOENT, s)
      | some fs => (VFS.stripslash (raw 0) (v.basedir name (some fs))).bind fun base =>
          onFiles (fs.open' raw new fuel (base.init (raw 1)) flags) s

/-- `answers` is what the keyboard gives. Where it does not give enough, the call does not return. -/
def syscall_read (fd buf cnt : Word) (answers : List (Option KeyText)) (raw : Word) (ints : ℕ → Word)
    (s : SysState) : Option (Word × SysState) :=
  if fd = 0 then
    let (c, stores) := syscall_read_keys buf cnt answers s.memory
    c.map fun c => (c, { s with memory := stores.memory })
  else withHandle v fd (fun fs s => fs.read fd buf cnt raw ints s) s

def syscall_write (fd buf cnt : Word) (s : SysState) : Option (Word × SysState) :=
  if fd = 1 ∨ fd = 2 then some (cnt, { s with video := s.video.write (load s.memory buf cnt.toNat) })
  else withHandle v fd (fun fs => onFiles fs.write) s

def syscall_close (fd : Word) (s : SysState) : Option (Word × SysState) :=
  withHandle v fd (fun fs => onFiles (fs.close fd)) s

def syscall_fcntl (fd cmd arg : Word) (s : SysState) : Option (Word × SysState) :=
  withHandle v fd (fun _ s =>
    if cmd = F_SETFD then (s.files.setFcntl fd arg).map fun (res, files) => (res, { s with files })
    else if cmd = F_GETFD then (s.files.getFcntl fd).map fun (res, files) => (res, { s with files })
    else some (-ENOENT, s)) s

end Syscalls

end CxxKernel.Fs
