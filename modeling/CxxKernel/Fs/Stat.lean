import CxxKernel.Clothes.Paths
import CxxKernel.Fs.FileIO
import CxxKernel.Fs.UstarPath
import CxxKernel.Lib.Fallible

/-! `syscall_stat` and `syscall_fstat`, and the functions `open` and `stat` of the three file systems. -/
namespace CxxKernel.Fs
open Containers Fallible Text
open Clothes (ClothesFS META_FILE)

def O_RDONLY : Word := 0
def O_WRONLY : Word := 0o1
def O_RDWR : Word := 0o2
def O_CREAT : Word := 0o100
def O_TRUNC : Word := 0o1000
def O_APPEND : Word := 0o2000
def O_TMPFILE : Word := 0o20200000

/-- The characters as the file systems compare them. -/
def Str.chars (s : Str) : Chars := s.map UInt8.toBitVec

/-- "/proc/self/fd/3". -/
def procSelfFd3 : Str := [0x2F, 0x70, 0x72, 0x6F, 0x63, 0x2F, 0x73, 0x65, 0x6C, 0x66, 0x2F, 0x66, 0x64, 0x2F, 0x33]

/-- The fields of `struct stat` that are set. -/
structure Stat where
  st_dev : BitVec 64
  st_ino : BitVec 64
  st_mode : Word
  st_nlink : Word
  st_uid : Word
  st_rdev : BitVec 64
  st_size : BitVec 64
  st_blksize : Word
  st_blocks : BitVec 64

def Stat.zero : Stat := ⟨0, 0, 0, 0, 0, 0, 0, 0, 0⟩

/-- The file systems that can be mounted. -/
inductive MountedFs
  | ustar (m_ustar : Ustar) (m_mountpoint : Str)
  | clothes (m_clothes : ClothesFS) (disk : Clothes.Disk) (m_mountpoint : Str)
  | dev (m_mountpoint : Str)

inductive FileIterator
  | ustar (it : Ustar.Iterator)
  | clothes (it : Clothes.Iterator)

/-- The open files, the iterators that they point to, and the structures `stat` that callers pass. -/
structure StatState where
  files : Filesystem MountedFs Ptr
  iterators : Ptr → Option FileIterator
  stats : Ptr → Stat

/-- The addresses that `new` returns: for the node of the list, for the `FileData` and for the iterator. -/
structure NewFile where
  node : Ptr
  file : Ptr
  data : Ptr

/-- The list of the open files and their data are the same. -/
def SameFiles (s s' : StatState) : Prop :=
  s'.files.m_files = s.files.m_files ∧ s'.files.data = s.files.data

instance : Std.Refl SameFiles := ⟨fun _ => ⟨rfl, rfl⟩⟩

instance : IsTrans StatState SameFiles := ⟨fun _ _ _ h h' => ⟨h'.1.trans h.1, h'.2.trans h.2⟩⟩

/-- The call fails with -1 and `errno`. -/
def failWith (errno : Word) : Prog StatState Word :=
  step fun s => (-1, { s with files := { s.files with errno } })

def newIterator (data : Ptr) (it : FileIterator) : Prog StatState Unit :=
  step fun s => ((), { s with iterators := Function.update s.iterators data (some it) })

def mapfile (raw : ℕ → Word) (new : NewFile) (fs : Str) (name : Value) (owner : MountedFs) (custom : Option Ptr) :
    Prog StatState Word :=
  OptionT.mk fun s =>
    match s.files.mapfile raw new.node new.file (.text fs) name (some owner) custom with
    | none => (none, s)
    | some (id, files) => (some id, { s with files })

def setStat (st : Ptr) (f : Stat → Stat) : Prog StatState Unit :=
  step fun s => ((), { s with stats := Function.update s.stats st (f (s.stats st)) })

/-- The character that `Iterator::type` takes for `TYPE_FILE`. -/
def TYPE_FILE : Byte := 0x30

/-- The type of the entry, which is in the header. -/
def Ustar.Iterator.type (it : Ustar.Iterator) : Byte := it.data 156

/-- `assign` leaves out `m_pos`. -/
def Ustar.Iterator.assign (it : Ustar.Iterator) : Ustar.Iterator := { it with pos := 0 }

def clothesAssign (it : Clothes.Iterator) : Clothes.Iterator := { it with pos := 0 }

/-- `UstarFilesystem::findFile` for the path that it is given. Names are compared by their lengths first, so that a
path without a buffer stops at a name of its length; then the characters are looked up at null. -/
def UstarFilesystem.findFile (m_ustar : Ustar) (fuel : ℕ) : Value → Option Ustar.Iterator
  | .text path => m_ustar.findFile nameString fuel (Str.chars path) 0 0
  | .null m_length =>
    let name (data : Buffer) := if (nameString data).length = m_length.toNat then [] else [0]
    (m_ustar.findFile name fuel [] 0 0).bind fun iter => if iter.ok ∧ m_length ≠ 0 then none else some iter

section Open
variable (this : MountedFs) (raw : ℕ → Word) (new : NewFile) (fuel : ℕ) (path : Value)

/-- `ClothesFilesystem::findFile`. A path without a buffer has no slashes, and its part is the empty name. -/
def ClothesFilesystem.findFile (m_clothes : ClothesFS) (disk : Clothes.Disk) : Option Clothes.Iterator :=
  match path.init (raw 2) with
  | .text path => m_clothes.findFile disk fuel (Str.chars path) 0 1
  | .null m_length =>
    (pathParts (raw 3) (.null m_length)).bind fun _ => (pathPart (raw 4) (.null m_length) 0).bind fun _ =>
      m_clothes.findFile disk fuel [] 0 1

/-- `raw` has the lengths in the memory of the copies: that of `stripslash` is the first one, that which `open` is
given the second. -/
def UstarFilesystem.open (m_ustar : Ustar) (_flags : Word) : Prog StatState Word := do
  let iter ← look fun _ => UstarFilesystem.findFile m_ustar fuel (path.init (raw 2))
  if ¬ iter.ok then failWith ENOENT
  else if iter.type ≠ TYPE_FILE then failWith EPERM
  else
    newIterator new.data (.ustar iter.assign)
    mapfile (fun i => raw (5 + i)) new [0x55, 0x73, 0x74, 0x61, 0x72] path this (some new.data)

def ClothesFilesystem.open (m_clothes : ClothesFS) (disk : Clothes.Disk) (_flags : Word) :
    Prog StatState Word := do
  let iter ← look fun _ => ClothesFilesystem.findFile raw fuel path m_clothes disk
  if ¬ iter.ok then failWith ENOENT
  else if iter.type &&& META_FILE = 0 then failWith EPERM
  else
    newIterator new.data (.clothes (clothesAssign iter))
    mapfile (fun i => raw (5 + i)) new [0x43, 0x6C, 0x6F, 0x74, 0x68, 0x65, 0x73, 0x46, 0x53] path this
      (some new.data)

/-- The comparison with "random" and "urandom". -/
def DevFS.isDevice : Option Bool :=
  (path.eq (.text [0x72, 0x61, 0x6E, 0x64, 0x6F, 0x6D])).bind fun same =>
    if same then some true else path.eq (.text [0x75, 0x72, 0x61, 0x6E, 0x64, 0x6F, 0x6D])

def DevFS.open (flags : Word) : Prog StatState Word :=
  if flags &&& O_APPEND ≠ 0 ∨ flags &&& O_CREAT ≠ 0 ∨ flags &&& O_TRUNC ≠ 0 ∨ flags &&& O_TMPFILE ≠ 0 ∨
      flags &&& O_WRONLY ≠ 0 ∨ flags &&& O_RDWR ≠ 0 then failWith EPERM
  else do
    let found ← look fun _ => DevFS.isDevice path
    if found then mapfile (fun i => raw (5 + i)) new [0x44, 0x65, 0x76, 0x46, 0x53] path this none
    else failWith ENOENT

end Open

/-- `st` is written to without a look at it. -/
def UstarFilesystem.stat (fd : Word) (st : Option Ptr) : Prog StatState Word := do
  let data ← look fun s => s.files.getCustom fd
  match data with
  | none => pure (-ENOENT)
  | some data =>
    let it ← look fun s =>
      match s.iterators data with
      | some (.ustar it) => some it
      | _ => none
    let st ← look fun _ => st
    setStat st fun sb => { sb with
      st_size := it.size
      st_blksize := Ustar.blockSize
      st_blocks := (it.size + Ustar.blockSize.setWidth 64 - 1).sdiv (Ustar.blockSize.setWidth 64)
      st_ino := it.block.setWidth 64 }
    pure 0

namespace MountedFs

def mountpoint : MountedFs → Str
  | ustar _ m_mountpoint => m_mountpoint
  | clothes _ _ m_mountpoint => m_mountpoint
  | dev m_mountpoint => m_mountpoint

def getDevId (_ : MountedFs) : Word := 0

/-- The virtual function `open`. -/
def open' (raw : ℕ → Word) (new : NewFile) (fuel : ℕ) (path : Value) (flags : Word) : MountedFs → Prog StatState Word
  | this@(ustar m_ustar _) => UstarFilesystem.open this raw new fuel path m_ustar flags
  | this@(clothes m_clothes disk _) => ClothesFilesystem.open this raw new fuel path m_clothes disk flags
  | this@(dev _) => DevFS.open this raw new path flags

/-- The virtual function `stat`. -/
def stat (fd : Word) (st : Option Ptr) : MountedFs → Prog StatState Word
  | ustar .. => UstarFilesystem.stat fd st
  | clothes .. => pure (-1)
  | dev _ => pure (-1)

/-- `open` comes to a file of the file system that it can open. -/
def Finds (raw : ℕ → Word) (fuel : ℕ) (path : Value) : MountedFs → Prop
  | ustar m_ustar _ =>
    ∃ iter, UstarFilesystem.findFile m_ustar fuel (path.init (raw 2)) = some iter ∧ iter.ok ∧ iter.type = TYPE_FILE
  | clothes m_clothes disk _ =>
    ∃ iter, ClothesFilesystem.findFile raw fuel path m_clothes disk = some iter ∧ iter.ok ∧
      iter.type &&& META_FILE ≠ 0
  | dev _ => DevFS.isDevice path = some true

end MountedFs

namespace VFS
variable (v : VFS MountedFs)

def syscall_fstat (fd : Word) : Option Ptr → Prog StatState Word
  | none => pure (-EINVAL)
  | some sb =>
    if 0 ≤ fd.toInt ∧ fd.toInt ≤ 2 then do
      setStat sb fun _ => { Stat.zero with
        st_dev := 24
        st_ino := 13
        st_mode := 0o20620
        st_nlink := 1
        st_rdev := 34826
        st_blksize := 1024 }
      pure 0
    else if 3 ≤ fd.toInt then do
      let fs ← look fun s => v.accessHandle s.files fd
      match fs with
      | none => pure (-EPERM)
      | some fs =>
        setStat sb fun _ => { Stat.zero with
          st_dev := fs.getDevId.setWidth 64
          st_mode := 0o20600
          st_nlink := 1
          st_rdev := 34826 }
        fs.stat fd (some sb)
    else pure (-ENOENT)

def syscall_stat (raw : ℕ → Word) (new : NewFile) (fuel : ℕ) (pathname : Option Str) (statbuf : Option Ptr) :
    Prog StatState Word :=
  match pathname with
  | none => pure (-ENOENT)
  | some pathname =>
    if procSelfFd3 = pathname then v.syscall_fstat 3 statbuf
    else do
      let fs ← look fun _ => v.access pathname
      match fs with
      | none => pure (-ENOENT)
      | some fs =>
        let base ← look fun _ => stripslash (raw 0) (v.basedir pathname (some fs))
        let fd ← fs.open' raw new fuel (base.init (raw 1)) O_RDONLY
        if fd.toInt < 0 then pure (-ENOENT)
        else
          let res ← fs.stat fd statbuf
          pure (if res.toInt < 0 then -EBADF else res)

/-- The path is resolved to a file system, and the rest of it to a file there. -/
def Finds (mounts : List MountedFs) (raw : ℕ → Word) (fuel : ℕ) (pathname : Option Str) : Prop :=
  ∃ path fs base, pathname = some path ∧ path ≠ procSelfFd3 ∧
    mounts.find? (fun fs => path.startsWith (v.mountpoint fs)) = some fs ∧
    stripslash (raw 0) (v.basedir path (some fs)) = some base ∧ fs.Finds raw fuel (base.init (raw 1))

/-- After a call of `syscall_stat` the open files are those of before, wherever it has ended. -/
def StatLaw (raw : ℕ → Word) (new : NewFile) (s : StatState) (l : List (Ptr × FileData MountedFs Ptr))
    (pathname : Option Str) (statbuf : Option Ptr) : Prop :=
  ∀ fuel, Opened (exec (v.syscall_stat raw new fuel pathname statbuf) s).2.files l

end VFS

section Frame
variable {s s' : StatState} {l : List (Ptr × FileData MountedFs Ptr)} {raw : ℕ → Word} {new : NewFile}
  {fuel : ℕ} {path : Value} {fs : MountedFs}

theorem SameFiles.opened (h : SameFiles s s') (hs : Opened s.files l) : Opened s'.files l := by
  obtain ⟨hlist, hdata⟩ := h
  refine ⟨?_, ?_, hs.nodup, hs.handles⟩
  · rw [hlist]
    exact hs.holds
  · rw [hdata]
    exact hs.data

theorem keeps_look {α : Type} (f : StatState → Option α) : Keeps SameFiles (look f) := fun _ => ⟨rfl, rfl⟩

theorem keeps_failWith (errno : Word) : Keeps SameFiles (failWith errno) := fun _ => ⟨rfl, rfl⟩

theorem keeps_setStat (st : Ptr) (f : Stat → Stat) : Keeps SameFiles (setStat st f) := fun _ => ⟨rfl, rfl⟩

theorem keeps_stat (fs : MountedFs) (fd : Word) (st : Option Ptr) : Keeps SameFiles (fs.stat fd st) := by
  cases fs with
  | ustar =>
    refine (keeps_look _).bind fun data => ?_
    cases data with
    | none => exact keeps_pure _
    | some data =>
      exact (keeps_look _).bind fun it => (keeps_look _).bind fun st =>
        (keeps_setStat st _).bind fun _ => keeps_pure _
  | clothes => exact keeps_pure _
  | dev => exact keeps_pure _

theorem keeps_fstat (v : VFS MountedFs) (fd : Word) (sb : Option Ptr) :
    Keeps SameFiles (v.syscall_fstat fd sb) := by
  cases sb with
  | none => exact keeps_pure _
  | some sb =>
    rw [VFS.syscall_fstat]
    split_ifs
    · exact (keeps_setStat _ _).bind fun _ => keeps_pure _
    · refine (keeps_look _).bind fun fs => ?_
      cases fs with
      | none => exact keeps_pure _
      | some fs => exact (keeps_setStat _ _).bind fun _ => keeps_stat fs fd _
    · exact keeps_pure _

theorem mapfile_size (h : Opened s.files l) (hnode : s.files.m_files.mem new.node = none) (raw : ℕ → Word)
    (type : Str)
    (name : Value) (owner : MountedFs) (custom : Option Ptr) :
    (exec (mapfile raw new type name owner custom) s).2.files.m_files.size.toNat = l.length + 1 := by
  obtain ⟨m_files, happend, hm⟩ := h.holds.append hnode new.file
  have hsize : m_files.size.toNat = l.length + 1 := by
    rw [hm.size_toNat, List.length_append, List.length_map]
    rfl
  obtain ⟨id, files, hmap, hfiles⟩ : ∃ id files,
      s.files.mapfile raw new.node new.file (.text type) name (some owner) custom = some (id, files) ∧
        files.m_files = m_files := by
    rw [Filesystem.mapfile, happend]
    exact ⟨_, _, rfl, rfl⟩
  have hexec : exec (mapfile raw new type name owner custom) s =
      match s.files.mapfile raw new.node new.file (.text type) name (some owner) custom with
      | none => (none, s)
      | some (id, files) => (some id, { s with files }) := rfl
  rw [hexec, hmap]
  dsimp only
  rw [hfiles]
  exact hsize

theorem newFile_size (h : Opened s.files l) (hnode : s.files.m_files.mem new.node = none) (it : FileIterator)
    (raw : ℕ → Word) (type : Str) (name : Value) (owner : MountedFs) (custom : Option Ptr) :
    (exec (newIterator new.data it >>= fun _ => mapfile raw new type name owner custom)
      s).2.files.m_files.size.toNat = l.length + 1 := by
  rw [exec_bind, newIterator, exec_step]
  exact mapfile_size (s := { s with iterators := Function.update s.iterators new.data (some it) }) h hnode
    raw type name owner custom

theorem MountedFs.open_same (h : ¬ fs.Finds raw fuel path) (new : NewFile) (s : StatState) :
    SameFiles s (exec (fs.open' raw new fuel path O_RDONLY) s).2 := by
  cases fs with
  | ustar m_ustar m_mountpoint =>
    dsimp only [open', UstarFilesystem.open]
    rw [exec_look_bind]
    cases hfind : UstarFilesystem.findFile m_ustar fuel (path.init (raw 2)) with
    | none => exact ⟨rfl, rfl⟩
    | some iter =>
      dsimp only
      by_cases hok : iter.ok
      · rw [if_neg (not_not.mpr hok)]
        by_cases htype : iter.type = TYPE_FILE
        · exact absurd ⟨iter, hfind, hok, htype⟩ h
        · rw [if_pos htype]
          exact keeps_failWith _ s
      · rw [if_pos hok]
        exact keeps_failWith _ s
  | clothes m_clothes disk m_mountpoint =>
    dsimp only [open', ClothesFilesystem.open]
    rw [exec_look_bind]
    cases hfind : ClothesFilesystem.findFile raw fuel path m_clothes disk with
    | none => exact ⟨rfl, rfl⟩
    | some iter =>
      dsimp only
      by_cases hok : iter.ok
      · rw [if_neg (not_not.mpr hok)]
        by_cases htype : iter.type &&& META_FILE = 0
        · rw [if_pos htype]
          exact keeps_failWith _ s
        · exact absurd ⟨iter, hfind, hok, htype⟩ h
      · rw [if_pos hok]
        exact keeps_failWith _ s
  | dev =>
    dsimp only [open', DevFS.open]
    split_ifs with hflags
    · exact keeps_failWith _ s
    · rw [exec_look_bind]
      cases hfound : DevFS.isDevice path with
      | none => exact ⟨rfl, rfl⟩
      | some found =>
        cases found with
        | true => exact absurd hfound h
        | false => exact keeps_failWith _ s

theorem MountedFs.open_adds (h : fs.Finds raw fuel path) (hs : Opened s.files l)
    (hnode : s.files.m_files.mem new.node = none) :
    (exec (fs.open' raw new fuel path O_RDONLY) s).2.files.m_files.size.toNat = l.length + 1 := by
  cases fs with
  | ustar m_ustar m_mountpoint =>
    obtain ⟨iter, hfind, hok, htype⟩ := h
    dsimp only [open', UstarFilesystem.open]
    rw [exec_look_bind, hfind]
    dsimp only
    rw [if_neg (not_not.mpr hok), if_neg (not_not.mpr htype)]
    exact newFile_size hs hnode _ _ _ _ _ _
  | clothes m_clothes disk m_mountpoint =>
    obtain ⟨iter, hfind, hok, htype⟩ := h
    dsimp only [open', ClothesFilesystem.open]
    rw [exec_look_bind, hfind]
    dsimp only
    rw [if_neg (not_not.mpr hok), if_neg htype]
    exact newFile_size hs hnode _ _ _ _ _ _
  | dev =>
    have hpath : DevFS.isDevice path = some true := h
    have hflags : ¬ (O_RDONLY &&& O_APPEND ≠ 0 ∨ O_RDONLY &&& O_CREAT ≠ 0 ∨ O_RDONLY &&& O_TRUNC ≠ 0 ∨
        O_RDONLY &&& O_TMPFILE ≠ 0 ∨ O_RDONLY &&& O_WRONLY ≠ 0 ∨ O_RDONLY &&& O_RDWR ≠ 0) := by decide
    dsimp only [open', DevFS.open]
    rw [if_neg hflags, exec_look_bind, hpath]
    exact mapfile_size hs hnode _ _ _ _ _

end Frame

namespace VFS
variable {v : VFS MountedFs} {mounts : List MountedFs} {s : StatState} {raw : ℕ → Word} {new : NewFile}
  {fuel : ℕ} {pathname : Option Str} {statbuf : Option Ptr} {l : List (Ptr × FileData MountedFs Ptr)}

theorem keeps_statOpened (fs : MountedFs) (statbuf : Option Ptr) (fd : Word) : Keeps SameFiles
    (if fd.toInt < 0 then pure (-ENOENT) else do
      let res ← fs.stat fd statbuf
      pure (if res.toInt < 0 then -EBADF else res)) := by
  split_ifs
  · exact keeps_pure _
  · exact (keeps_stat fs fd statbuf).bind fun res => keeps_pure _

theorem stat_same (hm : v.m_mounts.Holds mounts) (h : ¬ v.Finds mounts raw fuel pathname) :
    SameFiles s (exec (v.syscall_stat raw new fuel pathname statbuf) s).2 := by
  cases pathname with
  | none => exact ⟨rfl, rfl⟩
  | some path =>
    rw [syscall_stat]
    by_cases hproc : procSelfFd3 = path
    · rw [if_pos hproc]
      exact keeps_fstat v 3 statbuf s
    rw [if_neg hproc, exec_look_bind, access_eq hm]
    cases hfind : mounts.find? fun fs => path.startsWith (v.mountpoint fs) with
    | none => exact ⟨rfl, rfl⟩
    | some fs =>
      dsimp only
      rw [exec_look_bind]
      cases hbase : stripslash (raw 0) (v.basedir path (some fs)) with
      | none => exact ⟨rfl, rfl⟩
      | some base =>
        have hnot : ¬ fs.Finds raw fuel (base.init (raw 1)) :=
          fun hfs => h ⟨path, fs, base, rfl, Ne.symm hproc, hfind, hbase, hfs⟩
        have hopen := MountedFs.open_same hnot new s
        dsimp only
        rw [exec_bind]
        generalize exec (fs.open' raw new fuel (base.init (raw 1)) O_RDONLY) s = r at hopen
        obtain ⟨_ | fd, t⟩ := r
        · exact hopen
        · exact trans_of SameFiles hopen (keeps_statOpened fs statbuf fd t)

theorem stat_adds (hm : v.m_mounts.Holds mounts) (h : v.Finds mounts raw fuel pathname)
    (hs : Opened s.files l) (hnode : s.files.m_files.mem new.node = none) (statbuf : Option Ptr) :
    (exec (v.syscall_stat raw new fuel pathname statbuf) s).2.files.m_files.size.toNat = l.length + 1 := by
  obtain ⟨path, fs, base, rfl, hproc, hfind, hbase, hfs⟩ := h
  have hopen := MountedFs.open_adds hfs hs hnode
  rw [syscall_stat, if_neg (Ne.symm hproc), exec_look_bind, access_eq hm, hfind]
  dsimp only
  rw [exec_look_bind, hbase]
  dsimp only
  rw [exec_bind]
  generalize exec (fs.open' raw new fuel (base.init (raw 1)) O_RDONLY) s = r at hopen
  obtain ⟨_ | fd, t⟩ := r
  · exact hopen
  · have hsame := keeps_statOpened fs statbuf fd t
    dsimp only
    rw [hsame.1]
    exact hopen

def devRandom : Str := [0x2F, 0x64, 0x65, 0x76, 0x2F, 0x72, 0x61, 0x6E, 0x64, 0x6F, 0x6D]

def devMount : MountedFs := .dev [0x2F, 0x64, 0x65, 0x76]

def noFiles : StatState := ⟨.new, fun _ => none, fun _ => .zero⟩

theorem newNode_ne_zero : (8 : Word) ≠ 0 := by decide

theorem newEntry_ne_zero : (12 : Word) ≠ 0 := by decide

theorem newData_ne_zero : (16 : Word) ≠ 0 := by decide

/-- Where the allocator puts the next file. -/
def newFile : NewFile := ⟨⟨8, newNode_ne_zero⟩, ⟨12, newEntry_ne_zero⟩, ⟨16, newData_ne_zero⟩⟩

theorem opened_noFiles : Opened noFiles.files [] :=
  ⟨LinkedList.holds_new, fun _ hx => absurd hx List.not_mem_nil, List.nodup_nil, List.nodup_nil⟩

theorem finds_devRandom (hpoint : v.mountpoint = MountedFs.mountpoint) (raw : ℕ → Word) (fuel : ℕ) :
    v.Finds [devMount] raw fuel (some devRandom) := by
  refine ⟨devRandom, devMount, .text [0x72, 0x61, 0x6E, 0x64, 0x6F, 0x6D], rfl, by decide, ?_, ?_, ?_⟩
  · rw [hpoint]
    rfl
  · rw [basedir, hpoint]
    rfl
  · exact (by decide : DevFS.isDevice (.text [0x72, 0x61, 0x6E, 0x64, 0x6F, 0x6D]) = some true)

/-- `syscall_stat` opens each file that it finds, and does not close it. It leaves the open files as they
were exactly when it finds none. -/
theorem statLaw_iff (hm : v.m_mounts.Holds mounts) (hs : Opened s.files l)
    (hnode : s.files.m_files.mem new.node = none) :
    v.StatLaw raw new s l pathname statbuf ↔ ∀ fuel, ¬ v.Finds mounts raw fuel pathname := by
  refine forall_congr' fun fuel => ⟨fun h hfinds => ?_, fun h => (stat_same hm h).opened hs⟩
  have hsize := stat_adds hm hfinds hs hnode statbuf
  rw [h.size_toNat] at hsize
  omega

theorem statLaw_iff_random : ∃ v : VFS MountedFs, v.m_mounts.Holds [devMount] ∧
    (v.StatLaw (fun _ => 9) newFile noFiles [] (some devRandom) none ↔
      ∀ fuel, ¬ v.Finds [devMount] (fun _ => 9) fuel (some devRandom)) := by
  obtain ⟨v, -, -, hv⟩ := @mount_holds MountedFs ⟨MountedFs.mountpoint, .new⟩ [] ⟨8, by decide⟩
    LinkedList.holds_new rfl devMount
  exact ⟨v, hv, statLaw_iff hv opened_noFiles rfl⟩

/-- With no file open, a call of `stat` for "/dev/random" leaves one open, whatever memory the copies are made in. -/
theorem not_statLaw_random : ∃ v : VFS MountedFs, v.m_mounts.Holds [devMount] ∧ Opened noFiles.files [] ∧
    ∀ raw, ¬ v.StatLaw raw newFile noFiles [] (some devRandom) (some ⟨20, by decide⟩) := by
  obtain ⟨v, -, hpoint, hv⟩ := @mount_holds MountedFs ⟨MountedFs.mountpoint, .new⟩ [] ⟨8, by decide⟩
    LinkedList.holds_new rfl devMount
  refine ⟨v, hv, opened_noFiles, fun raw h => ?_⟩
  have hnode : noFiles.files.m_files.mem newFile.node = none := rfl
  have hsize := stat_adds hv (finds_devRandom hpoint raw 0) opened_noFiles hnode (some ⟨20, by decide⟩)
  rw [(h 0).size_toNat] at hsize
  exact absurd hsize (by decide)

end VFS

end CxxKernel.Fs
