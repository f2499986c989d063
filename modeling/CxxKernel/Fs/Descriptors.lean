import CxxKernel.Fs.Syscalls

/-! What programs see of the system calls on files: trees of files that are mounted, and descriptors that are cursors
over the contents of the files. -/
namespace CxxKernel.Fs
open Runs

/-- What an open descriptor still has to deliver. -/
inductive Contents
  | file (rest : List Byte)
  | device

/-- A file system: an archive of files that are found by their paths, or the devices. -/
inductive Tree
  | archive (find : Chars → Option (List Byte))
  | devices

def WritesFlags (flags : Word) : Prop :=
  flags &&& O_APPEND ≠ 0 ∨ flags &&& O_CREAT ≠ 0 ∨ flags &&& O_TRUNC ≠ 0 ∨ flags &&& O_TMPFILE ≠ 0 ∨
    flags &&& O_WRONLY ≠ 0 ∨ flags &&& O_RDWR ≠ 0

instance (flags : Word) : Decidable (WritesFlags flags) := inferInstanceAs (Decidable (_ ∨ _))

/-- The devices by their names: "random" and "urandom". -/
def devices : List Str := [[0x72, 0x61, 0x6E, 0x64, 0x6F, 0x6D], [0x75, 0x72, 0x61, 0x6E, 0x64, 0x6F, 0x6D]]

/-- Archives do not look at the flags. -/
def Tree.open (flags : Word) (base : Str) : Tree → Option Contents
  | archive find => (find base.chars).map .file
  | devices => if WritesFlags flags ∨ ¬ Fs.devices.contains base then none else some .device

/-- The first mount that the path starts with, and what is behind it without slashes in front. -/
def resolve (trees : List (Str × Tree)) (path : Str) : Option (Tree × Str) :=
  (trees.find? fun m => path.startsWith m.1).map fun m =>
    (m.2, (path.drop (m.1.length + 1)).dropWhile (· = 0x2F))

structure Descriptor where
  contents : Contents
  flags : Word

/-- The numbers that `open` has returned, and the descriptors that are open. -/
structure Descriptors where
  issued : List Word
  file : Word → Option Descriptor

def Descriptors.empty : Descriptors := ⟨[], fun _ => none⟩

inductive FileCall
  | open (path : Option Str) (flags : Word)
  | read (fd count : Word)
  | write (fd count : Word)
  | close (fd : Word)
  | fcntl (fd cmd arg : Word)

def FileCall.isOpen : FileCall → Bool
  | .open .. => true
  | _ => false

/-- What a call returns, and the bytes that it puts into the buffer of the caller. -/
structure CallResult where
  ret : Word
  bytes : List Byte

/-- The calls on the descriptors. Each call looks at its own descriptor and changes no other. What the keyboard
gives, at handle 0, is left open, and what is written to the console, at 1 and 2, is not kept. -/
inductive Descriptors.Step (trees : List (Str × Tree)) :
    Descriptors → FileCall × CallResult → Descriptors → Prop
  | open_null {a : Descriptors} {flags : Word} : Step trees a (.open none flags, ⟨-ENOENT, []⟩) a
  | open_nowhere {a : Descriptors} {path : Str} {flags : Word} (h : resolve trees path = none) :
      Step trees a (.open (some path) flags, ⟨-ENOENT, []⟩) a
  | open_fails {a : Descriptors} {path base : Str} {flags : Word} {tree : Tree}
      (h : resolve trees path = some (tree, base)) (hopen : tree.open flags base = none) :
      Step trees a (.open (some path) flags, ⟨-1, []⟩) a
  | open {a : Descriptors} {path base : Str} {flags fd : Word} {tree : Tree} {contents : Contents}
      (h : resolve trees path = some (tree, base)) (hopen : tree.open flags base = some contents)
      (hnew : fd ∉ a.issued) (hpos : 3 ≤ fd.toInt) :
      Step trees a (.open (some path) flags, ⟨fd, []⟩)
        ⟨fd :: a.issued, Function.update a.file fd (some ⟨contents, 0⟩)⟩
  | read_file {a : Descriptors} {fd count flags : Word} {rest : List Byte} {ret : Word}
      (h : a.file fd = some ⟨.file rest, flags⟩) (hret : ret.toInt = (rest.take count.toNat).length) :
      Step trees a (.read fd count, ⟨ret, rest.take count.toNat⟩)
        { a with file := Function.update a.file fd (some ⟨.file (rest.drop count.toNat), flags⟩) }
  | read_device {a : Descriptors} {fd count flags : Word} {bytes : List Byte}
      (h : a.file fd = some ⟨.device, flags⟩) (hbytes : bytes.length = count.toNat) :
      Step trees a (.read fd count, ⟨count, bytes⟩) a
  | read_keyboard {a : Descriptors} {count ret : Word} {bytes : List Byte} :
      Step trees a (.read 0 count, ⟨ret, bytes⟩) a
  | write {a : Descriptors} {fd count : Word} {d : Descriptor} (h : a.file fd = some d) :
      Step trees a (.write fd count, ⟨-1, []⟩) a
  | write_console {a : Descriptors} {fd count : Word} (hfd : fd = 1 ∨ fd = 2) :
      Step trees a (.write fd count, ⟨count, []⟩) a
  | close {a : Descriptors} {fd : Word} {d : Descriptor} (h : a.file fd = some d) :
      Step trees a (.close fd, ⟨0, []⟩) { a with file := Function.update a.file fd none }
  | getfd {a : Descriptors} {fd arg : Word} {d : Descriptor} (h : a.file fd = some d) :
      Step trees a (.fcntl fd F_GETFD arg, ⟨d.flags, []⟩) a
  | setfd {a : Descriptors} {fd arg : Word} {d : Descriptor} (h : a.file fd = some d) :
      Step trees a (.fcntl fd F_SETFD arg, ⟨0, []⟩)
        { a with file := Function.update a.file fd (some { d with flags := arg }) }
  | fcntl_other {a : Descriptors} {fd cmd arg : Word} {d : Descriptor} (h : a.file fd = some d)
      (hcmd : cmd ≠ F_GETFD ∧ cmd ≠ F_SETFD) : Step trees a (.fcntl fd cmd arg, ⟨-ENOENT, []⟩) a
  | closed {a : Descriptors} {fd : Word} {call : FileCall} (h : a.file fd = none)
      (hcall : (∃ count, call = .read fd count ∧ fd ≠ 0) ∨
        (∃ count, call = .write fd count ∧ ¬ (fd = 1 ∨ fd = 2)) ∨ call = .close fd ∨
        ∃ cmd arg, call = .fcntl fd cmd arg) :
      Step trees a (call, ⟨-EPERM, []⟩) a

/-- What a call asks for and gets, if it reads through the handle. -/
def readOf (fd : Word) : FileCall × CallResult → Option (ℕ × List Byte)
  | (.read fd' count, r) => if fd' = fd then some (count.toNat, r.bytes) else none
  | _ => none

def FileCall.closes (fd : Word) : FileCall → Prop
  | .close fd' => fd' = fd
  | _ => False

namespace Descriptors
variable {trees : List (Str × Tree)} {a a' : Descriptors} {fd flags : Word} {rest : List Byte}
  {call : FileCall × CallResult} {calls : List (FileCall × CallResult)}

/-- A call takes bytes off an open file if it reads through its handle, and else leaves the file where it is. -/
theorem Step.keeps_file (h : Step trees a call a') (hfile : a.file fd = some ⟨.file rest, flags⟩)
    (hissued : fd ∈ a.issued) (hzero : fd ≠ 0) (hclose : ¬ call.1.closes fd) :
    ∃ n flags', a'.file fd = some ⟨.file (rest.drop n), flags'⟩ ∧ fd ∈ a'.issued ∧
      ((readOf fd call = none ∧ n = 0) ∨ readOf fd call = some (n, rest.take n)) := by
  cases h with
  | open_null => exact ⟨0, flags, hfile, hissued, .inl ⟨rfl, rfl⟩⟩
  | open_nowhere => exact ⟨0, flags, hfile, hissued, .inl ⟨rfl, rfl⟩⟩
  | open_fails => exact ⟨0, flags, hfile, hissued, .inl ⟨rfl, rfl⟩⟩
  | @«open» path base _ fd' tree contents _ _ hnew _ =>
    have hne : fd ≠ fd' := by
      rintro rfl
      exact hnew hissued
    exact ⟨0, flags, (Function.update_of_ne hne ..).trans hfile, List.mem_cons_of_mem _ hissued, .inl ⟨rfl, rfl⟩⟩
  | @read_file fd' count flags' rest' ret hfile' hret =>
    by_cases hfd : fd' = fd
    · subst hfd
      obtain ⟨rfl, rfl⟩ : rest' = rest ∧ flags' = flags := by
        have heq := Option.some.inj (hfile'.symm.trans hfile)
        simp only [Descriptor.mk.injEq, Contents.file.injEq] at heq
        exact heq
      exact ⟨count.toNat, flags', Function.update_self .., hissued, .inr (if_pos rfl)⟩
    · exact ⟨0, flags, (Function.update_of_ne (Ne.symm hfd) ..).trans hfile, hissued, .inl ⟨if_neg hfd, rfl⟩⟩
  | @read_device fd' count flags' bytes hfile' hbytes =>
    have hne : fd' ≠ fd := by
      rintro rfl
      cases hfile'.symm.trans hfile
    exact ⟨0, flags, hfile, hissued, .inl ⟨if_neg hne, rfl⟩⟩
  | read_keyboard => exact ⟨0, flags, hfile, hissued, .inl ⟨if_neg (Ne.symm hzero), rfl⟩⟩
  | write => exact ⟨0, flags, hfile, hissued, .inl ⟨rfl, rfl⟩⟩
  | write_console => exact ⟨0, flags, hfile, hissued, .inl ⟨rfl, rfl⟩⟩
  | @close fd' d hfile' =>
    exact ⟨0, flags, (Function.update_of_ne (Ne.symm hclose) ..).trans hfile, hissued, .inl ⟨rfl, rfl⟩⟩
  | getfd => exact ⟨0, flags, hfile, hissued, .inl ⟨rfl, rfl⟩⟩
  | @setfd fd' arg d hfile' =>
    by_cases hfd : fd' = fd
    · subst hfd
      obtain rfl := Option.some.inj (hfile'.symm.trans hfile)
      exact ⟨0, arg, Function.update_self .., hissued, .inl ⟨rfl, rfl⟩⟩
    · exact ⟨0, flags, (Function.update_of_ne (Ne.symm hfd) ..).trans hfile, hissued, .inl ⟨rfl, rfl⟩⟩
  | fcntl_other => exact ⟨0, flags, hfile, hissued, .inl ⟨rfl, rfl⟩⟩
  | @closed fd' call hnone hcall =>
    refine ⟨0, flags, hfile, hissued, .inl ⟨?_, rfl⟩⟩
    rcases hcall with ⟨count, rfl, -⟩ | ⟨count, rfl, -⟩ | rfl | ⟨cmd, arg, rfl⟩
    · have hne : fd' ≠ fd := by
        rintro rfl
        exact absurd (hnone.symm.trans hfile) (by simp)
      exact if_neg hne
    · rfl
    · rfl
    · rfl

/-- Whatever calls come between them, the reads through a handle take the file off from where it stands. -/
theorem run_keeps_file (h : Run (Step trees) a calls a') (hfile : a.file fd = some ⟨.file rest, flags⟩)
    (hissued : fd ∈ a.issued) (hzero : fd ≠ 0) (hclose : ∀ call ∈ calls, ¬ call.1.closes fd) :
    ((calls.filterMap (readOf fd)).map Prod.snd).flatten =
      rest.take ((calls.filterMap (readOf fd)).map Prod.fst).sum := by
  induction h generalizing rest flags with
  | nil => rfl
  | @cons a b c call calls hstep _ ih =>
    obtain ⟨n, flags', hfile', hissued', hread⟩ :=
      hstep.keeps_file hfile hissued hzero (hclose call List.mem_cons_self)
    have hrest := ih hfile' hissued' fun call hmem => hclose call (List.mem_cons_of_mem _ hmem)
    rcases hread with ⟨hnone, rfl⟩ | hsome
    · rw [List.filterMap_cons_none hnone, hrest, List.drop_zero]
    · rw [List.filterMap_cons_some hsome, List.map_cons, List.flatten_cons, hrest, List.map_cons, List.sum_cons,
        List.take_add]

theorem Step.opened {path base : Str} {tree : Tree} {contents : Contents} {ret : Word}
    (h : Step trees a (.open (some path) flags, ⟨ret, []⟩) a') (hresolve : resolve trees path = some (tree, base))
    (hdata : tree.open flags base = some contents) :
    3 ≤ ret.toInt ∧ ret ∈ a'.issued ∧ a'.file ret = some ⟨contents, 0⟩ := by
  cases h with
  | open_nowhere hno => exact absurd (hno.symm.trans hresolve) (by simp)
  | open_fails htree hno =>
    obtain ⟨rfl, rfl⟩ := Prod.mk.inj (Option.some.inj (htree.symm.trans hresolve))
    exact absurd (hno.symm.trans hdata) (by simp)
  | «open» htree hsome hnew hpos =>
    obtain ⟨rfl, rfl⟩ := Prod.mk.inj (Option.some.inj (htree.symm.trans hresolve))
    obtain rfl := Option.some.inj (hsome.symm.trans hdata)
    exact ⟨hpos, List.mem_cons_self, Function.update_self ..⟩
  | closed _ hcall =>
    rcases hcall with ⟨_, h, -⟩ | ⟨_, h, -⟩ | h | ⟨_, _, h⟩
    · cases h
    · cases h
    · cases h
    · cases h

end Descriptors

end CxxKernel.Fs
