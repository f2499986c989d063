import CxxKernel.Fs.OpenFiles
import CxxKernel.Fs.UstarRead

/-! `syscall_read` and `syscall_readv`, and `UstarFilesystem::read` behind them. What the console does with
the handles 0 to 2 is a parameter. -/
namespace CxxKernel.Fs
open Containers Cursor Ustar

def EPERM : Word := 1
def EINVAL : Word := 22

/-- The open files, the iterators that they point to, and the memory of the caller. -/
structure FileState (φ : Type) where
  files : Filesystem φ Ptr
  iterators : Ptr → Option Iterator
  memory : Word → Byte

/-- The bytes are in memory from the address on. -/
def store (memory : Word → Byte) (dest : Word) (bytes : List Byte) : Word → Byte := fun x =>
  if (x - dest).toNat < bytes.length then bytes.getD (x - dest).toNat 0 else memory x

def load (memory : Word → Byte) (src : Word) (len : ℕ) : List Byte :=
  (List.range len).map fun i => memory (src + BitVec.ofNat 32 i)

/-- The name that is looked up first is not used, so that the memory of its copy does not matter. -/
def UstarFilesystem.read {φ : Type} (m_ustar : Ustar) (fh buf count : Word) (s : FileState φ) :
    Option (Word × FileState φ) :=
  (s.files.getName 0 fh).bind fun _ => (s.files.getCustom fh).bind fun data =>
    match data with
    | none => some (-1, { s with files := { s.files with errno := ENOENT } })
    | some data => (s.iterators data).map fun it =>
        let (readcnt, bytes, it) := m_ustar.read it (count.setWidth 64)
        (readcnt, { s with
          iterators := Function.update s.iterators data (some it)
          memory := store s.memory buf bytes })

structure IoVec where
  iov_base : Word
  iov_len : Word

section Readv
variable {σ : Type} (read : Word → Word → σ → Option (Word × σ))

/-- The loop that fills one vector, with at most `fuel` looks at its condition. -/
def readvInner (len : Word) : ℕ → Word → Word → σ → Option (Word × σ)
  | 0, _, _, _ => none
  | fuel + 1, target, got, s =>
    if got < len then
      (read target (len - got) s).bind fun (rcnt, s) =>
        if rcnt ≤ 0 then some (got, s) else readvInner len fuel (target + rcnt) (got + rcnt) s
    else some (got, s)

def readvLoop (fuel : ℕ) : List IoVec → Word → σ → Option (Word × σ)
  | [], cnt, s => some (cnt, s)
  | v :: iov, cnt, s =>
    if v.iov_len.toInt < 0 then some (-EINVAL, s)
    else (readvInner read v.iov_len fuel v.iov_base 0 s).bind fun (got, s) =>
      readvLoop fuel iov (cnt + got) s

end Readv

namespace VFS
variable {φ : Type} (v : VFS φ) (fsRead : φ → Word → Word → Word → FileState φ → Option (Word × FileState φ))

/-- `fsRead` is the virtual function `read`, and `kbRead` is the branch for the keyboard. -/
def syscall_read (kbRead : Word → Word → FileState φ → Option (Word × FileState φ)) (fd buf cnt : Word)
    (s : FileState φ) : Option (Word × FileState φ) :=
  if fd = 0 then kbRead buf cnt s
  else (v.accessHandle s.files fd).bind fun fs =>
    match fs with
    | none => some (-EPERM, s)
    | some fs => fsRead fs fd buf cnt s

def syscall_readv (kbReadv : List IoVec → FileState φ → Option (Word × FileState φ)) (fuel : ℕ) (fd : Word)
    (iov : List IoVec) (s : FileState φ) : Option (Word × FileState φ) :=
  if fd = 1 ∨ fd = 2 then some (-EPERM, s)
  else if fd = 0 then kbReadv iov s
  else (v.accessHandle s.files fd).bind fun fs =>
    match fs with
    | none => some (-EPERM, s)
    | some fs => readvLoop (fun target len s => fsRead fs fd target len s) fuel iov 0 s

end VFS

/-- The file with handle `fd` is open, belongs to the Ustar file system `fs`, and has the iterator `it`.
The handles 0 to 2 are those of the console, and `mapfile` counts from 3 on. -/
structure OpenUstar {φ : Type} (v : VFS φ)
    (fsRead : φ → Word → Word → Word → FileState φ → Option (Word × FileState φ)) (fs : Ustar) (fd : Word)
    (s : FileState φ) (data : Ptr) (it : Iterator) : Prop where
  handle : 3 ≤ fd.toNat
  access : ∃ owner, v.accessHandle s.files fd = some (some owner) ∧ fsRead owner = UstarFilesystem.read fs
  name : ∃ name, s.files.getName 0 fd = some name
  custom : s.files.getCustom fd = some (some data)
  iterator : s.iterators data = some it

section Memory
variable {memory : Word → Byte} {dest : Word} {bytes : List Byte}

@[simp] theorem store_nil (memory : Word → Byte) (dest : Word) : store memory dest [] = memory := by
  funext x
  simp [store]

theorem store_apply {i : ℕ} (hi : i < bytes.length) (hlen : bytes.length < 2 ^ 32) :
    store memory dest bytes (dest + BitVec.ofNat 32 i) = bytes[i] := by
  have hback : (dest + BitVec.ofNat 32 i - dest).toNat = i := by
    rw [BitVec.add_comm, BitVec.add_sub_cancel, BitVec.toNat_ofNat]
    omega
  rw [store, hback, if_pos hi, List.getD_eq_getElem bytes 0 hi]

theorem load_store (hlen : bytes.length < 2 ^ 32) : load (store memory dest bytes) dest bytes.length = bytes := by
  apply List.ext_getElem
  · rw [load, List.length_map, List.length_range]
  · intro i _ hi
    simp only [load, List.getElem_map, List.getElem_range]
    exact store_apply hi hlen

/-- The bytes are put into the vectors, in order. -/
def fill : List IoVec → List Byte → (Word → Byte) → Word → Byte
  | [], _, memory => memory
  | v :: iov, bytes, memory =>
    fill iov (bytes.drop v.iov_len.toNat) (store memory v.iov_base (bytes.take v.iov_len.toNat))

end Memory

section Readv
variable {φ : Type} {v : VFS φ} {fsRead : φ → Word → Word → Word → FileState φ → Option (Word × FileState φ)}
  {fs : Ustar} {fd : Word} {s : FileState φ} {data : Ptr} {it : Iterator}

/-- The state when the file's iterator and the memory have changed. -/
def FileState.after (s : FileState φ) (data : Ptr) (it : Iterator) (memory : Word → Byte) : FileState φ :=
  { s with iterators := Function.update s.iterators data (some it), memory }

@[simp] theorem FileState.after_after (s : FileState φ) (data : Ptr) (it it' : Iterator)
    (memory memory' : Word → Byte) : (s.after data it memory).after data it' memory' = s.after data it' memory' := by
  unfold FileState.after
  dsimp only
  rw [Function.update_idem]

theorem zero_add_word (w : Word) : 0 + w = w := BitVec.zero_add w

/-- A handle is the number behind the one before. The first one is 3. -/
theorem mapfile_handle {files files' : Filesystem φ Ptr} {raw : ℕ → Word} {node file : Ptr} {type name : Text.Value}
    {owner : Option φ} {custom : Option Ptr} {fh : Word}
    (h : files.mapfile raw node file type name owner custom = some (fh, files'))
    (hpast : 2 ≤ files.m_filehandle.toNat) (hroom : files.m_filehandle.toNat + 1 < 2 ^ 32) :
    3 ≤ fh.toNat ∧ 2 ≤ files'.m_filehandle.toNat := by
  have hone : (1 : Word).toNat = 1 := rfl
  obtain ⟨m_files, -, hres⟩ := Option.map_eq_some_iff.mp h
  obtain ⟨rfl, rfl⟩ := Prod.mk.inj hres
  dsimp only
  rw [BitVec.toNat_add, hone]
  omega

/-- A file of the table of open files, with the Ustar file system as its owner. -/
theorem openUstar_of_shows {l : List (Ptr × FileData φ Ptr)} {t : OpenTable φ Ptr} {d : FileData φ Ptr} {owner : φ}
    (h : Shows s.files v l t) (hmounts : t.mounts ≠ []) (hentry : t.entry fd = some d) (hhandle : 3 ≤ fd.toNat)
    (howner : d.m_owner = some owner) (hread : fsRead owner = UstarFilesystem.read fs)
    (hcustom : d.m_custom = some data) (hit : s.iterators data = some it) :
    OpenUstar v fsRead fs fd s data it := by
  constructor
  · exact hhandle
  · obtain ⟨res, haccess, hstep⟩ := h.accessHandle fd
    refine ⟨owner, ?_, hread⟩
    cases hstep with
    | accessHandle =>
      rw [haccess, hentry]
      exact congrArg some howner
    | accessHandle_none hnone => exact absurd hnone hmounts
  · exact ⟨_, h.lookup_eq fd _ _⟩
  · rw [Filesystem.getCustom, h.lookup_eq, hentry]
    exact congrArg some hcustom
  · exact hit

namespace OpenUstar

theorem after_self (h : OpenUstar v fsRead fs fd s data it) : s.after data it s.memory = s := by
  unfold FileState.after
  rw [← h.iterator, Function.update_eq_self]

theorem after (h : OpenUstar v fsRead fs fd s data it) (it' : Iterator) (memory : Word → Byte) :
    OpenUstar v fsRead fs fd (s.after data it' memory) data it' :=
  ⟨h.handle, h.access, h.name, h.custom, Function.update_self ..⟩

theorem read_file (h : OpenUstar v fsRead fs fd s data it) (buf count : Word) :
    UstarFilesystem.read fs fd buf count s =
      some (BitVec.ofNat 32 (take fs.peek count.toNat it).1.length, s.after data (take fs.peek count.toNat it).2
        (store s.memory buf (take fs.peek count.toNat it).1)) := by
  obtain ⟨name, hname⟩ := h.name
  have hcount : (count.setWidth 64).toNat = count.toNat := by
    rw [BitVec.toNat_setWidth]
    omega
  rw [UstarFilesystem.read, hname, Option.bind_some, h.custom, Option.bind_some]
  dsimp only
  rw [h.iterator, Option.map_some, read_eq, hcount]
  rfl

theorem read_end (h : OpenUstar v fsRead fs fd s data it) (hend : fs.peek it = none) (buf count : Word) :
    UstarFilesystem.read fs fd buf count s = some (0, s) := by
  rw [h.read_file, take_stop hend, store_nil, h.after_self]
  rfl

theorem fill_vector (h : OpenUstar v fsRead fs fd s data it) (base : Word) {len : Word} {fuel : ℕ}
    (hlen : len.toNat < 2 ^ 31) (hfuel : 2 ≤ fuel) :
    readvInner (fun target len s => UstarFilesystem.read fs fd target len s) len fuel base 0 s =
      some (BitVec.ofNat 32 (take fs.peek len.toNat it).1.length, s.after data (take fs.peek len.toNat it).2
        (store s.memory base (take fs.peek len.toNat it).1)) := by
  obtain ⟨fuel, rfl⟩ := Nat.exists_eq_add_of_le' hfuel
  have hzero : (0 : Word).toNat = 0 := rfl
  rw [readvInner]
  by_cases hempty : 0 < len
  · have hfirst : len - 0 = len := BitVec.sub_zero len
    have hle := length_take_le fs.peek len.toNat it
    have hnext : (take fs.peek len.toNat it).1.length < len.toNat → fs.peek (take fs.peek len.toNat it).2 = none :=
      next_take
    have hopen := h.after (take fs.peek len.toNat it).2 (store s.memory base (take fs.peek len.toNat it).1)
    rw [if_pos hempty, hfirst, h.read_file, Option.bind_some]
    generalize take fs.peek len.toNat it = r at *
    have hnat : (BitVec.ofNat 32 r.1.length).toNat = r.1.length := by
      rw [BitVec.toNat_ofNat]
      omega
    dsimp only
    by_cases hnone : r.1.length = 0
    · rw [if_pos (by rw [hnone]; exact BitVec.le_refl _), hnone]
      rfl
    · rw [if_neg (by rw [BitVec.le_def, hnat]; omega), zero_add_word, readvInner]
      by_cases hshort : BitVec.ofNat 32 r.1.length < len
      · -- the file ends inside the vector, and the loop asks once more
        rw [BitVec.lt_def, hnat] at hshort
        rw [if_pos (by rw [BitVec.lt_def, hnat]; exact hshort), hopen.read_end (hnext hshort), Option.bind_some]
        dsimp only
        rw [if_pos (BitVec.le_refl _)]
      · rw [if_neg hshort]
  · have hnat : len.toNat = 0 := by
      rw [BitVec.lt_def, hzero] at hempty
      omega
    rw [if_neg hempty, hnat, take_zero, store_nil, h.after_self]
    rfl

/-- The first vector takes the first bytes, and the others take what comes after them. -/
theorem fill_take (fs : Ustar) (it : Iterator) (vec : IoVec) (iov : List IoVec) (n : ℕ) (memory : Word → Byte) :
    fill (vec :: iov) (take fs.peek (vec.iov_len.toNat + n) it).1 memory =
      fill iov (take fs.peek n (take fs.peek vec.iov_len.toNat it).2).1
        (store memory vec.iov_base (take fs.peek vec.iov_len.toNat it).1) := by
  have hle := length_take_le fs.peek vec.iov_len.toNat it
  rw [take_add, fill]
  dsimp only
  rcases Nat.lt_or_eq_of_le hle with hshort | hfull
  · have hend := take_stop (next_take hshort) n
    rw [hend, List.append_nil, List.take_of_length_le hle, List.drop_of_length_le hle]
  · rw [List.take_left' hfull, List.drop_left' hfull]

theorem fill_vectors (h : OpenUstar v fsRead fs fd s data it) {iov : List IoVec} {fuel : ℕ} (cnt : Word)
    (hneg : ∀ v ∈ iov, 0 ≤ v.iov_len.toInt) (hlen : (iov.map fun v => v.iov_len.toNat).sum < 2 ^ 31)
    (hfuel : 2 ≤ fuel) :
    readvLoop (fun target len s => UstarFilesystem.read fs fd target len s) fuel iov cnt s =
      let r := take fs.peek (iov.map fun v => v.iov_len.toNat).sum it
      some (cnt + BitVec.ofNat 32 r.1.length, s.after data r.2 (fill iov r.1 s.memory)) := by
  induction iov generalizing s it cnt with
  | nil =>
    rw [List.map_nil, List.sum_nil]
    dsimp only
    rw [take_zero, fill, h.after_self, readvLoop]
    simp
  | cons vec iov ih =>
    rw [List.map_cons, List.sum_cons] at hlen
    have hvec := hneg vec List.mem_cons_self
    rw [readvLoop, if_neg (by omega), h.fill_vector vec.iov_base (by omega) hfuel, Option.bind_some,
      List.map_cons, List.sum_cons]
    dsimp only
    have hopen := h.after (take fs.peek vec.iov_len.toNat it).2
      (store s.memory vec.iov_base (take fs.peek vec.iov_len.toNat it).1)
    rw [ih hopen _ (fun w hw => hneg w (List.mem_cons_of_mem _ hw)) (by omega), fill_take, take_add]
    dsimp only
    rw [FileState.after_after, List.length_append, BitVec.ofNat_add, BitVec.add_assoc]
    rfl

end OpenUstar

/-- `readv` fills the vectors in order with the bytes that one `read` of the whole length puts into its
buffer, returns the same, and leaves the file where that leaves it. -/
theorem readv_eq_read {kbRead : Word → Word → FileState φ → Option (Word × FileState φ)}
    {kbReadv : List IoVec → FileState φ → Option (Word × FileState φ)} {iov : List IoVec} {total : Word}
    (h : OpenUstar v fsRead fs fd s data it) (hneg : ∀ v ∈ iov, 0 ≤ v.iov_len.toInt)
    (htotal : total.toNat = (iov.map fun v => v.iov_len.toNat).sum) (hlen : total.toNat < 2 ^ 31) (buf : Word) :
    ∃ ret s₁ s₂, v.syscall_read fsRead kbRead fd buf total s = some (ret, s₁) ∧
      (∀ fuel, 2 ≤ fuel → v.syscall_readv fsRead kbReadv fuel fd iov s = some (ret, s₂)) ∧
      s₂.files = s₁.files ∧ s₂.iterators = s₁.iterators ∧
      s₂.memory = fill iov (load s₁.memory buf ret.toNat) s.memory := by
  obtain ⟨owner, haccess, hread⟩ := h.access
  have hzero : fd ≠ 0 := by
    intro hfd
    have hhandle := h.handle
    rw [hfd] at hhandle
    exact absurd hhandle (by decide)
  have hconsole : ¬ (fd = 1 ∨ fd = 2) := by
    intro hfd
    have hhandle := h.handle
    rcases hfd with hfd | hfd
    · rw [hfd] at hhandle
      exact absurd hhandle (by decide)
    · rw [hfd] at hhandle
      exact absurd hhandle (by decide)
  have hle := length_take_le fs.peek total.toNat it
  refine ⟨BitVec.ofNat 32 (take fs.peek total.toNat it).1.length,
    s.after data (take fs.peek total.toNat it).2 (store s.memory buf (take fs.peek total.toNat it).1),
    s.after data (take fs.peek total.toNat it).2 (fill iov (take fs.peek total.toNat it).1 s.memory),
    ?_, fun fuel hfuel => ?_, ?_, ?_, ?_⟩
  · rw [VFS.syscall_read, if_neg hzero, haccess, Option.bind_some]
    dsimp only
    rw [hread, h.read_file]
  · rw [VFS.syscall_readv, if_neg hconsole, if_neg hzero, haccess, Option.bind_some]
    dsimp only
    rw [hread, h.fill_vectors 0 hneg (htotal ▸ hlen) hfuel, ← htotal]
    dsimp only
    rw [zero_add_word]
  · rfl
  · rfl
  · have hret : (BitVec.ofNat 32 (take fs.peek total.toNat it).1.length).toNat =
        (take fs.peek total.toNat it).1.length := by
      rw [BitVec.toNat_ofNat]
      omega
    rw [hret]
    exact congrArg (fun bytes => fill iov bytes s.memory) (load_store (by omega)).symm

end Readv

/-- One mount, and the first of two files, open as handle 3. -/
def oneMount : VFS Unit :=
  (VFS.mount ⟨fun _ => [], .new⟩ ⟨0x58, by decide⟩ (some ())).elim ⟨fun _ => [], .new⟩ Prod.snd

def openTwoFiles : FileState Unit where
  files := (Filesystem.mapfile .new (fun _ => 0) ⟨16, by decide⟩ ⟨24, by decide⟩ (.text []) (.text [0x61]) (some ())
    (some ⟨48, by decide⟩)).elim .new Prod.snd
  iterators := Function.update (fun _ => none) ⟨48, by decide⟩ (some (list ⟨twoFilesPhys⟩ 0))
  memory := fun _ => 0xFF

/-- Two vectors of two bytes, for a file of one byte. -/
theorem readv_eq_read_twoFiles :
    ∃ ret s₁ s₂,
      oneMount.syscall_read (fun _ => UstarFilesystem.read ⟨twoFilesPhys⟩) (fun _ _ _ => none) 3 0x1000 4
          openTwoFiles = some (ret, s₁) ∧
        (∀ fuel, 2 ≤ fuel → oneMount.syscall_readv (fun _ => UstarFilesystem.read ⟨twoFilesPhys⟩)
          (fun _ _ => none) fuel 3 [⟨0x2000, 2⟩, ⟨0x3000, 2⟩] openTwoFiles = some (ret, s₂)) ∧
        s₂.files = s₁.files ∧ s₂.iterators = s₁.iterators ∧
        s₂.memory = fill [⟨0x2000, 2⟩, ⟨0x3000, 2⟩] (load s₁.memory 0x1000 ret.toNat) openTwoFiles.memory := by
  have hopen : OpenUstar oneMount (fun _ => UstarFilesystem.read ⟨twoFilesPhys⟩) ⟨twoFilesPhys⟩ 3 openTwoFiles
      ⟨48, by decide⟩ (list ⟨twoFilesPhys⟩ 0) := by
    constructor
    · decide
    · exact ⟨(), by decide +kernel, rfl⟩
    · exact ⟨.text [0x61], by decide +kernel⟩
    · decide +kernel
    · simp [openTwoFiles]
  exact readv_eq_read hopen (by decide) (by decide) (by decide) 0x1000

end CxxKernel.Fs
