import CxxKernel.Fs.Descriptors

/-! The system calls on files do to the descriptors what they should, in every run. -/
namespace CxxKernel.Fs
open Containers Fallible Runs Ustar
open Text (Value)

/-- The file of an archive at a path, as the names are compared. -/
def lookup (content : ℕ → Byte) (es : List Entry) (path : Chars) : Option (List Byte) :=
  (es.find? fun e => nameString (blockOf content e.block) = path).bind fun e =>
    if blockOf content e.block 156 = TYPE_FILE then some (field content (512 * (e.block + 1)) e.size) else none

/-- The file system is the tree, mounted at the path: an archive on a device of less than 4 GiB, or `DevFS`. -/
inductive Implements : MountedFs → Str × Tree → Prop
  | archive {fs : Ustar} {m_mountpoint : Str} {content : ℕ → Byte} {es : List Entry} (hsmall : fs.phys.size < 2 ^ 32)
      (hreads : fs.phys.Reads content) (harchive : Archive content fs.phys.size 0 es) :
      Implements (.ustar fs m_mountpoint) (m_mountpoint, .archive (lookup content es))
  | devices {m_mountpoint : Str} : Implements (.dev m_mountpoint) (m_mountpoint, .devices)

/-- The addresses that `new` may return. -/
def SysState.Fresh (s : SysState) (v : VFS MountedFs) (new : NewFile) : Prop :=
  Fs.Fresh s.files v new.node new.file ∧ s.iterators new.data = none

/-- What a call of `read` has put into the buffer. -/
def delivered (memory : Word → Byte) (buf ret : Word) : List Byte :=
  if ret.toInt < 0 then [] else load memory buf ret.toNat

/-- The first mount that the path starts with leaves something of it. -/
def LeavesName (v : VFS MountedFs) (name : Option Str) : Prop :=
  ∀ path fs, name = some path → v.access path = some (some fs) → VFS.Leaves (v.mountpoint fs) path

/-- The calls that the runs are made of: `open` is not called for a mountpoint itself, and `read` for less than
2 GiB. -/
def FileCall.Allowed (v : VFS MountedFs) : FileCall → Prop
  | .open name _ => LeavesName v name
  | .read _ count => count.toNat < 2 ^ 31
  | _ => True

/-- A call that is allowed, what it returns and what it delivers. The lengths in the memory of copies, the answers
of the keyboard and the random numbers are any. -/
inductive SysStep (v : VFS MountedFs) : SysState → FileCall × CallResult → SysState → Prop
  | open {s s' : SysState} {raw : ℕ → Word} {new : NewFile} {name : Option Str} {flags ret : Word}
      (hfresh : s.Fresh v new) (hname : LeavesName v name)
      (h : ∃ bound, ∀ fuel, bound ≤ fuel → Syscalls.syscall_open v raw new fuel name flags s = some (ret, s')) :
      SysStep v s (.open name flags, ⟨ret, []⟩) s'
  | read {s s' : SysState} {fd buf count ret raw : Word} {answers : List (Option KeyText)} {ints : ℕ → Word}
      (hcount : count.toNat < 2 ^ 31)
      (h : Syscalls.syscall_read v fd buf count answers raw ints s = some (ret, s')) :
      SysStep v s (.read fd count, ⟨ret, delivered s'.memory buf ret⟩) s'
  | write {s s' : SysState} {fd buf count ret : Word} (h : Syscalls.syscall_write v fd buf count s = some (ret, s')) :
      SysStep v s (.write fd count, ⟨ret, []⟩) s'
  | close {s s' : SysState} {fd ret : Word} (h : Syscalls.syscall_close v fd s = some (ret, s')) :
      SysStep v s (.close fd, ⟨ret, []⟩) s'
  | fcntl {s s' : SysState} {fd cmd arg ret : Word} (h : Syscalls.syscall_fcntl v fd cmd arg s = some (ret, s')) :
      SysStep v s (.fcntl fd cmd arg, ⟨ret, []⟩) s'

section Cursor
variable {fs : Ustar} {content : ℕ → Byte} {es : List Entry} {e : Entry} {it : Ustar.Iterator} {rest : List Byte}
  {path : Chars} {k size : ℕ}

/-- The iterator is in the entry, and what is behind its place is the rest of the file. -/
structure InFile (fs : Ustar) (content : ℕ → Byte) (e : Entry) (it : Ustar.Iterator) (rest : List Byte) : Prop where
  small : fs.phys.size < 2 ^ 32
  reads : fs.phys.Reads content
  room : 512 * e.behind ≤ fs.phys.size
  stands : StandsOn it e
  index : it.data_index.toNat ≤ e.size
  rest : rest = field content (512 * (e.block + 1) + it.data_index.toNat) (e.size - it.data_index.toNat)

theorem InFile.read (h : InFile fs content e it rest) {count : Word} (hcount : count.toNat < 2 ^ 31) :
    ∃ ret it', fs.read it (count.setWidth 64) = (ret, rest.take count.toNat, it') ∧
      ret.toInt = (rest.take count.toNat).length ∧ InFile fs content e it' (rest.drop count.toNat) := by
  have hwide : (count.setWidth 64).toNat = count.toNat := by
    rw [BitVec.toNat_setWidth]
    omega
  have hroom := h.room
  have hsmall := h.small
  have hindex := h.index
  have hbehind : e.behind = e.block + 1 + (e.size + 511) / 512 := rfl
  generalize hr : fs.read it (count.setWidth 64) = r
  obtain ⟨ret, bytes, it'⟩ := r
  have hstep : ReadStep fs it ⟨count.setWidth 64, ret, bytes⟩ it' := hr
  have hlow : ReadsLow e it ⟨count.setWidth 64, ret, bytes⟩ it' := by
    unfold ReadsLow
    dsimp only
    omega
  obtain ⟨hbytes, hret, hit⟩ := read_entry h.reads hroom (by omega) h.stands hindex hstep hlow
  dsimp only at hbytes hret hit
  rw [hwide] at hbytes hit
  rw [← h.rest] at hbytes
  have hnext : (it.data_index + BitVec.ofNat 32 (min count.toNat (e.size - it.data_index.toNat))).toNat =
      it.data_index.toNat + min count.toNat (e.size - it.data_index.toNat) := by
    rw [BitVec.toNat_add, BitVec.toNat_ofNat]
    omega
  have hstands : StandsOn it' e := by
    rw [hit]
    exact ⟨h.stands.ok, h.stands.block, h.stands.index, h.stands.size, h.stands.data_block⟩
  have hplace : it'.data_index.toNat = it.data_index.toNat + min count.toNat (e.size - it.data_index.toNat) := by
    rw [hit]
    exact hnext
  refine ⟨ret, it', by rw [hbytes], by rw [← hbytes]; exact hret, hsmall, h.reads, hroom, hstands, by omega, ?_⟩
  rw [h.rest, drop_field, hplace]
  rcases Nat.le_total count.toNat (e.size - it.data_index.toNat) with hle | hle
  · rw [Nat.min_eq_left hle, Nat.add_assoc, Nat.sub_add_eq]
  · -- nothing is left
    have hzero : e.size - it.data_index.toNat - count.toNat = 0 := by omega
    have hzero' : e.size - (it.data_index.toNat + (e.size - it.data_index.toNat)) = 0 := by omega
    rw [Nat.min_eq_right hle, hzero, hzero']
    rfl

theorem loadEntry_data_index (it : Ustar.Iterator) : (loadEntry it).1.data_index = it.data_index := by
  rw [loadEntry]
  split_ifs
  · rfl
  · rfl

theorem getCurrent_data_index (fs : Ustar) (it : Ustar.Iterator) :
    (fs.getCurrent it).1.data_index = it.data_index := by
  unfold getCurrent
  split_ifs
  · rfl
  · exact loadEntry_data_index it
  · dsimp only
    split_ifs
    · rfl
    · rfl
    · split
      · rfl
      · exact loadEntry_data_index _

theorem list_data_index (fs : Ustar) (parent : Word) : (fs.list parent).data_index = 0 := by
  unfold Ustar.list
  dsimp only
  split
  · rfl
  · rename_i data _
    have hkeep := getCurrent_data_index fs ⟨false, parent, 0, 0, 0, 0, 0, data⟩
    split_ifs
    · exact hkeep
    · exact hkeep

theorem findFile_data_index {name : Buffer → List Byte} {fuel : ℕ} {part parent : Word}
    (h : fs.findFile name fuel path part parent = some it) : it.data_index = 0 := by
  have hloop : ∀ fuel (it it' : Ustar.Iterator), it.data_index = 0 → fs.findLoop name path fuel it = some it' →
      it'.data_index = 0 := by
    intro fuel
    induction fuel with
    | zero =>
      intro it it' _ h
      cases h
    | succ fuel ih =>
      intro it it' hit h
      rw [findLoop] at h
      dsimp only at h
      split_ifs at h
      · cases h
        exact hit
      · exact ih _ _ rfl h
      · cases h
        rfl
      · cases h
        exact hit
  exact hloop _ _ _ (list_data_index fs parent) h

theorem Archive.behind_le (h : Archive content size k es) (he : e ∈ es) : 512 * e.behind ≤ size := by
  induction h with
  | flush => cases he
  | other => cases he
  | entry e' es _ _ h _ ih =>
    rcases List.mem_cons.mp he with rfl | he
    · exact h
    · exact ih he

theorem Archive.endOf_le (h : Archive content size k es) : 512 * endOf k es ≤ size := by
  induction h with
  | flush k h => exact Nat.le_of_eq h
  | other k h => exact Nat.le_trans (Nat.mul_le_mul_left _ (Nat.le_succ k)) h
  | entry e es _ _ _ _ ih => exact ih

theorem findFile_lookup (hsmall : fs.phys.size < 2 ^ 32) (hreads : fs.phys.Reads content)
    (harchive : Archive content fs.phys.size 0 es) (path : Chars) :
    ∃ it, (∃ bound, ∀ fuel, bound ≤ fuel → fs.findFile nameString fuel path 0 0 = some it) ∧
      ((lookup content es path = none ∧ ¬ (it.ok ∧ it.type = TYPE_FILE)) ∨
        ∃ e rest, lookup content es path = some rest ∧ it.ok ∧ it.type = TYPE_FILE ∧
          InFile fs content e it.assign rest) := by
  have hbelow : 512 * stopAt content 0 es path < 2 ^ 32 := by
    unfold stopAt
    split
    · rename_i e he
      have hle := harchive.behind_le (List.mem_of_find?_eq_some he)
      unfold Entry.behind at hle
      omega
    · have hle := harchive.endOf_le
      omega
  obtain ⟨it, hfind, hit⟩ := findFile_find hreads harchive hbelow
  refine ⟨it, hfind, ?_⟩
  unfold lookup
  cases hes : es.find? fun e => nameString (blockOf content e.block) = path with
  | none =>
    rw [hes] at hit
    exact .inl ⟨rfl, fun hok => absurd (hit.symm.trans hok.1) Bool.false_ne_true⟩
  | some e =>
    rw [hes] at hit
    obtain ⟨hstands, hdata⟩ := hit
    have htype : it.type = blockOf content e.block 156 := hdata 156 (by decide)
    rw [Option.bind_some]
    by_cases hfile : blockOf content e.block 156 = TYPE_FILE
    · obtain ⟨bound, hbound⟩ := hfind
      have hzero : it.assign.data_index.toNat = 0 := by
        have hstart := findFile_data_index (hbound bound (Nat.le_refl _))
        exact congrArg BitVec.toNat hstart
      refine .inr ⟨e, _, if_pos hfile, hstands.ok, htype.trans hfile, hsmall, hreads,
        harchive.behind_le (List.mem_of_find?_eq_some hes),
        ⟨hstands.ok, hstands.block, hstands.index, hstands.size, hstands.data_block⟩, ?_, ?_⟩
      · rw [hzero]
        exact Nat.zero_le _
      · rw [hzero]
        rfl
    · exact .inl ⟨if_neg hfile, fun hok => hfile (htype.symm.trans hok.2)⟩

end Cursor

/-- The file of the list is what the descriptor says, with its iterator where the descriptor stands. -/
inductive Opens (mounts : List MountedFs) (iterators : Ptr → Option FileIterator) :
    FileData MountedFs Ptr → Descriptor → Prop
  | file {fs : Ustar} {m_mountpoint : Str} {content : ℕ → Byte} {e : Entry} {data : Ptr} {it : Ustar.Iterator}
      {rest : List Byte} {d : FileData MountedFs Ptr} (howner : d.m_owner = some (.ustar fs m_mountpoint))
      (hmount : .ustar fs m_mountpoint ∈ mounts) (hcustom : d.m_custom = some data)
      (hit : iterators data = some (.ustar it)) (hin : InFile fs content e it rest) :
      Opens mounts iterators d ⟨.file rest, d.m_fcntl⟩
  | device {m_mountpoint : Str} {d : FileData MountedFs Ptr} (howner : d.m_owner = some (.dev m_mountpoint))
      (hmount : .dev m_mountpoint ∈ mounts) (hcustom : d.m_custom = none)
      (hname : DevFS.isDevice d.m_name = some true) :
      Opens mounts iterators d ⟨.device, d.m_fcntl⟩

/-- The files that are open are the descriptors, and no two of them have the same iterator. -/
structure Alike (mounts : List MountedFs) (iterators : Ptr → Option FileIterator)
    (entry : Word → Option (FileData MountedFs Ptr)) (file : Word → Option Descriptor) : Prop where
  opens : ∀ fd, Option.Rel (Opens mounts iterators) (entry fd) (file fd)
  apart : ∀ fd fd' d d' p, entry fd = some d → entry fd' = some d' → d.m_custom = some p → d'.m_custom = some p →
    fd = fd'

/-- The state shows the descriptors. -/
def Matches (v : VFS MountedFs) (mounts : List MountedFs) (s : SysState) (a : Descriptors) : Prop :=
  ∃ l t, Shows s.files v l t ∧ t.mounts = mounts ∧ t.handles = a.issued ∧ Alike mounts s.iterators t.entry a.file

section Alike
variable {mounts : List MountedFs} {iterators iterators' : Ptr → Option FileIterator}
  {entry : Word → Option (FileData MountedFs Ptr)} {file : Word → Option Descriptor} {fd : Word}
  {d : FileData MountedFs Ptr} {e : Descriptor}

theorem Opens.frame (h : Opens mounts iterators d e) (hkeep : ∀ p, d.m_custom = some p → iterators' p = iterators p) :
    Opens mounts iterators' d e := by
  cases h with
  | file howner hmount hcustom hit hin => exact .file howner hmount hcustom ((hkeep _ hcustom).trans hit) hin
  | device howner hmount hcustom hname => exact .device howner hmount hcustom hname

theorem Opens.owner (h : Opens mounts iterators d e) : ∃ fs ∈ mounts, d.m_owner = some fs := by
  cases h with
  | file howner hmount => exact ⟨_, hmount, howner⟩
  | device howner hmount => exact ⟨_, hmount, howner⟩

theorem Opens.flags (h : Opens mounts iterators d e) : e.flags = d.m_fcntl := by
  cases h with
  | file => rfl
  | device => rfl

theorem Opens.setFcntl (h : Opens mounts iterators d e) (mode : Word) :
    Opens mounts iterators { d with m_fcntl := mode } { e with flags := mode } := by
  cases h with
  | file howner hmount hcustom hit hin =>
    exact .file (d := { d with m_fcntl := mode }) howner hmount hcustom hit hin
  | device howner hmount hcustom hname =>
    exact .device (d := { d with m_fcntl := mode }) howner hmount hcustom hname

namespace Alike

theorem entry_none (h : Alike mounts iterators entry file) (hfile : file fd = none) : entry fd = none := by
  have hrel := h.opens fd
  rw [hfile] at hrel
  cases hrel' : entry fd with
  | none => rfl
  | some d =>
    rw [hrel'] at hrel
    cases hrel

theorem entry_some (h : Alike mounts iterators entry file) (hfile : file fd = some e) :
    ∃ d, entry fd = some d ∧ Opens mounts iterators d e := by
  have hrel := h.opens fd
  rw [hfile] at hrel
  cases hentry : entry fd with
  | none =>
    rw [hentry] at hrel
    cases hrel
  | some d =>
    rw [hentry] at hrel
    cases hrel with
    | some hopens => exact ⟨d, rfl, hopens⟩

theorem update (h : Alike mounts iterators entry file) {x : Option (FileData MountedFs Ptr)} {y : Option Descriptor}
    (hkeep : ∀ fd' d p, fd' ≠ fd → entry fd' = some d → d.m_custom = some p → iterators' p = iterators p)
    (hxy : Option.Rel (Opens mounts iterators') x y)
    (hapart : ∀ fd' d d' p, fd' ≠ fd → entry fd' = some d' → x = some d → d.m_custom = some p →
      d'.m_custom ≠ some p) :
    Alike mounts iterators' (Function.update entry fd x) (Function.update file fd y) := by
  constructor
  · intro fd'
    by_cases hfd : fd' = fd
    · rw [hfd, Function.update_self, Function.update_self]
      exact hxy
    · rw [Function.update_of_ne hfd, Function.update_of_ne hfd]
      have hrel := h.opens fd'
      generalize hentry : entry fd' = x' at hrel ⊢
      generalize file fd' = y' at hrel ⊢
      cases hrel with
      | some hopens => exact .some (hopens.frame fun p hp => hkeep fd' _ p hfd hentry hp)
      | none => exact .none
  · intro fd₁ fd₂ d₁ d₂ p h₁ h₂ hp₁ hp₂
    by_cases hfd₁ : fd₁ = fd
    · by_cases hfd₂ : fd₂ = fd
      · exact hfd₁.trans hfd₂.symm
      · rw [hfd₁, Function.update_self] at h₁
        rw [Function.update_of_ne hfd₂] at h₂
        exact absurd hp₂ (hapart fd₂ d₁ d₂ p hfd₂ h₂ h₁ hp₁)
    · rw [Function.update_of_ne hfd₁] at h₁
      by_cases hfd₂ : fd₂ = fd
      · rw [hfd₂, Function.update_self] at h₂
        exact absurd hp₁ (hapart fd₁ d₂ d₁ p hfd₁ h₁ h₂ hp₂)
      · rw [Function.update_of_ne hfd₂] at h₂
        exact h.apart fd₁ fd₂ d₁ d₂ p h₁ h₂ hp₁ hp₂

theorem setIterator (h : Alike mounts iterators entry file) (hentry : entry fd = some d) {data : Ptr}
    (hcustom : d.m_custom = some data) {it : Option FileIterator} {x : Option (FileData MountedFs Ptr)}
    {y : Option Descriptor} (hx : x = some d ∨ x = none)
    (hxy : Option.Rel (Opens mounts (Function.update iterators data it)) x y) :
    Alike mounts (Function.update iterators data it) (Function.update entry fd x) (Function.update file fd y) := by
  apply h.update
  · intro fd' d' p hfd hentry' hp
    refine Function.update_of_ne ?_ ..
    rintro rfl
    exact hfd (h.apart fd' fd d' d p hentry' hentry hp hcustom)
  · exact hxy
  · intro fd' d₁ d' p hfd hentry' hd₁ hp hp'
    rcases hx with rfl | rfl
    · obtain rfl := Option.some.inj hd₁
      exact hfd (h.apart fd' fd d' d p hentry' hentry hp' hp)
    · cases hd₁

end Alike

end Alike

section Memory
variable {memory : Word → Byte} {buf ret : Word} {bytes : List Byte}

theorem delivered_store (hret : ret.toInt = bytes.length) : delivered (store memory buf bytes) buf ret = bytes := by
  have hlt := BitVec.toInt_lt (x := ret)
  have hnat : ret.toNat = bytes.length := by
    have hpos : 0 ≤ ret.toInt := by omega
    rw [BitVec.toInt_eq_toNat_cond] at hret hpos
    split at hret
    · omega
    · omega
  rw [delivered, if_neg (by omega), hnat, load_store (by omega)]

end Memory

theorem Shows.withErrno {φ κ : Type} {s : Filesystem φ κ} {v : VFS φ} {l : List (Ptr × FileData φ κ)}
    {t : OpenTable φ κ} (h : Shows s v l t) (errno : Word) : Shows { s with errno } v l { t with errno } :=
  ⟨⟨h.opened.holds, h.opened.data, h.opened.nodup, h.opened.handles⟩, h.entry, h.names, h.issued, h.count,
    h.below, h.mounts, rfl⟩

section Calls
variable {v : VFS MountedFs} {mounts : List MountedFs} {trees : List (Str × Tree)} {s : SysState} {a : Descriptors}
  {fd : Word} {d : FileData MountedFs Ptr} {e : Descriptor} {l : List (Ptr × FileData MountedFs Ptr)}
  {t : OpenTable MountedFs Ptr} {f : MountedFs → SysState → Option (Word × SysState)}

theorem Matches.fail (h : Matches v mounts s a) (errno : Word) : Matches v mounts (s.fail errno) a := by
  obtain ⟨l, t, hs, hmounts, hissued, halike⟩ := h
  exact ⟨l, _, hs.withErrno errno, hmounts, hissued, halike⟩

theorem Matches.withHandle_closed (h : Matches v mounts s a) (hfile : a.file fd = none) :
    Syscalls.withHandle v fd f s = some (-EPERM, s) := by
  obtain ⟨l, t, hs, -, -, halike⟩ := h
  obtain ⟨res, haccess, hstep⟩ := hs.accessHandle fd
  have hentry := halike.entry_none hfile
  rw [Syscalls.withHandle, haccess, Option.bind_some]
  cases hstep with
  | accessHandle => rw [hentry]; rfl
  | accessHandle_none => rfl

theorem withHandle_open (hs : Shows s.files v l t) (hmounts : t.mounts ≠ []) (hentry : t.entry fd = some d)
    {fs : MountedFs} (howner : d.m_owner = some fs) : Syscalls.withHandle v fd f s = f fs s := by
  obtain ⟨res, haccess, hstep⟩ := hs.accessHandle fd
  rw [Syscalls.withHandle, haccess, Option.bind_some]
  cases hstep with
  | accessHandle =>
    rw [hentry, Option.elim_some, howner]
  | accessHandle_none hnone => exact absurd hnone hmounts

theorem withUstar_read (s : SysState) (data : Ptr) (it : Ustar.Iterator) (memory : Word → Byte) :
    s.withUstar { s.ustar with iterators := Function.update s.ustar.iterators data (some it), memory } =
      { s with iterators := Function.update s.iterators data (some (.ustar it)), memory } := by
  have hiter : (s.withUstar { s.ustar with
      iterators := Function.update s.ustar.iterators data (some it), memory }).iterators =
      Function.update s.iterators data (some (.ustar it)) := by
    funext p
    unfold SysState.withUstar
    dsimp only
    by_cases hp : p = data
    · rw [hp, Function.update_self, Function.update_self]
    · rw [Function.update_of_ne hp, Function.update_of_ne hp]
      unfold SysState.ustar
      dsimp only
      rcases s.iterators p with _ | _ | _ <;> rfl
  rw [← hiter]
  rfl

/-- A read through an open handle. -/
theorem Matches.read (trees : List (Str × Tree)) (h : Matches v mounts s a) (hfile : a.file fd = some e)
    (hzero : fd ≠ 0) (buf : Word) {count : Word} (hcount : count.toNat < 2 ^ 31) (answers : List (Option KeyText))
    (raw : Word) (ints : ℕ → Word) :
    ∃ ret s' a', Syscalls.syscall_read v fd buf count answers raw ints s = some (ret, s') ∧
      Descriptors.Step trees a (.read fd count, ⟨ret, delivered s'.memory buf ret⟩) a' ∧
      Matches v mounts s' a' ∧ a'.issued = a.issued := by
  obtain ⟨l, t, hs, rfl, hissued, halike⟩ := h
  obtain ⟨d, hentry, hopens⟩ := halike.entry_some hfile
  obtain ⟨fs, hmem, howner⟩ := hopens.owner
  rw [Syscalls.syscall_read, if_neg hzero, withHandle_open hs (List.ne_nil_of_mem hmem) hentry howner]
  cases hopens with
  | @file fs m_mountpoint content e data it rest _ howner' hmount hcustom hit hin =>
    obtain rfl := Option.some.inj (howner.symm.trans howner')
    obtain ⟨ret, it', hread, hret, hin'⟩ := hin.read hcount
    have hname : s.ustar.files.getName 0 fd = some (d.m_name.init 0) := by
      rw [Filesystem.getName, SysState.ustar, hs.lookup_eq, hentry]
      rfl
    have hcust : s.ustar.files.getCustom fd = some (some data) := by
      rw [Filesystem.getCustom, SysState.ustar, hs.lookup_eq, hentry]
      exact congrArg some hcustom
    have hiter : s.ustar.iterators data = some it := by
      unfold SysState.ustar
      dsimp only
      rw [hit]
    have hcall : MountedFs.read fd buf count raw ints s (.ustar fs m_mountpoint) = some (ret, { s with
        iterators := Function.update s.iterators data (some (.ustar it'))
        memory := store s.memory buf (rest.take count.toNat) }) := by
      rw [MountedFs.read, UstarFilesystem.read, hname, Option.bind_some, hcust, Option.bind_some]
      dsimp only
      rw [hiter, Option.map_some, hread]
      dsimp only
      rw [Option.map_some, withUstar_read]
      rfl
    refine ⟨ret, _, { a with file := Function.update a.file fd (some ⟨.file (rest.drop count.toNat), d.m_fcntl⟩) },
      hcall, ?_, ⟨l, t, hs, rfl, hissued, ?_⟩, rfl⟩
    · rw [delivered_store hret]
      exact .read_file hfile hret
    · have hnew := halike.setIterator (y := some ⟨.file (rest.drop count.toNat), d.m_fcntl⟩) hentry hcustom
        (.inl rfl) (.some (.file howner hmount hcustom (Function.update_self ..) hin'))
      rw [← hentry, Function.update_eq_self] at hnew
      exact hnew
  | @device m_mountpoint _ howner' hmount hcustom hname =>
    obtain rfl := Option.some.inj (howner.symm.trans howner')
    have hint : count.toInt.toNat = count.toNat := by
      rw [BitVec.toInt_eq_toNat_of_lt (by omega)]
      rfl
    have hget : s.files.getName raw fd = some d.m_name := by
      rw [Filesystem.getName, hs.name_eq fd raw fun x hx => (hs.names x hx).2, hentry]
      rfl
    generalize hbytes : (List.range count.toNat).map (fun i => (ints i % 256).setWidth 8) = bytes
    have hlength : bytes.length = count.toNat := by
      rw [← hbytes, List.length_map, List.length_range]
    have hcall : MountedFs.read fd buf count raw ints s (.dev m_mountpoint) =
        some (count, { s with memory := store s.memory buf bytes }) := by
      rw [MountedFs.read, DevFS.read, hget, Option.bind_some, hname, Option.map_some, if_pos rfl]
      dsimp only
      rw [hint, hbytes, BitVec.ofNat_toNat, BitVec.setWidth_eq]
    refine ⟨count, _, a, hcall, ?_, ⟨l, t, hs, rfl, hissued, halike⟩, rfl⟩
    have hret : count.toInt = bytes.length := by
      rw [hlength, BitVec.toInt_eq_toNat_of_lt (by omega)]
    rw [delivered_store hret]
    exact .read_device hfile hlength

theorem onFiles_closeFile (hs : Shows s.files v l t) (hentry : t.entry fd = some d) :
    ∃ files l', Syscalls.onFiles (closeFile fd) s = some (0, { s with files }) ∧
      Shows files v l' { t with entry := Function.update t.entry fd none } := by
  obtain ⟨files, l', hclose, hs'⟩ := hs.closefile fd
  rw [hentry] at hclose
  refine ⟨files, l', ?_, hs'⟩
  have hexec : exec (closeFile fd) s.toStatState = (some 0, { s.toStatState with files }) := by
    unfold closeFile
    rw [exec_bind]
    unfold exec
    dsimp only [OptionT.run, OptionT.mk]
    rw [StateT.run, hclose]
    rfl
  rw [Syscalls.onFiles, hexec]

theorem onFiles_closeIterator {data : Ptr} {it : FileIterator} (hcustom : s.files.getCustom fd = some (some data))
    (hit : s.iterators data = some it) : Syscalls.onFiles (closeIterator fd) s =
      Syscalls.onFiles (closeFile fd) { s with iterators := Function.update s.iterators data none } := by
  have hexec : exec (closeIterator fd) s.toStatState =
      exec (closeFile fd) { s.toStatState with iterators := Function.update s.iterators data none } := by
    unfold closeIterator
    rw [exec_look_bind, hcustom]
    dsimp only
    rw [exec_bind, deleteIterator, exec_look_bind, hit]
    rfl
  unfold Syscalls.onFiles
  rw [hexec]

theorem Matches.close (h : Matches v mounts s a) (hfile : a.file fd = some e) :
    ∃ s', Syscalls.syscall_close v fd s = some (0, s') ∧
      Matches v mounts s' { a with file := Function.update a.file fd none } := by
  obtain ⟨l, t, hs, rfl, hissued, halike⟩ := h
  obtain ⟨d, hentry, hopens⟩ := halike.entry_some hfile
  obtain ⟨fs, hmem, howner⟩ := hopens.owner
  rw [Syscalls.syscall_close, withHandle_open hs (List.ne_nil_of_mem hmem) hentry howner]
  cases hopens with
  | @file fs m_mountpoint content e data it rest _ howner' hmount hcustom hit hin =>
    obtain rfl := Option.some.inj (howner.symm.trans howner')
    have hcust : s.files.getCustom fd = some (some data) := by
      rw [Filesystem.getCustom, hs.lookup_eq, hentry]
      exact congrArg some hcustom
    obtain ⟨files, l', hclose, hs'⟩ := onFiles_closeFile
      (s := { s with iterators := Function.update s.iterators data none }) hs hentry
    refine ⟨_, (onFiles_closeIterator hcust hit).trans hclose, l', _, hs', rfl, hissued, ?_⟩
    exact halike.setIterator hentry hcustom (.inr rfl) .none
  | @device m_mountpoint _ howner' hmount hcustom hname =>
    obtain rfl := Option.some.inj (howner.symm.trans howner')
    obtain ⟨files, l', hclose, hs'⟩ := onFiles_closeFile hs hentry
    refine ⟨_, hclose, l', _, hs', rfl, hissued, halike.update (fun _ _ _ _ _ _ => rfl) .none ?_⟩
    intro fd' d d' p _ _ hnone
    cases hnone

theorem Matches.fcntl (trees : List (Str × Tree)) (h : Matches v mounts s a) (hfile : a.file fd = some e)
    (cmd arg : Word) :
    ∃ ret s' a', Syscalls.syscall_fcntl v fd cmd arg s = some (ret, s') ∧
      Descriptors.Step trees a (.fcntl fd cmd arg, ⟨ret, []⟩) a' ∧ Matches v mounts s' a' ∧
      a'.issued = a.issued := by
  obtain ⟨l, t, hs, rfl, hissued, halike⟩ := h
  obtain ⟨d, hentry, hopens⟩ := halike.entry_some hfile
  obtain ⟨fs, hmem, howner⟩ := hopens.owner
  rw [Syscalls.syscall_fcntl, withHandle_open hs (List.ne_nil_of_mem hmem) hentry howner]
  rcases hs.find_cases fd with ⟨hnone, -⟩ | ⟨b, x, c, rfl, rfl, hsome, hfind⟩
  · exact absurd (hnone.symm.trans hentry) (by simp)
  obtain rfl := Option.some.inj (hsome.symm.trans hentry)
  by_cases hset : cmd = F_SETFD
  · subst hset
    have hcall : s.files.setFcntl x.2.m_id arg = some (0, { s.files with
        data := Function.update s.files.data x.1 (some { x.2 with m_fcntl := arg }) }) := by
      rw [Filesystem.setFcntl, hfind]
      rfl
    rw [if_pos rfl, hcall]
    refine ⟨_, _, _, rfl, .setfd hfile, ⟨_, _, hs.setFcntl arg, rfl, hissued, ?_⟩, rfl⟩
    refine halike.update (fun _ _ _ _ _ _ => rfl) (.some (hopens.setFcntl arg)) ?_
    intro fd' d d' p hfd hentry' hd hp hp'
    obtain rfl := Option.some.inj hd
    exact hfd (halike.apart fd' x.2.m_id d' x.2 p hentry' hentry hp' hp)
  rw [if_neg hset]
  by_cases hget : cmd = F_GETFD
  · subst hget
    have hcall : s.files.getFcntl x.2.m_id = some (x.2.m_fcntl, s.files) := by
      rw [Filesystem.getFcntl, hfind]
      rfl
    rw [if_pos rfl, hcall, ← hopens.flags]
    exact ⟨_, _, a, rfl, .getfd hfile, ⟨_, t, hs, rfl, hissued, halike⟩, rfl⟩
  · rw [if_neg hget]
    exact ⟨_, _, a, rfl, .fcntl_other hfile ⟨hget, hset⟩, ⟨_, t, hs, rfl, hissued, halike⟩, rfl⟩

/-- The file is added behind the others, with its iterator where it has one. -/
theorem onFiles_mapfile {new : NewFile} (h : Matches v mounts s a) (hfresh : s.Fresh v new)
    (hroom : a.issued.length + 1 < 2 ^ 31 - 3) (raw : ℕ → Word) {type : Str} {name : Value}
    (htype : (Value.text type).Whole) (hname : name.Whole) (owner : MountedFs) (custom : Option Ptr)
    (iterators : Ptr → Option FileIterator) (contents : Contents)
    (hkeep : ∀ p, p ≠ new.data → iterators p = s.iterators p)
    (hcustom : ∀ p, custom = some p → p = new.data)
    (hopens : ∀ fd, Opens mounts iterators ⟨.text type, name, fd, some owner, custom, 0⟩ ⟨contents, 0⟩) :
    ∃ fd s', Syscalls.onFiles (mapfile raw new type name owner custom) { s with iterators } = some (fd, s') ∧
      fd ∉ a.issued ∧ 3 ≤ fd.toInt ∧
      Matches v mounts s' ⟨fd :: a.issued, Function.update a.file fd (some ⟨contents, 0⟩)⟩ := by
  obtain ⟨l, t, hs, rfl, hissued, halike⟩ := h
  obtain ⟨fd, files, l', hmap, hnew, hs'⟩ := hs.mapfile hfresh.1 (by rw [hissued]; omega) raw htype hname
    (some owner) custom
  have hexec : exec (mapfile raw new type name owner custom) { s.toStatState with iterators } =
      (some fd, { s.toStatState with files, iterators }) := by
    unfold exec Fs.mapfile
    dsimp only [OptionT.run, OptionT.mk]
    rw [StateT.run, hmap]
  have hcall : Syscalls.onFiles (mapfile raw new type name owner custom) { s with iterators } =
      some (fd, { s with files, iterators }) := by
    unfold Syscalls.onFiles
    rw [hexec]
  have hpast : 2 ≤ s.files.m_filehandle.toNat := by
    have hcount := hs.count
    omega
  have hlast : s.files.m_filehandle.toNat + 1 < 2 ^ 31 := by
    have hcount := hs.count
    rw [hissued] at hcount
    omega
  obtain ⟨hfd, -⟩ := mapfile_handle hmap hpast (by omega)
  have hle : fd.toNat ≤ s.files.m_filehandle.toNat + 1 := by
    have hbelow := hs'.below fd List.mem_cons_self
    have hcount := hs'.count
    have hcount' := hs.count
    rw [List.length_cons] at hcount
    omega
  -- no open file has the new iterator
  have hother : ∀ fd' d p, t.entry fd' = some d → d.m_custom = some p → p ≠ new.data := by
    rintro fd' d p hentry hp rfl
    have hrel := halike.opens fd'
    rw [hentry] at hrel
    generalize a.file fd' = y at hrel
    cases hrel with
    | some hopens =>
      cases hopens with
      | file howner hmount hcustom hit hin =>
        obtain rfl := Option.some.inj (hp.symm.trans hcustom)
        exact absurd (hfresh.2.symm.trans hit) (by simp)
      | device howner hmount hnone hname => exact absurd (hnone.symm.trans hp) (by simp)
  refine ⟨fd, _, hcall, hissued ▸ hnew, ?_, l', _, hs', rfl, congrArg (fd :: ·) hissued, ?_⟩
  · rw [BitVec.toInt_eq_toNat_of_lt (by omega)]
    omega
  · refine halike.update (fun fd' d p _ hentry hp => hkeep p (hother fd' d p hentry hp)) (.some (hopens fd)) ?_
    intro fd' d d' p _ hentry hd hp hp'
    obtain rfl := Option.some.inj hd
    exact hother fd' d' p hentry hp' (hcustom p hp)

theorem DevFS.isDevice_text (base : Str) : DevFS.isDevice (.text base) = some (Fs.devices.contains base) := by
  have heq : ∀ name, (Value.text base).eq (.text name) = some (decide (base = name)) := fun _ => Value.eq_denotes rfl
  rw [DevFS.isDevice, heq, heq, Option.bind_some]
  by_cases hrandom : base = [0x72, 0x61, 0x6E, 0x64, 0x6F, 0x6D]
  · rw [decide_eq_true hrandom, hrandom]
    rfl
  · rw [decide_eq_false hrandom, if_neg Bool.false_ne_true]
    refine congrArg some (Bool.eq_iff_iff.mpr ?_)
    simp only [decide_eq_true_eq, List.contains_iff_mem, Fs.devices, List.mem_cons, List.not_mem_nil,
      or_false, hrandom,
      false_or]

theorem DevFS.open_eq (this : MountedFs) (raw : ℕ → Word) (new : NewFile) (path : Str) (flags : Word) (s : SysState) :
    Syscalls.onFiles (DevFS.open this raw new (.text path) flags) s =
      if WritesFlags flags then some (-1, s.fail EPERM)
      else if Fs.devices.contains path then
        Syscalls.onFiles (mapfile (fun i => raw (5 + i)) new [0x44, 0x65, 0x76, 0x46, 0x53] (.text path) this none) s
      else some (-1, s.fail ENOENT) := by
  unfold DevFS.open
  change Syscalls.onFiles (if WritesFlags flags then failWith EPERM else _) s = _
  by_cases hflags : WritesFlags flags
  · rw [if_pos hflags, if_pos hflags]
    rfl
  · rw [if_neg hflags, if_neg hflags, Syscalls.onFiles, exec_look_bind, DevFS.isDevice_text]
    cases Fs.devices.contains path with
    | true => rfl
    | false => rfl

/-- A file system opens what its tree has at the path. -/
theorem Matches.open_tree {new : NewFile} (h : Matches v mounts s a) (hfresh : s.Fresh v new)
    (hroom : a.issued.length + 1 < 2 ^ 31 - 3) {fs : MountedFs} {m : Str × Tree} (himp : Implements fs m)
    (hmem : fs ∈ mounts) (raw : ℕ → Word) {base : Str} (hbase : (Value.text base).Whole) (flags : Word) :
    ∃ ret s', (∃ bound, ∀ fuel, bound ≤ fuel →
        Syscalls.onFiles (fs.open' raw new fuel (.text base) flags) s = some (ret, s')) ∧
      ((m.2.open flags base = none ∧ ret = -1 ∧ Matches v mounts s' a) ∨
        ∃ contents, m.2.open flags base = some contents ∧ ret ∉ a.issued ∧ 3 ≤ ret.toInt ∧
          Matches v mounts s' ⟨ret :: a.issued, Function.update a.file ret (some ⟨contents, 0⟩)⟩) := by
  cases himp with
  | @archive fs m_mountpoint content es hsmall hreads harchive =>
    obtain ⟨it, ⟨bound, hfind⟩, hit⟩ := findFile_lookup hsmall hreads harchive base.chars
    have hfind' : ∀ fuel, bound ≤ fuel →
        UstarFilesystem.findFile fs fuel ((Value.text base).init (raw 2)) = some it := by
      intro fuel hfuel
      rw [hbase.init]
      exact hfind fuel hfuel
    rcases hit with ⟨hnone, hno⟩ | ⟨e, rest, hsome, hok, htype, hin⟩
    · have hopen : (Tree.archive (lookup content es)).open flags base = none := by
        rw [Tree.open, hnone]
        rfl
      by_cases hok : it.ok
      · have htype : it.type ≠ TYPE_FILE := fun htype => hno ⟨hok, htype⟩
        refine ⟨-1, s.fail EPERM, ⟨bound, fun fuel hfuel => ?_⟩, .inl ⟨hopen, rfl, h.fail EPERM⟩⟩
        rw [Syscalls.onFiles, MountedFs.open', UstarFilesystem.open, exec_look_bind, hfind' fuel hfuel]
        dsimp only
        rw [if_neg (not_not.mpr hok), if_pos htype]
        rfl
      · refine ⟨-1, s.fail ENOENT, ⟨bound, fun fuel hfuel => ?_⟩, .inl ⟨hopen, rfl, h.fail ENOENT⟩⟩
        rw [Syscalls.onFiles, MountedFs.open', UstarFilesystem.open, exec_look_bind, hfind' fuel hfuel]
        dsimp only
        rw [if_pos hok]
        rfl
    · have hopen : (Tree.archive (lookup content es)).open flags base = some (.file rest) := by
        rw [Tree.open, hsome]
        rfl
      obtain ⟨fd, s', hcall, hnew, hpos, hs'⟩ := onFiles_mapfile h hfresh hroom (fun i => raw (5 + i))
        (by decide : (Value.text [0x55, 0x73, 0x74, 0x61, 0x72]).Whole) hbase (.ustar fs m_mountpoint) (some new.data)
        (Function.update s.iterators new.data (some (.ustar it.assign))) (.file rest)
        (fun p hp => Function.update_of_ne hp ..) (fun p hp => (Option.some.inj hp).symm)
        (fun fd => .file (d := ⟨_, _, fd, _, _, 0⟩) rfl hmem rfl (Function.update_self ..) hin)
      refine ⟨fd, s', ⟨bound, fun fuel hfuel => ?_⟩, .inr ⟨_, hopen, hnew, hpos, hs'⟩⟩
      rw [← hcall, Syscalls.onFiles, MountedFs.open', UstarFilesystem.open, exec_look_bind, hfind' fuel hfuel]
      dsimp only
      rw [if_neg (not_not.mpr hok), if_neg (not_not.mpr htype)]
      rfl
  | @devices m_mountpoint =>
    have hcall :
        ∀ fuel, Syscalls.onFiles ((MountedFs.dev m_mountpoint).open' raw new fuel (.text base) flags) s = _ :=
      fun _ => DevFS.open_eq (.dev m_mountpoint) raw new base flags s
    by_cases hflags : WritesFlags flags
    · rw [if_pos hflags] at hcall
      exact ⟨-1, s.fail EPERM, ⟨0, fun fuel _ => hcall fuel⟩, .inl ⟨if_pos (.inl hflags), rfl, h.fail EPERM⟩⟩
    rw [if_neg hflags] at hcall
    by_cases hdevice : Fs.devices.contains base
    · have hopen : Tree.devices.open flags base = some .device := by
        rw [Tree.open, if_neg]
        rintro (hw | hno)
        · exact hflags hw
        · exact hno hdevice
      have hname : DevFS.isDevice (.text base) = some true := (DevFS.isDevice_text base).trans (congrArg some hdevice)
      obtain ⟨fd, s', hmap, hnew, hpos, hs'⟩ := onFiles_mapfile h hfresh hroom (fun i => raw (5 + i))
        (by decide : (Value.text [0x44, 0x65, 0x76, 0x46, 0x53]).Whole) hbase (.dev m_mountpoint) none s.iterators
        .device (fun p _ => rfl) (fun p hp => by cases hp)
        (fun fd => .device (d := ⟨_, _, fd, _, _, 0⟩) rfl hmem rfl hname)
      rw [if_pos hdevice] at hcall
      exact ⟨fd, s', ⟨0, fun fuel _ => (hcall fuel).trans hmap⟩, .inr ⟨_, hopen, hnew, hpos, hs'⟩⟩
    · rw [if_neg hdevice] at hcall
      exact ⟨-1, s.fail ENOENT, ⟨0, fun fuel _ => hcall fuel⟩, .inl ⟨if_pos (.inr hdevice), rfl, h.fail ENOENT⟩⟩

theorem find?_implements (hall : List.Forall₂ Implements mounts trees) (path : Str) :
    (mounts.find? (fun fs => path.startsWith fs.mountpoint) = none ∧
        trees.find? (fun m => path.startsWith m.1) = none) ∨
      ∃ fs m, mounts.find? (fun fs => path.startsWith fs.mountpoint) = some fs ∧
        trees.find? (fun m => path.startsWith m.1) = some m ∧ fs ∈ mounts ∧ Implements fs m ∧
        fs.mountpoint = m.1 := by
  induction hall with
  | nil => exact .inl ⟨rfl, rfl⟩
  | @cons fs m mounts trees himp hall ih =>
    have hpoint : fs.mountpoint = m.1 := by
      cases himp with
      | archive => rfl
      | devices => rfl
    by_cases hstart : path.startsWith m.1
    · have hstart' : path.startsWith fs.mountpoint := hpoint.symm ▸ hstart
      refine .inr ⟨fs, m, ?_, ?_, List.mem_cons_self, himp, hpoint⟩
      · rw [List.find?_cons, hstart']
      · rw [List.find?_cons, hstart]
    · have hstart' : ¬ path.startsWith fs.mountpoint := hpoint.symm ▸ hstart
      rw [List.find?_cons, eq_false_of_ne_true hstart', List.find?_cons, eq_false_of_ne_true hstart]
      rcases ih with hnone | ⟨fs', m', hfs, hm, hmem, himp', hpoint'⟩
      · exact .inl hnone
      · exact .inr ⟨fs', m', hfs, hm, List.mem_cons_of_mem _ hmem, himp', hpoint'⟩

theorem Matches.open (raw : ℕ → Word) (new : NewFile) (h : Matches v mounts s a)
    (hv : v.mountpoint = MountedFs.mountpoint)
    (hall : List.Forall₂ Implements mounts trees) (hfresh : s.Fresh v new)
    (hroom : a.issued.length + 1 < 2 ^ 31 - 3) {name : Option Str} (hname : LeavesName v name) (flags : Word) :
    ∃ ret s' a',
      (∃ bound, ∀ fuel, bound ≤ fuel → Syscalls.syscall_open v raw new fuel name flags s = some (ret, s')) ∧
      Descriptors.Step trees a (.open name flags, ⟨ret, []⟩) a' ∧ Matches v mounts s' a' ∧
      a'.issued.length ≤ a.issued.length + 1 := by
  cases name with
  | none => exact ⟨-ENOENT, s, a, ⟨0, fun _ _ => rfl⟩, .open_null, h, Nat.le_succ _⟩
  | some path =>
    have haccess : v.access path = some (mounts.find? fun fs => path.startsWith fs.mountpoint) := by
      obtain ⟨l, t, hs, rfl, -⟩ := h
      rw [VFS.access_eq hs.mounts, hv]
    rcases find?_implements hall path with ⟨hnone, hnowhere⟩ | ⟨fs, m, hfs, hm, hmem, himp, hpoint⟩
    · have hresolve : resolve trees path = none := by
        rw [resolve, hnowhere]
        rfl
      refine ⟨-ENOENT, s, a, ⟨0, fun fuel _ => ?_⟩, .open_nowhere hresolve, h, Nat.le_succ _⟩
      rw [Syscalls.syscall_open, haccess, hnone]
      rfl
    · have hleaves := hname path fs rfl (haccess.trans (congrArg some hfs))
      have hmount : v.mountpoint fs = m.1 := by rw [hv, hpoint]
      have hbase := VFS.stripslash_basedir hleaves (raw 0)
      rw [hmount] at hleaves hbase
      have hwhole : (Value.text ((path.drop (m.1.length + 1)).dropWhile (· = 0x2F))).Whole :=
        Value.Whole.sublist hleaves.2 (List.dropWhile_sublist _)
      have hresolve : resolve trees path = some (m.2, (path.drop (m.1.length + 1)).dropWhile (· = 0x2F)) := by
        rw [resolve, hm]
        rfl
      obtain ⟨ret, s', ⟨bound, hcall⟩, hres⟩ := h.open_tree hfresh hroom himp hmem raw hwhole flags
      have hcall' : ∀ fuel, bound ≤ fuel →
          Syscalls.syscall_open v raw new fuel (some path) flags s = some (ret, s') := by
        intro fuel hfuel
        rw [Syscalls.syscall_open, haccess, hfs, Option.bind_some]
        dsimp only
        rw [hbase, Option.bind_some, hwhole.init]
        exact hcall fuel hfuel
      rcases hres with ⟨hopen, rfl, hs'⟩ | ⟨contents, hopen, hnew, hpos, hs'⟩
      · exact ⟨-1, s', a, ⟨bound, hcall'⟩, .open_fails hresolve hopen, hs', Nat.le_succ _⟩
      · exact ⟨ret, s', _, ⟨bound, hcall'⟩, .open hresolve hopen hnew hpos, hs', Nat.le_refl _⟩

theorem Matches.read_keyboard (h : Matches v mounts s a) {buf count ret raw : Word} {answers : List (Option KeyText)}
    {ints : ℕ → Word} {s' : SysState}
    (hcall : Syscalls.syscall_read v 0 buf count answers raw ints s = some (ret, s')) : Matches v mounts s' a := by
  obtain ⟨c, -, hres⟩ := Option.map_eq_some_iff.mp hcall
  obtain ⟨-, rfl⟩ := Prod.mk.inj hres
  exact h

theorem Matches.write (trees : List (Str × Tree)) (h : Matches v mounts s a) (fd buf count : Word) :
    ∃ ret s', Syscalls.syscall_write v fd buf count s = some (ret, s') ∧
      Descriptors.Step trees a (.write fd count, ⟨ret, []⟩) a ∧ Matches v mounts s' a := by
  by_cases hfd : fd = 1 ∨ fd = 2
  · exact ⟨count, _, if_pos hfd, .write_console hfd, h⟩
  rw [Syscalls.syscall_write, if_neg hfd]
  cases hfile : a.file fd with
  | none => exact ⟨-EPERM, s, h.withHandle_closed hfile, .closed hfile (.inr (.inl ⟨count, rfl, hfd⟩)), h⟩
  | some e =>
    have hfail := h.fail EPERM
    obtain ⟨l, t, hs, rfl, hissued, halike⟩ := h
    obtain ⟨d, hentry, hopens⟩ := halike.entry_some hfile
    obtain ⟨fs, hmem, howner⟩ := hopens.owner
    exact ⟨-1, s.fail EPERM, withHandle_open hs (List.ne_nil_of_mem hmem) hentry howner, .write hfile, hfail⟩

/-- Each call that returns does to the descriptors what it should. -/
theorem Matches.step {call : FileCall × CallResult} {s' : SysState} (h : Matches v mounts s a)
    (hv : v.mountpoint = MountedFs.mountpoint) (hall : List.Forall₂ Implements mounts trees)
    (hroom : a.issued.length + (if call.1.isOpen then 1 else 0) < 2 ^ 31 - 3) (hstep : SysStep v s call s') :
    ∃ a', Descriptors.Step trees a call a' ∧ Matches v mounts s' a' ∧
      a'.issued.length ≤ a.issued.length + if call.1.isOpen then 1 else 0 := by
  cases hstep with
  | @«open» _ raw new name flags ret hfresh hname hcall =>
    obtain ⟨ret', s₁, a', hcall', hstep, hs', hlen⟩ := h.open raw _ hv hall hfresh hroom hname flags
    obtain ⟨bound, hbound⟩ := hcall
    obtain ⟨bound', hbound'⟩ := hcall'
    have hsame := (hbound (bound + bound') (Nat.le_add_right _ _)).symm.trans
      (hbound' (bound + bound') (Nat.le_add_left _ _))
    obtain ⟨rfl, rfl⟩ := Prod.mk.inj (Option.some.inj hsame)
    exact ⟨a', hstep, hs', hlen⟩
  | @read _ fd buf count ret raw answers ints hcount hcall =>
    by_cases hzero : fd = 0
    · subst hzero
      exact ⟨a, .read_keyboard, h.read_keyboard hcall, Nat.le_add_right _ _⟩
    cases hfile : a.file fd with
    | none =>
      rw [Syscalls.syscall_read, if_neg hzero, h.withHandle_closed hfile] at hcall
      obtain ⟨rfl, rfl⟩ := Prod.mk.inj (Option.some.inj hcall)
      exact ⟨a, .closed hfile (.inl ⟨count, rfl, hzero⟩), h, Nat.le_add_right _ _⟩
    | some e =>
      obtain ⟨ret', s₁, a', hcall', hstep, hs', hissued⟩ := h.read trees hfile hzero buf hcount answers raw ints
      obtain ⟨rfl, rfl⟩ := Prod.mk.inj (Option.some.inj (hcall'.symm.trans hcall))
      exact ⟨a', hstep, hs', by rw [hissued]; exact Nat.le_add_right _ _⟩
  | @write _ fd buf count ret hcall =>
    obtain ⟨ret', s₁, hcall', hstep, hs'⟩ := h.write trees fd buf count
    obtain ⟨rfl, rfl⟩ := Prod.mk.inj (Option.some.inj (hcall'.symm.trans hcall))
    exact ⟨a, hstep, hs', Nat.le_add_right _ _⟩
  | @close _ fd ret hcall =>
    cases hfile : a.file fd with
    | none =>
      obtain ⟨rfl, rfl⟩ := Prod.mk.inj (Option.some.inj ((h.withHandle_closed hfile).symm.trans hcall))
      exact ⟨a, .closed hfile (.inr (.inr (.inl rfl))), h, Nat.le_add_right _ _⟩
    | some e =>
      obtain ⟨s₁, hcall', hs'⟩ := h.close hfile
      obtain ⟨rfl, rfl⟩ := Prod.mk.inj (Option.some.inj (hcall'.symm.trans hcall))
      exact ⟨_, .close hfile, hs', Nat.le_add_right _ _⟩
  | @fcntl _ fd cmd arg ret hcall =>
    cases hfile : a.file fd with
    | none =>
      obtain ⟨rfl, rfl⟩ := Prod.mk.inj (Option.some.inj ((h.withHandle_closed hfile).symm.trans hcall))
      exact ⟨a, .closed hfile (.inr (.inr (.inr ⟨cmd, arg, rfl⟩))), h, Nat.le_add_right _ _⟩
    | some e =>
      obtain ⟨ret', s₁, a', hcall', hstep, hs', hissued⟩ := h.fcntl trees hfile cmd arg
      obtain ⟨rfl, rfl⟩ := Prod.mk.inj (Option.some.inj (hcall'.symm.trans hcall))
      exact ⟨a', hstep, hs', by rw [hissued]; exact Nat.le_add_right _ _⟩

/-- Each call returns but one that waits for the keyboard. -/
theorem Matches.progress {new : NewFile} (h : Matches v mounts s a) (hv : v.mountpoint = MountedFs.mountpoint)
    (hall : List.Forall₂ Implements mounts trees) (hfresh : s.Fresh v new) {call : FileCall}
    (hallowed : call.Allowed v) (hkeys : ∀ count, call ≠ .read 0 count)
    (hroom : a.issued.length + (if call.isOpen then 1 else 0) < 2 ^ 31 - 3) :
    ∃ r s', SysStep v s (call, r) s' := by
  cases call with
  | «open» name flags =>
    obtain ⟨ret, s', a', hcall, -⟩ := h.open (fun _ => 0) _ hv hall hfresh hroom hallowed flags
    exact ⟨_, s', .open hfresh hallowed hcall⟩
  | read fd count =>
    have hzero : fd ≠ 0 := by
      rintro rfl
      exact hkeys count rfl
    cases hfile : a.file fd with
    | none =>
      have hcall : Syscalls.syscall_read v fd 0 count [] 0 (fun _ => 0) s = some (-EPERM, s) := by
        rw [Syscalls.syscall_read, if_neg hzero, h.withHandle_closed hfile]
      exact ⟨_, s, .read hallowed hcall⟩
    | some e =>
      obtain ⟨ret, s', a', hcall, -⟩ := h.read trees hfile hzero 0 hallowed [] 0 fun _ => 0
      exact ⟨_, s', .read hallowed hcall⟩
  | write fd count =>
    obtain ⟨ret, s', hcall, -⟩ := h.write trees fd 0 count
    exact ⟨_, s', .write hcall⟩
  | close fd =>
    cases hfile : a.file fd with
    | none => exact ⟨_, s, .close (h.withHandle_closed hfile)⟩
    | some e =>
      obtain ⟨s', hcall, -⟩ := h.close hfile
      exact ⟨_, s', .close hcall⟩
  | fcntl fd cmd arg =>
    cases hfile : a.file fd with
    | none => exact ⟨_, s, .fcntl (h.withHandle_closed hfile)⟩
    | some e =>
      obtain ⟨ret, s', a', hcall, -⟩ := h.fcntl trees hfile cmd arg
      exact ⟨_, s', .fcntl hcall⟩

theorem matches_empty (hmounts : v.m_mounts.Holds mounts) (hfiles : s.files = .new) :
    Matches v mounts s .empty := by
  have hempty := shows_empty (κ := Ptr) MountedFs.mountpoint
  refine ⟨[], ⟨[], fun _ => none, mounts, 0⟩, ?_, rfl, rfl, fun _ => .none, fun _ _ _ _ _ h => by cases h⟩
  rw [hfiles]
  exact ⟨hempty.opened, hempty.entry, hempty.names, hempty.issued, hempty.count, hempty.below, hmounts, rfl⟩

end Calls

section Run
variable {v : VFS MountedFs} {mounts : List MountedFs} {trees : List (Str × Tree)} {s s' : SysState}
  {calls : List (FileCall × CallResult)}

/-- The run on the descriptors beside a run of system calls. -/
theorem matches_run (hv : v.mountpoint = MountedFs.mountpoint) (hmounts : v.m_mounts.Holds mounts)
    (hall : List.Forall₂ Implements mounts trees) (hfiles : s.files = .new) (hrun : Run (SysStep v) s calls s')
    (hcount : calls.countP (fun call => call.1.isOpen) < 2 ^ 31 - 3) :
    ∃ a, Run (Descriptors.Step trees) .empty calls a ∧ Matches v mounts s' a ∧
      a.issued.length ≤ calls.countP fun call => call.1.isOpen := by
  let R (n : ℕ) (s : SysState) (a : Descriptors) : Prop :=
    Matches v mounts s a ∧ a.issued.length + n ≤ calls.countP fun call => call.1.isOpen
  have hsim : ∀ n s call s' a, R (n + if call.1.isOpen then 1 else 0) s a → SysStep v s call s' →
      ∃ a', Descriptors.Step trees a call a' ∧ R n s' a' := by
    rintro n s call s' a ⟨hs, hn⟩ hstep
    obtain ⟨a', habs, hs', hlen⟩ := hs.step hv hall (by omega) hstep
    exact ⟨a', habs, hs', by omega⟩
  have hstart : R (0 + calls.countP fun call => call.1.isOpen) s .empty :=
    ⟨matches_empty hmounts hfiles, Nat.le_of_eq ((Nat.zero_add _).trans (Nat.zero_add _))⟩
  exact hrun.simulate_count (fun call => call.1.isOpen) hsim hstart

/-- A run of system calls is a run on the descriptors, with the same results, and each further call returns but one
that waits for the keyboard. The mounts are archives of less than 4 GiB and `DevFS`, fewer than `2 ^ 31 - 3` calls
open a file, none opens a mountpoint itself, and none reads 2 GiB or more. -/
theorem syscalls_run (hv : v.mountpoint = MountedFs.mountpoint) (hmounts : v.m_mounts.Holds mounts)
    (hall : List.Forall₂ Implements mounts trees) (hfiles : s.files = .new) (hrun : Run (SysStep v) s calls s')
    (hcount : calls.countP (fun call => call.1.isOpen) < 2 ^ 31 - 3) :
    ∃ a, Run (Descriptors.Step trees) .empty calls a ∧ Matches v mounts s' a ∧
      ∀ (call : FileCall) new, s'.Fresh v new → call.Allowed v → (∀ count, call ≠ .read 0 count) →
        calls.countP (fun call => call.1.isOpen) + (if call.isOpen then 1 else 0) < 2 ^ 31 - 3 →
          ∃ r s'', SysStep v s' (call, r) s'' := by
  obtain ⟨a, habs, hs', hlen⟩ := matches_run hv hmounts hall hfiles hrun hcount
  exact ⟨a, habs, hs', fun call new hfresh hallowed hkeys hroom =>
    hs'.progress hv hall hfresh hallowed hkeys (by omega)⟩

end Run

/-- From the call of `open` that finds a file to the end of the run or the call that closes it, the reads through
the new handle deliver the file from its start on, whatever other calls come between them. The limits of the runs are
those of `syscalls_run`. -/
theorem read_through {v : VFS MountedFs} {mounts : List MountedFs} {trees : List (Str × Tree)} {s s' : SysState}
    {before behind : List (FileCall × CallResult)} {path base : Str} {tree : Tree} {flags fd : Word}
    {data : List Byte} (hv : v.mountpoint = MountedFs.mountpoint) (hmounts : v.m_mounts.Holds mounts)
    (hall : List.Forall₂ Implements mounts trees) (hfiles : s.files = .new)
    (hrun : Run (SysStep v) s (before ++ (.open (some path) flags, ⟨fd, []⟩) :: behind) s')
    (hcount :
      (before ++ (.open (some path) flags, ⟨fd, []⟩) :: behind).countP (fun call => call.1.isOpen) < 2 ^ 31 - 3)
    (hresolve : resolve trees path = some (tree, base)) (hdata : tree.open flags base = some (.file data))
    (hclose : ∀ call ∈ behind, ¬ call.1.closes fd) :
    3 ≤ fd.toInt ∧ ((behind.filterMap (readOf fd)).map Prod.snd).flatten =
      data.take ((behind.filterMap (readOf fd)).map Prod.fst).sum := by
  obtain ⟨a, habs, -⟩ := matches_run hv hmounts hall hfiles hrun hcount
  obtain ⟨a₁, -, hrest⟩ := habs.exists_between
  cases hrest with
  | cons hopen hbehind =>
    obtain ⟨hpos, hissued, hfile⟩ := hopen.opened hresolve hdata
    have hzero : fd ≠ 0 := by
      rintro rfl
      exact absurd hpos (by decide)
    exact ⟨hpos, Descriptors.run_keeps_file hbehind hfile hissued hzero hclose⟩

def oneFile (i : ℕ) : Byte :=
  if i = 0 then 0x61 else if i = 156 then TYPE_FILE else if i = 512 then 0x78 else if i = 513 then 0x79
  else headerByte 0x32 i

def oneFilePhys : FilesystemPhys :=
  ⟨1024, fun pos => if pos + 512 ≤ 1024 then some fun i => oneFile (pos + i) else none⟩

theorem oneFilePhys_reads : oneFilePhys.Reads oneFile := by
  intro pos hpos
  have hle : pos + 512 ≤ 1024 := hpos
  refine ⟨fun i => oneFile (pos + i), ?_, fun i _ => rfl⟩
  simp only [oneFilePhys, if_pos hle]

def oneFileMount : MountedFs := .ustar ⟨oneFilePhys⟩ [0x2F, 0x6D]

theorem oneFile_implements :
    Implements oneFileMount ([0x2F, 0x6D], .archive (lookup oneFile [⟨0, 2⟩])) := by
  have hmagic : field (blockOf oneFile 0) 257 5 = ustarMagic := by decide
  exact .archive (by decide) oneFilePhys_reads (.entry ⟨0, 2⟩ [] hmagic
    ⟨List.replicate 10 0 ++ [2], rfl, by decide, by decide, by decide⟩ (by decide) (.flush _ (by decide)))

theorem lookup_oneFile : lookup oneFile [⟨0, 2⟩] [0x61] = some [0x78, 0x79] := by
  have hname : nameString (blockOf oneFile 0) = [0x61] := by decide +kernel
  have htype : blockOf oneFile 0 156 = TYPE_FILE := rfl
  rw [lookup, List.find?_cons, decide_eq_true hname, Option.bind_some, if_pos htype]
  decide

def oneFilePath : Str := [0x2F, 0x6D, 0x2F, 0x61]

def oneFileTrees : List (Str × Tree) := [([0x2F, 0x6D], .archive (lookup oneFile [⟨0, 2⟩]))]

theorem resolve_oneFile : resolve oneFileTrees oneFilePath = some (.archive (lookup oneFile [⟨0, 2⟩]), [0x61]) := rfl

theorem open_oneFile : (Tree.archive (lookup oneFile [⟨0, 2⟩])).open 0 [0x61] = some (.file [0x78, 0x79]) := by
  have hchars : Str.chars [0x61] = [0x61] := rfl
  rw [Tree.open, hchars, lookup_oneFile]
  rfl

theorem oneFile_forall₂ : List.Forall₂ Implements [oneFileMount] oneFileTrees := .cons oneFile_implements .nil

theorem run_oneFile : ∃ (v : VFS MountedFs) (s s' : SysState) (fd ret : Word),
    v.mountpoint = MountedFs.mountpoint ∧ v.m_mounts.Holds [oneFileMount] ∧ s.files = .new ∧
      Run (SysStep v) s [(.open (some oneFilePath) 0, ⟨fd, []⟩), (.read fd 5, ⟨ret, [0x78, 0x79]⟩)] s' := by
  have hnode : (24 : Word) ≠ 0 := by decide
  obtain ⟨m_mounts, happend, hv⟩ : ∃ m_mounts, LinkedList.new.append ⟨24, hnode⟩ (some oneFileMount) = some m_mounts ∧
      m_mounts.Holds [oneFileMount] := LinkedList.holds_new.append rfl oneFileMount
  let v : VFS MountedFs := ⟨MountedFs.mountpoint, m_mounts⟩
  let s : SysState := ⟨VFS.noFiles, fun _ => 0, ⟨⟨0, 0, 0⟩, 80, 25, fun _ => 0, [], []⟩⟩
  have hmem : v.m_mounts.mem VFS.newFile.node = none := by
    obtain rfl := Option.some.inj happend
    rfl
  have hstart : Matches v [oneFileMount] s .empty := matches_empty hv rfl
  have hname : LeavesName v (some oneFilePath) := by
    intro path fs hpath haccess
    obtain rfl := Option.some.inj hpath
    rw [VFS.access_eq hv] at haccess
    obtain rfl : oneFileMount = fs := Option.some.inj (Option.some.inj haccess)
    exact (by decide : VFS.Leaves [0x2F, 0x6D] oneFilePath)
  obtain ⟨fd, s₁, a, hcall, hstep, hs₁, -⟩ := hstart.open (fun _ => 9) VFS.newFile rfl oneFile_forall₂
    ⟨⟨rfl, hmem, rfl⟩, rfl⟩ (by decide) hname 0
  obtain ⟨hpos, -, hfile⟩ := hstep.opened resolve_oneFile open_oneFile
  have hzero : fd ≠ 0 := by
    rintro rfl
    exact absurd hpos (by decide)
  have hcount : (5 : Word).toNat < 2 ^ 31 := by decide
  obtain ⟨ret, s₂, a', hread, hstep', -⟩ := hs₁.read oneFileTrees hfile hzero 0 hcount [] 0 fun _ => 0
  have hbytes : delivered s₂.memory 0 ret = [0x78, 0x79] := by
    generalize delivered s₂.memory 0 ret = bytes at hstep'
    cases hstep' with
    | read_file hfile' =>
      cases hfile'.symm.trans hfile
      rfl
    | read_device hfile' => cases hfile'.symm.trans hfile
    | read_keyboard => exact absurd rfl hzero
    | closed hnone hcall =>
      rcases hcall with ⟨_, h, -⟩ | ⟨_, h, -⟩ | h | ⟨_, _, h⟩
      · cases h
        exact absurd (hnone.symm.trans hfile) (by simp)
      · cases h
      · cases h
      · cases h
  refine ⟨v, s, s₂, fd, ret, rfl, hv, rfl, .cons (.open ⟨⟨rfl, hmem, rfl⟩, rfl⟩ hname hcall) (.single ?_)⟩
  rw [← hbytes]
  exact .read hcount hread

theorem syscalls_run_oneFile : ∃ (v : VFS MountedFs) (s' : SysState) (fd ret : Word) (a : Descriptors),
    Run (Descriptors.Step oneFileTrees) .empty
      [(.open (some oneFilePath) 0, ⟨fd, []⟩), (.read fd 5, ⟨ret, [0x78, 0x79]⟩)] a ∧
        Matches v [oneFileMount] s' a := by
  obtain ⟨v, s, s', fd, ret, hpoint, hv, hfiles, hrun⟩ := run_oneFile
  obtain ⟨a, habs, hs', -⟩ := syscalls_run hpoint hv oneFile_forall₂ hfiles hrun (Nat.lt_of_sub_pos (Nat.succ_pos _))
  exact ⟨v, s', fd, ret, a, habs, hs'⟩

theorem read_through_oneFile : ∃ (v : VFS MountedFs) (s s' : SysState) (fd ret : Word),
    Run (SysStep v) s [(.open (some oneFilePath) 0, ⟨fd, []⟩), (.read fd 5, ⟨ret, [0x78, 0x79]⟩)] s' ∧
      3 ≤ fd.toInt ∧ (([(.read fd 5, ⟨ret, [0x78, 0x79]⟩)].filterMap (readOf fd)).map Prod.snd).flatten =
        List.take (([(.read fd 5, ⟨ret, [0x78, 0x79]⟩)].filterMap (readOf fd)).map Prod.fst).sum [0x78, 0x79] := by
  obtain ⟨v, s, s', fd, ret, hpoint, hv, hfiles, hrun⟩ := run_oneFile
  have hsplit : Run (SysStep v) s
      ([] ++ (.open (some oneFilePath) 0, ⟨fd, []⟩) :: [(.read fd 5, ⟨ret, [0x78, 0x79]⟩)]) s' := hrun
  refine ⟨v, s, s', fd, ret, hrun, read_through hpoint hv oneFile_forall₂ hfiles hsplit
    (Nat.lt_of_sub_pos (Nat.succ_pos _)) resolve_oneFile open_oneFile fun call hcall hclose => ?_⟩
  rw [List.mem_singleton.mp hcall] at hclose
  exact hclose

end CxxKernel.Fs
