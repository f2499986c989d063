import CxxKernel.Fs.Mounts

/-! The open files as a table from handles to files. -/
namespace CxxKernel.Fs
open Containers Runs Text

variable {φ κ : Type} {s : Filesystem φ κ} {v : VFS φ} {l a b : List (Ptr × FileData φ κ)}
  {x y : Ptr × FileData φ κ} {fh : Word}

/-- The list holds the files `l`, no two of which are the same object or have the same handle. -/
structure Opened (s : Filesystem φ κ) (l : List (Ptr × FileData φ κ)) : Prop where
  holds : s.m_files.Holds (l.map Prod.fst)
  data : ∀ x ∈ l, s.data x.1 = some x.2
  nodup : (l.map Prod.fst).Nodup
  handles : (l.map fun x => x.2.m_id).Nodup

namespace Opened

theorem length_lt (h : Opened s l) : l.length < 2 ^ 32 := by
  have hlt := h.holds.length_lt
  rw [List.length_map] at hlt
  exact hlt

theorem size_toNat (h : Opened s l) : s.m_files.size.toNat = l.length := by
  rw [h.holds.size_toNat, List.length_map]

theorem search_cases (h : Opened s l) (test : FileData φ κ → Option Bool) (meets : FileData φ κ → Bool)
    (htest : ∀ x ∈ l, test x.2 = some (meets x.2)) (pre : List (Ptr × FileData φ κ))
    {post : List (Ptr × FileData φ κ)} (hl : l = pre ++ post) {fuel : ℕ} (hfuel : post.length ≤ fuel) :
    ((∀ y ∈ post, ¬ meets y.2) ∧ s.search test fuel (BitVec.ofNat 32 pre.length) = some none) ∨
      ∃ a x b, post = a ++ x :: b ∧ meets x.2 ∧
        s.search test fuel (BitVec.ofNat 32 pre.length) =
          some (some (BitVec.ofNat 32 (pre.length + a.length), x)) := by
  induction post generalizing pre fuel with
  | nil =>
    refine .inl ⟨fun y hy => absurd hy List.not_mem_nil, ?_⟩
    cases fuel with
    | zero => rfl
    | succ fuel =>
      have hend : ¬ BitVec.ofNat 32 pre.length < s.m_files.size := by
        have hlen := h.length_lt
        rw [hl, List.append_nil] at hlen
        rw [BitVec.lt_def, h.size_toNat, hl, List.append_nil, BitVec.toNat_ofNat, Nat.mod_eq_of_lt hlen]
        exact Nat.lt_irrefl _
      rw [Filesystem.search, if_neg hend]
  | cons x post ih =>
    obtain ⟨fuel, rfl⟩ := Nat.exists_eq_succ_of_ne_zero (Nat.ne_of_gt (Nat.lt_of_lt_of_le (Nat.succ_pos _) hfuel))
    have hlen : l.length = pre.length + (post.length + 1) := by
      rw [hl, List.length_append, List.length_cons]
    have hpos : (BitVec.ofNat 32 pre.length).toNat = pre.length := by
      have hlt := h.length_lt
      rw [BitVec.toNat_ofNat, Nat.mod_eq_of_lt (by omega)]
    have hin : BitVec.ofNat 32 pre.length < s.m_files.size := by
      rw [BitVec.lt_def, h.size_toNat, hpos]
      omega
    have hat : s.m_files.at' (BitVec.ofNat 32 pre.length) = some (some x.1) := by
      rw [h.holds.at', hpos, hl, List.map_append, List.getElem?_append_right (by simp)]
      simp
    have hmem : x ∈ l := by
      rw [hl]
      exact List.mem_append_right _ List.mem_cons_self
    rw [Nat.succ_eq_add_one, Filesystem.search, if_pos hin, hat, Option.bind_some, Option.bind_some, h.data x hmem,
      Option.bind_some, htest x hmem, Option.bind_some]
    by_cases hmeets : meets x.2
    · rw [if_pos hmeets]
      exact .inr ⟨[], x, post, rfl, hmeets, rfl⟩
    · rw [if_neg hmeets]
      have hl' : l = (pre ++ [x]) ++ post := by rw [hl, List.append_assoc]; rfl
      have hnext : BitVec.ofNat 32 pre.length + 1 = BitVec.ofNat 32 (pre ++ [x]).length := by
        rw [List.length_append, BitVec.ofNat_add]
        rfl
      rw [hnext]
      rcases ih _ hl' (Nat.le_of_succ_le_succ hfuel) with ⟨hnot, hsearch⟩ | ⟨a, z, b, rfl, hz, hsearch⟩
      · refine .inl ⟨fun y hy => ?_, hsearch⟩
        rcases List.mem_cons.mp hy with rfl | hy
        · exact hmeets
        · exact hnot y hy
      · refine .inr ⟨x :: a, z, b, rfl, hz, ?_⟩
        have hplace : (pre ++ [x]).length + a.length = pre.length + (x :: a).length := by
          rw [List.length_append, List.length_singleton, List.length_cons]
          omega
        rw [hsearch, hplace]

theorem mem_middle_iff_of_ne {d : FileData φ κ} (hne : d.m_id ≠ x.2.m_id) :
    d ∈ (a ++ x :: b).map Prod.snd ↔ d ∈ (a ++ b).map Prod.snd := by
  have hx : d ≠ x.2 := by
    rintro rfl
    exact hne rfl
  rw [List.map_append, List.map_append, List.map_cons, List.mem_append, List.mem_append, List.mem_cons,
    or_iff_right hx]

theorem apart (h : Opened s (a ++ x :: b)) (hy : y ∈ a ++ b) : y.1 ≠ x.1 ∧ y.2.m_id ≠ x.2.m_id := by
  have hptr := h.nodup
  have hid := h.handles
  rw [List.map_append, List.map_cons, List.nodup_middle, ← List.map_append, List.nodup_cons] at hptr hid
  refine ⟨fun heq => hptr.1 ?_, fun heq => hid.1 ?_⟩
  · rw [← heq]
    exact List.mem_map_of_mem hy
  · rw [← heq]
    exact List.mem_map.mpr ⟨y, hy, rfl⟩

theorem snoc (h : Opened s l) {file : Ptr} {d : FileData φ κ} {m_files : LinkedList Ptr} (n : Word)
    (hm : m_files.Holds (l.map Prod.fst ++ [file])) (hfile : s.data file = none)
    (hother : ∀ y ∈ l, y.2.m_id ≠ d.m_id) :
    Opened { s with
      m_filehandle := n
      m_files
      data := Function.update s.data file (some d) } (l ++ [(file, d)]) := by
  have hne : ∀ x ∈ l, x.1 ≠ file := by
    intro x hx heq
    have hdata := h.data x hx
    rw [heq, hfile] at hdata
    cases hdata
  refine ⟨?_, fun x hx => ?_, ?_, ?_⟩
  · rw [List.map_append]
    exact hm
  · rcases List.mem_append.mp hx with hx | hx
    · exact (Function.update_of_ne (hne x hx) ..).trans (h.data x hx)
    · obtain rfl := List.mem_singleton.mp hx
      exact Function.update_self ..
  · rw [List.map_append, List.map_singleton, ← List.concat_eq_append]
    apply h.nodup.concat
    intro hmem
    obtain ⟨x, hx, heq⟩ := List.mem_map.mp hmem
    exact hne x hx heq
  · rw [List.map_append, List.map_singleton, ← List.concat_eq_append]
    apply h.handles.concat
    intro hmem
    obtain ⟨x, hx, heq⟩ := List.mem_map.mp hmem
    exact hother x hx heq

end Opened

/-- What the open files should be: the handles that `mapfile` has returned, the file of each handle
that is open, the mounts, and `errno`. -/
structure OpenTable (φ κ : Type) where
  handles : List Word
  entry : Word → Option (FileData φ κ)
  mounts : List φ
  errno : Word

def OpenTable.empty : OpenTable φ κ := ⟨[], fun _ => none, [], 0⟩

inductive FileOp (φ κ : Type)
  | mapfile (fs name : Value) (owner : Option φ) (custom : Option κ)
  | closefile (fh : Word)
  | setFcntl (fh mode : Word)
  | getFcntl (fh : Word)
  | getfile (fs name : Value)
  | getFS (fh : Word)
  | getCustom (fh : Word)
  | getFilesystem (fh : Word)
  | getName (fh : Word)
  | mount (fs : Option φ)
  | accessHandle (fd : Word)

inductive FileResult (φ κ : Type)
  | word (val : Word)
  | bool (val : Bool)
  | str (val : Value)
  | custom (val : Option κ)
  | filesystem (val : Option φ)

def FileOp.isMapfile : FileOp φ κ → Bool
  | .mapfile .. => true
  | _ => false

/-- A call, and what it returns. `raw` has the lengths in the memory where copies are made. -/
def FileOp.exec (s : Filesystem φ κ) (v : VFS φ) (raw : ℕ → Word) (node file : Ptr) :
    FileOp φ κ → Option (FileResult φ κ × Filesystem φ κ × VFS φ)
  | .mapfile fs name owner custom =>
    (s.mapfile raw node file fs name owner custom).map fun (res, s) => (.word res, s, v)
  | .closefile fh => (s.closefile fh).map fun (res, s) => (.bool res, s, v)
  | .setFcntl fh mode => (s.setFcntl fh mode).map fun (res, s) => (.word res, s, v)
  | .getFcntl fh => (s.getFcntl fh).map fun (res, s) => (.word res, s, v)
  | .getfile fs name => (s.getfile fs name).map (.word ·, s, v)
  | .getFS fh => (s.getFS (raw 0) fh).map (.str ·, s, v)
  | .getCustom fh => (s.getCustom fh).map (.custom ·, s, v)
  | .getFilesystem fh => (s.getFilesystem fh).map (.filesystem ·, s, v)
  | .getName fh => (s.getName (raw 0) fh).map (.str ·, s, v)
  | .mount fs => (v.mount node fs).map fun (res, v) => (.bool res, s, v)
  | .accessHandle fd => (v.accessHandle s fd).map (.filesystem ·, s, v)

/-- The addresses that `new` may return. -/
def Fresh (s : Filesystem φ κ) (v : VFS φ) (node file : Ptr) : Prop :=
  s.m_files.mem node = none ∧ v.m_mounts.mem node = none ∧ s.data file = none

def FileStep (s : Filesystem φ κ × VFS φ) (call : FileOp φ κ × FileResult φ κ)
    (s' : Filesystem φ κ × VFS φ) : Prop :=
  ∃ raw node file, Fresh s.1 s.2 node file ∧ call.1.exec s.1 s.2 raw node file = some (call.2, s')

/-- The names that `mapfile` is given can be copied, and those that `getfile` is given are texts. -/
def FileOp.Sound : FileOp φ κ → Prop
  | .mapfile fs name _ _ => fs.Whole ∧ name.Whole
  | .getfile fs name => (∃ chars, fs.Denotes chars) ∧ ∃ chars, name.Denotes chars
  | _ => True

/-- The names of the file are the texts that the values stand for. -/
def FileData.Named (d : FileData φ κ) (fs name : Value) : Prop :=
  ∃ chars chars', d.m_fs = .text chars ∧ fs.Denotes chars ∧ d.m_name = .text chars' ∧ name.Denotes chars'

/-- The calls on the table. A handle is never returned twice, `closefile` closes one handle, and all
lookups go by the handle. -/
inductive TableStep : OpenTable φ κ → FileOp φ κ × FileResult φ κ → OpenTable φ κ → Prop
  | mapfile {t : OpenTable φ κ} {fh : Word} {fs name : Value} {owner : Option φ} {custom : Option κ}
      (h : fh ∉ t.handles) :
      TableStep t (.mapfile fs name owner custom, .word fh)
        { t with handles := fh :: t.handles,
                 entry := Function.update t.entry fh (some ⟨fs, name, fh, owner, custom, 0⟩) }
  | closefile {t : OpenTable φ κ} {fh : Word} :
      TableStep t (.closefile fh, .bool (t.entry fh).isSome)
        { t with entry := Function.update t.entry fh none }
  | setFcntl {t : OpenTable φ κ} {fh mode : Word} {d : FileData φ κ} (h : t.entry fh = some d) :
      TableStep t (.setFcntl fh mode, .word 0)
        { t with entry := Function.update t.entry fh (some { d with m_fcntl := mode }) }
  | setFcntl_closed {t : OpenTable φ κ} {fh mode : Word} (h : t.entry fh = none) :
      TableStep t (.setFcntl fh mode, .word (-1)) { t with errno := EBADF }
  | getFcntl {t : OpenTable φ κ} {fh : Word} {d : FileData φ κ} (h : t.entry fh = some d) :
      TableStep t (.getFcntl fh, .word d.m_fcntl) t
  | getFcntl_closed {t : OpenTable φ κ} {fh : Word} (h : t.entry fh = none) :
      TableStep t (.getFcntl fh, .word (-1)) { t with errno := EBADF }
  | getfile {t : OpenTable φ κ} {fh : Word} {fs name : Value} {d : FileData φ κ}
      (h : t.entry fh = some d) (hname : d.Named fs name) :
      TableStep t (.getfile fs name, .word fh) t
  | getfile_none {t : OpenTable φ κ} {fs name : Value}
      (h : ∀ fh d, t.entry fh = some d → ¬ d.Named fs name) :
      TableStep t (.getfile fs name, .word (-1)) t
  | getFS {t : OpenTable φ κ} {fh : Word} :
      TableStep t (.getFS fh, .str ((t.entry fh).elim (.text []) FileData.m_fs)) t
  | getCustom {t : OpenTable φ κ} {fh : Word} :
      TableStep t (.getCustom fh, .custom ((t.entry fh).elim none FileData.m_custom)) t
  | getFilesystem {t : OpenTable φ κ} {fh : Word} :
      TableStep t (.getFilesystem fh, .filesystem ((t.entry fh).elim none FileData.m_owner)) t
  | getName {t : OpenTable φ κ} {fh : Word} :
      TableStep t (.getName fh, .str ((t.entry fh).elim (.text []) FileData.m_name)) t
  | mount {t : OpenTable φ κ} {fs : φ} :
      TableStep t (.mount (some fs), .bool true) { t with mounts := t.mounts ++ [fs] }
  | mount_none {t : OpenTable φ κ} : TableStep t (.mount none, .bool false) t
  | accessHandle {t : OpenTable φ κ} {fd : Word} (h : t.mounts ≠ []) :
      TableStep t (.accessHandle fd, .filesystem ((t.entry fd).elim none FileData.m_owner)) t
  | accessHandle_none {t : OpenTable φ κ} {fd : Word} (h : t.mounts = []) :
      TableStep t (.accessHandle fd, .filesystem none) t

/-- The table that the filesystems show when the list holds the files `l`. -/
structure Shows (s : Filesystem φ κ) (v : VFS φ) (l : List (Ptr × FileData φ κ)) (t : OpenTable φ κ) :
    Prop where
  opened : Opened s l
  entry : ∀ fh d, t.entry fh = some d ↔ d.m_id = fh ∧ d ∈ l.map Prod.snd
  names : ∀ x ∈ l, x.2.m_fs.Whole ∧ x.2.m_name.Whole
  issued : ∀ x ∈ l, x.2.m_id ∈ t.handles
  count : s.m_filehandle.toNat = 2 + t.handles.length
  below : ∀ fh ∈ t.handles, fh.toNat ≤ s.m_filehandle.toNat
  mounts : v.m_mounts.Holds t.mounts
  errno : t.errno = s.errno

namespace Shows
variable {t : OpenTable φ κ} {node file : Ptr}

theorem find_cases (h : Shows s v l t) (fh : Word) :
    (t.entry fh = none ∧ s.find fh = some none) ∨
      ∃ a x b, l = a ++ x :: b ∧ x.2.m_id = fh ∧ t.entry fh = some x.2 ∧
        s.find fh = some (some (BitVec.ofNat 32 a.length, x)) := by
  rcases h.opened.search_cases (fun d => some (d.m_id = fh)) (fun d => d.m_id = fh) (fun _ _ => rfl) [] rfl
    (Nat.le_of_eq h.opened.size_toNat.symm) with ⟨hnot, hfind⟩ | ⟨a, x, b, hl, hx, hfind⟩
  · refine .inl ⟨Option.eq_none_iff_forall_ne_some.mpr fun d hd => ?_, hfind⟩
    obtain ⟨hid, hmem⟩ := (h.entry fh d).mp hd
    obtain ⟨y, hy, rfl⟩ := List.mem_map.mp hmem
    exact hnot y hy (decide_eq_true hid)
  · have hid := of_decide_eq_true hx
    rw [List.length_nil, Nat.zero_add] at hfind
    refine .inr ⟨a, x, b, hl, hid, (h.entry fh x.2).mpr ⟨hid, ?_⟩, hfind⟩
    rw [hl]
    exact List.mem_map_of_mem (List.mem_append_right _ List.mem_cons_self)

theorem lookup_eq {α : Type} (h : Shows s v l t) (fh : Word) (notFound : α) (field : FileData φ κ → α) :
    s.lookup fh notFound field = some ((t.entry fh).elim notFound field) := by
  unfold Filesystem.lookup
  rcases h.find_cases fh with ⟨hnone, hfind⟩ | ⟨a, x, b, -, -, hsome, hfind⟩
  · rw [hfind, hnone]
    rfl
  · rw [hfind, hsome]
    rfl

/-- The copies of the names that the table shows are the names. -/
theorem name_eq (h : Shows s v l t) (fh raw : Word) {field : FileData φ κ → Value}
    (hfield : ∀ x ∈ l, (field x.2).Whole) : s.lookup fh (.text []) (fun d => (field d).init raw) =
      some ((t.entry fh).elim (.text []) field) := by
  rw [h.lookup_eq]
  cases hentry : t.entry fh with
  | none => rfl
  | some d =>
    obtain ⟨x, hx, rfl⟩ := List.mem_map.mp ((h.entry fh d).mp hentry).2
    exact congrArg some ((hfield x hx).init raw)

/-- The two comparisons of `getfile`, for a file with names that have buffers. -/
theorem named_eq {d : FileData φ κ} {fs name : Value} {chars chars' cfs cname : List UInt8}
    (hd : d.m_fs = .text chars ∧ d.m_name = .text chars') (hfs : fs.Denotes cfs) (hname : name.Denotes cname) :
    d.isNamed fs name = some (decide (chars = cfs ∧ chars' = cname)) ∧
      (d.Named fs name ↔ chars = cfs ∧ chars' = cname) := by
  rw [FileData.isNamed, hd.1, hd.2, Value.eq_denotes hfs, Value.eq_denotes hname, Option.bind_some]
  refine ⟨?_, fun h => ?_, ?_⟩
  · by_cases hsame : chars = cfs
    · simp only [hsame, decide_true, if_true, true_and]
    · simp only [hsame, decide_false, Bool.false_eq_true, if_false, false_and]
  · obtain ⟨c, c', hc, hc', hn, hn'⟩ := h
    rw [hd.1] at hc
    rw [hd.2] at hn
    cases hc
    cases hn
    exact ⟨hc'.unique hfs, hn'.unique hname⟩
  · rintro ⟨rfl, rfl⟩
    exact ⟨_, _, hd.1, hfs, hd.2, hname⟩

theorem getfile (h : Shows s v l t) {fs name : Value} {cfs cname : List UInt8} (hfs : fs.Denotes cfs)
    (hname : name.Denotes cname) :
    ∃ res, s.getfile fs name = some res ∧ TableStep t (.getfile fs name, .word res) t := by
  have htexts : ∀ x ∈ l, ∃ chars chars', x.2.m_fs = .text chars ∧ x.2.m_name = .text chars' := by
    intro x hx
    obtain ⟨chars, hchars⟩ := (h.names x hx).1.exists_text
    obtain ⟨chars', hchars'⟩ := (h.names x hx).2.exists_text
    exact ⟨chars, chars', hchars, hchars'⟩
  classical
  have htest : ∀ x ∈ l, x.2.isNamed fs name = some (decide (x.2.Named fs name)) := by
    intro x hx
    obtain ⟨chars, chars', hd⟩ := htexts x hx
    obtain ⟨heq, hiff⟩ := named_eq hd hfs hname
    rw [heq]
    exact congrArg some (decide_eq_decide.mpr hiff.symm)
  unfold Filesystem.getfile
  rcases h.opened.search_cases (·.isNamed fs name) (fun d => decide (d.Named fs name)) htest [] rfl
    (Nat.le_of_eq h.opened.size_toNat.symm) with ⟨hnot, hfind⟩ | ⟨a, x, b, hl, hx, hfind⟩
  · refine ⟨-1, congrArg (Option.map _) hfind, .getfile_none fun fh d hd hnamed => ?_⟩
    obtain ⟨y, hy, rfl⟩ := List.mem_map.mp ((h.entry fh d).mp hd).2
    exact hnot y hy (decide_eq_true hnamed)
  · have hmem : x.2 ∈ l.map Prod.snd := by
      rw [hl]
      exact List.mem_map_of_mem (List.mem_append_right _ List.mem_cons_self)
    exact ⟨x.2.m_id, congrArg (Option.map _) hfind,
      .getfile ((h.entry _ _).mpr ⟨rfl, hmem⟩) (of_decide_eq_true hx)⟩

theorem entry_snoc (h : Shows s v l t) {d : FileData φ κ} (hother : ∀ y ∈ l, y.2.m_id ≠ d.m_id) (fh : Word)
    (d' : FileData φ κ) : Function.update t.entry d.m_id (some d) fh = some d' ↔
      d'.m_id = fh ∧ d' ∈ (l ++ [(file, d)]).map Prod.snd := by
  rw [List.map_append, List.map_singleton, List.mem_append, List.mem_singleton]
  by_cases hfh : fh = d.m_id
  · rw [hfh, Function.update_self, Option.some_inj]
    constructor
    · rintro rfl
      exact ⟨rfl, .inr rfl⟩
    · rintro ⟨heq, hmem | hmem⟩
      · obtain ⟨y, hy, rfl⟩ := List.mem_map.mp hmem
        exact absurd heq (hother y hy)
      · exact hmem.symm
  · rw [Function.update_of_ne hfh, h.entry]
    constructor
    · rintro ⟨heq, hmem⟩
      exact ⟨heq, .inl hmem⟩
    · rintro ⟨heq, hmem | rfl⟩
      · exact ⟨heq, hmem⟩
      · exact absurd heq.symm hfh

theorem mapfile (h : Shows s v l t) (hfresh : Fresh s v node file) (hroom : t.handles.length + 3 < 2 ^ 32)
    (raw : ℕ → Word) {fs name : Value} (hfs : fs.Whole) (hname : name.Whole) (owner : Option φ)
    (custom : Option κ) : ∃ fh s' l', s.mapfile raw node file fs name owner custom = some (fh, s') ∧ fh ∉ t.handles ∧
      Shows s' v l' { t with
        handles := fh :: t.handles
        entry := Function.update t.entry fh (some ⟨fs, name, fh, owner, custom, 0⟩) } := by
  obtain ⟨m_files, happend, hm⟩ := h.opened.holds.append hfresh.1 file
  have hval : (s.m_filehandle + 1).toNat = 3 + t.handles.length := by
    have hone : (1 : Word).toNat = 1 := rfl
    rw [BitVec.toNat_add, h.count, hone, Nat.mod_eq_of_lt (by omega)]
    omega
  have hnew : s.m_filehandle + 1 ∉ t.handles := by
    intro hmem
    have hle := h.below _ hmem
    rw [hval, h.count] at hle
    omega
  let d : FileData φ κ := ⟨fs, name, s.m_filehandle + 1, owner, custom, 0⟩
  have hother : ∀ y ∈ l, y.2.m_id ≠ d.m_id := by
    intro y hy heq
    have hid := h.issued y hy
    rw [heq] at hid
    exact hnew hid
  have hmap : s.mapfile raw node file fs name owner custom = some (s.m_filehandle + 1, { s with
      m_filehandle := s.m_filehandle + 1
      m_files
      data := Function.update s.data file (some d) }) := by
    rw [Filesystem.mapfile, happend, hfs.init, hfs.init, hname.init, hname.init]
    rfl
  refine ⟨_, _, l ++ [(file, d)], hmap, hnew, h.opened.snoc _ hm hfresh.2.2 hother, h.entry_snoc hother,
    fun x hx => ?_, fun x hx => ?_, ?_, fun fh hfh => ?_, h.mounts, h.errno⟩
  · rcases List.mem_append.mp hx with hx | hx
    · exact h.names x hx
    · obtain rfl := List.mem_singleton.mp hx
      exact ⟨hfs, hname⟩
  · rcases List.mem_append.mp hx with hx | hx
    · exact List.mem_cons_of_mem _ (h.issued x hx)
    · obtain rfl := List.mem_singleton.mp hx
      exact List.mem_cons_self
  · dsimp only
    rw [hval, List.length_cons]
    omega
  · dsimp only
    rw [hval]
    rcases List.mem_cons.mp hfh with rfl | hfh
    · exact Nat.le_of_eq hval
    · have hle := h.below fh hfh
      rw [h.count] at hle
      omega

theorem closefile (h : Shows s v l t) (fh : Word) :
    ∃ s' l', s.closefile fh = some ((t.entry fh).isSome, s') ∧
      Shows s' v l' { t with entry := Function.update t.entry fh none } := by
  unfold Filesystem.closefile
  rcases h.find_cases fh with ⟨hnone, hfind⟩ | ⟨a, x, b, rfl, hid, hsome, hfind⟩
  · refine ⟨s, l, ?_, ?_⟩
    · rw [hfind, hnone]
      rfl
    · rw [← hnone, Function.update_eq_self]
      exact h
  · have hpos : (BitVec.ofNat 32 a.length).toNat = a.length := by
      have hlt := h.opened.length_lt
      rw [List.length_append] at hlt
      rw [BitVec.toNat_ofNat, Nat.mod_eq_of_lt (by omega)]
    have hin : (BitVec.ofNat 32 a.length).toNat < ((a ++ x :: b).map Prod.fst).length := by
      rw [hpos, List.length_map, List.length_append, List.length_cons]
      omega
    obtain ⟨m_files, hdelete, hm⟩ := h.opened.holds.deleteAt hin
    rw [hpos, List.eraseIdx_map, List.eraseIdx_append_of_length_le (Nat.le_refl _), Nat.sub_self] at hm
    have hsub : (a ++ b).Sublist (a ++ x :: b) := (List.sublist_cons_self x b).append_left a
    refine ⟨{ s with m_files }, a ++ b, ?_, ⟨hm, fun y hy => ?_, ?_, ?_⟩, fun fh' d => ?_,
      fun y hy => h.names y (hsub.subset hy), fun y hy => ?_, h.count, h.below, h.mounts, h.errno⟩
    · rw [hfind, hsome]
      exact congrArg (Option.map _) hdelete
    · exact h.opened.data y (hsub.subset hy)
    · exact h.opened.nodup.sublist (hsub.map _)
    · exact h.opened.handles.sublist (hsub.map _)
    · dsimp only
      by_cases hfh : fh' = fh
      · rw [hfh, Function.update_self]
        refine iff_of_false (Option.some_ne_none d).symm ?_
        rintro ⟨heq, hmem⟩
        obtain ⟨y, hy, rfl⟩ := List.mem_map.mp hmem
        exact (h.opened.apart hy).2 (heq.trans hid.symm)
      · rw [Function.update_of_ne hfh, h.entry]
        exact and_congr_right fun heq => Opened.mem_middle_iff_of_ne fun hne => hfh (heq.symm.trans (hne.trans hid))
    · exact h.issued y (hsub.subset hy)

theorem setFcntl (h : Shows s v (a ++ x :: b) t) (mode : Word) :
    Shows { s with data := Function.update s.data x.1 (some { x.2 with m_fcntl := mode }) } v
      (a ++ (x.1, { x.2 with m_fcntl := mode }) :: b)
      { t with entry := Function.update t.entry x.2.m_id (some { x.2 with m_fcntl := mode }) } := by
  generalize hd : ({ x.2 with m_fcntl := mode } : FileData φ κ) = d
  have hid : d.m_id = x.2.m_id := by rw [← hd]
  have hold : ∀ y ∈ a ++ b, y ∈ a ++ x :: b := fun y hy =>
    ((List.sublist_cons_self x b).append_left a).subset hy
  have hmid : ∀ y, y ∈ a ++ (x.1, d) :: b ↔ y = (x.1, d) ∨ y ∈ a ++ b := by
    intro y
    rw [List.mem_append, List.mem_cons, List.mem_append, or_left_comm]
  refine ⟨⟨?_, fun y hy => ?_, ?_, ?_⟩, fun fh d' => ?_, fun y hy => ?_, fun y hy => ?_, h.count, h.below,
    h.mounts, h.errno⟩
  · have hholds := h.opened.holds
    rw [List.map_append, List.map_cons] at hholds ⊢
    exact hholds
  · rcases (hmid y).mp hy with rfl | hy
    · exact Function.update_self ..
    · exact (Function.update_of_ne (h.opened.apart hy).1 ..).trans (h.opened.data y (hold y hy))
  · have hnodup := h.opened.nodup
    rw [List.map_append, List.map_cons] at hnodup ⊢
    exact hnodup
  · have hhandles := h.opened.handles
    rw [List.map_append, List.map_cons] at hhandles ⊢
    rw [hid]
    exact hhandles
  · have hmem : d' ∈ (a ++ (x.1, d) :: b).map Prod.snd ↔ d' = d ∨ d' ∈ (a ++ b).map Prod.snd := by
      rw [List.map_append, List.map_cons, List.mem_append, List.mem_cons, List.map_append, List.mem_append,
        or_left_comm]
    rw [hmem]
    dsimp only
    by_cases hfh : fh = x.2.m_id
    · rw [hfh, Function.update_self, Option.some_inj]
      constructor
      · rintro rfl
        exact ⟨hid, .inl rfl⟩
      · rintro ⟨heq, heq' | hmem⟩
        · exact heq'.symm
        · obtain ⟨y, hy, rfl⟩ := List.mem_map.mp hmem
          exact absurd heq (h.opened.apart hy).2
    · rw [Function.update_of_ne hfh, h.entry]
      refine and_congr_right fun heq => ?_
      have hne : d'.m_id ≠ x.2.m_id := fun hsame => hfh (heq.symm.trans hsame)
      have hne' : d' ≠ d := by
        rintro rfl
        exact hne hid
      rw [or_iff_right hne']
      exact Opened.mem_middle_iff_of_ne hne
  · rcases (hmid y).mp hy with rfl | hy
    · have hx := h.names x (List.mem_append_right _ List.mem_cons_self)
      rw [← hd]
      exact hx
    · exact h.names y (hold y hy)
  · rcases (hmid y).mp hy with rfl | hy
    · dsimp only
      rw [hid]
      exact h.issued x (List.mem_append_right _ List.mem_cons_self)
    · exact h.issued y (hold y hy)

theorem accessHandle (h : Shows s v l t) (fd : Word) :
    ∃ res, v.accessHandle s fd = some res ∧ TableStep t (.accessHandle fd, .filesystem res) t := by
  unfold VFS.accessHandle
  rw [h.mounts.findItem _ (by rw [h.mounts.size_toNat]; exact Nat.lt_succ_self _)]
  cases hmounts : t.mounts with
  | nil => exact ⟨none, rfl, .accessHandle_none hmounts⟩
  | cons A mounts =>
    have hne : t.mounts ≠ [] := by
      rw [hmounts]
      exact List.cons_ne_nil _ _
    refine ⟨_, ?_, .accessHandle hne⟩
    rw [Option.bind_some, List.findSome?_cons]
    exact h.lookup_eq fd none FileData.m_owner

theorem setErrno (h : Shows s v l t) :
    Shows { s with errno := EBADF } v l { t with errno := EBADF } :=
  ⟨⟨h.opened.holds, h.opened.data, h.opened.nodup, h.opened.handles⟩, h.entry, h.names, h.issued, h.count,
    h.below, h.mounts, rfl⟩

/-- Each call returns, and does to the filesystems what it does to the table. -/
theorem exec (h : Shows s v l t) (raw : ℕ → Word) (hfresh : Fresh s v node file) {op : FileOp φ κ} (hop : op.Sound)
    (hroom : t.handles.length + (if op.isMapfile then 1 else 0) < 2 ^ 31 - 3) :
    ∃ res s' v' l' t', op.exec s v raw node file = some (res, s', v') ∧ TableStep t (op, res) t' ∧
      Shows s' v' l' t' ∧ t'.handles.length = t.handles.length + if op.isMapfile then 1 else 0 := by
  cases op with
  | mapfile fs name owner custom =>
    obtain ⟨fh, s', l', hmap, hnew, hs'⟩ := h.mapfile hfresh (by omega) raw hop.1 hop.2 owner custom
    exact ⟨_, s', v, l', _, congrArg (Option.map _) hmap, .mapfile hnew, hs', rfl⟩
  | closefile fh =>
    obtain ⟨s', l', hclose, hs'⟩ := h.closefile fh
    exact ⟨_, s', v, l', _, congrArg (Option.map _) hclose, .closefile, hs', rfl⟩
  | setFcntl fh mode =>
    rcases h.find_cases fh with ⟨hnone, hfind⟩ | ⟨a, x, b, rfl, rfl, hsome, hfind⟩
    · have hset : s.setFcntl fh mode = some (-1, { s with errno := EBADF }) := by
        rw [Filesystem.setFcntl, hfind]
        rfl
      exact ⟨_, _, v, l, _, congrArg (Option.map _) hset, .setFcntl_closed hnone, h.setErrno, rfl⟩
    · have hset : s.setFcntl x.2.m_id mode = some (0, { s with
          data := Function.update s.data x.1 (some { x.2 with m_fcntl := mode }) }) := by
        rw [Filesystem.setFcntl, hfind]
        rfl
      exact ⟨_, _, v, _, _, congrArg (Option.map _) hset, .setFcntl hsome, h.setFcntl mode, rfl⟩
  | getFcntl fh =>
    rcases h.find_cases fh with ⟨hnone, hfind⟩ | ⟨a, x, b, -, rfl, hsome, hfind⟩
    · have hget : s.getFcntl fh = some (-1, { s with errno := EBADF }) := by
        rw [Filesystem.getFcntl, hfind]
        rfl
      exact ⟨_, _, v, l, _, congrArg (Option.map _) hget, .getFcntl_closed hnone, h.setErrno, rfl⟩
    · have hget : s.getFcntl x.2.m_id = some (x.2.m_fcntl, s) := by
        rw [Filesystem.getFcntl, hfind]
        rfl
      exact ⟨_, s, v, l, t, congrArg (Option.map _) hget, .getFcntl hsome, h, rfl⟩
  | getfile fs name =>
    obtain ⟨⟨cfs, hfs⟩, cname, hname⟩ := hop
    obtain ⟨res, hget, hstep⟩ := h.getfile hfs hname
    exact ⟨_, s, v, l, t, congrArg (Option.map _) hget, hstep, h, rfl⟩
  | getFS fh =>
    have hname := h.name_eq fh (raw 0) fun x hx => (h.names x hx).1
    exact ⟨_, s, v, l, t, congrArg (Option.map _) hname, .getFS, h, rfl⟩
  | getCustom fh => exact ⟨_, s, v, l, t, congrArg (Option.map _) (h.lookup_eq fh _ _), .getCustom, h, rfl⟩
  | getFilesystem fh =>
    exact ⟨_, s, v, l, t, congrArg (Option.map _) (h.lookup_eq fh _ _), .getFilesystem, h, rfl⟩
  | getName fh =>
    have hname := h.name_eq fh (raw 0) fun x hx => (h.names x hx).2
    exact ⟨_, s, v, l, t, congrArg (Option.map _) hname, .getName, h, rfl⟩
  | mount fs =>
    cases fs with
    | none => exact ⟨_, s, v, l, t, rfl, .mount_none, h, rfl⟩
    | some A =>
      obtain ⟨v', hmount, -, hv'⟩ := VFS.mount_holds h.mounts hfresh.2.1 A
      exact ⟨_, s, v', l, _, congrArg (Option.map _) hmount, .mount, { h with mounts := hv' }, rfl⟩
  | accessHandle fd =>
    obtain ⟨res, haccess, hstep⟩ := h.accessHandle fd
    exact ⟨_, s, v, l, t, congrArg (Option.map _) haccess, hstep, h, rfl⟩

end Shows

theorem shows_empty (mountpoint : φ → Str) :
    Shows (.new : Filesystem φ κ) ⟨mountpoint, .new⟩ [] .empty where
  opened := ⟨LinkedList.holds_new, fun _ h => absurd h List.not_mem_nil, List.nodup_nil, List.nodup_nil⟩
  entry _ _ := iff_of_false (Option.some_ne_none _).symm fun h => List.not_mem_nil h.2
  names _ h := absurd h List.not_mem_nil
  issued _ h := absurd h List.not_mem_nil
  count := rfl
  below _ h := absurd h List.not_mem_nil
  mounts := LinkedList.holds_new
  errno := rfl

/-- A run that opens fewer than `2 ^ 31 - 3` files is a run on the table, with the same results, and
each further call returns, as long as the names have buffers. -/
theorem openFiles_run {mountpoint : φ → Str} {calls : List (FileOp φ κ × FileResult φ κ)}
    {s : Filesystem φ κ × VFS φ} (h : Run FileStep (.new, ⟨mountpoint, .new⟩) calls s)
    (hsound : ∀ call ∈ calls, call.1.Sound) (hcount : calls.countP (fun call => call.1.isMapfile) < 2 ^ 31 - 3) :
    ∃ t l, Run TableStep .empty calls t ∧ Shows s.1 s.2 l t ∧
      ∀ (op : FileOp φ κ) raw node file, Fresh s.1 s.2 node file → op.Sound →
        calls.countP (fun call => call.1.isMapfile) + (if op.isMapfile then 1 else 0) < 2 ^ 31 - 3 →
          (op.exec s.1 s.2 raw node file).isSome := by
  let R (n : ℕ) (s : Filesystem φ κ × VFS φ) (t : OpenTable φ κ) : Prop :=
    (∃ l, Shows s.1 s.2 l t) ∧
      t.handles.length + n = calls.countP fun call => call.1.isMapfile
  have hsim : ∀ n s call s' t, R (n + if call.1.isMapfile then 1 else 0) s t →
      Guarded FileStep (fun _ call _ => call.1.Sound) s call s' → ∃ t', TableStep t call t' ∧ R n s' t' := by
    rintro n s call s' t ⟨⟨l, hl⟩, hn⟩ ⟨⟨raw, node, file, hfresh, hexec⟩, hop⟩
    obtain ⟨res, s₁, v₁, l', t', hexec', hstep, hl', hlen⟩ := hl.exec raw hfresh hop (by omega)
    obtain ⟨rfl, rfl⟩ := Prod.mk.inj (Option.some.inj (hexec.symm.trans hexec'))
    exact ⟨t', hstep, ⟨l', hl'⟩, by omega⟩
  have hstart : R (0 + calls.countP fun call => call.1.isMapfile) (.new, ⟨mountpoint, .new⟩) .empty :=
    ⟨⟨[], shows_empty mountpoint⟩, by rw [Nat.zero_add]; exact Nat.zero_add _⟩
  have hguarded := h.guard fun call hcall _ _ _ => hsound call hcall
  obtain ⟨t, hrun, ⟨l, hl⟩, hn⟩ := hguarded.simulate_count (fun call => call.1.isMapfile) hsim hstart
  refine ⟨t, l, hrun, hl, fun op raw node file hfresh hop hroom => ?_⟩
  obtain ⟨res, s', v', l', t', hexec, -⟩ := hl.exec raw hfresh hop (by omega)
  rw [hexec]
  rfl

def twoFilesCalls : List (FileOp ℕ ℕ × FileResult ℕ ℕ) :=
  [(.mount (some 7), .bool true), (.mapfile (.text []) (.text [0x61]) (some 7) (some 1), .word 3),
    (.mapfile (.text []) (.text [0x62]) (some 7) none, .word 4), (.closefile 3, .bool true),
    (.setFcntl 4 2, .word 0), (.getFcntl 4, .word 2), (.closefile 3, .bool false), (.getName 4, .str (.text [0x62])),
    (.accessHandle 4, .filesystem (some 7))]

theorem openFiles_run_twoFiles : ∃ (s : Filesystem ℕ ℕ × VFS ℕ) (t : OpenTable ℕ ℕ) (l : List (Ptr × FileData ℕ ℕ)),
    Run TableStep .empty twoFilesCalls t ∧ Shows s.1 s.2 l t := by
  have hrun : Run FileStep ((.new, ⟨fun _ => [], .new⟩) : Filesystem ℕ ℕ × VFS ℕ) twoFilesCalls _ :=
    .cons ⟨fun _ => 9, ⟨8, by decide⟩, ⟨16, by decide⟩, ⟨rfl, rfl, rfl⟩, rfl⟩
      (.cons ⟨fun _ => 9, ⟨16, by decide⟩, ⟨24, by decide⟩, ⟨rfl, rfl, rfl⟩, rfl⟩
        (.cons ⟨fun _ => 9, ⟨32, by decide⟩, ⟨40, by decide⟩, ⟨rfl, rfl, rfl⟩, rfl⟩
          (.cons ⟨fun _ => 9, ⟨48, by decide⟩, ⟨48, by decide⟩, ⟨rfl, rfl, rfl⟩, rfl⟩
            (.cons ⟨fun _ => 9, ⟨48, by decide⟩, ⟨48, by decide⟩, ⟨rfl, rfl, rfl⟩, rfl⟩
              (.cons ⟨fun _ => 9, ⟨48, by decide⟩, ⟨48, by decide⟩, ⟨rfl, rfl, rfl⟩, rfl⟩
                (.cons ⟨fun _ => 9, ⟨48, by decide⟩, ⟨48, by decide⟩, ⟨rfl, rfl, rfl⟩, rfl⟩
                  (.cons ⟨fun _ => 9, ⟨48, by decide⟩, ⟨48, by decide⟩, ⟨rfl, rfl, rfl⟩, rfl⟩
                    (.cons ⟨fun _ => 9, ⟨48, by decide⟩, ⟨48, by decide⟩, ⟨rfl, rfl, rfl⟩, rfl⟩ (.nil _)))))))))
  have hsound : ∀ call ∈ twoFilesCalls, call.1.Sound := by
    simp only [twoFilesCalls, List.forall_mem_cons]
    exact ⟨trivial, ⟨by decide, by decide⟩, ⟨by decide, by decide⟩, trivial, trivial, trivial, trivial, trivial,
      trivial, List.forall_mem_nil _⟩
  obtain ⟨t, l, htable, hl, -⟩ := openFiles_run hrun hsound (by decide)
  exact ⟨_, t, l, htable, hl⟩

/-- A file is opened with the empty name that has no buffer, and its name is asked for. -/
def nullNameCalls : List (FileOp ℕ ℕ × FileResult ℕ ℕ) :=
  [(.mapfile (.text []) (.null 0) none none, .word 3), (.getName 3, .str (.null 5))]

/-- The name that comes back is not the one that was given, but what the memory of the copy made of it. -/
theorem not_openFiles_null :
    (∃ s, Run FileStep ((.new, ⟨fun _ => [], .new⟩) : Filesystem ℕ ℕ × VFS ℕ) nullNameCalls s) ∧
    ¬ ∃ t, Run TableStep .empty nullNameCalls t := by
  constructor
  · exact ⟨_, .cons ⟨fun _ => 0, ⟨16, by decide⟩, ⟨24, by decide⟩, ⟨rfl, rfl, rfl⟩, rfl⟩
      (.cons ⟨fun _ => 5, ⟨48, by decide⟩, ⟨48, by decide⟩, ⟨rfl, rfl, rfl⟩, rfl⟩ (.nil _))⟩
  · rintro ⟨t, hrun⟩
    cases hrun with
    | cons hopen hrest =>
      cases hopen
      cases hrest with
      | cons hname _ => cases hname

end CxxKernel.Fs
