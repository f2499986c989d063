import CxxKernel.Clothes.Payloads
import CxxKernel.Clothes.Listing

/-! `addFile` and `addDir` on a volume without room: what is left when the blocks do not suffice. -/
namespace CxxKernel.Clothes
open Fallible Cursor LinkedChain

inductive Creation where
  | file (name : CString) (contents : List Byte)
  | dir (name : CString)

namespace ClothesFS

/-- The call of `addFile` or `addDir`. -/
def create (fs : ClothesFS) (fuel : ℕ) (parent : Word) : Creation → Prog Disk Unit
  | .file name contents => fs.addFile fuel parent name contents
  | .dir name => fs.addDir fuel parent name

/-- The free blocks are chained, and each chain of directory metadata ends. -/
structure WellFormed (fs : ClothesFS) (d : Disk) (free : List Word) : Prop where
  chain : FreeInv fs d free
  ends : ∀ i, ∃ t, Leads fs d META_DIR i t ∧ ¬ Full fs d META_DIR t

/-- The free blocks of `d` are free in `d'`, and the directories list the same. -/
def SameVolume (fs : ClothesFS) (d d' : Disk) : Prop :=
  (∀ free, Chain (nextFree d) (freeHead d) free →
    ∃ free', Chain (nextFree d') (freeHead d') free' ∧ free'.Perm free) ∧
  ∀ dir es, dataToNum (d (sectorOf dir)) 2 1 = META_DIR → Yields (fs.visit d) (fs.list d dir) es →
    Yields (fs.visit d') (fs.list d' dir) es

/-- A call that returns false changes nothing. -/
def AtomicLaw (fs : ClothesFS) (d : Disk) (parent : Word) (c : Creation) : Prop :=
  ∀ d', Settles (fun fuel => fs.create fuel parent c) d (none, d') → fs.SameVolume d d'

/-- An entry can be made in the directory; the free blocks before and after. -/
inductive Entered (fs : ClothesFS) (d : Disk) (parent : Word) : List Word → List Word → Prop
  | room {t : Word} {free : List Word} (hleads : Leads fs d META_DIR parent t) (h : Accepts fs d META_DIR t)
      (hslot : entrySlot d META_DIR t ≠ none) : Entered fs d parent free free
  | full {t n : Word} {free : List Word} (hleads : Leads fs d META_DIR parent t) (h : Accepts fs d META_DIR t)
      (hslot : entrySlot d META_DIR t = none) (hnext : nextMeta d t = 0) : Entered fs d parent (n :: free) free

/-- The name fits its block. A file's must not reach the number of the next block. -/
def NameFits : Creation → Prop
  | .file name _ => 16 + name.bytes.length ≤ blocksize - 4
  | .dir name => 16 + name.bytes.length ≤ blocksize

/-- The blocks that are left suffice for the contents. -/
def Suffices : Creation → List Word → Prop
  | .file name contents, free => plan (payloadCount contents) (nameRoom name.bytes.length) free = true
  | .dir _, _ => True

/-- No parent is given, no block is free, or there are blocks enough. -/
def AtomicCond (fs : ClothesFS) (d : Disk) (free : List Word) (parent : Word) (c : Creation) : Prop :=
  parent = 0 ∨ free = [] ∨
    NameFits c ∧ ∃ b rest left, free = b :: rest ∧ Entered fs d parent rest left ∧ Suffices c left

section Enter
variable {fs : ClothesFS} {d : Disk} {free rest left : List Word} {b parent t : Word} {name : CString}
  {contents : List Byte}

/-- The header is no metadata, so the search for an entry does not see that a block has been taken. -/
theorem accepts_pop (hinv : FreeInv fs d free) (h : Accepts fs (popHeader d) META_DIR t) :
    popHeader d (sectorOf t) = d (sectorOf t) := by
  apply popHeader_of_ne
  intro hzero
  have hid := h.id
  rw [hzero, hinv.pop.header_id] at hid
  cases hid

theorem Leads.pop (hinv : FreeInv fs d free) (h : Leads fs d META_DIR parent t) :
    Leads fs (popHeader d) META_DIR parent t := by
  apply h.update
  intro hid
  rw [hinv.header_id] at hid
  cases hid

theorem Accepts.pop (hinv : FreeInv fs d free) (h : Accepts fs d META_DIR t) :
    Accepts fs (popHeader d) META_DIR t ∧ popHeader d (sectorOf t) = d (sectorOf t) := by
  have hsame := popHeader_of_ne d (h.not_free (.inr rfl) hinv).1
  exact ⟨h.congr hsame, hsame⟩

theorem Entered.addToMeta (hs : fs.Small) (hinv : FreeInv fs d (b :: rest)) (h : Entered fs d parent rest left) :
    ∃ d₁, Settles (fun fuel => fs.addToMeta fuel parent b META_DIR) (popHeader d) (some (), d₁) ∧
      FreeInv fs d₁ left ∧ b ∉ left := by
  have hnot := hinv.head_notMem
  cases h with
  | @room t _ hleads h hslot =>
    obtain ⟨haccepts, hsame⟩ := h.pop hinv
    obtain ⟨ptr, hptr⟩ := Option.ne_none_iff_exists'.mp hslot
    have hptr' : entrySlot (popHeader d) META_DIR t = some ptr := by
      rw [entrySlot, hsame]
      exact hptr
    have hkeep := haccepts.not_free (.inr rfl) hinv.pop
    exact ⟨_, addToMeta_enter_room (hleads.pop hinv) haccepts hptr' b, hinv.pop.write hkeep.1 hkeep.2, hnot⟩
  | @full t n _ hleads h hslot hnext =>
    obtain ⟨haccepts, hsame⟩ := h.pop hinv
    have hslot' : entrySlot (popHeader d) META_DIR t = none := by
      rw [entrySlot, hsame]
      exact hslot
    have hnext' : nextMeta (popHeader d) t = 0 := by
      rw [nextMeta, hsame]
      exact hnext
    have hpop : FreeInv fs (popHeader d) (n :: left) := hinv.pop
    refine ⟨_, addToMeta_enter_full hs (.inr rfl) hpop (hleads.pop hinv) haccepts hslot' hnext' b, ?_,
      fun hb => hnot (List.mem_cons_of_mem n hb)⟩
    exact (hpop.extended haccepts (.inr rfl)).write_taken (hpop.ne_zero List.mem_cons_self) hpop.head_notMem

/-- Else the search for an entry ends at a block that is none, or has no room. -/
theorem addToMeta_refuses (hs : fs.Small) (hwell : fs.WellFormed d (b :: rest))
    (h : ∀ left, ¬ Entered fs d parent rest left) :
    Settles (fun fuel => fs.addToMeta fuel parent b META_DIR) (popHeader d) (none, popHeader d) := by
  have hinv := hwell.chain
  obtain ⟨t, hleads, hfull⟩ := hwell.ends parent
  apply addToMeta_enter_none hs (hleads.pop hinv)
  by_cases haccepts : Accepts fs d META_DIR t
  · obtain ⟨haccepts', hsame⟩ := haccepts.pop hinv
    have hslot : entrySlot d META_DIR t = none := by
      by_contra hslot
      exact h _ (.room hleads haccepts hslot)
    have hnext : nextMeta d t = 0 := by
      by_contra hnext
      exact hfull ⟨haccepts, hslot, hnext⟩
    have hrest : rest = [] := by
      cases rest with
      | nil => rfl
      | cons n left => exact absurd (.full hleads haccepts hslot hnext) (h left)
    subst hrest
    refine .inr ⟨haccepts', ?_, ?_, hinv.pop⟩
    · rw [entrySlot, hsame]
      exact hslot
    · rw [nextMeta, hsame]
      exact hnext
  · left
    intro haccepts'
    exact haccepts (haccepts'.congr (accepts_pop hinv haccepts').symm)

end Enter

section Create
variable {fs : ClothesFS} {d d₁ d' : Disk} {free rest left : List Word} {b parent : Word} {c : Creation}
  {name : CString} {contents : List Byte}

theorem create_zero (fs : ClothesFS) (d : Disk) (c : Creation) :
    Settles (fun fuel => fs.create fuel 0 c) d (none, d) := by
  refine ⟨0, fun fuel _ => ?_⟩
  cases c with
  | file name contents => exact (fails_guard_of (not_not.mpr rfl)).bind
  | dir name => exact (fails_guard_of (not_not.mpr rfl)).bind

theorem create_empty (hs : fs.Small) (hinv : FreeInv fs d []) (hparent : parent ≠ 0) (c : Creation) :
    Settles (fun fuel => fs.create fuel parent c) d (none, d) := by
  have htake := hinv.returns_take hs
  rw [popHeader_nil hinv] at htake
  refine ⟨0, fun fuel _ => ?_⟩
  cases c with
  | file name contents =>
    refine (returns_guard_of hparent).bind.trans ?_
    refine htake.bind.trans ?_
    exact (fails_guard_of (not_not.mpr rfl)).bind
  | dir name =>
    refine (returns_guard_of hparent).bind.trans ?_
    refine htake.bind.trans ?_
    exact (fails_guard_of (not_not.mpr rfl)).bind

/-- What a call does with the block that it has entered. -/
def fill (fs : ClothesFS) (fuel : ℕ) (b : Word) : Creation → Prog Disk Unit
  | .file name contents => do
    fs.initMeta b META_FILE
    fs.updateMeta b name contents.length
    fs.addData fuel b contents
  | .dir name => do
    fs.initMeta b META_DIR
    fs.updateMeta b name 0

theorem exec_create (hs : fs.Small) (hinv : FreeInv fs d (b :: rest)) (hparent : parent ≠ 0) (c : Creation)
    (fuel : ℕ) : exec (fs.create fuel parent c) d =
      exec (fs.addToMeta fuel parent b META_DIR >>= fun _ => fs.fill fuel b c) (popHeader d) := by
  have hb := hinv.head_ne_zero
  have htake := hinv.returns_take hs
  cases c with
  | file name contents =>
    refine (returns_guard_of hparent).bind.trans ?_
    refine htake.bind.trans ?_
    exact (returns_guard_of hb).bind
  | dir name =>
    refine (returns_guard_of hparent).bind.trans ?_
    refine htake.bind.trans ?_
    exact (returns_guard_of hb).bind

theorem returns_named (hs : fs.Small) (hin : b.toNat < fs.count) {type : Word}
    (htype : type = META_FILE ∨ type = META_DIR) (name : CString) (size : ℕ) (d : Disk) :
    Returns (fs.initMeta b type) d () (Function.update d b.toNat (freshMeta type)) ∧
      Returns (fs.updateMeta b name size) (Function.update d b.toNat (freshMeta type)) ()
        (Function.update d b.toNat (named (freshMeta type) name size)) := by
  refine ⟨(hs.returns_initMeta hin).mpr rfl, (hs.returns_updateMeta hin).mpr ?_⟩
  rw [Function.update_self, Function.update_idem]
  refine ⟨?_, rfl⟩
  rcases htype with rfl | rfl
  · exact .inl rfl
  · exact .inr rfl

theorem fill_dir (hs : fs.Small) (hin : b.toNat < fs.count) (name : CString) (d : Disk) :
    ∃ d', Settles (fun fuel => fs.fill fuel b (.dir name)) d (some (), d') := by
  obtain ⟨hinit, hupdate⟩ := returns_named hs hin (.inr rfl) name 0 d
  exact ⟨_, settles_of_exec (hinit.bind.trans hupdate)⟩

/-- The new metadata of a file is complete when its contents are added. -/
theorem fill_file (hs : fs.Small) (hin : 2 ≤ b.toNat ∧ b.toNat < fs.count) (hinv : FreeInv fs d free)
    (hnot : b ∉ free)
    (hfits : 16 + name.bytes.length ≤ blocksize - 4) (contents : List Byte) :
    ∃ d₁, FileChain fs d₁ free b (nameRoom name.bytes.length) ∧
      ∀ fuel, exec (fs.fill fuel b (.file name contents)) d = exec (fs.addData fuel b contents) d₁ := by
  obtain ⟨hinit, hupdate⟩ := returns_named hs hin.2 (.inl rfl) name contents.length d
  refine ⟨_, ⟨hinv.write_taken (by omega) hnot, b, hin.2, .here b, ?_⟩, fun fuel => hinit.bind.trans hupdate.bind⟩
  rw [Function.update_self]
  exact room_named hfits contents.length

/-- With blocks enough the call succeeds. -/
theorem create_returns (hs : fs.Small) (hinv : FreeInv fs d (b :: rest)) (hparent : parent ≠ 0) (hname : NameFits c)
    (hentered : Entered fs d parent rest left) (hsuffices : Suffices c left) :
    ∃ d', Settles (fun fuel => fs.create fuel parent c) d (some (), d') := by
  have hin := hinv.inside b List.mem_cons_self
  obtain ⟨d₁, hadd, hinv₁, hnot⟩ := hentered.addToMeta hs hinv
  have hfill : ∃ d', Settles (fun fuel => fs.fill fuel b c) d₁ (some (), d') := by
    cases c with
    | file name contents =>
      obtain ⟨d₂, hchain, hexec⟩ := fill_file hs hin hinv₁ hnot hname contents
      obtain ⟨d', hdata⟩ := hchain.addData_returns hs hsuffices
      exact ⟨d', hdata.add (k := 0) hexec⟩
    | dir name => exact fill_dir hs hin.2 name d₁
  obtain ⟨d', hfill⟩ := hfill
  exact ⟨d', (hadd.bind hfill).add (k := 0) (exec_create hs hinv hparent c)⟩

/-- Without them it fails, and the block that it has taken is lost. -/
theorem create_fails (hs : fs.Small) (hwell : fs.WellFormed d (b :: rest)) (hparent : parent ≠ 0) (hname : NameFits c)
    (h : ¬ ∃ left, Entered fs d parent rest left ∧ Suffices c left) :
    ∃ d' free', Settles (fun fuel => fs.create fuel parent c) d (none, d') ∧ FreeInv fs d' free' ∧ b ∉ free' := by
  have hinv := hwell.chain
  by_cases hentered : ∃ left, Entered fs d parent rest left
  · obtain ⟨left, hentered⟩ := hentered
    have hin := hinv.inside b List.mem_cons_self
    obtain ⟨d₁, hadd, hinv₁, hnot⟩ := hentered.addToMeta hs hinv
    cases c with
    | file name contents =>
      obtain ⟨d₂, hchain, hexec⟩ := fill_file hs hin hinv₁ hnot hname contents
      have hplan : plan (payloadCount contents) (nameRoom name.bytes.length) left = false := by
        by_contra hplan
        exact h ⟨left, hentered, Bool.of_not_eq_false hplan⟩
      obtain ⟨d', hdata, hinv'⟩ := hchain.addData_fails hs hplan
      have hfill : Settles (fun fuel => fs.fill fuel b (.file name contents)) d₁ (none, d') :=
        hdata.add (k := 0) hexec
      exact ⟨d', [], (hadd.bind hfill).add (k := 0) (exec_create hs hinv hparent _), hinv', List.not_mem_nil⟩
    | dir name => exact absurd ⟨left, hentered, trivial⟩ h
  · have hadd := addToMeta_refuses hs hwell fun left hleft => hentered ⟨left, hleft⟩
    exact ⟨popHeader d, rest, hadd.bind_fails.add (k := 0) (exec_create hs hinv hparent c), hinv.pop,
      hinv.head_notMem⟩

theorem SameVolume.refl (fs : ClothesFS) (d : Disk) : fs.SameVolume d d :=
  ⟨fun free h => ⟨free, h, .refl free⟩, fun _ _ _ h => h⟩

theorem not_atomicLaw (hs : fs.Small) (hwell : fs.WellFormed d (b :: rest)) (hparent : parent ≠ 0)
    (hname : NameFits c)
    (h : ¬ ∃ left, Entered fs d parent rest left ∧ Suffices c left) : ¬ fs.AtomicLaw d parent c := by
  intro hlaw
  obtain ⟨d', free', hfails, hinv', hnot⟩ := create_fails hs hwell hparent hname h
  obtain ⟨free₁, hchain, hperm⟩ := (hlaw d' hfails).1 _ hwell.chain.chain
  obtain rfl := hchain.unique hinv'.chain
  exact hnot (hperm.symm.subset List.mem_cons_self)

/-- Creation is atomic where it fails before it takes a block, and where it succeeds; with a name that fits
the block it is so nowhere else. -/
theorem atomicLaw_iff (hs : fs.Small) (hwell : fs.WellFormed d free) (parent : Word) (c : Creation) :
    (AtomicCond fs d free parent c → fs.AtomicLaw d parent c) ∧
      (NameFits c → fs.AtomicLaw d parent c → AtomicCond fs d free parent c) := by
  constructor
  · intro hcond d' hfails
    by_cases hparent : parent = 0
    · subst hparent
      obtain ⟨-, rfl⟩ := Prod.mk.inj (hfails.unique (create_zero fs d c))
      exact .refl fs d'
    · rcases hcond with hzero | rfl | ⟨hname, b, rest, left, rfl, hentered, hsuffices⟩
      · exact absurd hzero hparent
      · obtain ⟨-, rfl⟩ := Prod.mk.inj (hfails.unique (create_empty hs hwell.chain hparent c))
        exact .refl fs d'
      · obtain ⟨e, hreturns⟩ := create_returns hs hwell.chain hparent hname hentered hsuffices
        cases hfails.unique hreturns
  · intro hname hlaw
    by_contra hcond
    have hparent : parent ≠ 0 := fun hzero => hcond (.inl hzero)
    cases free with
    | nil => exact hcond (.inr (.inl rfl))
    | cons b rest =>
      refine not_atomicLaw hs hwell hparent hname ?_ hlaw
      rintro ⟨left, hentered, hsuffices⟩
      exact hcond (.inr (.inr ⟨hname, b, rest, left, rfl, hentered, hsuffices⟩))

end Create

section Formatted
variable {fs : ClothesFS} {volid : Option CString} {d : Disk} {t : Word}

theorem Accepts.sector_lt {type : Word} (h : Accepts fs d type t) : sectorOf t < fs.count := by
  have hpos := (blockAt_eq_some.mp h.inside).1
  unfold sectorOf count sectorSize blocksize at *
  omega

theorem Fresh.accepts_root (hs : fs.Small) (h : Fresh fs volid d) : Accepts fs d META_DIR 1 := by
  have hone : (1 : Word).toNat < fs.count := h.two_le
  have hroot := h.rootOk.block
  refine ⟨?_, ?_, ?_⟩
  · rw [hs.blockAt_eq hone, hs.sector_eq hone]
  · rw [hs.sector_eq hone]
    exact hroot.id
  · rw [hs.sector_eq hone, hroot.type]
    rfl

/-- A volume that has just been formatted. Its root directory has room for an entry. -/
theorem Fresh.wellFormed (hs : fs.Small) (h : Fresh fs volid d) (hthree : 3 ≤ fs.count) :
    fs.WellFormed d fs.freshFree := by
  refine ⟨h.freeInv hs hthree, fun i => ⟨i, .here i, fun hfull => hfull.next ?_⟩⟩
  have htagged : Tagged (d (sectorOf i)) := by
    refine ⟨hfull.accepts.id, fun hfree => ?_⟩
    have hvalid := hfull.accepts.valid
    rw [hfree] at hvalid
    exact absurd hvalid (by decide)
  rw [nextMeta, h.untagged hfull.accepts.sector_lt htagged]
  exact h.rootOk.block.next.mpr (by decide)

theorem Fresh.entered (hs : fs.Small) (h : Fresh fs volid d) (rest : List Word) : Entered fs d 1 rest rest := by
  have hone : (1 : Word).toNat < fs.count := h.two_le
  refine .room (.here 1) (h.accepts_root hs) fun hslot => ?_
  rw [entrySlot, hs.sector_eq hone] at hslot
  exact absurd (h.rootOk.block.freeEntry_none hslot) (by decide)

theorem Entered.length_le {parent : Word} {rest left : List Word} (h : Entered fs d parent rest left) :
    left.length ≤ rest.length := by
  cases h with
  | room => exact Nat.le_refl _
  | full => exact Nat.le_succ _

theorem rootOnly_fresh : Fresh sixBlocks none rootOnly.disk :=
  fresh_of_format sixBlocks_small (returns_of_fst (by decide +kernel))

theorem rootOnly_wellFormed : sixBlocks.WellFormed rootOnly.disk [2, 3, 4, 5] :=
  rootOnly_fresh.wellFormed sixBlocks_small (by decide)

theorem dirName_nameFits (contents : List Byte) :
    NameFits (.dir dirName) ∧ NameFits (.file dirName contents) := by
  constructor
  · change 16 + 1 ≤ 512
    decide
  · change 16 + 1 ≤ 508
    decide

theorem atomicLaw_iff_dir : sixBlocks.AtomicLaw rootOnly.disk 1 (.dir dirName) :=
  (atomicLaw_iff sixBlocks_small rootOnly_wellFormed 1 (.dir dirName)).1 (.inr (.inr
    ⟨(dirName_nameFits []).1, 2, [3, 4, 5], [3, 4, 5], rfl, rootOnly_fresh.entered sixBlocks_small _, trivial⟩))

/-- Three blocks are left for contents that need five. -/
theorem not_atomicLaw_large : sixBlocks.WellFormed rootOnly.disk [2, 3, 4, 5] ∧
    ¬ sixBlocks.AtomicLaw rootOnly.disk 1 (.file dirName (List.replicate 2048 0x78)) := by
  refine ⟨rootOnly_wellFormed, not_atomicLaw sixBlocks_small rootOnly_wellFormed (by decide)
    (dirName_nameFits _).2 ?_⟩
  rintro ⟨left, hentered, hsuffices⟩
  have hle := plan_le hsuffices
  have hleft := hentered.length_le
  have hcount : payloadCount (List.replicate 2048 0x78) = 5 := by
    rw [payloadCount, List.length_replicate]
    rfl
  rw [hcount] at hle
  exact absurd (Nat.le_trans hle hleft) (by decide)

end Formatted

end ClothesFS

end CxxKernel.Clothes
