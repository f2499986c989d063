import CxxKernel.Clothes.Directory
import CxxKernel.Lib.Runs

/-! Runs of `addFile` and `addDir`, and the directories they leave. -/
namespace CxxKernel.Clothes
open Fallible Runs

namespace ClothesFS

/-- The directory in block `dir`, with a name of `len` bytes and the entries `es`. -/
structure DirOk (fs : ClothesFS) (d : Disk) (dir : Word) (len : ℕ) (es : List Word) : Prop where
  block : DirBlock (d dir.toNat) len es
  inside : dir.toNat < fs.count
  entries : ∀ e ∈ es, e.toNat < fs.count
  next : word (d dir.toNat) (blocksize - 4) ≠ 0 →
    fs.contFam (sectorOf (word (d dir.toNat) (blocksize - 4)))
      (d (sectorOf (word (d dir.toNat) (blocksize - 4))))

section Directories
variable {fs : ClothesFS} {d d' : Disk} {free free' : List Word} {dir e : Word} {len : ℕ}
  {es : List Word} {F : ℕ → Block → Prop} {new : Block}

/-- The directory block itself is as before, and its continuation is still one. -/
theorem DirOk.congr (h : DirOk fs d dir len es) (hblock : d' dir.toNat = d dir.toNat)
    (hcont : ∀ j, fs.contFam j (d j) → fs.contFam j (d' j)) : DirOk fs d' dir len es := by
  refine ⟨hblock ▸ h.block, h.inside, h.entries, fun hnext => ?_⟩
  rw [hblock] at hnext ⊢
  exact hcont _ (h.next hnext)

theorem notCont_of_dirBlock {b : Block} (h : DirBlock b len es) (j : ℕ) : ¬ fs.contFam j b := by
  intro hc
  have htype := (contFam_type hc).2
  rw [h.type] at htype
  cases htype

theorem DirOk.not_cont (h : DirOk fs d dir len es) : ¬ fs.contFam dir.toNat (d dir.toNat) :=
  notCont_of_dirBlock h.block dir.toNat

theorem DirOk.effect (h : DirOk fs d dir len es) (hfree : FreeInv fs d free)
    (he : Effect fs F d free d' free') (hdir : ¬ F dir.toNat (d dir.toNat))
    (hcont : ∀ j, fs.contFam j (d j) → fs.contFam j (d' j)) : DirOk fs d' dir len es :=
  h.congr (he.foreign hfree h.block.tagged hdir) hcont

/-- What happens to the continuations happens to the blocks of the directory. -/
theorem effect_dir (he : Effect fs fs.contFam d free d' free') (hsame : d' dir.toNat = d dir.toNat) :
    Effect fs (fs.dirFam dir.toNat) d free d' free' := by
  refine he.mono (fun _ _ => .inl) fun j hj => ?_
  rcases hj with hj | ⟨rfl, hj⟩
  · exact .inl (he.family j hj)
  · rw [hsame]
    exact .inr ⟨rfl, hj⟩

theorem DirOk.inFam (h : DirOk fs d dir len es) : fs.dirFam dir.toNat dir.toNat (d dir.toNat) :=
  .inr ⟨rfl, h.block.id, h.block.type⟩

section Add
variable (hs : fs.Small) (hconts : Closed fs.contFam d) (hok : DirOk fs d dir len es)
  (hentries : ∀ a ∈ es ++ [e], a.toNat < fs.count) (hne : e ≠ 0)

include hs hconts hok hentries hne in
theorem fillDir (hfree : FreeInv fs d free) {ptr : Word}
    (hslot : freeEntry (d dir.toNat) blocksize (addStart (d dir.toNat) META_DIR) = some ptr)
    (hd' : d' = Function.update d dir.toNat (numToData e.toNat (d dir.toNat) ptr.toNat 4)) :
    DirOk fs d' dir len (es ++ [e]) ∧ Closed fs.contFam d' ∧
      Effect fs (fs.dirFam dir.toNat) d free d' free := by
  have hnew := hok.block.filled hne hslot
  have heffect := Effect.change (family_dir hs dir.toNat) hfree hok.inFam
    (.inr ⟨rfl, hnew.id, hnew.type⟩ : fs.dirFam dir.toNat dir.toNat _)
  rw [hd']
  refine ⟨⟨?_, hok.inside, hentries, fun hne' => ?_⟩,
    hconts.other hok.not_cont (notCont_of_dirBlock hnew dir.toNat), heffect⟩
  · rw [Function.update_self]
    exact hnew
  · -- a block with a free entry is not continued
    rw [Function.update_self] at hne'
    have hle := freeEntry_le hslot
    have hptr := hok.block.freeEntry_some hslot
    refine absurd (hnew.next.mpr ?_) hne'
    rw [List.length_append, List.length_singleton]
    unfold entryPos at hptr ⊢
    omega

include hs hconts hok hentries hne in
/-- The first block is full and has a continuation, where the entry goes. -/
theorem continueDir (hfree : FreeInv fs d free)
    (hslot : freeEntry (d dir.toNat) blocksize (addStart (d dir.toNat) META_DIR) = none)
    (hnext : word (d dir.toNat) (blocksize - 4) ≠ 0) {fuel : ℕ}
    (hr : Returns (fs.addToMeta fuel (word (d dir.toNat) (blocksize - 4)) e META_DIR) d () d') :
    DirOk fs d' dir len (es ++ [e]) ∧ Closed fs.contFam d' ∧
      ∃ free', Effect fs (fs.dirFam dir.toNat) d free d' free' := by
  have he : e.toNat < fs.count := hentries e (List.mem_append_right _ List.mem_cons_self)
  have hend := hok.block.freeEntry_none hslot
  obtain ⟨free', heffect, hclosed⟩ := addToMeta_effect hs (family_cont hs) he hfree
    (fun b hb => (hfree.inside b hb).1) (hok.next hnext) hconts hr
  have hsame := heffect.foreign hfree hok.block.tagged hok.not_cont
  have hdir := hok.congr hsame heffect.family
  refine ⟨⟨?_, hok.inside, hentries, hdir.next⟩, hclosed, free', effect_dir heffect hsame⟩
  rw [hsame]
  exact hok.block.full hne hend (fun _ _ => rfl) hnext

include hs hconts hok hentries hne in
theorem extendDir {n : Word} {rest : List Word} (hfree : FreeInv fs d (n :: rest))
    (hslot : freeEntry (d dir.toNat) blocksize (addStart (d dir.toNat) META_DIR) = none) {fuel : ℕ}
    (hr : Returns (fs.addToMeta fuel n e META_DIR) (extended d dir.toNat n META_DIR) () d') :
    DirOk fs d' dir len (es ++ [e]) ∧ Closed fs.contFam d' ∧
      ∃ free', Effect fs (fs.dirFam dir.toNat) d (n :: rest) d' free' := by
  have he : e.toNat < fs.count := hentries e (List.mem_append_right _ List.mem_cons_self)
  have hfamily := family_cont hs
  have hdirs := family_dir hs dir.toNat
  have hend := hok.block.freeEntry_none hslot
  have hin := hfree.inside n List.mem_cons_self
  have hnb : n.toNat ≠ dir.toNat := hdirs.not_free hfree hok.inFam n List.mem_cons_self
  obtain ⟨hext, -⟩ := extended_effect hdirs hfree hin.1 hok.inFam
  have hlinked : extended d dir.toNat n META_DIR dir.toNat =
      numToData n.toNat (d dir.toNat) (blocksize - 4) 4 := by
    rw [extended, Function.update_of_ne (Ne.symm hnb), Function.update_self]
  have hblock : DirBlock (extended d dir.toNat n META_DIR dir.toNat) len (es ++ [e]) := by
    rw [hlinked]
    apply hok.block.full hne hend
    · exact fun q hq => numToData_of_notMem (.inl hq)
    · rw [word_numToData]
      rintro rfl
      exact absurd hin.1 (by decide)
  have hnotlinked : ¬ fs.contFam dir.toNat (extended d dir.toNat n META_DIR dir.toNat) := notCont_of_dirBlock hblock _
  have hcont : fs.contFam n.toNat (extended d dir.toNat n META_DIR n.toNat) := by
    rw [extended, Function.update_self]
    exact hfamily.cont _ hin.1 hin.2
  have hclosed : Closed fs.contFam (extended d dir.toNat n META_DIR) := by
    have hpop : popHeader d dir.toNat = d dir.toNat := popHeader_of_ne d (hdirs.ne_zero hfree hok.inFam)
    have hlast : word (freshMeta (contType META_DIR)) (blocksize - 4) = 0 := word_freshMeta (by decide)
    refine ((hconts.pop hfamily hfree).other (hpop ▸ hok.not_cont) (hlinked ▸ hnotlinked)).update
      (hfamily.cont _ hin.1 hin.2) fun hw => absurd hlast hw
  rw [← hs.sector_eq hin.2] at hcont
  obtain ⟨free', heffect, hclosed'⟩ := addToMeta_effect hs hfamily he hext.inv
    (fun b hb => (hext.inv.inside b hb).1) hcont hclosed hr
  have hsame := heffect.foreign hext.inv hblock.tagged hnotlinked
  refine ⟨⟨hsame ▸ hblock, hok.inside, hentries, fun _ => ?_⟩, hclosed', free',
    hext.trans hdirs hfree (effect_dir heffect hsame)⟩
  rw [hsame, hlinked, word_numToData]
  exact heffect.family _ hcont

end Add

/-- An entry is added to a directory: in its first block, or behind the continuation. -/
theorem addToMeta_dir (hs : fs.Small) (hfree : FreeInv fs d free) (hconts : Closed fs.contFam d)
    (hok : DirOk fs d dir len es) (he : e.toNat < fs.count) (hne : e ≠ 0) {fuel : ℕ}
    (hr : Returns (fs.addToMeta fuel dir e META_DIR) d () d') :
    DirOk fs d' dir len (es ++ [e]) ∧ Closed fs.contFam d' ∧
      ∃ free', Effect fs (fs.dirFam dir.toNat) d free d' free' := by
  have hentries : ∀ a ∈ es ++ [e], a.toNat < fs.count := by
    intro a ha
    rcases List.mem_append.mp ha with ha | ha
    · exact hok.entries a ha
    · rw [List.mem_singleton.mp ha]
      exact he
  cases fuel with
  | zero => exact absurd hr returns_failure
  | succ fuel =>
    have hstep := addToMeta_step hs hfree hr
    rw [hs.sector_eq hok.inside] at hstep
    obtain ⟨-, -, ⟨ptr, hslot, hd'⟩ | ⟨hslot, ⟨hnext, hr⟩ | ⟨-, n, rest, rfl, hr⟩⟩⟩ := hstep
    · obtain ⟨hdir, hclosed, heffect⟩ := fillDir hs hconts hok hentries hne hfree hslot hd'
      exact ⟨hdir, hclosed, free, heffect⟩
    · exact continueDir hs hconts hok hentries hne hfree hslot hnext hr
    · exact extendDir hs hconts hok hentries hne hfree hslot hr

end Directories

/-- The free blocks, and the directories `dirs` with the lengths of their names and their entries. -/
structure Tree (fs : ClothesFS) (d : Disk) (free dirs : List Word) (len : Word → ℕ)
    (es : Word → List Word) : Prop where
  chain : FreeInv fs d free
  conts : Closed fs.contFam d
  files : Closed fs.fileFam d
  dir : ∀ b ∈ dirs, DirOk fs d b (len b) (es b)
  other : ∀ b, b ∉ dirs → es b = []

section Trees
variable {fs : ClothesFS} {d d₁ d₂ d' : Disk} {free rest dirs : List Word} {len : Word → ℕ}
  {es : Word → List Word} {b parent : Word} {fuel : ℕ} {new : Block} {name : CString}

theorem fileFam_not_cont {j : ℕ} {b : Block} (h : fs.fileFam j b) : ¬ fs.contFam j b := by
  intro hc
  have htype := (contFam_type hc).2
  rcases h.2.2 with hf | hf <;> rw [htype] at hf <;> cases hf

theorem fileFam_not_dir {j k : ℕ} {b : Block} (h : fs.fileFam j b) : ¬ fs.dirFam k j b := by
  rintro (hc | ⟨-, -, htype⟩)
  · exact fileFam_not_cont h hc
  · rcases h.2.2 with hf | hf <;> rw [htype] at hf <;> cases hf

theorem Tree.blank_notMem (h : Tree fs d free dirs len es)
    (hblank : dataToNum (d b.toNat) 2 1 = META_FREE) : b ∉ dirs :=
  fun hb => (h.dir b hb).block.tagged.2 hblank

theorem Tree.pop (hs : fs.Small) (h : Tree fs d (b :: rest) dirs len es) :
    Tree fs (popHeader d) rest dirs len es := by
  have heffect := Effect.pop (family_cont hs) h.chain
  exact ⟨h.chain.pop, h.conts.pop (family_cont hs) h.chain, h.files.pop family_file h.chain,
    fun c hc => (h.dir c hc).effect h.chain heffect (h.dir c hc).not_cont heffect.family, h.other⟩

/-- A taken block becomes the last entry of a directory, and is not written yet. -/
theorem Tree.enter (hs : fs.Small) (h : Tree fs d (b :: rest) dirs len es) (hparent : parent ∈ dirs)
    (hr : Returns (fs.addToMeta fuel parent b META_DIR) (popHeader d) () d₂) :
    ∃ free', Tree fs d₂ free' dirs len (Function.update es parent (es parent ++ [b])) ∧
      b ∉ free' ∧ d₂ b.toNat = d b.toNat ∧ ∀ j, Tagged (d j) → Tagged (d₂ j) := by
  have hin := h.chain.inside b List.mem_cons_self
  have hne : b ≠ 0 := by
    rintro rfl
    exact absurd hin.1 (by decide)
  have hpop := h.pop hs
  have hok := hpop.dir parent hparent
  obtain ⟨hparent', hconts, free', heffect⟩ := addToMeta_dir hs hpop.chain hpop.conts hok hin.2 hne hr
  have hnotcont : ∀ j, fs.contFam j (popHeader d j) → j ≠ parent.toNat := by
    rintro j hc rfl
    exact hok.not_cont hc
  have hcont : ∀ j, fs.contFam j (popHeader d j) → fs.contFam j (d₂ j) := by
    intro j hc
    exact (heffect.family j (.inl hc)).resolve_right fun hd => hnotcont j hc hd.1
  have hnotfree : b ∉ rest := h.chain.head_notMem
  have hblank : popHeader d b.toNat = d b.toNat := popHeader_of_ne d (h.chain.ne_zero List.mem_cons_self)
  refine ⟨free', ⟨heffect.inv, hconts, ?_, fun c hc => ?_, fun c hc => ?_⟩,
    fun hb => hnotfree (heffect.suffix.subset hb), ?_, fun j hj => ?_⟩
  · exact hpop.files.of_effect hpop.chain heffect fun j c hf =>
      ⟨fileFam_tagged hf, fileFam_not_dir hf⟩
  · by_cases hcp : c = parent
    · subst hcp
      rw [Function.update_self]
      exact hparent'
    · rw [Function.update_of_ne hcp]
      apply (hpop.dir c hc).effect hpop.chain heffect ?_ hcont
      rintro (hd | ⟨hd, -⟩)
      · exact (hpop.dir c hc).not_cont hd
      · exact hcp (BitVec.eq_of_toNat_eq hd)
  · have hcp : c ≠ parent := fun he => hc (he ▸ hparent)
    rw [Function.update_of_ne hcp]
    exact h.other c hc
  · rw [← hblank]
    apply heffect.kept _ (h.chain.ne_zero List.mem_cons_self)
    · rw [hblank]
      exact (family_dir hs _).not_blank h.chain List.mem_cons_self
    · exact fun c hc he => hnotfree (BitVec.eq_of_toNat_eq he ▸ hc)
  · have hpopped := (Effect.pop (family_cont hs) h.chain).tagged (family_cont hs) h.chain hj
    exact heffect.tagged (family_dir hs _) hpop.chain hpopped

/-- A taken and blank block is written, as a directory or as a file without a next block. -/
theorem Tree.write (h : Tree fs d free dirs len es)
    (hblank : dataToNum (d b.toNat) 2 1 = META_FREE) (hne : b.toNat ≠ 0) (hfree : b ∉ free)
    (hcont : ¬ fs.contFam b.toNat new)
    (hfile : fs.fileFam b.toNat new → word new (blocksize - 4) = 0) :
    Tree fs (Function.update d b.toNat new) free dirs len es := by
  have hold : ∀ j, fs.contFam j (d j) → j ≠ b.toNat := by
    rintro j hc rfl
    exact (contFam_tagged hc).2 hblank
  have holdfile : ¬ fs.fileFam b.toNat (d b.toNat) := fun hf => (fileFam_tagged hf).2 hblank
  refine ⟨h.chain.write_taken hne hfree, h.conts.other (fun hc => hold _ hc rfl) hcont, ?_, fun c hc => ?_, h.other⟩
  · by_cases hf : fs.fileFam b.toNat new
    · exact h.files.update hf fun hw => absurd (hfile hf) hw
    · exact h.files.other holdfile hf
  · have hcb : c.toNat ≠ b.toNat := fun he => h.blank_notMem hblank (BitVec.eq_of_toNat_eq he ▸ hc)
    apply (h.dir c hc).congr (Function.update_of_ne hcb new d)
    intro j hj
    rw [Function.update_of_ne (hold j hj)]
    exact hj

theorem tagged_written (htag : ∀ j, Tagged (d j) → Tagged (d₂ j)) (hnew : Tagged new) (j : ℕ)
    (hj : j = b.toNat ∨ Tagged (d j)) : Tagged (Function.update d₂ b.toNat new j) := by
  by_cases hjb : j = b.toNat
  · rw [hjb, Function.update_self]
    exact hnew
  · rw [Function.update_of_ne hjb]
    exact htag j (hj.resolve_left hjb)

theorem updateMeta_fresh (hs : fs.Small) (hin : b.toNat < fs.count) {type : Word} {size : ℕ}
    (hinit : Returns (fs.initMeta b type) d () d₁)
    (hr : Returns (fs.updateMeta b name size) d₁ () d₂) :
    d₂ = Function.update d b.toNat (named (freshMeta type) name size) := by
  rw [hs.returns_initMeta hin] at hinit
  subst hinit
  obtain ⟨-, rfl⟩ := (hs.returns_updateMeta hin).mp hr
  rw [Function.update_self, Function.update_idem]

/-- The block that is taken for a new entry and entered in its parent. It is still blank. -/
theorem Tree.take_enter (hs : fs.Small) (h : Tree fs d free dirs len es) (hparent : parent ∈ dirs)
    (htake : Returns fs.takeFreeBlock d b d₁) (hne : b ≠ 0)
    (hadd : Returns (fs.addToMeta fuel parent b META_DIR) d₁ () d₂) :
    ∃ free', Tree fs d₂ free' dirs len (Function.update es parent (es parent ++ [b])) ∧
      (2 ≤ b.toNat ∧ b.toNat < fs.count) ∧ b ∉ free' ∧ dataToNum (d₂ b.toNat) 2 1 = META_FREE ∧
      ∀ j, Tagged (d j) → Tagged (d₂ j) := by
  obtain ⟨rest, rfl, rfl, -⟩ := h.chain.take_cons hs htake hne
  obtain ⟨free', htree, hnot, hsame, htag⟩ := h.enter hs hparent hadd
  refine ⟨free', htree, h.chain.inside b List.mem_cons_self, hnot, ?_, htag⟩
  rw [hsame]
  exact h.chain.blank b List.mem_cons_self

/-- `addDir` adds an empty directory as the last entry of its parent. -/
theorem addDir_tree (hs : fs.Small) (h : Tree fs d free dirs len es) (hparent : parent ∈ dirs)
    (hname : name.Fits) (htake : Returns fs.takeFreeBlock d b d₁)
    (hr : Returns (fs.addDir fuel parent name) d () d') :
    ∃ free', Tree fs d' free' (b :: dirs) (Function.update len b name.bytes.length)
      (Function.update es parent (es parent ++ [b])) ∧
      ∀ j, j = b.toNat ∨ Tagged (d j) → Tagged (d' j) := by
  simp only [addDir, returns_bind, returns_guard] at hr
  obtain ⟨_, _, ⟨-, rfl⟩, b', _, htake', _, _, ⟨hne, rfl⟩, _, d₂, hadd, _, d₃, hinit, hupdate⟩ := hr
  obtain ⟨rfl, rfl⟩ := htake.unique htake'
  obtain ⟨free', htree, hin, hnot, hblank, htag⟩ := h.take_enter hs hparent htake hne hadd
  obtain rfl := updateMeta_fresh hs hin.2 hinit hupdate
  have hblock := dirBlock_named hname 0
  have hcont : ¬ fs.contFam b.toNat (named (freshMeta META_DIR) name 0) := notCont_of_dirBlock hblock _
  have hnext : word (named (freshMeta META_DIR) name 0) (blocksize - 4) = 0 := by
    refine hblock.next.mpr ?_
    have hfits := hblock.fits
    unfold entryPos
    unfold blocksize at hfits ⊢
    rw [List.length_nil]
    omega
  have hwritten := htree.write hblank (by omega) hnot hcont fun _ => hnext
  have hbdirs := htree.blank_notMem hblank
  refine ⟨free', ⟨hwritten.chain, hwritten.conts, hwritten.files, fun c hc => ?_, fun c hc => ?_⟩,
    tagged_written htag hblock.tagged⟩
  · by_cases hcb : c = b
    · subst hcb
      rw [Function.update_self, htree.other c hbdirs]
      refine ⟨?_, hin.2, fun e he => absurd he List.not_mem_nil, fun hw => ?_⟩
      · rw [Function.update_self]
        exact hblock
      · rw [Function.update_self] at hw
        exact absurd hnext hw
    · rw [Function.update_of_ne hcb]
      exact hwritten.dir c ((List.mem_cons.mp hc).resolve_left hcb)
  · exact hwritten.other c fun hmem => hc (List.mem_cons_of_mem b hmem)

theorem Tree.effect (h : Tree fs d free dirs len es) {free' : List Word}
    (he : Effect fs fs.fileFam d free d' free') (hfiles : Closed fs.fileFam d') :
    Tree fs d' free' dirs len es := by
  have hcont : ∀ j c, fs.contFam j c → Tagged c ∧ ¬ fs.fileFam j c := fun _ _ hc =>
    ⟨contFam_tagged hc, fun hf => fileFam_not_cont hf hc⟩
  refine ⟨he.inv, h.conts.of_effect h.chain he hcont, hfiles, fun c hc => ?_, h.other⟩
  have hdir := h.dir c hc
  apply hdir.effect h.chain he
  · intro hf
    exact fileFam_not_dir hf (.inr ⟨rfl, hdir.block.id, hdir.block.type⟩ : fs.dirFam c.toNat c.toNat _)
  · intro j hj
    rw [he.foreign h.chain (hcont j _ hj).1 (hcont j _ hj).2]
    exact hj

/-- `addFile` adds its metadata block as the last entry of the parent. -/
theorem addFile_tree (hs : fs.Small) (h : Tree fs d free dirs len es) (hparent : parent ∈ dirs)
    (hname : name.Fits) {contents : List Byte} (htake : Returns fs.takeFreeBlock d b d₁)
    (hr : Returns (fs.addFile fuel parent name contents) d () d') :
    ∃ free', Tree fs d' free' dirs len (Function.update es parent (es parent ++ [b])) ∧
      ∀ j, j = b.toNat ∨ Tagged (d j) → Tagged (d' j) := by
  simp only [addFile, returns_bind, returns_guard] at hr
  obtain ⟨_, _, ⟨-, rfl⟩, b', _, htake', _, _, ⟨hne, rfl⟩, _, d₂, hadd, _, d₃, hinit, _, d₄, hupdate,
    hdata⟩ := hr
  obtain ⟨rfl, rfl⟩ := htake.unique htake'
  obtain ⟨free', htree, hin, hnot, hblank, htag⟩ := h.take_enter hs hparent htake hne hadd
  obtain rfl := updateMeta_fresh hs hin.2 hinit hupdate
  have hfile : fs.fileFam b.toNat (named (freshMeta META_FILE) name contents.length) :=
    ⟨hin.2, named_head (by omega), .inl (named_head (by omega))⟩
  have hwritten := htree.write hblank (by omega) hnot (fileFam_not_cont hfile) fun _ =>
    word_named_of_ge hname.2
  have hindex : fs.fileFam (sectorOf b) (Function.update d₂ b.toNat
      (named (freshMeta META_FILE) name contents.length) (sectorOf b)) := by
    rw [hs.sector_eq hin.2, Function.update_self]
    exact hfile
  obtain ⟨free'', heffect, hclosed⟩ := addData_effect hs family_file hwritten.chain
    (fun c hc => (hwritten.chain.inside c hc).1) hindex hwritten.files hdata
  refine ⟨free'', hwritten.effect heffect hclosed, fun j hj => ?_⟩
  apply heffect.tagged family_file hwritten.chain
  exact tagged_written htag (fileFam_tagged hfile) j hj

theorem addDir_took (hr : Returns (fs.addDir fuel parent name) d () d')
    (htake : Returns fs.takeFreeBlock d b d₁) : b ≠ 0 := by
  simp only [addDir, returns_bind, returns_guard] at hr
  obtain ⟨_, _, ⟨-, rfl⟩, b', _, htake', _, _, ⟨hne, rfl⟩, -⟩ := hr
  rwa [(htake.unique htake').1]

theorem addFile_took {contents : List Byte}
    (hr : Returns (fs.addFile fuel parent name contents) d () d')
    (htake : Returns fs.takeFreeBlock d b d₁) : b ≠ 0 := by
  simp only [addFile, returns_bind, returns_guard] at hr
  obtain ⟨_, _, ⟨-, rfl⟩, b', _, htake', _, _, ⟨hne, rfl⟩, -⟩ := hr
  rwa [(htake.unique htake').1]

end Trees

/-- A volume, the directories on it, the lengths of their names and the blocks added to them. -/
structure DirState where
  disk : Disk
  dirs : List Word
  len : Word → ℕ
  entries : Word → List Word

inductive DirOp
  | addFile (parent : Word) (name : CString) (contents : List Byte)
  | addDir (parent : Word) (name : CString)

/-- A successful call under a directory. The new metadata block is the one it takes first. -/
def DirStep (fs : ClothesFS) (s : DirState) : DirOp → DirState → Prop
  | .addFile parent name contents, s' => parent ∈ s.dirs ∧ name.Fits ∧
      ∃ fuel block d, Returns fs.takeFreeBlock s.disk block d ∧
        Returns (fs.addFile fuel parent name contents) s.disk () s'.disk ∧
        s'.dirs = s.dirs ∧ s'.len = s.len ∧
        s'.entries = Function.update s.entries parent (s.entries parent ++ [block])
  | .addDir parent name, s' => parent ∈ s.dirs ∧ name.Fits ∧
      ∃ fuel block d, Returns fs.takeFreeBlock s.disk block d ∧
        Returns (fs.addDir fuel parent name) s.disk () s'.disk ∧
        s'.dirs = block :: s.dirs ∧ s'.len = Function.update s.len block name.bytes.length ∧
        s'.entries = Function.update s.entries parent (s.entries parent ++ [block])

/-- A formatted volume with the root directory. -/
def DirStart (fs : ClothesFS) (s : DirState) : Prop :=
  (∃ volid d, Returns (fs.format volid) d () s.disk) ∧ s.dirs = [1] ∧ (s.len = fun _ => 1) ∧
    s.entries = fun _ => []

section Run
variable {fs : ClothesFS} {s s' : DirState}

/-- Every directory is in order, and the free blocks are chained, or the volume has none. -/
def DirInv (fs : ClothesFS) (s : DirState) : Prop :=
  (∀ b ∈ s.dirs, DirOk fs s.disk b (s.len b) (s.entries b)) ∧
    (∀ b, (s.entries b).Nodup ∧ ∀ e ∈ s.entries b, Tagged (s.disk e.toNat)) ∧
    ((∃ volid, Fresh fs volid s.disk ∧ fs.count = 2) ∨
      ∃ free, Tree fs s.disk free s.dirs s.len s.entries)

theorem rootName_fits : CString.Fits ⟨[0x2F], slash_noNul⟩ := ⟨by simp, by decide⟩

theorem Fresh.rootOk {volid : Option CString} {d : Disk} (h : Fresh fs volid d) :
    DirOk fs d 1 1 [] := by
  have hone : (1 : Word).toNat = 1 := rfl
  have hblock : DirBlock (d 1) 1 [] := by
    rw [h.root]
    exact dirBlock_named rootName_fits 0
  refine ⟨hblock, h.two_le, fun e he => absurd he List.not_mem_nil, fun hw => ?_⟩
  exact absurd (hblock.next.mpr (by decide)) hw

/-- No block of a fresh volume belongs to a file or continues a directory. -/
theorem Fresh.untagged {volid : Option CString} {d : Disk} (h : Fresh fs volid d) {j : ℕ}
    (hj : j < fs.count) (ht : Tagged (d j)) : j = 1 := by
  rcases (by omega : j = 0 ∨ j = 1 ∨ 2 ≤ j) with rfl | rfl | hge
  · rw [Tagged, h.header, header_id] at ht
    cases ht.1
  · rfl
  · rw [Tagged, h.free j hge hj, freeBlock_type] at ht
    exact absurd rfl ht.2

theorem Fresh.tree (hs : fs.Small) {volid : Option CString} {d : Disk} (h : Fresh fs volid d)
    (hthree : 3 ≤ fs.count) : Tree fs d fs.freshFree [1] (fun _ => 1) fun _ => [] := by
  have hroot := h.rootOk
  have hone : (1 : Word).toNat = 1 := rfl
  refine ⟨h.freeInv hs hthree, fun k hk => ?_, fun k hk => ?_, fun b hb => ?_, fun _ _ => rfl⟩
  · obtain rfl := h.untagged hk.1 (contFam_tagged hk)
    exact absurd hk hroot.not_cont
  · obtain rfl := h.untagged hk.1 (fileFam_tagged hk)
    exact absurd (.inr ⟨rfl, hroot.block.id, hroot.block.type⟩) (fileFam_not_dir hk)
  · rw [List.mem_singleton.mp hb]
    exact hroot

theorem dirInv_of_start (hs : fs.Small) (h : fs.DirStart s) : DirInv fs s := by
  obtain ⟨⟨volid, d, hformat⟩, hdirs, hlen, hentries⟩ := h
  have hfresh := fresh_of_format hs hformat
  rw [DirInv, hdirs, hlen, hentries]
  refine ⟨fun b hb => ?_, fun b => ⟨List.nodup_nil, fun e he => absurd he List.not_mem_nil⟩, ?_⟩
  · rw [List.mem_singleton.mp hb]
    exact hfresh.rootOk
  · rcases Nat.eq_or_lt_of_le hfresh.two_le with htwo | hthree
    · exact .inl ⟨volid, hfresh, htwo.symm⟩
    · exact .inr ⟨fs.freshFree, hfresh.tree hs hthree⟩

theorem tree_of_take (hs : fs.Small) (h : DirInv fs s) {b : Word} {d : Disk}
    (htake : Returns fs.takeFreeBlock s.disk b d) (hne : b ≠ 0) :
    ∃ free, Tree fs s.disk free s.dirs s.len s.entries ∧ ¬ Tagged (s.disk b.toNat) := by
  rcases h.2.2 with ⟨volid, hfresh, htwo⟩ | ⟨free, htree⟩
  · exact absurd (hfresh.take_two hs htwo htake) hne
  · obtain ⟨rest, rfl, -⟩ := htree.chain.take_cons hs htake hne
    exact ⟨b :: rest, htree, fun ht => ht.2 (htree.chain.blank b List.mem_cons_self)⟩

theorem entries_extended (h : ∀ c, (s.entries c).Nodup ∧ ∀ e ∈ s.entries c, Tagged (s.disk e.toNat))
    {b parent : Word} (hnew : ¬ Tagged (s.disk b.toNat)) {d : Disk}
    (htag : ∀ j, j = b.toNat ∨ Tagged (s.disk j) → Tagged (d j)) (c : Word) :
    (Function.update s.entries parent (s.entries parent ++ [b]) c).Nodup ∧
      ∀ e ∈ Function.update s.entries parent (s.entries parent ++ [b]) c, Tagged (d e.toNat) := by
  by_cases hc : c = parent
  · subst hc
    rw [Function.update_self]
    have hnotmem : b ∉ s.entries c := fun hb => hnew ((h c).2 b hb)
    refine ⟨List.nodup_append.mpr ⟨(h c).1, List.nodup_singleton b, ?_⟩, fun e he => ?_⟩
    · intro a ha a' ha' heq
      rw [List.mem_singleton.mp ha'] at heq
      exact hnotmem (heq ▸ ha)
    · rcases List.mem_append.mp he with he | he
      · exact htag _ (.inr ((h c).2 e he))
      · rw [List.mem_singleton.mp he]
        exact htag _ (.inl rfl)
  · rw [Function.update_of_ne hc]
    exact ⟨(h c).1, fun e he => htag _ (.inr ((h c).2 e he))⟩

theorem dirStep_inv (hs : fs.Small) {op : DirOp} (h : DirInv fs s) (hstep : fs.DirStep s op s') :
    DirInv fs s' := by
  cases op with
  | addFile parent name contents =>
    obtain ⟨hparent, hname, fuel, b, d, htake, hr, hdirs, hlen, hentries⟩ := hstep
    obtain ⟨free, htree, hnew⟩ := tree_of_take hs h htake (addFile_took hr htake)
    obtain ⟨free', htree', htag⟩ := addFile_tree hs htree hparent hname htake hr
    rw [DirInv, hdirs, hlen, hentries]
    exact ⟨htree'.dir, entries_extended h.2.1 hnew htag, .inr ⟨free', htree'⟩⟩
  | addDir parent name =>
    obtain ⟨hparent, hname, fuel, b, d, htake, hr, hdirs, hlen, hentries⟩ := hstep
    obtain ⟨free, htree, hnew⟩ := tree_of_take hs h htake (addDir_took hr htake)
    obtain ⟨free', htree', htag⟩ := addDir_tree hs htree hparent hname htake hr
    rw [DirInv, hdirs, hlen, hentries]
    exact ⟨htree'.dir, entries_extended h.2.1 hnew htag, .inr ⟨free', htree'⟩⟩

theorem dirInv_of_reachable (hs : fs.Small) (h : Reachable fs.DirStep fs.DirStart s) :
    DirInv fs s := by
  have hinit : ∀ s, fs.DirStart s → DirInv fs s := fun _ => dirInv_of_start hs
  have hstep : ∀ s op s', DirInv fs s → fs.DirStep s op s' → DirInv fs s' :=
    fun _ _ _ hinv => dirStep_inv hs hinv
  exact h.invariant hinit hstep

end Run

end ClothesFS

end CxxKernel.Clothes
