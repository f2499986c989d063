import CxxKernel.Clothes.RoundTrip
import CxxKernel.Clothes.Paths

/-! `Iterator::remove`: what it frees, and what the directory lists behind it. -/
namespace CxxKernel.Clothes
open Fallible Cursor Runs LinkedChain

namespace ClothesFS

section Remove
variable (fs : ClothesFS)

/-- A call of `addFreeBlock` whose result is not looked at. -/
def tryAddFreeBlock (id : Word) : Prog Disk Unit := fs.addFreeBlock id <|> pure ()

/-- The first part of a round of the loop of `remove`, for a position behind the last entry. It may end
the loop. -/
def removeCross (it : Iterator) (the_block pos : Word) : Prog Disk (Option (Iterator × Word × Word)) :=
  if blocksize - 4 ≤ pos.toNat then do
    fs.tryAddFreeBlock the_block
    let next_block := dataToNum it.data (blocksize - 4) 4
    if next_block = 0 then pure none
    else
      (do
        let data ← fs.getBlock next_block
        pure (some ({ it with data, data_index := 0 }, next_block, 4))) <|> pure none
  else pure (some (it, the_block, pos))

def removeLoop : ℕ → Iterator → Word → Word → Prog Disk (Iterator × Word)
  | 0, _, _, _ => failure
  | fuel + 1, it, the_block, pos => do
    match ← fs.removeCross it the_block pos with
    | none => pure (it, the_block)
    | some (it, the_block, pos) =>
      let it := { it with data_block := dataToNum it.data pos.toNat 4 }
      if it.data_block = 0 then pure (it, the_block)
      else do
        fs.tryAddFreeBlock it.data_block
        removeLoop fuel it the_block (pos + 4)

/-- `Iterator::remove`, which returns true, and the iterator behind it. -/
def remove (fuel : ℕ) (it : Iterator) : Prog Disk Iterator := do
  let it := { it with pos := 0, data_block := 0, data_index := 0 }
  let pos := 4 * it.data_index + listStart it.data (dataToNum it.data 2 1)
  let (it, the_block) ← fs.removeLoop fuel it it.block pos
  fs.tryAddFreeBlock the_block
  pure it

end Remove

/-- The payload entries of a metadata block of a file. -/
def payloads (m : Block) : List Word :=
  let start := (readStart m (dataToNum m 2 1)).toNat
  ((List.range ((blocksize - 4 - start) / 4)).map fun i => word m (start + 4 * i)).takeWhile (· ≠ 0)

/-- The blocks of a file with the given metadata blocks. -/
def fileBlocks (d : Disk) (metas : List Word) : List Word :=
  metas.flatMap fun b => b :: payloads (d b.toNat)

/-- An iterator that a program has taken along the entries of a directory. -/
inductive Walked (fs : ClothesFS) (d : Disk) (dir : Word) : Iterator → Prop
  | list : Walked fs d dir (fs.list d dir)
  | next {it : Iterator} (h : Walked fs d dir it) (hok : it.ok = true) : Walked fs d dir (fs.next d it)

/-- What `remove` should do: the entry goes from the listing, the blocks of the file come to the free chain,
and the header and the blocks of the parent are all that is written besides. -/
def RemoveLaw (fs : ClothesFS) (s : DirState) (dir : Word) (it : Iterator) : Prop :=
  ∃ fuel it' d', Returns (fs.remove fuel it) s.disk it' d' ∧
    Yields (fs.visit d') (fs.list d' dir) ((s.entries dir).erase it.block) ∧
    ∀ free metas parents, Chain (nextFree s.disk) (freeHead s.disk) free →
      Chain (nextFree s.disk) (some it.block) metas → Chain (nextFree s.disk) (some dir) parents →
      (∃ free', Chain (nextFree d') (freeHead d') free' ∧ free'.Perm (free ++ fileBlocks s.disk metas)) ∧
        ∀ j, j ≠ 0 → (∀ b ∈ parents ++ fileBlocks s.disk metas, b.toNat ≠ j) → d' j = s.disk j

section Kept
variable {fs : ClothesFS} {d d' : Disk} {it it' : Iterator} {dir : Word} {es : List Word} {len fuel : ℕ}

/-- Every block but the header is as before. -/
def OnlyHeader (d d' : Disk) : Prop := ∀ j, j ≠ 0 → d' j = d j

instance : Std.Refl OnlyHeader := ⟨fun _ _ _ => rfl⟩

instance : IsTrans Disk OnlyHeader := ⟨fun _ _ _ h h' j hj => (h' j hj).trans (h j hj)⟩

theorem onlyHeader_getBlock (i : Word) : Keeps OnlyHeader (fs.getBlock i) := fun _ _ _ => rfl

theorem onlyHeader_addFreeBlock (id : Word) : Keeps OnlyHeader (fs.addFreeBlock id) := by
  refine keeps_guard.bind fun _ => (onlyHeader_getBlock 0).bind fun data =>
    (onlyHeader_getBlock id).bind fun block => keeps_guard.bind fun _ => fun d j hj => ?_
  rw [exec_putBlock]
  split_ifs
  · exact Function.update_of_ne hj _ d
  · rfl

theorem onlyHeader_tryAddFreeBlock (id : Word) : Keeps OnlyHeader (fs.tryAddFreeBlock id) :=
  (onlyHeader_addFreeBlock id).orElse (keeps_pure ())

theorem onlyHeader_removeCross (it : Iterator) (the_block pos : Word) :
    Keeps OnlyHeader (fs.removeCross it the_block pos) := by
  unfold removeCross
  split_ifs
  · refine (onlyHeader_tryAddFreeBlock the_block).bind fun _ => ?_
    dsimp only
    split_ifs
    · exact keeps_pure none
    · exact ((onlyHeader_getBlock _).bind fun _ => keeps_pure _).orElse (keeps_pure none)
  · exact keeps_pure _

theorem onlyHeader_removeLoop (fuel : ℕ) (it : Iterator) (the_block pos : Word) :
    Keeps OnlyHeader (fs.removeLoop fuel it the_block pos) := by
  induction fuel generalizing it the_block pos with
  | zero => exact keeps_failure
  | succ fuel ih =>
    rw [removeLoop]
    refine (onlyHeader_removeCross it the_block pos).bind fun r => ?_
    cases r with
    | none => exact keeps_pure _
    | some r =>
      dsimp only
      split_ifs
      · exact keeps_pure _
      · exact (onlyHeader_tryAddFreeBlock _).bind fun _ => ih _ _ _

/-- `remove` writes the header only: neither the parent nor a freed block is changed. -/
theorem onlyHeader_remove (fuel : ℕ) (it : Iterator) : Keeps OnlyHeader (fs.remove fuel it) :=
  (onlyHeader_removeLoop fuel _ _ _).bind fun _ => (onlyHeader_tryAddFreeBlock _).bind fun _ => keeps_pure _

theorem Walked.yields (h : Walked fs d dir it) (hy : Yields (fs.visit d) (fs.list d dir) es) :
    ∃ rest, rest <:+ es ∧ Yields (fs.visit d) it rest := by
  induction h with
  | list => exact ⟨es, List.suffix_rfl, hy⟩
  | @next it _ hok ih =>
    obtain ⟨rest, hsuffix, hrest⟩ := ih
    cases hrest with
    | stop hstop =>
      rw [visit, if_pos hok] at hstop
      cases hstop
    | @item _ _ x rest hitem hnext =>
      rw [visit, if_pos hok] at hitem
      obtain ⟨-, rfl⟩ := Prod.mk.inj (Option.some.inj hitem)
      exact ⟨rest, (List.suffix_cons x rest).trans hsuffix, hnext⟩

theorem Walked.mem (h : Walked fs d dir it) (hok : it.ok = true)
    (hy : Yields (fs.visit d) (fs.list d dir) es) : it.block ∈ es := by
  obtain ⟨rest, hsuffix, hrest⟩ := h.yields hy
  cases hrest with
  | stop hstop =>
    rw [visit, if_pos hok] at hstop
    cases hstop
  | item hitem _ =>
    rw [visit, if_pos hok] at hitem
    obtain ⟨rfl, -⟩ := Prod.mk.inj (Option.some.inj hitem)
    exact hsuffix.subset List.mem_cons_self

theorem DirOk.onlyHeader (h : DirOk fs d dir len es) (hheader : dataToNum (d 0) 0 2 = 0)
    (hsame : OnlyHeader d d') : DirOk fs d' dir len es := by
  have hzero : ∀ j, dataToNum (d j) 0 2 = metadata_id → j ≠ 0 := by
    rintro j hid rfl
    rw [hheader] at hid
    cases hid
  exact h.congr (hsame _ (hzero _ h.block.id)) fun j hj => by
    rw [hsame j (hzero j (contFam_tagged hj).1)]
    exact hj

end Kept

section Reached
variable {fs : ClothesFS} {s : DirState} {dir : Word} {it it' : Iterator} {d' : Disk} {fuel : ℕ}

/-- After `remove` the directory lists what it listed before. -/
theorem remove_yields (hs : fs.Small) (h : Reachable fs.DirStep fs.DirStart s) (hdir : dir ∈ s.dirs)
    (hr : Returns (fs.remove fuel it) s.disk it' d') :
    Yields (fs.visit d') (fs.list d' dir) (fs.listed (s.len dir) (s.entries dir)) := by
  have hinv := dirInv_of_reachable hs h
  have hsame := (onlyHeader_remove fuel it).returns hr
  exact list_yields hs ((hinv.1 dir hdir).onlyHeader hinv.header_id hsame) (hinv.dir_ne_zero hdir)

theorem mem_listed (hs : fs.Small) (h : Reachable fs.DirStep fs.DirStart s) (hdir : dir ∈ s.dirs)
    (hwalked : fs.Walked s.disk dir it) (hok : it.ok = true) :
    it.block ∈ fs.listed (s.len dir) (s.entries dir) := by
  have hinv := dirInv_of_reachable hs h
  exact hwalked.mem hok (list_yields hs (hinv.1 dir hdir) (hinv.dir_ne_zero hdir))

end Reached

/-- On no entry does `remove` do what it should: the entry stays in the listing of its parent. -/
theorem not_removeLaw {fs : ClothesFS} (hs : fs.Small) {s : DirState} (h : Reachable fs.DirStep fs.DirStart s)
    {dir : Word} (hdir : dir ∈ s.dirs) {it : Iterator} (hwalked : fs.Walked s.disk dir it) (hok : it.ok = true) :
    ¬ fs.RemoveLaw s dir it := by
  rintro ⟨fuel, it', d', hr, hyields, -⟩
  have hnodup := ((dirInv_of_reachable hs h).2.1 dir).1
  have hlisted := mem_listed hs h hdir hwalked hok
  rw [(remove_yields hs h hdir hr).unique hyields] at hlisted
  exact hnodup.not_mem_erase hlisted

def oneFile : DirState := ⟨fileAdded, [1], fun _ => 1, Function.update (fun _ => []) 1 [2]⟩

theorem oneFile_reachable : Reachable sixBlocks.DirStep sixBlocks.DirStart oneFile := by
  have hadd : (exec (sixBlocks.addFile 2 1 dirName [0x78]) rootOnly.disk).1 = some () := by decide +kernel
  have hstep : sixBlocks.DirStep rootOnly (.addFile 1 dirName [0x78]) oneFile :=
    ⟨List.mem_singleton_self 1, dirName_fits, 2, 2, _, returns_of_fst dirAdded_take, returns_of_fst hadd, rfl,
      rfl, rfl⟩
  exact ⟨rootOnly, _, rootOnly_start, .cons hstep (.nil _)⟩

theorem oneFile_ok : (sixBlocks.list fileAdded 1).ok = true := by decide +kernel

theorem not_removeLaw_file : ¬ sixBlocks.RemoveLaw oneFile 1 (sixBlocks.list fileAdded 1) :=
  not_removeLaw sixBlocks_small oneFile_reachable (List.mem_singleton_self 1) .list oneFile_ok

/-- The only file of the root is removed, and the root still lists it. -/
theorem not_removeLaw_listed : (sixBlocks.list fileAdded 1).block = 2 ∧
    (sixBlocks.list fileAdded 1).type = META_FILE ∧
    (∃ it' d', Returns (sixBlocks.remove 3 (sixBlocks.list fileAdded 1)) fileAdded it' d' ∧
      Yields (sixBlocks.visit d') (sixBlocks.list d' 1) [2]) ∧
    ¬ sixBlocks.RemoveLaw oneFile 1 (sixBlocks.list fileAdded 1) := by
  have hblock : (sixBlocks.list fileAdded 1).block = 2 := by decide +kernel
  have htype : (sixBlocks.list fileAdded 1).type = META_FILE := by decide +kernel
  have hsome : (exec (sixBlocks.remove 3 (sixBlocks.list fileAdded 1)) fileAdded).1.isSome = true := by
    decide +kernel
  have hroot : (1 : Word) ∈ oneFile.dirs := List.mem_singleton_self 1
  have hlists : ∀ fuel it' d', Returns (sixBlocks.remove fuel (sixBlocks.list fileAdded 1)) fileAdded it' d' →
      Yields (sixBlocks.visit d') (sixBlocks.list d' 1) [2] := fun fuel it' d' hr =>
    remove_yields sixBlocks_small oneFile_reachable hroot hr
  obtain ⟨it', hit'⟩ := Option.isSome_iff_exists.mp hsome
  refine ⟨hblock, htype, ⟨it', _, returns_of_fst hit', hlists _ _ _ (returns_of_fst hit')⟩, ?_⟩
  rintro ⟨fuel, it', d', hr, hyields, -⟩
  rw [hblock] at hyields
  have hsame := (hlists fuel it' d' hr).unique hyields
  cases hsame

end ClothesFS

end CxxKernel.Clothes
