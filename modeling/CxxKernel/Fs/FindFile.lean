import CxxKernel.Fs.HostileWalk

/-! `findFile` on a device with any contents: it looks at finitely many entries. -/
namespace CxxKernel.Fs.Ustar

/-- The iterator stands on a block whose 32-bit position is inside the device. -/
structure Placed (fs : Ustar) (it : Iterator) : Prop where
  index : it.index = it.block
  position : (it.block * blockSize).toNat < fs.phys.size

section Find
variable {fs : Ustar} {it : Iterator} {name : Buffer → List Byte} {path : List Byte}

theorem loadEntry_block (it : Iterator) :
    (loadEntry it).1.block = it.block ∧ (loadEntry it).1.index = it.index := by
  rw [loadEntry]
  split_ifs
  · exact ⟨rfl, rfl⟩
  · exact ⟨rfl, rfl⟩

theorem getCurrent_ok (fs : Ustar) (it : Iterator) : (fs.getCurrent it).1.ok = it.ok := by
  rw [getCurrent]
  split_ifs
  · rfl
  · exact loadEntry_ok it
  · dsimp only
    split_ifs
    · rfl
    · rfl
    · split
      · rfl
      · exact loadEntry_ok _

theorem getCurrent_placed (it : Iterator) (h : (fs.getCurrent it).2 = true) :
    Placed fs (fs.getCurrent it).1 ∧ it.index ≤ (fs.getCurrent it).1.block := by
  rw [getCurrent] at h ⊢
  by_cases hend : fs.phys.size ≤ (it.index * blockSize).toNat
  · rw [if_pos hend] at h
    cases h
  rw [if_neg hend] at h ⊢
  by_cases hsame : it.block = it.index
  · rw [if_pos hsame] at h ⊢
    obtain ⟨hblock, hindex⟩ := loadEntry_block it
    refine ⟨⟨?_, ?_⟩, ?_⟩
    · rw [hblock, hindex, hsame]
    · rw [hblock, hsame]
      exact Nat.not_le.mp hend
    · rw [hblock, hsame]
      exact BitVec.le_refl _
  rw [if_neg hsame] at h ⊢
  dsimp only at h ⊢
  generalize ((it.block.setWidth 64 + (it.size + blockSize.setWidth 64 - 1) / blockSize.setWidth 64 +
    1).setWidth 32 : Word) = next_block at h ⊢
  by_cases hback : next_block < it.index
  · rw [if_pos hback] at h
    cases h
  rw [if_neg hback] at h ⊢
  by_cases hend' : fs.phys.size ≤ (next_block * blockSize).toNat
  · rw [if_pos hend'] at h
    cases h
  rw [if_neg hend'] at h ⊢
  cases hload : fs.getBlock next_block with
  | none =>
    rw [hload] at h
    cases h
  | some data =>
    dsimp only
    obtain ⟨hblock, hindex⟩ := loadEntry_block { it with index := next_block, data, block := next_block }
    refine ⟨⟨?_, ?_⟩, ?_⟩
    · rw [hblock, hindex]
    · rw [hblock]
      exact Nat.not_le.mp hend'
    · rw [hblock]
      exact BitVec.not_lt.mp hback

theorem Placed.block_lt (h : Placed fs it) (hsize : fs.phys.size ≤ 2 ^ 32 - 512) : it.block.toNat + 1 < 2 ^ 32 := by
  have hlt := it.block.isLt
  have hposition := h.position
  rw [toNat_blockPos] at hposition
  omega

theorem Placed.next (h : Placed fs it) (hsize : fs.phys.size ≤ 2 ^ 32 - 512) (hok : (fs.next it).ok = true) :
    Placed fs (fs.next it) ∧ it.block.toNat < (fs.next it).block.toNat := by
  have hone : (1 : Word).toNat = 1 := rfl
  have hlt := h.block_lt hsize
  obtain ⟨hplaced, hle⟩ := getCurrent_placed { it with index := it.index + 1 } hok
  have hblock : (fs.getCurrent { it with index := it.index + 1 }).1.block = (fs.next it).block := rfl
  have hindex : (it.index + 1).toNat = it.block.toNat + 1 := by
    rw [h.index, BitVec.toNat_add, hone, Nat.mod_eq_of_lt hlt]
  rw [BitVec.le_def, hblock] at hle
  dsimp only at hle
  rw [hindex] at hle
  exact ⟨⟨hplaced.index, hplaced.position⟩, Nat.lt_of_succ_le hle⟩

theorem list_placed {parent : Word} (hok : (fs.list parent).ok = true) : Placed fs (fs.list parent) := by
  rw [list] at hok ⊢
  cases hload : fs.getBlock parent with
  | none =>
    rw [hload] at hok
    cases hok
  | some data =>
    rw [hload] at hok
    dsimp only at hok ⊢
    generalize hcur : fs.getCurrent ⟨false, parent, 0, 0, 0, 0, 0, data⟩ = r at hok ⊢
    obtain ⟨it, found⟩ := r
    cases found with
    | true =>
      have hfound : (fs.getCurrent ⟨false, parent, 0, 0, 0, 0, 0, data⟩).2 = true := by rw [hcur]
      have hplaced := (getCurrent_placed _ hfound).1
      rw [hcur] at hplaced
      exact ⟨hplaced.index, hplaced.position⟩
    | false =>
      have hkeep := getCurrent_ok fs ⟨false, parent, 0, 0, 0, 0, 0, data⟩
      rw [hcur] at hkeep
      have hfalse : it.ok = true := hok
      rw [hkeep] at hfalse
      cases hfalse

/-- The loop ends from each entry that is placed on: the blocks in front of the last one of all are the measure. -/
theorem findLoop_ends (hsize : fs.phys.size ≤ 2 ^ 32 - 512) (name : Buffer → List Byte) (path : List Byte)
    (h : it.ok = true → Placed fs it) :
    ∃ iter, ∀ fuel, 2 ^ 32 - it.block.toNat ≤ fuel → fs.findLoop name path (fuel + 1) it = some iter := by
  induction hn : 2 ^ 32 - it.block.toNat using Nat.strong_induction_on generalizing it with
  | _ n ih =>
    by_cases hok : it.ok = true
    · by_cases hname : name it.data = path
      · exact ⟨it, fun fuel _ => by rw [findLoop, if_pos hok, if_pos hname]⟩
      · by_cases hnext : (fs.next it).ok = true
        · obtain ⟨hplaced, hlt⟩ := (h hok).next hsize hnext
          have hroom := hplaced.block_lt hsize
          obtain ⟨iter, hiter⟩ := ih _ (by omega) (fun _ => hplaced) rfl
          refine ⟨iter, fun fuel hfuel => ?_⟩
          obtain ⟨fuel, rfl⟩ := Nat.exists_eq_succ_of_ne_zero (n := fuel) (by omega)
          rw [findLoop, if_pos hok, if_neg hname]
          dsimp only
          rw [if_pos hnext]
          exact hiter fuel (by omega)
        · refine ⟨fs.next it, fun fuel _ => ?_⟩
          rw [findLoop, if_pos hok, if_neg hname]
          dsimp only
          rw [if_neg hnext]
    · exact ⟨it, fun fuel _ => by rw [findLoop, if_neg hok]⟩

/-- `findFile` ends, whatever the device holds: it looks at less than 2 ^ 32 entries. -/
theorem findFile_ends (hsize : fs.phys.size ≤ 2 ^ 32 - 512) (name : Buffer → List Byte) (path : List Byte)
    (part parent : Word) : ∃ iter, ∀ fuel, 2 ^ 32 < fuel → fs.findFile name fuel path part parent = some iter := by
  have hstart : (fs.list parent).ok = true → Placed fs (fs.list parent) := list_placed
  obtain ⟨iter, hiter⟩ := findLoop_ends hsize name path hstart
  refine ⟨iter, fun fuel hfuel => ?_⟩
  obtain ⟨fuel, rfl⟩ := Nat.exists_eq_succ_of_ne_zero (n := fuel) (by omega)
  exact hiter fuel (by omega)

end Find

/-- The name up to its NUL, in an archive whose two names are empty. -/
theorem findFile_ends_twoFiles :
    ∃ iter, ∀ fuel, 2 ^ 32 < fuel → findFile ⟨twoFilesPhys⟩
      (fun data => (field data 0 100).takeWhile (· ≠ 0)) fuel [0x61] 0 0 = some iter := by
  have hsize : twoFilesPhys.size ≤ 2 ^ 32 - 512 := by decide
  exact findFile_ends hsize (fun data => (field data 0 100).takeWhile (· ≠ 0)) [0x61] 0 0

end CxxKernel.Fs.Ustar
