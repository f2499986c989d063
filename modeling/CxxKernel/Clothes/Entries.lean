import CxxKernel.Clothes.Format

/-! The entries of a metadata block: where they start, and which one `addToMeta` fills. -/
namespace CxxKernel.Clothes

section Align
variable {p : Word}

theorem mod_four (p : Word) : p % 4 = 0 ↔ p.toNat % 4 = 0 := by
  rw [← BitVec.toNat_inj, BitVec.toNat_umod]
  rfl

theorem align_mod (p : Word) : (align p).toNat % 4 = 0 := by
  simp only [align, alignLoop, ne_eq, mod_four]
  split_ifs <;> bv_omega

theorem align_toNat (h : p.toNat + 3 < 2 ^ 32) : (align p).toNat = (p.toNat + 3) / 4 * 4 := by
  simp only [align, alignLoop, ne_eq, mod_four]
  split_ifs <;> bv_omega

end Align

section Search
variable {b : Block} {fuel : ℕ} {start ptr : Word}

theorem freeEntry_some (h : freeEntry b fuel start = some ptr) :
    start.toNat ≤ ptr.toNat ∧ ptr.toNat < blocksize - 4 ∧ word b ptr.toNat = 0 ∧
      ∃ k, ptr.toNat = start.toNat + 4 * k ∧ ∀ i < k, word b (start.toNat + 4 * i) ≠ 0 := by
  induction fuel generalizing start with
  | zero => cases h
  | succ fuel ih =>
    rw [freeEntry] at h
    split_ifs at h with hlt hzero
    · obtain rfl := Option.some.inj h
      exact ⟨Nat.le_refl _, hlt, hzero, 0, rfl, fun i hi => absurd hi (Nat.not_lt_zero i)⟩
    · have hstep : (start + 4).toNat = start.toNat + 4 := by
        unfold blocksize at hlt
        bv_omega
      obtain ⟨hle, hend, hptr, k, hk, hbefore⟩ := ih h
      rw [hstep] at hle hk hbefore
      refine ⟨by omega, hend, hptr, k + 1, by omega, fun i hi => ?_⟩
      cases i with
      | zero => exact hzero
      | succ i =>
        have hi' := hbefore i (by omega)
        rwa [show start.toNat + 4 + 4 * i = start.toNat + 4 * (i + 1) by omega] at hi'

theorem freeEntry_none (h : freeEntry b fuel start = none)
    (hfuel : blocksize - 4 ≤ start.toNat + 4 * fuel) (i : ℕ)
    (hi : start.toNat + 4 * i < blocksize - 4) : word b (start.toNat + 4 * i) ≠ 0 := by
  induction fuel generalizing start i with
  | zero => omega
  | succ fuel ih =>
    rw [freeEntry] at h
    split_ifs at h with hlt hzero
    · have hstep : (start + 4).toNat = start.toNat + 4 := by
        unfold blocksize at hlt
        bv_omega
      cases i with
      | zero => exact hzero
      | succ i =>
        have hi' := ih h (by omega) i (by omega)
        rwa [hstep, show start.toNat + 4 + 4 * i = start.toNat + 4 * (i + 1) by omega] at hi'
    · omega

end Search

/-- The word that starts a metadata block of type `type` without attributes. -/
def tag (type : Word) : Word := metadata_id + type <<< 16

/-- A continuation block: nothing before its third entry, whose number is a block number. -/
structure ContBlock (type : Word) (count : ℕ) (b : Block) : Prop where
  head : word b 0 = tag type
  second : word b 4 = 0
  third : word b 8 = 0
  first : (word b 12).toNat < count

section Tags
variable {b : Block}

theorem bytes_of_word {w : Word} {p : ℕ} (h : word b p = w) :
    (b p).toNat = w.toNat % 2 ^ 8 ∧ (b (p + 1)).toNat = w.toNat / 2 ^ 8 % 2 ^ 8 ∧
      (b (p + 2)).toNat = w.toNat / 2 ^ 16 % 2 ^ 8 := by
  have hsum := toNat_word b p
  rw [h] at hsum
  have h0 := (b p).isLt
  have h1 := (b (p + 1)).isLt
  have h2 := (b (p + 2)).isLt
  omega

theorem toNat_id (b : Block) : (dataToNum b 0 2).toNat = (b 0).toNat + 2 ^ 8 * (b 1).toNat := by
  have h0 := (b 0).isLt
  have h1 := (b 1).isLt
  have hsum : dataToNum b 0 2 = 0 + (b 0).setWidth 32 <<< 0 + (b 1).setWidth 32 <<< 8 := rfl
  rw [hsum]
  simp only [BitVec.toNat_add, BitVec.toNat_shiftLeft, BitVec.toNat_setWidth, Nat.shiftLeft_eq]
  simp
  omega

theorem toNat_type (b : Block) : (dataToNum b 2 1).toNat = (b 2).toNat := by
  have h2 := (b 2).isLt
  have hsum : dataToNum b 2 1 = 0 + (b 2).setWidth 32 <<< 0 := rfl
  rw [hsum]
  simp only [BitVec.toNat_add, BitVec.toNat_shiftLeft, BitVec.toNat_setWidth, Nat.shiftLeft_eq]
  simp
  omega

theorem id_of_tag {type : Word} (ht : type.toNat < 2 ^ 8) (h : word b 0 = tag type) :
    dataToNum b 0 2 = metadata_id ∧ dataToNum b 2 1 = type := by
  have htag : (tag type).toNat = 0x42 + 2 ^ 16 * type.toNat := by
    have hid : metadata_id.toNat = 0x42 := rfl
    rw [tag, BitVec.toNat_add, BitVec.toNat_shiftLeft, hid, Nat.shiftLeft_eq]
    omega
  obtain ⟨h0, h1, h2⟩ := bytes_of_word h
  rw [htag] at h0 h1 h2
  constructor
  · apply BitVec.eq_of_toNat_eq
    have hid : metadata_id.toNat = 0x42 := rfl
    have hsum := toNat_id b
    rw [Nat.zero_add] at h1
    omega
  · apply BitVec.eq_of_toNat_eq
    have htype := toNat_type b
    rw [Nat.zero_add] at h2
    omega

end Tags

theorem addStart_mod (b : Block) (type : Word) : (addStart b type).toNat % 4 = 0 := by
  unfold addStart
  split_ifs
  · exact align_mod _
  · rfl

section Filled
variable {b : Block} {type ptr : Word} {count : ℕ}

theorem freeEntry_le (h : freeEntry b blocksize (addStart b type) = some ptr) :
    ptr.toNat % 4 = 0 ∧ ptr.toNat + 4 ≤ blocksize - 4 := by
  obtain ⟨-, hlt, -, k, hk, -⟩ := freeEntry_some h
  have hmod := addStart_mod b type
  unfold blocksize at hlt ⊢
  omega

theorem freeEntry_pos (h : freeEntry b blocksize (addStart b type) = some ptr)
    (hid : dataToNum b 0 2 = metadata_id) : 4 ≤ ptr.toNat := by
  obtain ⟨-, -, hzero, -⟩ := freeEntry_some h
  have hmod := (freeEntry_le h).1
  by_contra hlt
  have hptr : ptr.toNat = 0 := by omega
  rw [hptr] at hzero
  obtain ⟨h0, h1, -⟩ := bytes_of_word hzero
  have hsum := toNat_id b
  rw [hid] at hsum
  change 0x42 = _ at hsum
  change _ = 0 at h0
  change _ = 0 at h1
  rw [Nat.zero_add] at h1
  omega

theorem id_type_filled {n : ℕ} (h : freeEntry b blocksize (addStart b type) = some ptr)
    (hid : dataToNum b 0 2 = metadata_id) :
    dataToNum (numToData n b ptr.toNat 4) 0 2 = metadata_id ∧
      dataToNum (numToData n b ptr.toNat 4) 2 1 = dataToNum b 2 1 := by
  have hpos := freeEntry_pos h hid
  rw [dataToNum_numToData_ne (by omega), dataToNum_numToData_ne (by omega)]
  exact ⟨hid, rfl⟩

/-- The writer takes the first entry of a continuation block for the length of a name, and fills
entries behind it only. -/
theorem ContBlock.filled {t e : Word} (h : ContBlock t count b) (hcount : count < 2 ^ 23)
    (htype : type = META_FILE ∨ type = META_DIR) (he : e.toNat < count)
    (hslot : freeEntry b blocksize (addStart b type) = some ptr) :
    ContBlock t count (numToData e.toNat b ptr.toNat 4) := by
  have hfirst := h.first
  have hstart : (addStart b type).toNat = (12 + (word b 12).toNat + 3) / 4 * 4 := by
    have hsum : (4 + 8 + word b 12 : Word).toNat = 12 + (word b 12).toNat := by
      have h12 : (4 + 8 : Word).toNat = 12 := rfl
      rw [BitVec.toNat_add, h12, Nat.mod_eq_of_lt (by omega)]
    rw [addStart, if_pos htype, align_toNat (by change (4 + 8 + word b 12 : Word).toNat + 3 < _; omega)]
    change ((4 + 8 + word b 12 : Word).toNat + 3) / 4 * 4 = _
    rw [hsum]
  obtain ⟨hle, -⟩ := freeEntry_some hslot
  have hmod := (freeEntry_le hslot).1
  have hge : 12 ≤ ptr.toNat := by omega
  refine ⟨?_, ?_, ?_, ?_⟩
  · rw [word_numToData_ne (by omega)]
    exact h.head
  · rw [word_numToData_ne (by omega)]
    exact h.second
  · rw [word_numToData_ne (by omega)]
    exact h.third
  · by_cases hptr : ptr.toNat = 12
    · rw [hptr, word_numToData]
      exact he
    · rw [word_numToData_ne (by omega)]
      exact h.first

theorem ContBlock.linked {t : Word} (h : ContBlock t count b) (n : ℕ) :
    ContBlock t count (numToData n b (blocksize - 4) 4) := by
  have hend : blocksize - 4 = 508 := rfl
  rw [hend]
  refine ⟨?_, ?_, ?_, ?_⟩
  · rw [word_numToData_ne (by omega)]
    exact h.head
  · rw [word_numToData_ne (by omega)]
    exact h.second
  · rw [word_numToData_ne (by omega)]
    exact h.third
  · rw [word_numToData_ne (by omega)]
    exact h.first

theorem ContBlock.fresh {t : Word} (htag : word (freshMeta t) 0 = tag t) (hcount : 0 < count) :
    ContBlock t count (freshMeta t) := by
  refine ⟨htag, word_freshMeta (by omega), word_freshMeta (by omega), ?_⟩
  rw [word_freshMeta (by omega)]
  exact hcount

end Filled

end CxxKernel.Clothes
