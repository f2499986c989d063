import CxxKernel.Clothes.MetaChain

/-! Directory blocks and their entries, and the families of metadata on a volume. -/
namespace CxxKernel.Clothes
open Fallible

/-- Where entry `i` of a directory stands whose name has `len` bytes. -/
def entryPos (len i : ℕ) : ℕ := (16 + len + 3) / 4 * 4 + 4 * i

/-- How many entries fit behind a name of `len` bytes. -/
def capacity (len : ℕ) : ℕ := (blocksize - 4 - (16 + len + 3) / 4 * 4) / 4

/-- The writer looks for a free entry from the last word of the name on. -/
theorem addStart_toNat {b : Block} {type : Word} {len : ℕ} (htype : type = META_FILE ∨ type = META_DIR)
    (hlen : (word b 12).toNat = len) (hfits : 16 + len ≤ blocksize - 4) :
    (addStart b type).toNat = entryPos len 0 - 4 := by
  have hsum : (4 + 8 + dataToNum b (4 + 8) 4).toNat = 12 + len := by
    have h12 : (4 + 8 : Word).toNat = 12 := rfl
    have hlen' : (dataToNum b (4 + 8) 4).toNat = len := hlen
    unfold blocksize at hfits
    rw [BitVec.toNat_add, h12, hlen', Nat.mod_eq_of_lt (by omega)]
  unfold blocksize at hfits
  rw [addStart, if_pos htype, align_toNat (by omega), hsum, entryPos]
  omega

/-- A directory block with a name of `len` bytes and the entries `es`, of which the first ones
stand in the block. It is continued when there are more. -/
structure DirBlock (b : Block) (len : ℕ) (es : List Word) : Prop where
  id : dataToNum b 0 2 = metadata_id
  type : dataToNum b 2 1 = META_DIR
  namelen : (word b 12).toNat = len
  fits : 16 + len ≤ blocksize - 4
  named : word b (entryPos len 0 - 4) ≠ 0
  entry : ∀ i e, es[i]? = some e → entryPos len i < blocksize - 4 → word b (entryPos len i) = e
  free : ∀ i, es.length ≤ i → entryPos len i < blocksize - 4 → word b (entryPos len i) = 0
  next : word b (blocksize - 4) = 0 ↔ entryPos len es.length ≤ blocksize - 4
  nonzero : ∀ e ∈ es, e ≠ 0

namespace DirBlock
variable {b : Block} {len : ℕ} {es : List Word} {ptr e : Word}

theorem tagged (h : DirBlock b len es) : Tagged b := by
  refine ⟨h.id, ?_⟩
  rw [h.type]
  decide

theorem addStart_eq (h : DirBlock b len es) :
    (addStart b META_DIR).toNat = entryPos len 0 - 4 :=
  addStart_toNat (.inr rfl) h.namelen h.fits

/-- The writer skips the last word of the name, which is not zero, and then the entries. -/
theorem freeEntry_some (h : DirBlock b len es)
    (hslot : freeEntry b blocksize (addStart b META_DIR) = some ptr) :
    ptr.toNat = entryPos len es.length := by
  obtain ⟨-, hlt, hzero, k, hk, hbefore⟩ := Clothes.freeEntry_some hslot
  have hpos : ∀ i, (addStart b META_DIR).toNat + 4 * (i + 1) = entryPos len i := by
    intro i
    rw [h.addStart_eq]
    unfold entryPos
    omega
  cases k with
  | zero =>
    rw [hk, h.addStart_eq] at hzero
    exact absurd hzero h.named
  | succ i =>
    rw [hpos] at hk
    rw [hk] at hzero hlt ⊢
    rcases Nat.lt_trichotomy i es.length with hi | rfl | hi
    · have hget : es[i]? = some es[i] := List.getElem?_eq_getElem hi
      rw [h.entry i _ hget hlt] at hzero
      exact absurd hzero (h.nonzero _ (List.getElem_mem hi))
    · rfl
    · have hmore := hbefore (es.length + 1) (by omega)
      rw [hpos] at hmore
      refine absurd (h.free es.length (Nat.le_refl _) ?_) hmore
      unfold entryPos at hlt ⊢
      omega

theorem freeEntry_none (h : DirBlock b len es)
    (hslot : freeEntry b blocksize (addStart b META_DIR) = none) :
    blocksize - 4 ≤ entryPos len es.length := by
  by_contra hlt
  have hpos : (addStart b META_DIR).toNat + 4 * (es.length + 1) = entryPos len es.length := by
    rw [h.addStart_eq]
    unfold entryPos
    omega
  have hfuel : blocksize - 4 ≤ (addStart b META_DIR).toNat + 4 * blocksize := by
    unfold blocksize
    omega
  have hmore := Clothes.freeEntry_none hslot hfuel (es.length + 1) (by omega)
  rw [hpos] at hmore
  exact hmore (h.free es.length (Nat.le_refl _) (by omega))

theorem filled (h : DirBlock b len es) (he : e ≠ 0)
    (hslot : freeEntry b blocksize (addStart b META_DIR) = some ptr) :
    DirBlock (numToData e.toNat b ptr.toNat 4) len (es ++ [e]) := by
  have hptr := h.freeEntry_some hslot
  have hle := (freeEntry_le hslot).2
  obtain ⟨hid, htype⟩ := id_type_filled (n := e.toNat) hslot h.id
  have hlen : (es ++ [e]).length = es.length + 1 := by simp
  have hother : ∀ i, i ≠ es.length → word (numToData e.toNat b ptr.toNat 4) (entryPos len i) =
      word b (entryPos len i) := by
    intro i hi
    apply word_numToData_ne
    rw [hptr]
    unfold entryPos
    omega
  refine ⟨hid, htype.trans h.type, ?_, h.fits, ?_, fun i a hget hlt => ?_, fun i hi hlt => ?_, ?_,
    fun a ha => ?_⟩
  · rw [word_numToData_ne (by rw [hptr]; unfold entryPos; omega)]
    exact h.namelen
  · rw [word_numToData_ne (by rw [hptr]; unfold entryPos; omega)]
    exact h.named
  · by_cases hi : i = es.length
    · subst hi
      rw [← hptr, word_numToData]
      simpa using hget
    · have hlt' : i < (es ++ [e]).length := (List.getElem?_eq_some_iff.mp hget).1
      rw [List.getElem?_append_left (by omega)] at hget
      rw [hother i hi]
      exact h.entry i a hget hlt
  · rw [hother i (by omega)]
    exact h.free i (by omega) hlt
  · rw [word_numToData_ne (.inr hle), h.next, hlen]
    rw [hptr] at hle
    unfold entryPos at hle ⊢
    omega
  · rcases List.mem_append.mp ha with ha | ha
    · exact h.nonzero a ha
    · rw [List.mem_singleton.mp ha]
      exact he

/-- One entry more than the block holds, which only links to the next block. -/
theorem full {b' : Block} (h : DirBlock b len es) (he : e ≠ 0)
    (hend : blocksize - 4 ≤ entryPos len es.length) (hsame : ∀ q < blocksize - 4, b' q = b q)
    (hnext : word b' (blocksize - 4) ≠ 0) : DirBlock b' len (es ++ [e]) := by
  have hlen : (es ++ [e]).length = es.length + 1 := by simp
  have hnum : ∀ p cnt, p + cnt ≤ blocksize - 4 → dataToNum b' p cnt = dataToNum b p cnt :=
    fun p cnt hp => dataToNum_congr fun i hi => hsame _ (by omega)
  have hword : ∀ i, entryPos len i < blocksize - 4 →
      word b' (entryPos len i) = word b (entryPos len i) := by
    intro i hi
    apply hnum
    unfold entryPos blocksize at hi ⊢
    omega
  have hfits := h.fits
  refine ⟨(hnum 0 2 (by decide)).trans h.id, (hnum 2 1 (by decide)).trans h.type, ?_, hfits, ?_,
    fun i a hget hlt => ?_, fun i hi hlt => ?_, ?_, fun a ha => ?_⟩
  · rw [word, hnum 12 4 (by decide)]
    exact h.namelen
  · rw [word, hnum _ 4 (by unfold entryPos; unfold blocksize at hfits ⊢; omega)]
    exact h.named
  · have hi : i < es.length := by
      unfold entryPos at hend hlt
      omega
    rw [List.getElem?_append_left hi] at hget
    rw [hword i hlt]
    exact h.entry i a hget hlt
  · rw [hword i hlt]
    exact h.free i (by omega) hlt
  · rw [hlen]
    refine iff_of_false hnext ?_
    unfold entryPos at hend ⊢
    omega
  · rcases List.mem_append.mp ha with ha | ha
    · exact h.nonzero a ha
    · rw [List.mem_singleton.mp ha]
      exact he

end DirBlock

/-- A name that fits its metadata block, before the number of the next block. -/
def CString.Fits (name : CString) : Prop :=
  name.bytes ≠ [] ∧ 16 + name.bytes.length ≤ blocksize - 4

section Named
variable {name : CString} {data : Block} {it : Iterator} {size q : ℕ}

theorem named_name {i : ℕ} {c : Byte} (h : name.bytes[i]? = some c) :
    named data name size (16 + i) = c := by
  rw [named, numToData_of_notMem (by omega)]
  exact copyTo_mem h

theorem word_named_len (data : Block) (name : CString) (size : ℕ) :
    word (named data name size) 12 = BitVec.ofNat 32 name.bytes.length :=
  word_numToData_nat name.bytes.length _ 12

theorem name_get (it : Iterator) {i : ℕ} (h : i < it.nameLen.toNat) : it.name[i]? = some (it.data (16 + i)) := by
  rw [Iterator.name, List.getElem?_map, List.getElem?_range h]
  rfl

theorem length_name (it : Iterator) : it.name.length = it.nameLen.toNat := by
  rw [Iterator.name, List.length_map, List.length_range]

theorem name_of_named (hlen : name.bytes.length < 2 ^ 32)
    (hsame : ∀ p < 16 + name.bytes.length, it.data p = named data name size p) : it.name = name.bytes := by
  have hnum : it.nameLen = word (named data name size) 12 := word_congr fun i hi => hsame _ (by omega)
  have hlength : it.nameLen.toNat = name.bytes.length := by
    rw [hnum, word_named_len, BitVec.toNat_ofNat, Nat.mod_eq_of_lt hlen]
  apply List.ext_getElem
  · rw [length_name, hlength]
  · intro i hi hi'
    have hbyte := hsame (16 + i) (by omega)
    rw [named_name (List.getElem?_eq_getElem hi')] at hbyte
    simp only [Iterator.name, List.getElem_map, List.getElem_range]
    exact hbyte

/-- The last word of the name holds its last byte, which is not zero. -/
theorem named_last (h : name.Fits) :
    word (named data name size) (entryPos name.bytes.length 0 - 4) ≠ 0 := by
  intro hzero
  have hpos : 0 < name.bytes.length := List.length_pos_iff.mpr h.1
  have hlast : entryPos name.bytes.length 0 - 4 +
      (15 + name.bytes.length - (entryPos name.bytes.length 0 - 4)) =
        16 + (name.bytes.length - 1) := by
    unfold entryPos
    omega
  have hbyte := word_eq_zero_iff.mp hzero
    (15 + name.bytes.length - (entryPos name.bytes.length 0 - 4)) (by unfold entryPos; omega)
  have hget : name.bytes[name.bytes.length - 1]? = some (name.bytes[name.bytes.length - 1]) :=
    List.getElem?_eq_getElem (by omega)
  rw [hlast, named_name hget] at hbyte
  exact name.noNul (hbyte ▸ List.getElem_mem _)

theorem named_head {p cnt : ℕ} (h : p + cnt ≤ 4) :
    dataToNum (named data name size) p cnt = dataToNum data p cnt :=
  dataToNum_congr fun i hi => named_of_lt (by omega)

theorem word_named_of_ge {type : Word} {p : ℕ} (h : 16 + name.bytes.length ≤ p) :
    word (named (freshMeta type) name size) p = 0 := by
  rw [word_eq_zero_iff]
  intro i hi
  rw [named_of_ge (by omega), freshMeta_of_ge (by omega)]

theorem dirBlock_named (h : name.Fits) (size : ℕ) :
    DirBlock (named (freshMeta META_DIR) name size) name.bytes.length [] := by
  have hfits := h.2
  refine ⟨named_head (by omega), named_head (by omega), ?_, hfits, named_last h, fun i e he => ?_,
    fun i _ _ => word_named_of_ge ?_, ?_, fun e he => ?_⟩
  · unfold blocksize at hfits
    rw [word_named_len, BitVec.toNat_ofNat, Nat.mod_eq_of_lt (by omega)]
  · cases he
  · unfold entryPos
    omega
  · refine iff_of_true (word_named_of_ge hfits) ?_
    unfold entryPos
    unfold blocksize at hfits ⊢
    change _ + 4 * 0 ≤ _
    omega
  · cases he

end Named

namespace ClothesFS
variable (fs : ClothesFS)

/-- The continuation blocks of directories. -/
def contFam (j : ℕ) (b : Block) : Prop := j < fs.count ∧ ContBlock META_DIR_CONT fs.count b

/-- The metadata blocks of files. -/
def fileFam (j : ℕ) (b : Block) : Prop :=
  j < fs.count ∧ dataToNum b 0 2 = metadata_id ∧
    (dataToNum b 2 1 = META_FILE ∨ dataToNum b 2 1 = META_FILE_CONT)

/-- The first block of the directory in sector `dir`, and the continuation blocks. -/
def dirFam (dir j : ℕ) (b : Block) : Prop :=
  fs.contFam j b ∨ j = dir ∧ dataToNum b 0 2 = metadata_id ∧ dataToNum b 2 1 = META_DIR

section Families
variable {fs} {j : ℕ} {b : Block}

theorem contFam_type (h : fs.contFam j b) :
    dataToNum b 0 2 = metadata_id ∧ dataToNum b 2 1 = META_DIR_CONT :=
  id_of_tag (by decide) h.2.head

theorem contFam_tagged (h : fs.contFam j b) : Tagged b := by
  obtain ⟨hid, htype⟩ := contFam_type h
  refine ⟨hid, ?_⟩
  rw [htype]
  decide

theorem fileFam_tagged (h : fs.fileFam j b) : Tagged b := by
  refine ⟨h.2.1, ?_⟩
  rcases h.2.2 with htype | htype <;> rw [htype] <;> decide

theorem family_cont (hs : fs.Small) : Family fs META_DIR 2 fs.contFam where
  tagged _ _ h := contFam_tagged h
  entry _ _ _ _ h he hslot := ⟨h.1, h.2.filled hs.count_lt (.inr rfl) he hslot⟩
  next _ _ n _ _ h := ⟨h.1, h.2.linked n.toNat⟩
  cont _ _ hj := ⟨hj, .fresh rfl (by omega)⟩

theorem linked_id_type (b : Block) (n : ℕ) :
    dataToNum (numToData n b (blocksize - 4) 4) 0 2 = dataToNum b 0 2 ∧
      dataToNum (numToData n b (blocksize - 4) 4) 2 1 = dataToNum b 2 1 :=
  ⟨dataToNum_numToData_ne (.inl (by decide)), dataToNum_numToData_ne (.inl (by decide))⟩

theorem family_file : Family fs META_FILE 2 fs.fileFam where
  tagged _ _ h := fileFam_tagged h
  entry _ b _ e h _ hslot := by
    obtain ⟨hid, htype⟩ := id_type_filled (n := e.toNat) hslot h.2.1
    rw [fileFam, htype]
    exact ⟨h.1, hid, h.2.2⟩
  next _ b n _ _ h := by
    obtain ⟨hid, htype⟩ := linked_id_type b n.toNat
    rw [fileFam, hid, htype]
    exact h
  cont _ _ hj := ⟨hj, rfl, .inr rfl⟩

theorem family_dir (hs : fs.Small) (dir : ℕ) : Family fs META_DIR 2 (fs.dirFam dir) where
  tagged _ _ h := by
    rcases h with h | ⟨-, hid, htype⟩
    · exact contFam_tagged h
    · refine ⟨hid, ?_⟩
      rw [htype]
      decide
  entry j b ptr e h he hslot := by
    rcases h with h | ⟨hj, hid, htype⟩
    · exact .inl ((family_cont hs).entry j b ptr e h he hslot)
    · obtain ⟨hid', htype'⟩ := id_type_filled (n := e.toNat) hslot hid
      exact .inr ⟨hj, hid', htype'.trans htype⟩
  next j b n hn hin h := by
    rcases h with h | ⟨hj, hid, htype⟩
    · exact .inl ((family_cont hs).next j b n hn hin h)
    · obtain ⟨hid', htype'⟩ := linked_id_type b n.toNat
      exact .inr ⟨hj, hid'.trans hid, htype'.trans htype⟩
  cont j hlo hj := .inl ((family_cont hs).cont j hlo hj)

end Families

end ClothesFS

end CxxKernel.Clothes
