import CxxKernel.Clothes.FreeChain

/-! What `format` leaves on the device. -/
namespace CxxKernel.Clothes
open Fallible LinkedChain

/-- The block that `initMeta` writes. -/
def freshMeta (type : Word) : Block :=
  numToData ATTRIB_NONE.toNat
    (numToData type.toNat (numToData metadata_id.toNat clearBuffer 0 2) 2 1) 3 1

/-- What `updateMeta` makes of a block. -/
def named (data : Block) (name : CString) (size : ℕ) : Block :=
  numToData name.bytes.length (copyTo (numToData size data 4 8) 16 name.bytes) 12 4

/-- The block that `formatBlock` writes. -/
def freeBlock (next : Word) : Block :=
  numToData next.toNat (numToData metadata_id.toNat clearBuffer 0 4) (blocksize - 4) 4

theorem freshMeta_of_ge {type : Word} {q : ℕ} (h : 4 ≤ q) : freshMeta type q = 0 := by
  rw [freshMeta, numToData_of_notMem (by omega), numToData_of_notMem (by omega),
    numToData_of_notMem (by omega)]
  rfl

theorem word_freshMeta {type : Word} {p : ℕ} (h : 4 ≤ p) : word (freshMeta type) p = 0 := by
  rw [word_eq_zero_iff]
  intro i _
  exact freshMeta_of_ge (by omega)

theorem named_of_lt {data : Block} {name : CString} {size q : ℕ} (h : q < 4) :
    named data name size q = data q := by
  rw [named, numToData_of_notMem (by omega), copyTo_of_notMem (by omega),
    numToData_of_notMem (by omega)]

theorem named_of_ge {data : Block} {name : CString} {size q : ℕ}
    (h : 16 + name.bytes.length ≤ q) : named data name size q = data q := by
  rw [named, numToData_of_notMem (by omega), copyTo_of_notMem (by omega),
    numToData_of_notMem (by omega)]

/-- The header holds nothing before the magic number and behind the `freechain` field. -/
theorem header_of_notMem {size q : ℕ} {volid : Option CString} {freechain : Word}
    (h : q < 32 ∨ 108 ≤ q) : header size volid freechain q = 0 := by
  have hname : ((volid.elim [] CString.bytes).take 32).length ≤ 32 := List.length_take_le 32 _
  have hmagic : ([0x00, 0x42, 0x00, 0x41] : List Byte).length = 4 := rfl
  have hflags : ([0x00, 0x00] : List Byte).length = 2 := rfl
  simp only [header, header_begin]
  rw [numToData_of_notMem (by omega), numToData_of_notMem (by omega),
    numToData_of_notMem (by omega), numToData_of_notMem (by omega),
    numToData_of_notMem (by omega), copyTo_of_notMem (by omega), numToData_of_notMem (by omega),
    copyTo_of_notMem (by omega), numToData_of_notMem (by omega), copyTo_of_notMem (by omega)]
  rfl

theorem header_freechain (size : ℕ) (volid : Option CString) (freechain : Word) :
    word (header size volid freechain) 104 = freechain :=
  word_numToData freechain _ 104

theorem header_id (size : ℕ) (volid : Option CString) (freechain : Word) :
    dataToNum (header size volid freechain) 0 2 = 0 := by
  have hzero : dataToNum (header size volid freechain) 0 2 = dataToNum clearBuffer 0 2 :=
    dataToNum_congr fun i hi => header_of_notMem (by omega)
  exact hzero

theorem header_end (size : ℕ) (volid : Option CString) (freechain : Word) :
    word (header size volid freechain) (blocksize - 4) = 0 := by
  have hend : blocksize - 4 = 508 := rfl
  rw [word_eq_zero_iff, hend]
  intro i _
  exact header_of_notMem (by omega)

theorem freeBlock_next (next : Word) : word (freeBlock next) (blocksize - 4) = next :=
  word_numToData next _ (blocksize - 4)

theorem freeBlock_type (next : Word) : dataToNum (freeBlock next) 2 1 = META_FREE := by
  have hend : blocksize - 4 = 508 := rfl
  rw [freeBlock, dataToNum_numToData_ne (by omega)]
  rfl

namespace ClothesFS

section Meta
variable {fs : ClothesFS} {d d' : Disk} {i type : Word} {name : CString} {size : ℕ} {u : Unit}

theorem Small.returns_initMeta (hs : fs.Small) (hi : i.toNat < fs.count) :
    Returns (fs.initMeta i type) d u d' ↔ Function.update d i.toNat (freshMeta type) = d' :=
  hs.returns_putBlock hi

theorem Small.returns_updateMeta (hs : fs.Small) (hi : i.toNat < fs.count) :
    Returns (fs.updateMeta i name size) d u d' ↔
      (baseType (dataToNum (d i.toNat) 2 1) = META_FILE ∨
        baseType (dataToNum (d i.toNat) 2 1) = META_DIR) ∧
      Function.update d i.toNat (named (d i.toNat) name size) = d' := by
  simp only [updateMeta, returns_bind, returns_getBlock, returns_guard, hs.blockAt_eq hi,
    hs.returns_putBlock hi]
  constructor
  · rintro ⟨_, _, ⟨hb, rfl⟩, _, _, ⟨htype, rfl⟩, hd⟩
    obtain rfl := Option.some.inj hb
    exact ⟨htype, hd⟩
  · rintro ⟨htype, hd⟩
    exact ⟨_, _, ⟨rfl, rfl⟩, (), _, ⟨htype, rfl⟩, hd⟩

end Meta

/-- The device after the loop of `formatBlocks` from block `i` down. -/
def formatted (i : ℕ) (next : Word) (d : Disk) : Disk := fun j =>
  if 2 ≤ j ∧ j ≤ i then freeBlock (if j = i then next else BitVec.ofNat 32 (j + 1)) else d j

section Format
variable {fs : ClothesFS} {d d' : Disk}

theorem formatted_of_lt {i : ℕ} (h : i < 2) (next : Word) (d : Disk) : formatted i next d = d := by
  funext j
  exact if_neg (by omega)

theorem formatted_step (i : ℕ) (next : Word) (d : Disk) :
    formatted (i + 1) (BitVec.ofNat 32 (i + 2)) (Function.update d (i + 2) (freeBlock next)) =
      formatted (i + 2) next d := by
  funext j
  unfold formatted
  by_cases hj : j = i + 2
  · subst hj
    rw [if_neg (by omega), if_pos (by omega), if_pos rfl, Function.update_self]
  · rw [Function.update_of_ne hj]
    have hlink : (if j = i + 1 then BitVec.ofNat 32 (i + 2) else BitVec.ofNat 32 (j + 1)) =
        BitVec.ofNat 32 (j + 1) := by
      split_ifs with hlast
      · rw [hlast]
      · rfl
    rw [hlink, if_neg hj]
    have hin : (2 ≤ j ∧ j ≤ i + 1) ↔ (2 ≤ j ∧ j ≤ i + 2) := by omega
    simp only [hin]

theorem Small.returns_formatBlocksFrom (hs : fs.Small) {i : ℕ} (hi : i < fs.count) (next : Word)
    (d : Disk) : Returns (fs.formatBlocksFrom i next) d () (formatted i next d) := by
  have hcount := hs.count_lt
  induction i generalizing next d with
  | zero =>
    rw [formatted_of_lt (by omega)]
    exact returns_pure.mpr ⟨rfl, rfl⟩
  | succ k ih =>
    cases k with
    | zero =>
      rw [formatted_of_lt (by omega)]
      exact returns_pure.mpr ⟨rfl, rfl⟩
    | succ k =>
      have hnum : (BitVec.ofNat 32 (k + 2)).toNat = k + 2 := by
        rw [BitVec.toNat_ofNat, Nat.mod_eq_of_lt (by omega)]
      have hblock : (BitVec.ofNat 32 (k + 2)).toNat < fs.count := by omega
      rw [formatBlocksFrom, returns_bind]
      refine ⟨(), Function.update d (k + 2) (freeBlock next), ?_, ?_⟩
      · apply (hs.returns_putBlock hblock).mpr
        rw [hnum]
        rfl
      · rw [← formatted_step k next d]
        exact ih (by omega) (BitVec.ofNat 32 (k + 2)) _

/-- The root directory. -/
def rootBlock : Block := named (freshMeta META_DIR) ⟨[0x2F], slash_noNul⟩ 0

/-- What `format` has written, block by block. -/
structure Fresh (fs : ClothesFS) (volid : Option CString) (d : Disk) : Prop where
  two_le : 2 ≤ fs.count
  header : d 0 = header fs.size volid 2
  root : d 1 = rootBlock
  free : ∀ j, 2 ≤ j → j < fs.count →
    d j = freeBlock (if j = fs.count - 1 then 0 else BitVec.ofNat 32 (j + 1))

theorem Small.returns_formatBlocks (hs : fs.Small) (htwo : 2 ≤ fs.count) (d : Disk) :
    Returns fs.formatBlocks d 2 (formatted (fs.count - 1) 0 d) := by
  have hcount := hs.count_lt
  have hlast : (fs.blocks - 1).toNat = fs.count - 1 := by
    have hblocks : fs.blocks = BitVec.ofNat 32 fs.count := rfl
    rw [hblocks]
    bv_omega
  rw [formatBlocks, returns_orElse, hlast]
  left
  have hfrom := hs.returns_formatBlocksFrom (show fs.count - 1 < fs.count by omega) 0 d
  exact returns_bind.mpr ⟨(), _, hfrom, returns_pure.mpr ⟨rfl, rfl⟩⟩

theorem Small.returns_header (hs : fs.Small) (htwo : 2 ≤ fs.count) (volid : Option CString) (freechain : Word)
    (d : Disk) : Returns ((do
      fs.physWrite 0 (CxxKernel.Clothes.header fs.size volid freechain)
      pure true) <|> pure false) d true
      (Function.update d 0 (CxxKernel.Clothes.header fs.size volid freechain)) := by
  have hzero : (0 : Word).toNat < fs.count := Nat.lt_of_lt_of_le Nat.two_pos htwo
  have hput : Returns (fs.physWrite 0 (CxxKernel.Clothes.header fs.size volid freechain)) d ()
      (Function.update d 0 (CxxKernel.Clothes.header fs.size volid freechain)) := (hs.returns_putBlock hzero).mpr rfl
  rw [returns_orElse]
  left
  exact returns_bind.mpr ⟨(), _, hput, returns_pure.mpr ⟨rfl, rfl⟩⟩

theorem fresh_of_format (hs : fs.Small) {volid : Option CString}
    (h : Returns (fs.format volid) d () d') : Fresh fs volid d' := by
  simp only [format, returns_bind, returns_guard] at h
  obtain ⟨freechain, d₁, hblocks, res, d₂, hwrite, _, d₃, hinit, _, d₄, hupdate, -, rfl⟩ := h
  have hcount := hs.count_lt
  have htwo : 2 ≤ fs.count := by
    have hpos : blockPos 1 + sectorSize ≤ fs.size := (returns_putBlock.mp hinit).1
    have hone : blockPos 1 = 512 := rfl
    unfold sectorSize at hpos
    unfold count blocksize
    omega
  have hone : (1 : Word).toNat < fs.count := htwo
  obtain ⟨rfl, rfl⟩ := (hs.returns_formatBlocks htwo d).unique hblocks
  obtain ⟨rfl, hheader⟩ := (hs.returns_header htwo volid 2 _).unique hwrite
  rw [hs.returns_initMeta hone] at hinit
  rw [hs.returns_updateMeta hone] at hupdate
  obtain ⟨-, rfl⟩ := hupdate
  subst hinit hheader
  have hindex : (1 : Word).toNat = 1 := rfl
  simp only [hindex, Function.update_self]
  refine ⟨htwo, ?_, Function.update_self .., fun j hj hlt => ?_⟩
  · rw [Function.update_of_ne (by omega), Function.update_of_ne (by omega), Function.update_self]
  · rw [Function.update_of_ne (by omega), Function.update_of_ne (by omega),
      Function.update_of_ne (by omega)]
    exact if_pos (by omega)

/-- The blocks behind the root directory, as `format` chains them. -/
def freshFree (fs : ClothesFS) : List Word :=
  (List.range' 2 (fs.count - 2)).map (BitVec.ofNat 32)

theorem mem_freshFree (hs : fs.Small) {b : Word} :
    b ∈ fs.freshFree ↔ 2 ≤ b.toNat ∧ b.toNat < fs.count := by
  have hcount := hs.count_lt
  simp only [freshFree, List.mem_map, List.mem_range'_1]
  constructor
  · rintro ⟨j, ⟨hj, hlt⟩, rfl⟩
    rw [BitVec.toNat_ofNat, Nat.mod_eq_of_lt (by omega)]
    omega
  · rintro ⟨hb, hlt⟩
    exact ⟨b.toNat, ⟨hb, by omega⟩, BitVec.eq_of_toNat_eq (by simp)⟩

theorem Fresh.chain_from {volid : Option CString} (hs : fs.Small) (h : Fresh fs volid d) {k i : ℕ}
    (hi : 2 ≤ i) (hk : i + k = fs.count) :
    Chain (nextFree d) (link (if k = 0 then 0 else BitVec.ofNat 32 i))
      ((List.range' i k).map (BitVec.ofNat 32)) := by
  have hcount := hs.count_lt
  induction k generalizing i with
  | zero => rfl
  | succ k ih =>
    have hnum : (BitVec.ofNat 32 i).toNat = i := by
      rw [BitVec.toNat_ofNat, Nat.mod_eq_of_lt (by omega)]
    have hne : BitVec.ofNat 32 i ≠ 0 := by
      intro hc
      rw [hc] at hnum
      change 0 = i at hnum
      omega
    have hlast : (i = fs.count - 1) ↔ k = 0 := by omega
    rw [if_neg (Nat.succ_ne_zero k)]
    refine ⟨link_eq_some.mpr ⟨rfl, hne⟩, ?_⟩
    have hnext : nextFree d (BitVec.ofNat 32 i) =
        link (if k = 0 then 0 else BitVec.ofNat 32 (i + 1)) := by
      rw [nextFree, hnum, h.free i hi (by omega), freeBlock_next]
      simp only [hlast]
    rw [hnext]
    exact ih (by omega) (by omega)

theorem Fresh.freeInv {volid : Option CString} (hs : fs.Small) (h : Fresh fs volid d)
    (hthree : 3 ≤ fs.count) : FreeInv fs d fs.freshFree := by
  have hcount := hs.count_lt
  have hhead : freeHead d = link (if fs.count - 2 = 0 then 0 else BitVec.ofNat 32 2) := by
    rw [freeHead, h.header, header_freechain, if_neg (by omega)]
    rfl
  refine ⟨?_, ?_, fun b hb => (mem_freshFree hs).mp hb, fun b hb => ?_, by omega, ?_, ?_⟩
  · rw [hhead]
    exact h.chain_from hs (Nat.le_refl 2) (by omega)
  · apply List.Nodup.map_on ?_ (List.nodup_range')
    intro i hi j hj he
    rw [List.mem_range'_1] at hi hj
    have hnat := congrArg BitVec.toNat he
    rwa [BitVec.toNat_ofNat, BitVec.toNat_ofNat, Nat.mod_eq_of_lt (by omega),
      Nat.mod_eq_of_lt (by omega)] at hnat
  · obtain ⟨hge, hlt⟩ := (mem_freshFree hs).mp hb
    rw [h.free _ hge hlt, freeBlock_type]
  · rw [h.header]
    exact header_id _ _ _
  · rw [h.header]
    exact header_end _ _ _

/-- Behind the header of a volume of two blocks there is no block 2, and nothing is taken. -/
theorem Fresh.returns_take_two (hs : fs.Small) {volid : Option CString} (h : Fresh fs volid d) (htwo : fs.count = 2) :
    Returns fs.takeFreeBlock d 0 d := by
  have hzero : (0 : Word).toNat < fs.count := by
    rw [htwo]
    decide
  have hhead : dataToNum (d (0 : Word).toNat) 104 4 = 2 := by
    change word (d 0) 104 = 2
    rw [h.header]
    exact header_freechain _ _ _
  have hnone : fs.blockAt d 2 = none := blockAt_eq_none (by decide) (htwo ▸ by decide)
  rw [takeFreeBlock, returns_orElse]
  right
  refine ⟨d, ?_, returns_pure.mpr ⟨rfl, rfl⟩⟩
  simp only [fails_bind, fails_getBlock, returns_getBlock]
  right
  refine ⟨_, _, ⟨hs.blockAt_eq hzero d, rfl⟩, .inl ⟨?_, rfl⟩⟩
  rw [hhead]
  exact hnone

/-- A volume of two blocks has no free one, but its header names block 2. -/
theorem Fresh.take_two {volid : Option CString} {r : Word} (hs : fs.Small) (h : Fresh fs volid d)
    (htwo : fs.count = 2) (hr : Returns fs.takeFreeBlock d r d') : r = 0 :=
  ((h.returns_take_two hs htwo).unique hr).1.symm

end Format

end ClothesFS

end CxxKernel.Clothes
