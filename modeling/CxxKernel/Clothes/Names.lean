import CxxKernel.Clothes.Directory
import CxxKernel.Clothes.Geometry
import CxxKernel.Clothes.Iterator

/-! `updateMeta` with blocks of any size: where it stores into its buffer, and what comes back of a name. -/
namespace CxxKernel.Clothes
open Fallible

/-- The device, and the offsets at which a function has stored into its buffer. -/
structure Buffered where
  disk : Disk
  stored : List ℕ

def onDisk {α : Type} (x : Prog Disk α) : Prog Buffered α := OptionT.mk fun s =>
  ((exec x s.disk).1, { s with disk := (exec x s.disk).2 })

/-- Bytes that are stored one by one. -/
def storeAll (stores : List (ℕ × Byte)) (data : Block) : Prog Buffered Block := step fun s =>
  (stores.foldl (fun b c => Function.update b c.1 c.2) data, { s with stored := s.stored ++ stores.map Prod.fst })

/-- The stores of `numToData`. -/
def numStores (num start cnt : ℕ) : List (ℕ × Byte) :=
  (List.range cnt).map fun i => (start + i, BitVec.ofNat 8 (num >>> (8 * i)))

/-- The stores of a loop that copies bytes into a buffer. -/
def copyStores (pos : ℕ) : List Byte → List (ℕ × Byte)
  | [] => []
  | c :: cs => (pos, c) :: copyStores (pos + 1) cs

namespace Geometry

/-- `data` is the array of the function, which is not initialised. -/
def updateMeta (g : Geometry) (data : Block) (index : Word) (name : CString) (size : ℕ) : Prog Buffered Unit := do
  let data ← onDisk (g.getBlock index data)
  let type := baseType (dataToNum data 2 1)
  guard (type = META_FILE ∨ type = META_DIR)
  let data ← storeAll (numStores size 4 8) data
  let data ← storeAll (copyStores 16 name.bytes) data
  let data ← storeAll (numStores name.bytes.length 12 4) data
  onDisk (g.putBlock index data)

end Geometry

section Stores
variable {data : Block} {p q : ℕ} {cs : List Byte}

theorem foldl_numStores (num : ℕ) (data : Block) (start cnt : ℕ) :
    (numStores num start cnt).foldl (fun b c => Function.update b c.1 c.2) data = numToData num data start cnt := by
  rw [numStores, List.foldl_map, numToData]

theorem foldl_copyStores (data : Block) (pos : ℕ) (cs : List Byte) :
    (copyStores pos cs).foldl (fun b c => Function.update b c.1 c.2) data = copyTo data pos cs := by
  induction cs generalizing data pos with
  | nil => rfl
  | cons c cs ih => exact ih _ _

theorem mem_numStores {num start cnt : ℕ} (h : p ∈ (numStores num start cnt).map Prod.fst) : p < start + cnt := by
  simp only [numStores, List.map_map, List.mem_map, List.mem_range, Function.comp_apply] at h
  obtain ⟨i, hi, rfl⟩ := h
  omega

theorem mem_copyStores (h : p ∈ (copyStores q cs).map Prod.fst) : p < q + cs.length := by
  induction cs generalizing q with
  | nil => cases h
  | cons c cs ih =>
    rw [copyStores, List.map_cons, List.mem_cons] at h
    rw [List.length_cons]
    rcases h with rfl | h
    · exact Nat.lt_add_of_pos_right (Nat.succ_pos _)
    · have hlt := ih h
      omega

end Stores

/-- The offsets at which a name of `len` bytes, its length and the size are stored. -/
def metaOffsets (name : CString) (size : ℕ) : List ℕ :=
  (numStores size 4 8).map Prod.fst ++ (copyStores 16 name.bytes).map Prod.fst ++
    (numStores name.bytes.length 12 4).map Prod.fst

theorem metaOffsets_lt {name : CString} {size p : ℕ} (h : p ∈ metaOffsets name size) :
    p < 16 + name.bytes.length := by
  rw [metaOffsets, List.mem_append, List.mem_append] at h
  rcases h with (h | h) | h
  · have hlt := mem_numStores h
    omega
  · exact mem_copyStores h
  · have hlt := mem_numStores h
    omega

namespace Geometry
variable {g : Geometry} {index : Word} {name : CString} {size : ℕ} {d : Disk}

/-- What the block holds for `updateMeta`, in an array that held `buf`. -/
abbrev loaded (g : Geometry) (index : Word) (d : Disk) (buf : Block) : Block :=
  store buf 0 g.transferred (d (g.sector index))

def NamedType (data : Block) : Prop :=
  baseType (dataToNum data 2 1) = META_FILE ∨ baseType (dataToNum data 2 1) = META_DIR

/-- The device when `data` has been put into the block. -/
def written (g : Geometry) (index : Word) (d : Disk) (data : Block) : Disk :=
  if g.m_block_in_sectors = 0 then d else Function.update d (g.sector index) data

section Spec
variable {buf : Block}

theorem exec_onDisk {α : Type} {x : Prog Disk α} {r : Option α} {d' : Disk} (h : exec x d = (r, d')) (l : List ℕ) :
    exec (onDisk x) ⟨d, l⟩ = (r, ⟨d', l⟩) := by
  have hexec : exec (onDisk x) ⟨d, l⟩ = ((exec x d).1, ⟨(exec x d).2, l⟩) := rfl
  rw [hexec, h]

theorem updateMeta_outside (h : ¬ g.Reaches index) :
    exec (g.updateMeta buf index name size) ⟨d, []⟩ = (none, ⟨d, []⟩) := by
  rw [updateMeta, exec_bind, exec_onDisk (fails_getBlock h)]

theorem updateMeta_refused (h : g.Reaches index) (htype : ¬ NamedType (g.loaded index d buf)) :
    exec (g.updateMeta buf index name size) ⟨d, []⟩ = (none, ⟨d, []⟩) := by
  have hget : exec (g.getBlock index buf) d = (some (g.loaded index d buf), d) := returns_getBlock.mpr ⟨h, rfl, rfl⟩
  unfold NamedType at htype
  rw [updateMeta, exec_bind, exec_onDisk hget]
  dsimp only
  rw [guard, if_neg htype]
  rfl

theorem updateMeta_stored (name : CString) (size : ℕ) (h : g.Reaches index)
    (htype : NamedType (g.loaded index d buf)) :
    exec (g.updateMeta buf index name size) ⟨d, []⟩ =
      (some (), ⟨g.written index d (named (g.loaded index d buf) name size), metaOffsets name size⟩) := by
  have hget : exec (g.getBlock index buf) d = (some (g.loaded index d buf), d) := returns_getBlock.mpr ⟨h, rfl, rfl⟩
  have hput : exec (g.putBlock index (named (g.loaded index d buf) name size)) d =
      (some (), g.written index d (named (g.loaded index d buf) name size)) := returns_putBlock.mpr ⟨h, rfl⟩
  unfold NamedType at htype
  rw [updateMeta, exec_bind, exec_onDisk hget]
  dsimp only
  rw [guard, if_pos htype]
  simp only [exec_bind, exec_pure, storeAll, exec_step, foldl_numStores, foldl_copyStores, List.nil_append]
  exact exec_onDisk hput _

end Spec

/-- Every store is in front of the number of the next block, a name that reaches behind it is refused, and a
name that is stored comes back. The arrays that the block is read into may hold anything. -/
structure NameLaw (g : Geometry) (index : Word) (name : CString) (size : ℕ) (d : Disk) : Prop where
  stores : ∀ buf, ∀ p ∈ (exec (g.updateMeta buf index name size) ⟨d, []⟩).2.stored, p + 4 < g.m_blocksize.toNat
  refuses : g.m_blocksize.toNat < 16 + name.bytes.length + 4 →
    ∀ buf, (exec (g.updateMeta buf index name size) ⟨d, []⟩).1 = none
  reads : ∀ buf s, Returns (g.updateMeta buf index name size) ⟨d, []⟩ () s →
    ∀ (buf' : Block) (it : Iterator) (d' : Disk), Returns (g.getBlock index buf') s.disk it.data d' →
      it.name = name.bytes

/-- The block cannot be read, or it is read as far as its type and holds none that has a name, or the name ends in
front of the number of the next block and inside the bytes that are transferred. -/
def NameCond (g : Geometry) (index : Word) (name : CString) (d : Disk) : Prop :=
  ¬ g.Reaches index ∨ 3 ≤ g.transferred ∧ ¬ NamedType (d (g.sector index)) ∨
    16 + name.bytes.length + 4 ≤ g.m_blocksize.toNat ∧ 16 + name.bytes.length ≤ g.transferred

section Law
variable {buf data : Block} {it : Iterator}

theorem transferred_lt (g : Geometry) : g.transferred < 2 ^ 32 := by
  unfold transferred
  split_ifs
  · exact Nat.two_pow_pos 32
  · exact BitVec.isLt _

theorem namedType_loaded (h : 3 ≤ g.transferred) :
    NamedType (g.loaded index d buf) ↔ NamedType (d (g.sector index)) := by
  have htype : dataToNum (g.loaded index d buf) 2 1 = dataToNum (d (g.sector index)) 2 1 :=
    dataToNum_congr fun i hi => store_of_lt _ (by omega)
  rw [NamedType, NamedType, htype]

theorem namedType_array (h : 3 ≤ g.transferred → NamedType (d (g.sector index))) :
    NamedType (g.loaded index d fun _ => 0x02) := by
  by_cases hle : 3 ≤ g.transferred
  · exact (namedType_loaded hle).mpr (h hle)
  · have htype : dataToNum (g.loaded index d fun _ => 0x02) 2 1 = dataToNum (fun _ => 0x02) 2 1 :=
      dataToNum_congr fun i hi => store_of_ge _ (by omega)
    rw [NamedType, htype]
    exact .inl rfl

/-- What a `getBlock` behind the `putBlock` leaves in an array that held `buf`. -/
theorem loaded_written (g : Geometry) (index : Word) (d : Disk) (data buf : Block) :
    g.loaded index (g.written index d data) buf = store buf 0 g.transferred data := by
  by_cases hnone : g.m_block_in_sectors = 0
  · have hzero : g.transferred = 0 := if_pos hnone
    rw [loaded, hzero, store_zero, store_zero]
  · rw [loaded, written, if_neg hnone, Function.update_self]

theorem add_one_ne (c : Byte) : c + 1 ≠ c := by
  intro h
  bv_omega

/-- An array that differs from the stored block everywhere gives another name when the name is not transferred
as a whole. -/
theorem name_ne_of_differs {t : ℕ} (hlt : t < 16 + name.bytes.length)
    (hdata : it.data = store (fun p => named data name size p + 1) 0 t (named data name size)) :
    it.name ≠ name.bytes := by
  intro hname
  have hlength : it.nameLen.toNat = name.bytes.length := by rw [← length_name, hname]
  have hother : ∀ p, t ≤ p → it.data p = named data name size p + 1 := fun p hp => by
    rw [hdata, store_of_ge _ hp]
  cases hbytes : name.bytes with
  | nil =>
    -- the last byte of the length
    rw [hbytes, List.length_nil] at hlength hlt
    have hzero : it.nameLen = 0 := BitVec.eq_of_toNat_eq hlength
    have hbyte : it.data (12 + 3) = 0 := word_eq_zero_iff.mp hzero 3 (by decide)
    have hstored : named data name size (12 + 3) = 0 := by
      have hword := word_named_len data name size
      rw [hbytes] at hword
      exact word_eq_zero_iff.mp hword 3 (by decide)
    rw [hother _ (by omega), hstored] at hbyte
    exact add_one_ne 0 hbyte
  | cons c cs =>
    -- the last byte of the name
    have hlen : name.bytes.length = cs.length + 1 := by rw [hbytes, List.length_cons]
    have hread := name_get it (show cs.length < it.nameLen.toNat by omega)
    have hget := List.getElem?_eq_getElem (show cs.length < name.bytes.length by omega)
    rw [hname, hget] at hread
    have hbyte := Option.some.inj hread
    rw [hother _ (by omega), named_name hget] at hbyte
    exact add_one_ne _ hbyte.symm

theorem nameLaw_of_refused (hexec : ∀ buf, exec (g.updateMeta buf index name size) ⟨d, []⟩ = (none, ⟨d, []⟩)) :
    g.NameLaw index name size d := by
  refine ⟨fun buf p hp => ?_, fun _ buf => ?_, fun buf s hr => ?_⟩
  · rw [hexec] at hp
    cases hp
  · rw [hexec]
  · rw [Returns, hexec] at hr
    cases hr

/-- A call whose stores all fit, on a device that transfers the block up to the end of the name. -/
theorem nameLaw_of_stored (hreaches : g.Reaches index) (htype : NamedType (d (g.sector index)))
    (hfits : 16 + name.bytes.length + 4 ≤ g.m_blocksize.toNat) (hle : 16 + name.bytes.length ≤ g.transferred) :
    g.NameLaw index name size d := by
  have hstored : ∀ buf, exec (g.updateMeta buf index name size) ⟨d, []⟩ = _ := fun buf =>
    updateMeta_stored name size hreaches ((namedType_loaded (by omega)).mpr htype)
  refine ⟨fun buf p hp => ?_, fun hlong => by omega, fun buf s hr buf' it d' hload => ?_⟩
  · rw [hstored] at hp
    have hlt := metaOffsets_lt hp
    omega
  · obtain ⟨-, rfl⟩ := Returns.unique (hstored buf) hr
    obtain ⟨-, hdata, -⟩ := returns_getBlock.mp hload
    have hloaded := loaded_written g index d (named (g.loaded index d buf) name size) buf'
    have hlt := transferred_lt g
    apply name_of_named (by omega)
    intro p hp
    rw [← hdata]
    exact (congrFun hloaded p).trans (store_of_lt _ (by omega))

/-- A name is kept inside its block and read back exactly under this condition. -/
theorem nameLaw_iff (g : Geometry) (index : Word) (name : CString) (size : ℕ) (d : Disk) :
    g.NameLaw index name size d ↔ g.NameCond index name d := by
  constructor
  · intro h
    by_cases hreaches : g.Reaches index
    · by_cases htype : 3 ≤ g.transferred → NamedType (d (g.sector index))
      · have hstored := updateMeta_stored name size hreaches (namedType_array htype)
        have hfits : 16 + name.bytes.length + 4 ≤ g.m_blocksize.toNat := by
          by_contra hlong
          have hnone := h.refuses (Nat.not_le.mp hlong) fun _ => 0x02
          rw [hstored] at hnone
          cases hnone
        refine .inr (.inr ⟨hfits, ?_⟩)
        by_contra hlt
        let data := named (g.loaded index d fun _ => 0x02) name size
        let it : Iterator := ⟨true, index, 0, 0, 0, 0, clearBuffer,
          store (fun p => data p + 1) 0 g.transferred data, clearBuffer⟩
        have hload : Returns (g.getBlock index fun p => data p + 1) (g.written index d data) it.data
            (g.written index d data) := returns_getBlock.mpr ⟨hreaches, loaded_written g index d data _, rfl⟩
        exact name_ne_of_differs (Nat.not_le.mp hlt) rfl (h.reads _ _ hstored _ it _ hload)
      · obtain ⟨hle, hother⟩ := Classical.not_imp.mp htype
        exact .inr (.inl ⟨hle, hother⟩)
    · exact .inl hreaches
  · intro h
    by_cases hreaches : g.Reaches index
    · rcases h with hout | ⟨hle, hother⟩ | ⟨hfits, hle⟩
      · exact absurd hreaches hout
      · exact nameLaw_of_refused fun buf =>
          updateMeta_refused hreaches fun htype => hother ((namedType_loaded hle).mp htype)
      · by_cases htype : NamedType (d (g.sector index))
        · exact nameLaw_of_stored hreaches htype hfits hle
        · exact nameLaw_of_refused fun buf => updateMeta_refused hreaches fun htype' =>
            htype ((namedType_loaded (by omega)).mp htype')
    · exact nameLaw_of_refused fun buf => updateMeta_outside hreaches

/-- A device whose blocks hold the metadata of files. -/
def files : Disk := fun _ => freshMeta META_FILE

def tooLong : CString := ⟨List.replicate 493 0x61, fun h => absurd (List.eq_of_mem_replicate h) (by decide)⟩

/-- The last byte of the name is stored over the number of the next block. -/
theorem not_nameLaw_tooLong : (exec (small.updateMeta clearBuffer 1 tooLong 0) ⟨files, []⟩).1 = some () ∧
    508 ∈ (exec (small.updateMeta clearBuffer 1 tooLong 0) ⟨files, []⟩).2.stored ∧
    ¬ small.NameLaw 1 tooLong 0 files := by
  have hreaches : small.Reaches 1 := .inr (by decide)
  have htype : NamedType (small.loaded 1 files clearBuffer) := (namedType_loaded (by decide)).mpr (.inl (by decide))
  have hstored := updateMeta_stored tooLong 0 hreaches htype
  have hlength : tooLong.bytes.length = 493 := List.length_replicate
  have hsome : (exec (small.updateMeta clearBuffer 1 tooLong 0) ⟨files, []⟩).1 = some () := by rw [hstored]
  refine ⟨hsome, ?_, fun h => ?_⟩
  · rw [hstored]
    decide +kernel
  · have hlt : small.m_blocksize.toNat < 16 + tooLong.bytes.length + 4 := by
      rw [hlength]
      decide
    rw [h.refuses hlt] at hsome
    cases hsome

end Law

end Geometry

end CxxKernel.Clothes
