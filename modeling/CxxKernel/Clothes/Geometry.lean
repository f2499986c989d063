import CxxKernel.Clothes.Volume

/-! `ClothesFS` with blocks and sectors of any size: the fields that depend on them, and the transfer of a block. -/
namespace CxxKernel.Clothes
open Fallible

/-- The sizes of a `FilesystemPhys` in bytes. -/
structure Phys where
  sectorSize : Word
  size : BitVec 64

namespace Phys
variable (phys : Phys)

/-- One sector from `pos` on, which is inside the device or cannot be read. -/
def read (pos : BitVec 64) : Prog Disk Block := OptionT.mk fun disk =>
  (if pos.toNat + phys.sectorSize.toNat ≤ phys.size.toNat then
    some (disk (pos.toNat / phys.sectorSize.toNat)) else none,
    disk)

def write (pos : BitVec 64) (buffer : Block) : Prog Disk Unit := do
  guard (pos.toNat + phys.sectorSize.toNat ≤ phys.size.toNat)
  modify fun disk => Function.update disk (pos.toNat / phys.sectorSize.toNat) buffer

end Phys

/-- The fields of `ClothesFS`, the head of the free chain apart, which no function uses. -/
structure Geometry where
  m_phys : Phys
  m_blocksize : Word
  m_blocks : Word
  m_block_in_sectors : Word

namespace Geometry
variable (g : Geometry)

/-- Both divisions trap when the divisor is zero. -/
def setPhysical (phys : Phys) : Option Geometry :=
  if g.m_blocksize = 0 ∨ phys.sectorSize = 0 then none
  else some { g with
    m_phys := phys
    m_blocks := (phys.size / g.m_blocksize.setWidth 64).setWidth 32
    m_block_in_sectors := g.m_blocksize / phys.sectorSize }

def HasMagic (buf : Block) : Prop :=
  buf (header_begin + 0) = 0x00 ∧ buf (header_begin + 1) = 0x42 ∧ buf (header_begin + 2) = 0x00 ∧
    buf (header_begin + 3) = 0x41

instance (buf : Block) : Decidable (HasMagic buf) := inferInstanceAs (Decidable (_ ∧ _ ∧ _ ∧ _))

/-- The block size in the header. -/
def stored (buf : Block) : Word := dataToNum buf (header_begin + 4) 2

/-- `first` is what a read of the first sector gives. -/
def detect (first : Option Block) : Geometry × Bool :=
  match first with
  | none => (g, false)
  | some buf => ({ g with m_blocksize := stored buf }, HasMagic buf)

/-- The loop of `getBlock` and of `putBlock`. Its counter goes down from 0. -/
def sectorLoop {α : Type} (index : Word) (transfer : (block : Word) → BitVec 64 → α → Prog Disk α) :
    ℕ → (block : Word) → α → Prog Disk α
  | 0, _, data => pure data
  | n + 1, block, data =>
    if block < g.m_block_in_sectors then do
      let pos := (index * g.m_blocksize).setWidth 64
      let pos := pos + (block * g.m_phys.sectorSize).setWidth 64
      let data ← transfer block pos data
      sectorLoop index transfer n (block - 1) data
    else pure data

def store (data : Block) (start len : ℕ) (sector : Block) : Block := fun p =>
  if start ≤ p ∧ p < start + len then sector (p - start) else data p

/-- `data` is the buffer of the caller. -/
def getBlock (index : Word) (data : Block) : Prog Disk Block :=
  g.sectorLoop index (fun block pos data => do
    let sector ← g.m_phys.read pos
    pure (store data (g.m_phys.sectorSize * block).toNat g.m_phys.sectorSize.toNat sector)) (2 ^ 32) 0 data

def putBlock (index : Word) (data : Block) : Prog Disk Unit :=
  g.sectorLoop index (fun block pos _ =>
    g.m_phys.write pos fun p => data ((g.m_phys.sectorSize * block).toNat + p)) (2 ^ 32) 0 ()

section Loop
variable {g : Geometry} {α : Type} {index : Word} {transfer : (block : Word) → BitVec 64 → α → Prog Disk α}
  {data : α} {n : ℕ}

theorem sectorLoop_one (h : g.m_block_in_sectors ≠ 0) (hn : 2 ≤ n) :
    g.sectorLoop index transfer n 0 data = transfer 0 ((index * g.m_blocksize).setWidth 64) data := by
  obtain ⟨n, rfl⟩ := Nat.exists_eq_add_of_le' hn
  have hfirst : (0 : Word) < g.m_block_in_sectors := by bv_omega
  have hlast : ¬ (0 - 1 : Word) < g.m_block_in_sectors := by bv_omega
  have hpos : (index * g.m_blocksize).setWidth 64 + (0 * g.m_phys.sectorSize).setWidth 64 =
      (index * g.m_blocksize).setWidth 64 := by
    have hmul : (0 : Word) * g.m_phys.sectorSize = 0#32 := BitVec.zero_mul
    rw [hmul]
    bv_omega
  rw [sectorLoop, if_pos hfirst]
  simp only [hpos, sectorLoop, if_neg hlast, bind_pure]

theorem sectorLoop_none (h : g.m_block_in_sectors = 0) : g.sectorLoop index transfer n 0 data = pure data := by
  cases n with
  | zero => rfl
  | succ n =>
    have hfirst : ¬ (0 : Word) < g.m_block_in_sectors := by
      rw [h]
      decide
    rw [sectorLoop, if_neg hfirst]

end Loop

/-- The first sector of a block. The position is a product of two `uint32_t`. -/
def sector (index : Word) : ℕ := (index * g.m_blocksize).toNat / g.m_phys.sectorSize.toNat

/-- The bytes of a block that are transferred: those of its first sector. -/
def transferred : ℕ := if g.m_block_in_sectors = 0 then 0 else g.m_phys.sectorSize.toNat

/-- The sector that is transferred lies inside the device. -/
def Reaches (index : Word) : Prop :=
  g.m_block_in_sectors = 0 ∨ (index * g.m_blocksize).toNat + g.m_phys.sectorSize.toNat ≤ g.m_phys.size.toNat

section Transfer
variable {g : Geometry} {index : Word} {data b : Block} {d d' : Disk} {u : Unit}

theorem store_zero (data : Block) (start : ℕ) (sector : Block) : store data start 0 sector = data := by
  funext p
  exact if_neg (by omega)

theorem store_of_lt {len p : ℕ} (sector : Block) (h : p < len) : store data 0 len sector p = sector p :=
  if_pos ⟨Nat.zero_le p, by omega⟩

theorem store_of_ge {len p : ℕ} (sector : Block) (h : len ≤ p) : store data 0 len sector p = data p :=
  if_neg (by omega)

theorem toNat_pos (index m_blocksize : Word) :
    ((index * m_blocksize).setWidth 64 : BitVec 64).toNat = (index * m_blocksize).toNat := by
  have hlt := (index * m_blocksize).isLt
  rw [BitVec.toNat_setWidth, Nat.mod_eq_of_lt (by omega)]

theorem toNat_mul_zero (w : Word) : (w * 0).toNat = 0 := by
  have hzero : w * 0#32 = 0#32 := BitVec.mul_zero
  exact congrArg BitVec.toNat hzero

theorem returns_read {phys : Phys} {pos : BitVec 64} : Returns (phys.read pos) d b d' ↔
    pos.toNat + phys.sectorSize.toNat ≤ phys.size.toNat ∧ d (pos.toNat / phys.sectorSize.toNat) = b ∧ d = d' := by
  have hexec : exec (phys.read pos) d =
      (if pos.toNat + phys.sectorSize.toNat ≤ phys.size.toNat then
        some (d (pos.toNat / phys.sectorSize.toNat)) else none,
        d) := rfl
  rw [Returns, hexec, Prod.mk.injEq]
  by_cases hin : pos.toNat + phys.sectorSize.toNat ≤ phys.size.toNat
  · rw [if_pos hin, Option.some.injEq, and_iff_right hin]
  · rw [if_neg hin]
    simp only [hin, false_and, reduceCtorEq]

theorem returns_getBlock : Returns (g.getBlock index data) d b d' ↔
    g.Reaches index ∧ store data 0 g.transferred (d (g.sector index)) = b ∧ d = d' := by
  unfold getBlock Reaches transferred
  by_cases hnone : g.m_block_in_sectors = 0
  · rw [sectorLoop_none hnone, returns_pure, if_pos hnone, store_zero]
    simp only [hnone, true_or, true_and]
  · rw [sectorLoop_one hnone (by decide), returns_bind, if_neg hnone]
    simp only [returns_read, returns_pure, toNat_mul_zero, toNat_pos, hnone, false_or]
    constructor
    · rintro ⟨s, t, ⟨hin, rfl, rfl⟩, hb, hd⟩
      exact ⟨hin, hb, hd⟩
    · rintro ⟨hin, hb, hd⟩
      exact ⟨_, _, ⟨hin, rfl, rfl⟩, hb, hd⟩

theorem fails_getBlock (h : ¬ g.Reaches index) : Fails (g.getBlock index data) d d := by
  obtain ⟨hnone, hout⟩ := not_or.mp h
  have hread : exec (g.m_phys.read ((index * g.m_blocksize).setWidth 64)) d = (none, d) := by
    rw [← toNat_pos] at hout
    exact Prod.ext (if_neg hout) rfl
  unfold getBlock Fails
  rw [sectorLoop_one hnone (by decide), exec_bind, hread]

theorem returns_putBlock : Returns (g.putBlock index data) d u d' ↔
    g.Reaches index ∧ (if g.m_block_in_sectors = 0 then d else Function.update d (g.sector index) data) = d' := by
  unfold putBlock Reaches
  by_cases hnone : g.m_block_in_sectors = 0
  · rw [sectorLoop_none hnone, returns_pure, if_pos hnone]
    simp only [hnone, true_or, true_and]
  · rw [sectorLoop_one hnone (by decide), if_neg hnone]
    simp only [toNat_mul_zero, Nat.zero_add, Phys.write, toNat_pos, returns_bind, returns_guard, hnone, false_or]
    constructor
    · rintro ⟨_, _, ⟨hin, rfl⟩, hmodify⟩
      obtain ⟨-, hd⟩ := Prod.mk.inj hmodify
      exact ⟨hin, hd⟩
    · rintro ⟨hin, hd⟩
      exact ⟨(), d, ⟨hin, rfl⟩, Prod.ext rfl hd⟩

end Transfer

/-- Blocks of one sector of 512 bytes, as the functions that work on whole blocks have them. -/
structure OneSector (g : Geometry) (fs : ClothesFS) : Prop where
  blocksize : g.m_blocksize = 512
  block_in_sectors : g.m_block_in_sectors = 1
  sector_bytes : g.m_phys.sectorSize = 512
  size : g.m_phys.size.toNat = fs.size

section OneSector
variable {g : Geometry} {fs : ClothesFS} {index : Word} {data b : Block} {d d' : Disk} {u : Unit}

theorem OneSector.sector_eq (h : OneSector g fs) (index : Word) : g.sector index = sectorOf index := by
  rw [sector, h.blocksize, h.sector_bytes]
  rfl

theorem OneSector.reaches (h : OneSector g fs) : g.Reaches index ↔ blockPos index + sectorSize ≤ fs.size := by
  have hone : ¬ (1 : Word) = 0 := by decide
  rw [Reaches, h.block_in_sectors, h.blocksize, h.sector_bytes, h.size, or_iff_right hone]
  exact Iff.rfl

theorem OneSector.getBlock (h : OneSector g fs) : Returns (g.getBlock index data) d b d' ↔
    ∃ b', Returns (fs.getBlock index) d b' d' ∧ store data 0 sectorSize b' = b := by
  have htransferred : g.transferred = sectorSize := by
    rw [transferred, h.block_in_sectors, h.sector_bytes]
    rfl
  simp only [returns_getBlock, ClothesFS.returns_getBlock, ClothesFS.blockAt_eq_some, h.reaches, h.sector_eq,
    htransferred]
  constructor
  · rintro ⟨hin, hb, hd⟩
    exact ⟨_, ⟨⟨hin, rfl⟩, hd⟩, hb⟩
  · rintro ⟨b', ⟨⟨hin, rfl⟩, hd⟩, hb⟩
    exact ⟨hin, hb, hd⟩

theorem OneSector.putBlock (h : OneSector g fs) :
    Returns (g.putBlock index data) d u d' ↔ Returns (fs.putBlock index data) d u d' := by
  have hone : ¬ (1 : Word) = 0 := by decide
  rw [returns_putBlock, ClothesFS.returns_putBlock, h.reaches, h.sector_eq, h.block_in_sectors, if_neg hone]

end OneSector

/-- `putBlock` writes the sectors of the block and no other one, and a `getBlock` into any buffer returns the data. -/
def TransferLaw (g : Geometry) (index : Word) (data : Block) (d : Disk) : Prop :=
  ∃ d', Returns (g.putBlock index data) d () d' ∧
    (∀ j < g.m_block_in_sectors.toNat, ∀ p < g.m_phys.sectorSize.toNat,
      d' (index.toNat * g.m_block_in_sectors.toNat + j) p = data (j * g.m_phys.sectorSize.toNat + p)) ∧
    (∀ q, q < index.toNat * g.m_block_in_sectors.toNat ∨ (index.toNat + 1) * g.m_block_in_sectors.toNat ≤ q →
      d' q = d q) ∧
    ∀ buf, ∃ data', Returns (g.getBlock index buf) d' data' d' ∧ ∀ p < g.m_blocksize.toNat, data' p = data p

section TransferLaw
variable {g : Geometry} {index : Word}

theorem reaches_inside (hsmall : g.m_phys.size.toNat < 2 ^ 32)
    (hin : (index.toNat + 1) * g.m_blocksize.toNat ≤ g.m_phys.size.toNat)
    (hle : g.m_phys.sectorSize.toNat ≤ g.m_blocksize.toNat) :
    g.Reaches index ∧ g.sector index = index.toNat * g.m_blocksize.toNat / g.m_phys.sectorSize.toNat := by
  have hmul : (index * g.m_blocksize).toNat = index.toNat * g.m_blocksize.toNat := by
    rw [Nat.succ_mul] at hin
    rw [BitVec.toNat_mul, Nat.mod_eq_of_lt (by omega)]
  rw [Nat.succ_mul] at hin
  rw [Reaches, sector, hmul]
  exact ⟨.inr (by omega), rfl⟩

/-- A block is transferred exactly when it consists of one sector. -/
theorem transferLaw_iff (hpos : 0 < g.m_phys.sectorSize.toNat) (hone : 1 ≤ g.m_block_in_sectors.toNat)
    (hsize : g.m_blocksize.toNat = g.m_block_in_sectors.toNat * g.m_phys.sectorSize.toNat)
    (hsmall : g.m_phys.size.toNat < 2 ^ 32) (hin : (index.toNat + 1) * g.m_blocksize.toNat ≤ g.m_phys.size.toNat)
    (data : Block) (d : Disk) : g.TransferLaw index data d ↔ g.m_block_in_sectors = 1 := by
  have hne : g.m_block_in_sectors ≠ 0 := by
    intro hc
    rw [hc] at hone
    exact absurd hone (by decide)
  have htransferred : g.transferred = g.m_phys.sectorSize.toNat := if_neg hne
  have hle : g.m_phys.sectorSize.toNat ≤ g.m_blocksize.toNat := by
    rw [hsize]
    exact Nat.le_mul_of_pos_left _ hone
  obtain ⟨hreaches, hsector⟩ := reaches_inside hsmall hin hle
  rw [hsize, ← Nat.mul_assoc, Nat.mul_div_cancel _ hpos] at hsector
  constructor
  · rintro ⟨d', -, -, -, hget⟩
    by_contra hmore
    have htwo : 2 ≤ g.m_block_in_sectors.toNat := by
      have hne' : g.m_block_in_sectors.toNat ≠ 1 := fun hc => hmore (BitVec.eq_of_toNat_eq hc)
      omega
    have hlt : g.m_phys.sectorSize.toNat < g.m_blocksize.toNat := by
      rw [hsize]
      have hdouble := Nat.mul_le_mul_right g.m_phys.sectorSize.toNat htwo
      omega
    -- the second sector of the buffer is not touched
    obtain ⟨data', hdata, hsame⟩ := hget fun p => data p + 1
    obtain ⟨-, rfl, -⟩ := returns_getBlock.mp hdata
    have hbyte := hsame _ hlt
    rw [store_of_ge _ (Nat.le_of_eq htransferred)] at hbyte
    revert hbyte
    generalize data g.m_phys.sectorSize.toNat = c
    intro hc
    bv_omega
  · intro hsingle
    have hcount : g.m_block_in_sectors.toNat = 1 := by
      rw [hsingle]
      rfl
    rw [hcount, Nat.mul_one] at hsector
    rw [hcount, Nat.one_mul] at hsize
    refine ⟨_, returns_putBlock.mpr ⟨hreaches, if_neg hne⟩, fun j hj p hp => ?_, fun q hq => ?_, fun buf => ?_⟩
    · obtain rfl : j = 0 := by omega
      rw [hcount, Nat.mul_one, Nat.add_zero, hsector, Function.update_self, Nat.zero_mul, Nat.zero_add]
    · rw [hcount] at hq
      have hne' : q ≠ g.sector index := by omega
      exact Function.update_of_ne hne' _ _
    · refine ⟨_, returns_getBlock.mpr ⟨hreaches, rfl, rfl⟩, fun p hp => ?_⟩
      rw [store_of_lt _ (by omega), Function.update_self]

/-- Blocks of 512 and of 1024 bytes on a device of 4 KiB. -/
def small : Geometry := ⟨⟨512, 4096⟩, 512, 8, 1⟩

def large : Geometry := ⟨⟨512, 4096⟩, 1024, 4, 2⟩

theorem transferLaw_small : small.TransferLaw 3 (fun _ => 0x61) fun _ => clearBuffer :=
  (transferLaw_iff (by decide) (by decide) (by decide) (by decide) (by decide) _ _).mpr rfl

/-- Of a block of two sectors, the second one is neither written nor read. -/
theorem not_transferLaw_large : ¬ large.TransferLaw 1 (fun _ => 0x61) fun _ => clearBuffer := by
  rintro ⟨d', hput, hsectors, -⟩
  obtain ⟨-, rfl⟩ := returns_putBlock.mp hput
  have hbyte := hsectors 1 (by decide) 0 (by decide)
  revert hbyte
  decide +kernel

end TransferLaw

/-- The number of blocks and the sectors of a block go with the block size. -/
structure Consistent (g : Geometry) : Prop where
  nonzero : g.m_blocksize ≠ 0
  blocks : g.m_blocks.toNat = g.m_phys.size.toNat / g.m_blocksize.toNat
  block_in_sectors : g.m_block_in_sectors = g.m_blocksize / g.m_phys.sectorSize

/-- An accepted volume determines the fields, and a refused one leaves them alone. -/
def DetectLaw (g : Geometry) (first : Option Block) : Prop :=
  if (g.detect first).2 then
    some (g.detect first).1.m_blocksize = first.map stored ∧ (g.detect first).1.Consistent
  else
    (g.detect first).1.m_blocksize = g.m_blocksize ∧ (g.detect first).1.m_blocks = g.m_blocks ∧
      (g.detect first).1.m_block_in_sectors = g.m_block_in_sectors

/-- With the magic, the stored block size gives the same quotients as the one before; without it, it is the same. -/
def DetectCond (m_blocksize : Word) (phys : Phys) : Option Block → Prop
  | none => True
  | some buf =>
    if HasMagic buf then stored buf ≠ 0 ∧
      phys.size.toNat / m_blocksize.toNat % 2 ^ 32 = phys.size.toNat / (stored buf).toNat ∧
      m_blocksize / phys.sectorSize = stored buf / phys.sectorSize
    else stored buf = m_blocksize

section Detect
variable {g g' : Geometry} {phys : Phys}

theorem setPhysical_eq_some : g.setPhysical phys = some g' ↔ (g.m_blocksize ≠ 0 ∧ phys.sectorSize ≠ 0) ∧
    ⟨phys, g.m_blocksize, (phys.size / g.m_blocksize.setWidth 64).setWidth 32,
      g.m_blocksize / phys.sectorSize⟩ = g' := by
  rw [setPhysical, ← not_or]
  split_ifs with hzero
  · simp only [hzero, not_true, false_and]
  · simp only [Option.some.injEq, hzero, not_false_eq_true, true_and]

theorem toNat_blocks (size : BitVec 64) (m_blocksize : Word) :
    ((size / m_blocksize.setWidth 64).setWidth 32 : Word).toNat = size.toNat / m_blocksize.toNat % 2 ^ 32 := by
  have hlt : m_blocksize.toNat < 2 ^ 64 := by
    have hword := m_blocksize.isLt
    omega
  rw [BitVec.toNat_setWidth, BitVec.toNat_udiv, BitVec.toNat_setWidth, Nat.mod_eq_of_lt hlt]

/-- `setPhysical` leaves the fields consistent, on a device of less than 2 ^ 32 blocks. -/
theorem setPhysical_consistent (h : g.setPhysical phys = some g')
    (hsize : phys.size.toNat / g.m_blocksize.toNat < 2 ^ 32) : g'.Consistent := by
  obtain ⟨⟨hne, -⟩, rfl⟩ := setPhysical_eq_some.mp h
  refine ⟨hne, ?_, rfl⟩
  rw [toNat_blocks, Nat.mod_eq_of_lt hsize]

/-- The fields are right after `ClothesFilesystem::setPhysical` exactly when the block size in the header fits
the one that they were computed with. -/
theorem detectLaw_iff (h : g.setPhysical phys = some g') (first : Option Block) :
    g'.DetectLaw first ↔ DetectCond g.m_blocksize phys first := by
  obtain ⟨-, rfl⟩ := setPhysical_eq_some.mp h
  cases first with
  | none => exact iff_of_true ⟨rfl, rfl, rfl⟩ trivial
  | some buf =>
    by_cases hmagic : HasMagic buf
    · simp only [DetectLaw, DetectCond, detect, hmagic, decide_true, if_true, Option.map_some, true_and]
      constructor
      · rintro ⟨hne, hblocks, hsectors⟩
        rw [toNat_blocks] at hblocks
        exact ⟨hne, hblocks, hsectors⟩
      · rintro ⟨hne, hblocks, hsectors⟩
        refine ⟨hne, ?_, hsectors⟩
        rw [toNat_blocks]
        exact hblocks
    · simp only [DetectLaw, DetectCond, detect, hmagic, decide_false, Bool.false_eq_true, if_false, and_true]

/-- The block size of the constructor. The other fields are not set by it. -/
def constructed : Geometry := ⟨⟨0, 0⟩, 512, 0, 0⟩

/-- A device of 4 KiB, when it has been formatted. -/
theorem detectLaw_formatted : (⟨⟨512, 4096⟩, 512, 8, 1⟩ : Geometry).DetectLaw (some (header 4096 none 2)) := by
  have hset : constructed.setPhysical ⟨512, 4096⟩ = some ⟨⟨512, 4096⟩, 512, 8, 1⟩ := rfl
  have hmagic : HasMagic (header 4096 none 2) := by decide +kernel
  have hstored : stored (header 4096 none 2) = 512 := by decide +kernel
  refine (detectLaw_iff hset (some (header 4096 none 2))).mpr ?_
  rw [DetectCond, if_pos hmagic, hstored]
  decide

/-- A first sector that holds zeros is refused, and its block size of zero is kept. -/
theorem not_detectLaw_foreign : constructed.setPhysical ⟨512, 4096⟩ = some ⟨⟨512, 4096⟩, 512, 8, 1⟩ ∧
    (detect ⟨⟨512, 4096⟩, 512, 8, 1⟩ (some clearBuffer)).2 = false ∧
    (detect ⟨⟨512, 4096⟩, 512, 8, 1⟩ (some clearBuffer)).1.m_blocksize = 0 ∧
    ¬ DetectLaw ⟨⟨512, 4096⟩, 512, 8, 1⟩ (some clearBuffer) := by
  have hrefused : (detect ⟨⟨512, 4096⟩, 512, 8, 1⟩ (some clearBuffer)).2 = false := by decide +kernel
  have hzero : (detect ⟨⟨512, 4096⟩, 512, 8, 1⟩ (some clearBuffer)).1.m_blocksize = 0 := by decide +kernel
  refine ⟨rfl, hrefused, hzero, fun h => ?_⟩
  rw [DetectLaw, hrefused, if_neg Bool.false_ne_true, hzero] at h
  exact absurd h.1 (by decide)

end Detect

end Geometry

end CxxKernel.Clothes
