import CxxKernel.Clothes.Volume
import CxxKernel.Devices.Requests
import CxxKernel.Fs.Ustar

/-! The way of a block number from the file systems to the drive, and the size that the drive reports. -/
namespace CxxKernel.Devices
open Fallible ATA DevicePrivate

namespace ATA
variable (hw : Hardware)

def deviceSize (d : DevicePrivate) : Word := d.size

def read (sectors : BitVec 16) (addr addr_hi : Word) : Prog Io (List Word) := readSector hw sectors addr addr_hi

def write (buffer : ℕ → Word) (sectors : BitVec 16) (addr addr_hi : Word) : Prog Io Unit :=
  writeSector hw buffer sectors addr addr_hi

/-- The first sector is read, whatever comes of it. -/
def select : Prog Io Unit := do
  DevicePrivate.select hw 0
  (readSector hw 1 0 0 >>= fun _ => pure ()) <|> pure ()

end ATA

namespace ATAPhys
variable (hw : Hardware)

def read (sectors pos pos_hi : Word) : Prog Io (List Word) := do
  ATA.select hw
  ATA.read hw (sectors.setWidth 16) (pos / 512) pos_hi

def write (buffer : ℕ → Word) (sectors pos pos_hi : Word) : Prog Io Unit := do
  ATA.select hw
  ATA.write hw buffer (sectors.setWidth 16) (pos / 512) pos_hi

def size (d : DevicePrivate) : BitVec 64 := (deviceSize d).setWidth 64

def sectorSize : Word := 512

end ATAPhys

/-- The loop of `getBlock` and of `putBlock`. Its counter goes down from 0, so that it makes one round. -/
def blockLoop {α : Type} (transfer : (block pos pos_hi : Word) → α → Prog Io α)
    (m_blocksize m_block_in_sectors index : Word) : ℕ → (block : Word) → α → Prog Io α
  | 0, _, data => pure data
  | n + 1, block, data =>
    if block < m_block_in_sectors then do
      let pos := (index * m_blocksize).setWidth 64 + (block * ATAPhys.sectorSize).setWidth 64
      let data ← transfer block (pos.setWidth 32) ((pos >>> 32).setWidth 32) data
      blockLoop transfer m_blocksize m_block_in_sectors index n (block - 1) data
    else pure data

/-- The words of a sector stored in a buffer. -/
def store (data : ℕ → Word) (start : ℕ) (words : List Word) : ℕ → Word := fun i =>
  if start ≤ i then words[i - start]?.getD (data i) else data i

/-- `getBlock` with the block size `m_blocksize`, the words of the sectors put into `data`. -/
def getBlock (hw : Hardware) (m_blocksize index : Word) (data : ℕ → Word) : Prog Io (ℕ → Word) :=
  blockLoop (fun block pos pos_hi data => do
    let words ← ATAPhys.read hw 1 pos pos_hi
    pure (store data ((ATAPhys.sectorSize * block).toNat / 4) words))
    m_blocksize (m_blocksize / ATAPhys.sectorSize) index 2 0 data

def Ustar.getBlock (hw : Hardware) (index : Word) (data : ℕ → Word) : Prog Io (ℕ → Word) :=
  Devices.getBlock hw 512 index data

def ClothesFS.getBlock (hw : Hardware) (index : Word) (data : ℕ → Word) : Prog Io (ℕ → Word) :=
  Devices.getBlock hw 512 index data

def ClothesFS.putBlock (hw : Hardware) (index : Word) (data : ℕ → Word) : Prog Io Unit :=
  blockLoop (fun block pos pos_hi _ =>
    ATAPhys.write hw (fun i => data ((ATAPhys.sectorSize * block).toNat / 4 + i)) 1 pos pos_hi)
    512 (512 / ATAPhys.sectorSize) index 2 0 ()

section Asks
variable {heads sectors : ℕ} {hw : Hardware} {s : Io} {index pos pos_hi : Word}

/-- The call asks for `q`, behind the read of the first sector by `ATA::select`. -/
def AsksSelected {α : Type} (heads sectors : ℕ) (q : Request) (s : Io) (r : Option α × Io) : Prop :=
  ∃ t : Io, (requests heads sectors t.log = requests heads sectors s.log ∨
    requests heads sectors t.log = ⟨s.dev.type, false, 0⟩ :: requests heads sectors s.log) ∧
    Asks heads sectors q t r

theorem sameDrive_select : Keeps SameDrive (ATA.select hw) := by
  have hidle := @idle_select 0 0 hw 0
  apply (hidle.mono fun _ _ hs => hs.sameDrive).bind
  intro _
  exact ((sameDrive_readSector 1 0 0).bind fun _ => keeps_pure ()).orElse (keeps_pure ())

theorem select_asks (hd : LbaMode s.dev) :
    requests heads sectors (exec (ATA.select hw) s).2.log = requests heads sectors s.log ∨
      requests heads sectors (exec (ATA.select hw) s).2.log =
        ⟨s.dev.type, false, 0⟩ :: requests heads sectors s.log := by
  have hidle := @idle_select heads sectors hw 0 s
  rw [ATA.select, exec_bind]
  generalize exec (DevicePrivate.select hw 0) s = r at hidle
  obtain ⟨_ | u, t⟩ := r
  · exact .inl hidle.requests
  · have hreq : requests heads sectors t.log = requests heads sectors s.log := hidle.requests
    have hdrive : SameDrive s t := hidle.sameDrive
    have hasks := @readSector_asks heads sectors hw t (hdrive.lbaMode hd) 1 0 0
    rw [hdrive.type] at hasks
    dsimp only
    rw [exec_orElse, exec_bind]
    generalize exec (readSector hw 1 0 0) t = r at hasks
    rw [← hreq]
    obtain ⟨_ | words, t'⟩ := r
    · rcases hasks with ⟨-, hsame⟩ | hasked
      · exact .inl hsame
      · exact .inr hasked
    · rcases hasks with ⟨hnone, -⟩ | hasked
      · cases hnone
      · exact .inr hasked

theorem asksSelected_of_asks {α : Type} {x : Prog Io α} {q : Request} (hd : LbaMode s.dev)
    (hx : ∀ t : Io, LbaMode t.dev → t.dev.type = s.dev.type → Asks heads sectors q t (exec x t)) :
    AsksSelected heads sectors q s (exec (ATA.select hw >>= fun _ => x) s) := by
  have hreq := @select_asks heads sectors hw s hd
  have hdrive := @sameDrive_select hw s
  rw [exec_bind]
  rcases hselect : exec (ATA.select hw) s with ⟨_ | u, t⟩
  · rw [hselect] at hreq
    exact ⟨t, hreq, .inl ⟨rfl, rfl⟩⟩
  · rw [hselect] at hreq hdrive
    exact ⟨t, hreq, hx t (hdrive.lbaMode hd) hdrive.type⟩

theorem read_asks (hd : LbaMode s.dev) (n pos pos_hi : Word) :
    AsksSelected heads sectors ⟨s.dev.type, false, target (pos / 512) pos_hi⟩ s
      (exec (ATAPhys.read hw n pos pos_hi) s) := by
  apply asksSelected_of_asks hd
  intro t ht htype
  rw [← htype]
  exact readSector_asks ht _ _ _

theorem write_asks (hd : LbaMode s.dev) (buffer : ℕ → Word) (n pos pos_hi : Word) :
    AsksSelected heads sectors ⟨s.dev.type, true, target (pos / 512) pos_hi⟩ s
      (exec (ATAPhys.write hw buffer n pos pos_hi) s) := by
  apply asksSelected_of_asks hd
  intro t ht htype
  rw [← htype]
  exact writeSector_asks ht _ _ _ _

/-- The loop makes one round, and the upper half of its position is zero. -/
theorem blockLoop_one {α : Type} (transfer : (block pos pos_hi : Word) → α → Prog Io α) (index : Word) (data : α) :
    blockLoop transfer 512 (512 / ATAPhys.sectorSize) index 2 0 data = transfer 0 (index * 512) 0 data := by
  have hpos : (index * 512).setWidth 64 + (0 * ATAPhys.sectorSize).setWidth 64 = (index * 512).setWidth 64 := by
    unfold ATAPhys.sectorSize
    bv_omega
  have hlow : ((index * 512).setWidth 64).setWidth 32 = index * 512 := by bv_omega
  have hhigh : (((index * 512).setWidth 64 : BitVec 64) >>> 32).setWidth 32 = (0 : Word) := by
    have hlt := (index * 512).isLt
    apply BitVec.eq_of_toNat_eq
    rw [BitVec.toNat_setWidth, BitVec.toNat_ushiftRight, BitVec.toNat_setWidth, Nat.shiftRight_eq_div_pow]
    have hzero : (0 : Word).toNat = 0 := rfl
    omega
  have hfirst : (0 : Word) < 512 / ATAPhys.sectorSize := by decide
  have hlast : ¬ (0 - 1 : Word) < 512 / ATAPhys.sectorSize := by decide
  rw [blockLoop, if_pos hfirst]
  simp only [hpos, hlow, hhigh, blockLoop, if_neg hlast, bind_pure]

/-- The sector of a block number, whether it is one of the volume or not. -/
theorem target_blockPos (index : Word) : target (index * 512 / 512) 0 = Clothes.sectorOf index := by
  have hzero : (0 : Word).toNat = 0 := rfl
  have hsize : (512 : Word).toNat = 512 := rfl
  rw [target, hzero, BitVec.toNat_udiv, hsize]
  rfl

theorem sectorOf_eq (index : Word) : Clothes.sectorOf index = index.toNat % 2 ^ 23 := by
  have hsize : (BitVec.ofNat 32 Clothes.blocksize).toNat = 512 := rfl
  rw [Clothes.sectorOf, Clothes.blockPos, BitVec.toNat_mul, hsize]
  change index.toNat * 512 % 2 ^ 32 / 512 = _
  omega

theorem AsksSelected.map {α β : Type} {x : Prog Io α} {g : α → β} {q : Request}
    (h : AsksSelected heads sectors q s (exec x s)) :
    AsksSelected heads sectors q s (exec (x >>= fun a => pure (g a)) s) := by
  rw [exec_bind]
  generalize exec x s = r at h
  obtain ⟨t, hreq, hasks⟩ := h
  obtain ⟨_ | a, s'⟩ := r
  · exact ⟨t, hreq, hasks.imp_left fun hn => ⟨rfl, hn.2⟩⟩
  · exact ⟨t, hreq, .inr (hasks.resolve_left fun hn => by cases hn.1)⟩

theorem getBlock_asks (hd : LbaMode s.dev) (data : ℕ → Word) :
    AsksSelected heads sectors ⟨s.dev.type, false, Clothes.sectorOf index⟩ s
      (exec (Devices.getBlock hw 512 index data) s) := by
  have hread := @read_asks heads sectors hw s hd 1 (index * 512) 0
  rw [target_blockPos] at hread
  rw [Devices.getBlock, blockLoop_one]
  exact hread.map

theorem putBlock_asks (hd : LbaMode s.dev) (data : ℕ → Word) :
    AsksSelected heads sectors ⟨s.dev.type, true, Clothes.sectorOf index⟩ s
      (exec (ClothesFS.putBlock hw index data) s) := by
  have hwrite := @write_asks heads sectors hw s hd
    (fun i => data ((ATAPhys.sectorSize * 0).toNat / 4 + i)) 1 (index * 512) 0
  rw [target_blockPos] at hwrite
  rw [ClothesFS.putBlock, blockLoop_one]
  exact hwrite

end Asks

/-- The walk over an archive reads the sector that is asked for here. -/
theorem ustar_position (index : Word) : (index * Fs.Ustar.blockSize).toNat / 512 = target (index * 512 / 512) 0 := by
  rw [target_blockPos]
  rfl

/-- A disk of `n` sectors seen through the file systems: its size, and the sector of each block. The drive
may have answered anything and may have been asked for anything before. -/
structure BlockAddressing (d : DevicePrivate) (n : ℕ) : Prop where
  size : (ATAPhys.size d).toNat = 512 * n
  ustar : ∀ heads sectors hw s index data, SameDrive ⟨d, []⟩ s → index.toNat < n →
    AsksSelected heads sectors ⟨d.type, false, index.toNat⟩ s (exec (Ustar.getBlock hw index data) s)
  getBlock : ∀ heads sectors hw s index data, SameDrive ⟨d, []⟩ s → index.toNat < n →
    AsksSelected heads sectors ⟨d.type, false, index.toNat⟩ s (exec (ClothesFS.getBlock hw index data) s)
  putBlock : ∀ heads sectors hw s index data, SameDrive ⟨d, []⟩ s → index.toNat < n →
    AsksSelected heads sectors ⟨d.type, true, index.toNat⟩ s (exec (ClothesFS.putBlock hw index data) s)

section Identified
variable {hw : Hardware} {s s₁ : Io} {buf : List Word}

theorem identified_lba (d : DevicePrivate) (h : HasLba buf) : LbaMode (d.identified buf) ∧
    (d.identified buf).size = wordAt buf ATA_IDENT_MAX_LBA * 512 := by
  rw [identified, if_pos h]
  exact ⟨⟨rfl, rfl⟩, rfl⟩

theorem detect_identified (havail : s.dev.avail = false) (hport : s.dev.basePort ≠ 0)
    (h : Returns (identifyData hw) s buf s₁) :
    Returns (detect hw) s () { s₁ with dev := s₁.dev.identified buf } := by
  have hno : ¬ (s.dev.avail = true ∨ s.dev.basePort = 0) := by
    rw [havail]
    exact not_or.mpr ⟨Bool.false_ne_true, hport⟩
  rw [detect, returns_bind]
  refine ⟨s.dev, s, rfl, ?_⟩
  rw [if_neg hno, returns_orElse, returns_bind]
  exact .inl ⟨buf, s₁, h, rfl⟩

theorem blockAddressing_iff_of_lba {d : DevicePrivate} {n : Word} (hd : LbaMode d) (hsize : d.size = n * 512) :
    BlockAddressing d n.toNat ↔ n.toNat < 2 ^ 23 := by
  have hbytes : (ATAPhys.size d).toNat = n.toNat * 512 % 2 ^ 32 := by
    have hlt : n.toNat * 512 % 2 ^ 32 < 2 ^ 64 := by omega
    rw [ATAPhys.size, deviceSize, hsize, BitVec.toNat_setWidth, BitVec.toNat_mul]
    exact Nat.mod_eq_of_lt hlt
  constructor
  · intro h
    have hexact := h.size
    omega
  · intro hlt
    have hlba : ∀ {s : Io}, SameDrive ⟨d, []⟩ s → LbaMode s.dev ∧ s.dev.type = d.type :=
      fun hs => ⟨hs.lbaMode hd, hs.type⟩
    have hsector : ∀ index : Word, index.toNat < n.toNat → Clothes.sectorOf index = index.toNat := by
      intro index hindex
      rw [sectorOf_eq]
      omega
    constructor
    · omega
    · intro heads sectors hw s index data hs hindex
      obtain ⟨hmode, htype⟩ := hlba hs
      rw [← htype, ← hsector index hindex]
      exact getBlock_asks hmode data
    · intro heads sectors hw s index data hs hindex
      obtain ⟨hmode, htype⟩ := hlba hs
      rw [← htype, ← hsector index hindex]
      exact getBlock_asks hmode data
    · intro heads sectors hw s index data hs hindex
      obtain ⟨hmode, htype⟩ := hlba hs
      rw [← htype, ← hsector index hindex]
      exact putBlock_asks hmode data

/-- Blocks are addressed right exactly on disks of less than 4 GiB. -/
theorem blockAddressing_iff (havail : s.dev.avail = false) (hport : s.dev.basePort ≠ 0)
    (h : Returns (identifyData hw) s buf s₁) (hlba : HasLba buf) :
    ∃ s₂, Returns (detect hw) s () s₂ ∧
      (BlockAddressing s₂.dev (wordAt buf ATA_IDENT_MAX_LBA).toNat ↔
        (wordAt buf ATA_IDENT_MAX_LBA).toNat < 2 ^ 23) := by
  obtain ⟨hd, hsize⟩ := identified_lba s₁.dev hlba
  exact ⟨_, detect_identified havail hport h, blockAddressing_iff_of_lba hd hsize⟩

end Identified

/-- A drive that is ready, with the data `words` behind its data port. -/
def answers (words : List Word) : Hardware := fun log r =>
  match r with
  | .data =>
    let n := log.countP fun | .portIn16 _ => true | _ => false
    ((words.getD (n / 2) 0) >>> (16 * (n % 2))).setWidth 16
  | .command => 0x48
  | _ => 0

/-- The data of a drive with `n` sectors in LBA mode. -/
def identity (n : Word) : List Word := (List.replicate 32 0).set 24 0x02000000 |>.set 30 n

def freshDrive : Io :=
  ⟨⟨0x1F0, 0, false, false, false, false, false, .ATAMaster, .unknown, 0, 0, 0, 0⟩, []⟩

theorem blockAddressing_iff_small : ∃ s₂, Returns (detect (answers (identity 2048))) freshDrive () s₂ ∧
    BlockAddressing s₂.dev 2048 := by
  have hdata : (exec (identifyData (answers (identity 2048))) freshDrive).1 = some (identity 2048) := by
    decide +kernel
  obtain ⟨s₂, hdetect, hiff⟩ := blockAddressing_iff rfl (by decide) (returns_of_fst hdata) (by decide)
  exact ⟨s₂, hdetect, hiff.mpr (by decide)⟩

/-- A disk of 4 GiB and one sector: it looks like a disk of one sector, and block 2 ^ 23 is the first one
again. -/
theorem blocks_alias : ∃ s₂, Returns (detect (answers (identity 0x800001))) freshDrive () s₂ ∧
    ATAPhys.size s₂.dev = 512 ∧ ¬ BlockAddressing s₂.dev 0x800001 ∧
    ∀ heads sectors hw s data, SameDrive ⟨s₂.dev, []⟩ s →
      AsksSelected heads sectors ⟨s₂.dev.type, false, 0⟩ s (exec (ClothesFS.getBlock hw 0x800000 data) s) := by
  have hdata : (exec (identifyData (answers (identity 0x800001))) freshDrive).1 = some (identity 0x800001) := by
    decide +kernel
  have hdetect := detect_identified rfl (by decide) (returns_of_fst hdata)
  obtain ⟨hd, hsize⟩ := identified_lba
    (exec (identifyData (answers (identity 0x800001))) freshDrive).2.dev (show HasLba (identity 0x800001) by decide)
  have hlba : wordAt (identity 0x800001) ATA_IDENT_MAX_LBA = 0x800001 := by decide
  rw [hlba] at hsize
  refine ⟨_, hdetect, ?_, ?_, ?_⟩
  · rw [ATAPhys.size, deviceSize, hsize]
    decide
  · intro h
    exact absurd ((blockAddressing_iff_of_lba hd hsize).mp h) (by decide)
  · intro heads sectors hw s data hs
    have hsector : Clothes.sectorOf 0x800000 = 0 := by decide
    have hasks := @getBlock_asks heads sectors hw s 0x800000 (hs.lbaMode hd) data
    rw [hs.type, hsector] at hasks
    exact hasks

end CxxKernel.Devices
