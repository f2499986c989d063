import CxxKernel.Devices.Requests

/-! The address that `prepareAccess` leaves in the registers, in each of the three formats. -/
namespace CxxKernel.Devices.ATA
open Fallible

namespace RegFile
variable (f : RegFile)

def sector : ℕ := f.LBA0.1.toNat

def cylinder : ℕ := f.LBA1.1.toNat + f.LBA2.1.toNat * 2 ^ 8

end RegFile

namespace DevicePrivate

/-- How the drive finds the address in its registers behind `prepareAccess`. -/
structure Decodes (d : DevicePrivate) (addr addr_hi : Word) (s : Io) : Prop where
  lba48 : Big addr addr_hi → s.dev.lba48 = true ∧
    (regs s.log).lba48 = addr.toNat + addr_hi.toNat * 2 ^ 32
  lba28 : ¬ Big addr addr_hi → d.lba = true → s.dev.lba48 = false ∧ (regs s.log).lbaBit = true ∧
    (regs s.log).current + (regs s.log).headNibble * 2 ^ 24 = addr.toNat
  chs : ¬ Big addr addr_hi → d.lba = false → 1 ≤ d.head.toNat → d.head.toNat ≤ 16 → 1 ≤ d.sect.toNat →
    addr.toNat < d.cyl.toNat * d.head.toNat * d.sect.toNat →
    s.dev.lba48 = false ∧ (regs s.log).lbaBit = false ∧
      ((regs s.log).cylinder * d.head.toNat + (regs s.log).headNibble) * d.sect.toNat + (regs s.log).sector - 1 =
        addr.toNat ∧
      1 ≤ (regs s.log).sector ∧ (regs s.log).sector ≤ d.sect.toNat ∧ (regs s.log).headNibble < d.head.toNat

/-! The sectors of a cylinder, counted track by track. -/
section Geometry
variable {a heads sectors cyls : ℕ}

theorem chs_round (a heads sectors : ℕ) :
    (a / sectors / heads * heads + a / sectors % heads) * sectors + a % sectors = a := by
  rw [Nat.div_add_mod', Nat.div_add_mod']

theorem cylinder_lt (h : a < cyls * heads * sectors) : a / sectors / heads < cyls := by
  rw [Nat.div_div_eq_div_mul]
  exact Nat.div_lt_of_lt_mul (by rwa [Nat.mul_comm, Nat.mul_comm sectors, ← Nat.mul_assoc])

theorem track_eq (hs : 0 < sectors) : (a / sectors * sectors) / (heads * sectors) = a / sectors / heads :=
  Nat.mul_div_mul_right _ _ hs

theorem head_eq (hs : 0 < sectors) :
    (a / sectors * sectors) % (heads * sectors) / sectors = a / sectors % heads := by
  rw [Nat.mul_mod_mul_right, Nat.mul_div_cancel _ hs]

end Geometry

section Formats
variable {d : DevicePrivate} {addr addr_hi : Word} {io_addr : List Byte} {head : Byte} {lba48 : Bool} {f : RegFile}

/-- The sector of a track, as it is written to its register. -/
def sectorByte (d : DevicePrivate) (addr : Word) : Byte := (addr % d.sect.setWidth 32 + 1).setWidth 8

theorem toNat_track (d : DevicePrivate) : (d.sect.setWidth 32 : Word).toNat = d.sect.toNat := by
  have hlt := d.sect.isLt
  rw [BitVec.toNat_setWidth, Nat.mod_eq_of_lt (by omega)]

theorem toNat_cylinder (hhead : d.head.toNat ≤ 16) :
    (d.head.setWidth 32 * d.sect.setWidth 32 : Word).toNat = d.head.toNat * d.sect.toNat := by
  have hlt := d.sect.isLt
  have hle : d.head.toNat * d.sect.toNat ≤ 16 * 255 := Nat.mul_le_mul hhead (by omega)
  rw [BitVec.toNat_mul, toNat_track, BitVec.toNat_setWidth, Nat.mod_eq_of_lt (a := d.head.toNat) (by omega),
    Nat.mod_eq_of_lt (by omega)]

theorem toNat_sectorByte (hsect : 1 ≤ d.sect.toNat) (addr : Word) :
    (d.sectorByte addr).toNat = addr.toNat % d.sect.toNat + 1 := by
  have hlt := d.sect.isLt
  have hmod : addr.toNat % d.sect.toNat < d.sect.toNat := Nat.mod_lt _ hsect
  have hone : (1 : Word).toNat = 1 := rfl
  rw [sectorByte, BitVec.toNat_setWidth, BitVec.toNat_add, BitVec.toNat_umod, toNat_track, hone,
    Nat.mod_eq_of_lt (a := _ + 1) (by omega), Nat.mod_eq_of_lt (by omega)]

/-- In front of the track of the sector there are only whole tracks. -/
theorem toNat_wholeTracks (hsect : 1 ≤ d.sect.toNat) (addr : Word) :
    (addr + 1 - (d.sectorByte addr).setWidth 32).toNat = addr.toNat / d.sect.toNat * d.sect.toNat := by
  have hlt := d.sect.isLt
  have haddrlt := addr.isLt
  have hmod : addr.toNat % d.sect.toNat < d.sect.toNat := Nat.mod_lt _ hsect
  have hdiv := Nat.div_add_mod' addr.toNat d.sect.toNat
  have hone : (1 : Word).toNat = 1 := rfl
  have hwide : ((d.sectorByte addr).setWidth 32 : Word).toNat = addr.toNat % d.sect.toNat + 1 := by
    rw [BitVec.toNat_setWidth, toNat_sectorByte hsect, Nat.mod_eq_of_lt (by omega)]
  rw [BitVec.toNat_sub, BitVec.toNat_add, hone, hwide]
  omega

/-- The cylinder, the head and the sector of an address that the drive has. -/
theorem address_chs (hsmall : ¬ Big addr addr_hi) (hlba : d.lba = false) (hhead : 1 ≤ d.head.toNat)
    (hhead' : d.head.toNat ≤ 16) (hsect : 1 ≤ d.sect.toNat)
    (hlt : addr.toNat < d.cyl.toNat * d.head.toNat * d.sect.toNat) :
    ∃ (head : Byte) (cyl : BitVec 16), d.address addr addr_hi =
        ([d.sectorByte addr, cyl.setWidth 8, (cyl >>> 8).setWidth 8, 0, 0, 0], head, false) ∧
      cyl.toNat = addr.toNat / d.sect.toNat / d.head.toNat ∧
      head.toNat = addr.toNat / d.sect.toNat % d.head.toNat := by
  have hpos : 0 < d.sect := hsect
  have hnolba : ¬ d.lba = true := by
    rw [hlba]
    exact Bool.false_ne_true
  have hrest := toNat_wholeTracks hsect addr
  have hsize : (d.head.setWidth 32 * d.sect.setWidth 32 : Word).toNat = _ := toNat_cylinder hhead'
  refine ⟨((addr + 1 - (d.sectorByte addr).setWidth 32) % (d.head.setWidth 32 * d.sect.setWidth 32) /
    d.sect.setWidth 32).setWidth 8, ((addr + 1 - (d.sectorByte addr).setWidth 32) /
    (d.head.setWidth 32 * d.sect.setWidth 32)).setWidth 16, ?_, ?_, ?_⟩
  · rw [address, if_neg hsmall, if_neg hnolba]
    simp only [if_pos hpos]
    rfl
  · have hcylinder := cylinder_lt hlt
    have hcyllt := d.cyl.isLt
    rw [BitVec.toNat_setWidth, BitVec.toNat_udiv, hrest, hsize, track_eq hsect, Nat.mod_eq_of_lt (by omega)]
  · have hheadlt := Nat.mod_lt (addr.toNat / d.sect.toNat) hhead
    rw [BitVec.toNat_setWidth, BitVec.toNat_udiv, BitVec.toNat_umod, hrest, hsize, toNat_track, head_eq hsect,
      Nat.mod_eq_of_lt (by omega)]

theorem Programmed.chs_eq (h : Programmed d io_addr head lba48 f) (hd : ModeMatches d)
    (haddr : d.address addr addr_hi = (io_addr, head, lba48)) (hsmall : ¬ Big addr addr_hi) (hlba : d.lba = false)
    (hhead : 1 ≤ d.head.toNat) (hhead' : d.head.toNat ≤ 16) (hsect : 1 ≤ d.sect.toNat)
    (hlt : addr.toNat < d.cyl.toNat * d.head.toNat * d.sect.toNat) :
    lba48 = false ∧ f.lbaBit = false ∧ f.sector = addr.toNat % d.sect.toNat + 1 ∧
      f.cylinder = addr.toNat / d.sect.toNat / d.head.toNat ∧
      f.headNibble = addr.toNat / d.sect.toNat % d.head.toNat := by
  obtain ⟨head', cyl, haddr', hcyl, hheadval⟩ := address_chs hsmall hlba hhead hhead' hsect hlt
  rw [haddr'] at haddr
  obtain ⟨rfl, hflag⟩ := Prod.mk.inj haddr
  obtain ⟨rfl, rfl⟩ := Prod.mk.inj hflag
  have hheadlt := Nat.mod_lt (addr.toNat / d.sect.toNat) hhead
  obtain ⟨hbit, hnibble, -⟩ := h.readHead hd (by omega)
  have hsplit : (cyl.setWidth 8 : Byte).toNat + ((cyl >>> 8).setWidth 8 : Byte).toNat * 2 ^ 8 = cyl.toNat := by
    have hcyllt := cyl.isLt
    rw [BitVec.toNat_setWidth, BitVec.toNat_setWidth, BitVec.toNat_ushiftRight, Nat.shiftRight_eq_div_pow]
    omega
  refine ⟨rfl, hbit.trans hlba, ?_, ?_, hnibble.trans hheadval⟩
  · rw [RegFile.sector, h.LBA0]
    exact toNat_sectorByte hsect addr
  · rw [RegFile.cylinder, h.LBA1, h.LBA2]
    exact hsplit.trans hcyl

end Formats

section Mode
variable {s s' : Io} {hw : Hardware} {addr addr_hi : Word} {n : BitVec 16} {u : Unit}

/-- The drive's mode goes with its addressing, and `detect` does not come back to a drive in LBA mode. -/
def ModeKept (s : Io) : Prop := ModeMatches s.dev ∧ (s.dev.lba = true → s.dev.avail = true)

/-- The mode, its flag and the availability stay. -/
def SameMode (s s' : Io) : Prop :=
  s'.dev.mode = s.dev.mode ∧ s'.dev.lba = s.dev.lba ∧ s'.dev.avail = s.dev.avail

instance : Std.Refl SameMode := ⟨fun _ => ⟨rfl, rfl, rfl⟩⟩

instance : IsTrans Io SameMode :=
  ⟨fun _ _ _ h h' => ⟨h'.1.trans h.1, h'.2.1.trans h.2.1, h'.2.2.trans h.2.2⟩⟩

theorem SameDrive.sameMode (h : SameDrive s s') : SameMode s s' := by
  rw [SameDrive] at h
  rw [SameMode, h]
  exact ⟨rfl, rfl, rfl⟩

theorem SameMode.kept (h : SameMode s s') (hkept : ModeKept s) : ModeKept s' := by
  obtain ⟨hmode, hlba, havail⟩ := h
  rw [ModeKept, ModeMatches, hmode, hlba, havail]
  exact hkept

theorem sameMode_of_quiet {α : Type} {x : Prog Io α} (h : Keeps (Quiet 0 0) x) : Keeps SameMode x :=
  (sameDrive_of_quiet h).mono fun _ _ hs => hs.sameMode

theorem sameMode_write (port : Reg) (data : Byte) : Keeps SameMode (write port data) :=
  (sameDrive_write port data).mono fun _ _ hs => hs.sameMode

theorem sameMode_identify : Keeps SameMode (identify hw) := by
  have hselect : Keeps SameMode (select hw 0) :=
    (@idle_select 0 0 hw 0).mono fun _ _ hs => hs.sameDrive.sameMode
  apply hselect.bind
  intro _
  apply (sameMode_write _ _).bind
  intro _
  apply (sameMode_of_quiet quiet_wait).bind
  intro _
  exact (sameMode_of_quiet quiet_getStatus).bind fun _ => keeps_guard

theorem sameMode_identifyRound {again : Prog Io Bool} (h : Keeps SameMode again) :
    Keeps SameMode (identifyRound hw again) := by
  apply (sameMode_of_quiet quiet_getStatus).bind
  intro status
  split_ifs
  · exact keeps_pure true
  · exact keeps_pure false
  · exact h

theorem sameMode_identifyLoop (k : ℕ) : Keeps SameMode (identifyLoop hw k) := by
  induction k with
  | zero => exact sameMode_identifyRound keeps_failure
  | succ k ih => exact sameMode_identifyRound ih

theorem sameMode_detectModel : Keeps SameMode (detectModel hw) :=
  (sameMode_of_quiet (quiet_read _)).bind fun _ => (sameMode_of_quiet (quiet_read _)).bind fun _ =>
    keeps_step fun _ => ⟨rfl, rfl, rfl⟩

/-- `identifyData` puts the drive into PIO mode first, and then keeps the mode. -/
theorem identifyData_mode (s : Io) :
    SameMode { s with dev := { s.dev with mode := ATA_MODE_PIO } } (exec (identifyData hw) s).2 := by
  have hfirst : Returns (modifyDev fun d => { d with mode := ATA_MODE_PIO }) s ()
      { s with dev := { s.dev with mode := ATA_MODE_PIO } } := rfl
  rw [identifyData, hfirst.bind]
  refine (?_ : Keeps SameMode _) _
  apply ((sameMode_of_quiet quiet_getDev).bind fun _ => sameMode_write _ _).bind
  intro _
  apply (sameMode_of_quiet quiet_reset).bind
  intro _
  apply sameMode_identify.bind
  intro _
  apply (sameMode_identifyLoop _).bind
  intro error
  apply sameMode_detectModel.bind
  intro _
  apply (sameMode_of_quiet quiet_getDev).bind
  intro d
  refine keeps_guard.bind fun _ => ?_
  have hbuffer : Keeps SameMode (readBuffer hw .data 32) := sameMode_of_quiet (quiet_readBuffer _ _)
  cases error with
  | false => exact hbuffer
  | true => exact (sameMode_write _ _).bind fun _ => hbuffer

theorem identified_kept {d : DevicePrivate} (hmode : d.mode = ATA_MODE_PIO) (hlba : d.lba = false) (buf : List Word) :
    ModeMatches (d.identified buf) ∧ (d.identified buf).avail = true := by
  unfold identified ModeMatches
  by_cases hbuf : HasLba buf
  · simp [hbuf]
  · simp [hbuf, hlba, hmode]

/-- A drive is made in PIO mode without LBA, and `detect` keeps mode and flag together. -/
theorem detect_kept (h : ModeKept s) : ModeKept (exec (detect hw) s).2 := by
  rw [detect, exec_bind]
  change ModeKept (exec (if s.dev.avail ∨ s.dev.basePort = 0 then pure () else _) s).2
  split_ifs with hskip
  · exact h
  · have hlba : s.dev.lba = false := by
      rw [← Bool.not_eq_true]
      exact fun hlba => hskip (.inl (h.2 hlba))
    have hdata := @identifyData_mode hw s
    rw [exec_orElse, exec_bind]
    rcases hexec : exec (identifyData hw) s with ⟨_ | buf, t⟩
    all_goals
      rw [hexec] at hdata
      obtain ⟨hmode, hlba', -⟩ := hdata
    · change t.dev.mode = _ at hmode
      refine ⟨?_, fun ht => ?_⟩
      · rw [ModeMatches]
        change t.dev.mode = if t.dev.lba then _ else _
        rw [hmode, hlba', hlba]
        rfl
      · change t.dev.lba = true at ht
        rw [hlba', hlba] at ht
        cases ht
    · obtain ⟨hmatch, havail⟩ := identified_kept hmode (hlba'.trans hlba) buf
      exact ⟨hmatch, fun _ => havail⟩

/-- The calls that a drive gets. -/
inductive DriveCall
  | detect
  | readSector (n : BitVec 16) (addr addr_hi : Word)
  | writeSector (buffer : ℕ → Word) (n : BitVec 16) (addr addr_hi : Word)

def DriveCall.run (hw : Hardware) (s : Io) : DriveCall → Io
  | .detect => (exec (DevicePrivate.detect hw) s).2
  | .readSector n addr addr_hi => (exec (DevicePrivate.readSector hw n addr addr_hi) s).2
  | .writeSector buffer n addr addr_hi => (exec (DevicePrivate.writeSector hw buffer n addr addr_hi) s).2

/-- In any run from a new drive on, the mode goes with the addressing. -/
theorem modeMatches_run (hmode : s.dev.mode = ATA_MODE_PIO) (hlba : s.dev.lba = false) (calls : List DriveCall) :
    ModeMatches (calls.foldl (DriveCall.run hw) s).dev := by
  have hnew : ModeKept s := by
    rw [ModeKept, ModeMatches, hmode, hlba]
    exact ⟨rfl, fun h => Bool.noConfusion h⟩
  clear hmode hlba
  suffices h : ModeKept (calls.foldl (DriveCall.run hw) s) from h.1
  induction calls generalizing s with
  | nil => exact hnew
  | cons call calls ih =>
    apply ih
    cases call with
    | detect => exact detect_kept hnew
    | readSector n addr addr_hi => exact (sameDrive_readSector n addr addr_hi s).sameMode.kept hnew
    | writeSector buffer n addr addr_hi =>
      exact (sameDrive_writeSector buffer n addr addr_hi s).sameMode.kept hnew

/-- Where `prepareAccess` succeeds, the drive finds the address in its registers, in the format that it has. -/
theorem prepareAccess_decodes (hd : ModeMatches s.dev) (hhi : addr_hi.toNat < 2 ^ 16)
    (h : Returns (prepareAccess hw n addr addr_hi) s u s') : Decodes s.dev addr addr_hi s' := by
  rcases haddr : s.dev.address addr addr_hi with ⟨io_addr, head, lba48⟩
  obtain ⟨hflag, hregs⟩ := prepareAccess_spec haddr h
  refine ⟨fun hbig => ?_, fun hsmall hlba => ?_, fun hsmall hlba hhead hhead' hsect hlt => ?_⟩
  · obtain ⟨-, h48, hvalue⟩ := hregs.lba48_eq haddr hbig
    rw [target, Nat.mod_eq_of_lt hhi] at hvalue
    exact ⟨hflag.trans h48, hvalue⟩
  · obtain ⟨-, h48, hbit, hvalue⟩ := hregs.lba28_eq hd haddr hsmall hlba
    exact ⟨hflag.trans h48, hbit, hvalue⟩
  · obtain ⟨h48, hbit, hsector, hcyl, hnibble⟩ := hregs.chs_eq hd haddr hsmall hlba hhead hhead' hsect hlt
    have hmod := Nat.mod_lt addr.toNat hsect
    have hround := chs_round addr.toNat s.dev.head.toNat s.dev.sect.toNat
    refine ⟨hflag.trans h48, hbit, ?_, ?_, ?_, ?_⟩
    · rw [hcyl, hnibble, hsector, ← Nat.add_assoc, Nat.add_sub_cancel, hround]
    · rw [hsector]
      exact Nat.le_add_left _ _
    · rw [hsector]
      exact hmod
    · rw [hnibble]
      exact Nat.mod_lt _ hhead

/-- A drive with 1024 cylinders, 16 heads and 63 sectors. -/
def chsDrive : Io := ⟨⟨0x1F0, 0, false, true, false, false, false, .ATAMaster, .pata, 0, 1024, 63, 16⟩, []⟩

/-- Drives that are always ready. -/
def ready : Hardware := fun _ _ => 0

theorem prepareAccess_decodes_chs :
    Decodes chsDrive.dev 12345 0 (exec (prepareAccess ready 1 12345 0) chsDrive).2 :=
  prepareAccess_decodes (u := ()) rfl (by decide) (returns_of_fst (by decide +kernel))

end Mode

end DevicePrivate

end CxxKernel.Devices.ATA
