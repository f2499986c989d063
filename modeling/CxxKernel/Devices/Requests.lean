import CxxKernel.Devices.Drive

/-! What a drive is asked for, as it reads the accesses to its registers: the driver asks for the sector
that it is given. -/
namespace CxxKernel.Devices.ATA
open Fallible

/-- The address registers hold the last two bytes written to them, the last one first. -/
structure RegFile where
  LBA0 : Byte × Byte
  LBA1 : Byte × Byte
  LBA2 : Byte × Byte
  devSel : Byte

namespace RegFile

def put (f : RegFile) : Reg → Byte → RegFile
  | .LBA0, v => { f with LBA0 := (v, f.LBA0.1) }
  | .LBA1, v => { f with LBA1 := (v, f.LBA1.1) }
  | .LBA2, v => { f with LBA2 := (v, f.LBA2.1) }
  | .devSel, v => { f with devSel := v }
  | _, _ => f

/-- The address of a 48-bit command. -/
def lba48 (f : RegFile) : ℕ :=
  f.LBA0.1.toNat + f.LBA1.1.toNat * 2 ^ 8 + f.LBA2.1.toNat * 2 ^ 16 +
    f.LBA0.2.toNat * 2 ^ 24 + f.LBA1.2.toNat * 2 ^ 32 + f.LBA2.2.toNat * 2 ^ 40

/-- The address of any other command: 28 bits, or a cylinder, a head and a sector of the drive. -/
def lba28 (heads sectors : ℕ) (f : RegFile) : ℕ :=
  if f.devSel.getLsbD 6 then
    f.LBA0.1.toNat + f.LBA1.1.toNat * 2 ^ 8 + f.LBA2.1.toNat * 2 ^ 16 + f.devSel.toNat % 16 * 2 ^ 24
  else ((f.LBA1.1.toNat + f.LBA2.1.toNat * 2 ^ 8) * heads + f.devSel.toNat % 16) * sectors +
    f.LBA0.1.toNat - 1

section Readings
variable (f : RegFile)

/-- The last bytes written to the three address registers. -/
def current : ℕ := f.LBA0.1.toNat + f.LBA1.1.toNat * 2 ^ 8 + f.LBA2.1.toNat * 2 ^ 16

def headNibble : ℕ := f.devSel.toNat % 16

/-- The drive is addressed by sectors, not by cylinders. -/
def lbaBit : Bool := f.devSel.getLsbD 6

end Readings

end RegFile

/-- What a command asks for: the drive of the channel, whether it writes, and its first sector. -/
structure Request where
  type : DeviceType
  write : Bool
  lba : ℕ
  deriving DecidableEq

/-- The registers after these accesses. -/
def regs : List Access → RegFile
  | [] => ⟨(0, 0), (0, 0), (0, 0), 0⟩
  | .portOut r v :: log => (regs log).put r v
  | _ :: log => regs log

section Requests
variable (heads sectors : ℕ)

/-- The drive's reading of a command. -/
def asked (f : RegFile) (cmd : Byte) : Option Request :=
  let type := if f.devSel.getLsbD 4 then DeviceType.ATASlave else .ATAMaster
  if cmd = ATA_CMD_READ_48 ∨ cmd = ATA_CMD_READ_DMA_48 then some ⟨type, false, f.lba48⟩
  else if cmd = ATA_CMD_READ ∨ cmd = ATA_CMD_READ_DMA then some ⟨type, false, f.lba28 heads sectors⟩
  else if cmd = ATA_CMD_WRITE_48 ∨ cmd = ATA_CMD_WRITE_DMA_48 then some ⟨type, true, f.lba48⟩
  else if cmd = ATA_CMD_WRITE ∨ cmd = ATA_CMD_WRITE_DMA then some ⟨type, true, f.lba28 heads sectors⟩
  else none

/-- What the drive has been asked for, the last request first. -/
def requests : List Access → List Request
  | [] => []
  | .portOut .command v :: log => (asked heads sectors (regs log) v).toList ++ requests log
  | _ :: log => requests log

end Requests

namespace DevicePrivate
variable {heads sectors : ℕ} {hw : Hardware}

/-- Nothing has happened that the drive looks at. -/
structure Quiet (heads sectors : ℕ) (s s' : Io) : Prop where
  dev : s'.dev = s.dev
  regs : regs s'.log = regs s.log
  requests : requests heads sectors s'.log = requests heads sectors s.log

instance : Std.Refl (Quiet heads sectors) := ⟨fun _ => ⟨rfl, rfl, rfl⟩⟩

instance : IsTrans Io (Quiet heads sectors) :=
  ⟨fun _ _ _ h h' => ⟨h'.dev.trans h.dev, h'.regs.trans h.regs, h'.requests.trans h.requests⟩⟩

theorem keeps_step {R : Io → Io → Prop} {α : Type} {f : Io → α × Io} (h : ∀ s, R s (f s).2) :
    Keeps R (step f) := h

section Quiet

theorem quiet_read (port : Reg) : Keeps (Quiet heads sectors) (read hw port) :=
  keeps_step fun _ => ⟨rfl, rfl, rfl⟩

theorem quiet_read16 (port : Reg) : Keeps (Quiet heads sectors) (read16 hw port) :=
  keeps_step fun _ => ⟨rfl, rfl, rfl⟩

theorem quiet_write32 (port : Reg) (data : Word) : Keeps (Quiet heads sectors) (write32 port data) :=
  keeps_step fun _ => ⟨rfl, rfl, rfl⟩

theorem quiet_getDev : Keeps (Quiet heads sectors) getDev := keeps_step fun s => refl_of _ s

theorem quiet_readTimes (port : Reg) (n : ℕ) : Keeps (Quiet heads sectors) (readTimes hw port n) := by
  induction n with
  | zero => exact keeps_pure ()
  | succ n ih => exact (quiet_read port).bind fun _ => ih

theorem quiet_wait : Keeps (Quiet heads sectors) (wait hw) := quiet_readTimes _ _

theorem quiet_getStatus : Keeps (Quiet heads sectors) (getStatus hw) := quiet_read _

theorem quiet_waitBusy (n : ℕ) : Keeps (Quiet heads sectors) (waitBusy hw n) := by
  induction n with
  | zero => exact quiet_getStatus.bind fun _ => keeps_failure
  | succ n ih =>
    apply quiet_getStatus.bind
    intro stat
    split_ifs
    · exact ih
    · exact keeps_pure ()

theorem quiet_waitExtra (extra extra_val : Byte) (n : ℕ) :
    Keeps (Quiet heads sectors) (waitExtra hw extra extra_val n) := by
  induction n with
  | zero => exact quiet_getStatus.bind fun _ => keeps_failure
  | succ n ih =>
    apply quiet_getStatus.bind
    intro stat
    apply quiet_wait.bind
    intro _
    split_ifs
    · exact ih
    · exact keeps_pure ()

theorem quiet_waitStatus (extra extra_val : Byte) : Keeps (Quiet heads sectors) (waitStatus hw extra extra_val) := by
  apply (quiet_waitBusy _).bind
  intro _
  split_ifs
  · exact quiet_waitExtra _ _ _
  · exact keeps_pure ()

theorem quiet_command {cmd : Byte} (hnone : ∀ f, asked heads sectors f cmd = none) :
    Keeps (Quiet heads sectors) (write .command cmd) := by
  apply keeps_step
  intro s
  constructor
  · rfl
  · rfl
  · change (asked heads sectors (regs s.log) cmd).toList ++ requests heads sectors s.log = _
    rw [hnone]
    rfl

theorem quiet_reset : Keeps (Quiet heads sectors) (reset hw) :=
  (quiet_command fun _ => rfl).bind fun _ => (quiet_command fun _ => rfl).bind fun _ =>
    quiet_wait.bind fun _ => quiet_waitStatus _ _

theorem quiet_poll (extra : Bool) : Keeps (Quiet heads sectors) (poll hw extra) := by
  apply quiet_wait.bind
  intro _
  apply (quiet_waitStatus _ _).bind
  intro _
  split_ifs
  · exact quiet_getStatus.bind fun _ => keeps_guard.bind fun _ => keeps_guard.bind fun _ => keeps_guard
  · exact keeps_pure ()

theorem quiet_readBuffer (port : Reg) (n : ℕ) : Keeps (Quiet heads sectors) (readBuffer hw port n) := by
  induction n with
  | zero => exact keeps_pure _
  | succ n ih =>
    exact (quiet_read16 port).bind fun _ => (quiet_read16 port).bind fun _ => ih.bind fun _ => keeps_pure _

theorem quiet_writeBuffer (port : Reg) (buffer : ℕ → Word) (pos n : ℕ) :
    Keeps (Quiet heads sectors) (writeBuffer port buffer pos n) := by
  induction n generalizing pos with
  | zero => exact keeps_pure _
  | succ n ih => exact (quiet_write32 port _).bind fun _ => ih _

theorem quiet_readLoop (n : ℕ) : Keeps (Quiet heads sectors) (readLoop hw n) := by
  induction n with
  | zero => exact keeps_pure _
  | succ n ih =>
    exact (quiet_poll true).bind fun _ => (quiet_readBuffer _ _).bind fun _ => ih.bind fun _ => keeps_pure _

theorem quiet_writeLoop (buffer : ℕ → Word) (pos n : ℕ) :
    Keeps (Quiet heads sectors) (writeLoop hw buffer pos n) := by
  induction n generalizing pos with
  | zero => exact keeps_pure _
  | succ n ih => exact (quiet_poll false).bind fun _ => (quiet_writeBuffer _ _ _ _).bind fun _ => ih _

end Quiet

section Program
variable {s s' : Io} {d : DevicePrivate} {addr addr_hi : Word} {n : BitVec 16}

/-- No request was made, and of the drive's data only `m_lba48` may have changed. -/
structure Idle (heads sectors : ℕ) (s s' : Io) : Prop where
  dev : s'.dev = { s.dev with lba48 := s'.dev.lba48 }
  requests : requests heads sectors s'.log = requests heads sectors s.log

instance : Std.Refl (Idle heads sectors) := ⟨fun _ => ⟨rfl, rfl⟩⟩

instance : IsTrans Io (Idle heads sectors) :=
  ⟨fun _ _ _ h h' => ⟨by rw [h'.dev, h.dev], h'.requests.trans h.requests⟩⟩

theorem Quiet.idle (h : Quiet heads sectors s s') : Idle heads sectors s s' :=
  ⟨by rw [h.dev], h.requests⟩

theorem idle_of_quiet {α : Type} {x : Prog Io α} (h : Keeps (Quiet heads sectors) x) :
    Keeps (Idle heads sectors) x := h.mono fun _ _ => Quiet.idle

theorem exec_program (n : BitVec 16) (io_addr : List Byte) (lba48 : Bool) (s : Io) :
    ∃ log, exec (program n io_addr lba48) s = (some (), { s with log }) ∧
      requests heads sectors log = requests heads sectors s.log ∧
      regs log = { regs s.log with
        LBA0 := (io_addr.getD 0 0, if lba48 then io_addr.getD 3 0 else (regs s.log).LBA0.1)
        LBA1 := (io_addr.getD 1 0, if lba48 then io_addr.getD 4 0 else (regs s.log).LBA1.1)
        LBA2 := (io_addr.getD 2 0, if lba48 then io_addr.getD 5 0 else (regs s.log).LBA2.1) } := by
  cases lba48 with
  | false => exact ⟨_, rfl, rfl, rfl⟩
  | true => exact ⟨_, rfl, rfl, rfl⟩

theorem idle_select (head : Byte) : Keeps (Idle heads sectors) (select hw head) :=
  (idle_of_quiet quiet_getDev).bind fun _ => (keeps_step fun _ => ⟨rfl, rfl⟩).bind fun _ =>
    idle_of_quiet quiet_wait

theorem idle_prepareAccess (n : BitVec 16) (addr addr_hi : Word) :
    Keeps (Idle heads sectors) (prepareAccess hw n addr addr_hi) := by
  have hmodify : ∀ b : Bool, Keeps (Idle heads sectors) (modifyDev fun d => { d with lba48 := b }) :=
    fun b => keeps_step fun _ => ⟨rfl, rfl⟩
  have hprogram : ∀ (io_addr : List Byte) (b : Bool), Keeps (Idle heads sectors) (program n io_addr b) := by
    intro io_addr b s
    obtain ⟨log, hexec, hreq, -⟩ := @exec_program heads sectors n io_addr b s
    rw [hexec]
    exact ⟨rfl, hreq⟩
  apply (hmodify false).bind
  intro _
  apply (idle_of_quiet quiet_reset).bind
  intro _
  apply (idle_of_quiet quiet_getDev).bind
  intro d
  apply (hmodify _).bind
  intro _
  apply (idle_of_quiet (quiet_waitStatus 0 0)).bind
  intro _
  apply (idle_select _).bind
  intro _
  apply (idle_of_quiet (quiet_waitStatus 0 0)).bind
  intro _
  exact hprogram _ _

/-- The registers are programmed with these bytes; the older ones count in a 48-bit command only. -/
structure Programmed (d : DevicePrivate) (io_addr : List Byte) (head : Byte) (lba48 : Bool) (f : RegFile) : Prop where
  devSel : f.devSel = ATA_DEVSEL_CONST ||| d.mode ||| typeBit d.type ||| head
  LBA0 : f.LBA0.1 = io_addr.getD 0 0
  LBA1 : f.LBA1.1 = io_addr.getD 1 0
  LBA2 : f.LBA2.1 = io_addr.getD 2 0
  previous : lba48 = true → f.LBA0.2 = io_addr.getD 3 0 ∧ f.LBA1.2 = io_addr.getD 4 0 ∧ f.LBA2.2 = io_addr.getD 5 0

theorem prepareAccess_spec {u : Unit} {io_addr : List Byte} {head : Byte} {lba48 : Bool}
    (haddr : s.dev.address addr addr_hi = (io_addr, head, lba48))
    (h : Returns (prepareAccess hw n addr addr_hi) s u s') :
    s'.dev.lba48 = lba48 ∧ Programmed s.dev io_addr head lba48 (regs s'.log) := by
  simp only [prepareAccess, returns_bind] at h
  obtain ⟨_, s₁, hfirst, _, s₂, hreset, d, s₃, hget, _, s₄, hsecond, _, s₅, hwait, _, s₆, hselect, _, s₇,
    hwait', hprogram⟩ := h
  obtain ⟨-, rfl⟩ := Prod.mk.inj (returns_step.mp hfirst)
  obtain ⟨rfl, rfl⟩ := Prod.mk.inj (returns_step.mp hget)
  obtain ⟨-, rfl⟩ := Prod.mk.inj (returns_step.mp hsecond)
  have hdev₂ : s₂.dev = { s.dev with lba48 := false } := (quiet_reset.returns hreset : Quiet 0 0 _ _).dev
  have haddr₂ : s₂.dev.address addr addr_hi = (io_addr, head, lba48) := by
    rw [hdev₂]
    exact haddr
  rw [haddr₂] at hwait hselect hprogram
  have hdev₅ : s₅.dev = { s₂.dev with lba48 } := (quiet_waitStatus 0 0 |>.returns hwait : Quiet 0 0 _ _).dev
  simp only [select, returns_bind] at hselect
  obtain ⟨d, s₈, hget, _, s₉, hwrite, hlast⟩ := hselect
  obtain ⟨rfl, rfl⟩ := Prod.mk.inj (returns_step.mp hget)
  obtain ⟨-, rfl⟩ := Prod.mk.inj (returns_step.mp hwrite)
  have hquiet₆ : Quiet 0 0 _ s₆ := quiet_wait.returns hlast
  have hquiet₇ : Quiet 0 0 s₆ s₇ := (quiet_waitStatus 0 0).returns hwait'
  obtain ⟨log, hexec, -, hregs⟩ := @exec_program 0 0 n io_addr lba48 s₇
  have hend : s' = { s₇ with log } := by
    have heq := hexec.symm.trans hprogram
    exact (Prod.mk.inj heq).2.symm
  have hregs₇ : (regs s₇.log).devSel = ATA_DEVSEL_CONST ||| s₅.dev.mode ||| typeBit s₅.dev.type ||| head := by
    rw [hquiet₇.regs, hquiet₆.regs]
    rfl
  have hdev₇ : s₇.dev.lba48 = lba48 := by
    rw [hquiet₇.dev, hquiet₆.dev, hdev₅]
  rw [hend]
  refine ⟨hdev₇, ?_⟩
  change Programmed s.dev io_addr head lba48 (regs log)
  rw [hregs]
  constructor
  · rw [hdev₅, hdev₂] at hregs₇
    exact hregs₇
  · rfl
  · rfl
  · rfl
  · intro hb
    simp only [hb, if_true, and_self]

end Program

section Requests
variable {s : Io} {d : DevicePrivate} {addr addr_hi : Word} {io_addr : List Byte} {head : Byte} {lba48 : Bool}
  {f : RegFile}

/-- The drive is addressed by sectors. -/
def LbaMode (d : DevicePrivate) : Prop := d.lba = true ∧ d.mode = ATA_MODE_LBA

def target (addr addr_hi : Word) : ℕ := addr.toNat + addr_hi.toNat % 2 ^ 16 * 2 ^ 32

/-- The address needs 48 bits. -/
abbrev Big (addr addr_hi : Word) : Prop := 0x10000000 ≤ addr ∨ 0 < addr_hi

/-- The mode goes with the way in which the drive is addressed. -/
def ModeMatches (d : DevicePrivate) : Prop := d.mode = if d.lba then ATA_MODE_LBA else ATA_MODE_PIO

theorem LbaMode.matches (hd : LbaMode d) : ModeMatches d := by
  rw [ModeMatches, if_pos hd.1]
  exact hd.2

theorem devSel_of_mode (lba : Bool) (t : DeviceType) : ∀ head : Byte, head.toNat < 16 →
    (ATA_DEVSEL_CONST ||| (if lba then ATA_MODE_LBA else ATA_MODE_PIO) ||| typeBit t ||| head).getLsbD 6 = lba ∧
      (ATA_DEVSEL_CONST ||| (if lba then ATA_MODE_LBA else ATA_MODE_PIO) ||| typeBit t ||| head).toNat % 16 =
        head.toNat ∧
      ((ATA_DEVSEL_CONST ||| (if lba then ATA_MODE_LBA else ATA_MODE_PIO) ||| typeBit t ||| head).getLsbD 4 = true ↔
        t = .ATASlave) := by
  cases lba <;> cases t <;> decide

/-- A head that fits its nibble is read back, with the mode and the type of the drive. -/
theorem Programmed.readHead (h : Programmed d io_addr head lba48 f) (hd : ModeMatches d) (hhead : head.toNat < 16) :
    f.lbaBit = d.lba ∧ f.headNibble = head.toNat ∧ (f.devSel.getLsbD 4 = true ↔ d.type = .ATASlave) := by
  rw [RegFile.lbaBit, RegFile.headNibble, h.devSel, hd]
  exact devSel_of_mode d.lba d.type head hhead

theorem toNat_byteOf (x : Word) (i : ℕ) : (byteOf x i).toNat = x.toNat / 2 ^ (8 * i) % 2 ^ 8 := by
  rw [byteOf, BitVec.toNat_setWidth, BitVec.toNat_ushiftRight, Nat.shiftRight_eq_div_pow]

theorem toNat_headOf (x : Word) : (((x &&& 0xF000000) >>> 24).setWidth 8 : Byte).toNat = x.toNat / 2 ^ 24 % 16 := by
  have hmask : (x &&& 0xF000000) >>> 24 = x >>> 24 &&& 0xF := BitVec.ushiftRight_and_distrib x _ 24
  have hlow : (0xF : Word).toNat = 2 ^ 4 - 1 := rfl
  rw [hmask, BitVec.toNat_setWidth, BitVec.toNat_and, BitVec.toNat_ushiftRight, hlow, Nat.and_two_pow_sub_one_eq_mod,
    Nat.shiftRight_eq_div_pow]
  omega

theorem Programmed.lba48_eq (h : Programmed d io_addr head lba48 f)
    (haddr : d.address addr addr_hi = (io_addr, head, lba48)) (hbig : Big addr addr_hi) :
    head = 0 ∧ lba48 = true ∧ f.lba48 = target addr addr_hi := by
  rw [address, if_pos hbig] at haddr
  obtain ⟨rfl, hrest⟩ := Prod.mk.inj haddr
  obtain ⟨rfl, rfl⟩ := Prod.mk.inj hrest
  obtain ⟨h₃, h₄, h₅⟩ := h.previous rfl
  refine ⟨rfl, rfl, ?_⟩
  rw [RegFile.lba48, h.LBA0, h.LBA1, h.LBA2, h₃, h₄, h₅]
  simp only [List.getD_cons_zero, List.getD_cons_succ, toNat_byteOf, target]
  have hlt := addr.isLt
  omega

/-- An address of 28 bits is read back, its highest bits from the head. -/
theorem Programmed.lba28_eq (h : Programmed d io_addr head lba48 f) (hd : ModeMatches d)
    (haddr : d.address addr addr_hi = (io_addr, head, lba48)) (hsmall : ¬ Big addr addr_hi) (hlba : d.lba = true) :
    head.toNat < 16 ∧ lba48 = false ∧ f.lbaBit = true ∧ f.current + f.headNibble * 2 ^ 24 = addr.toNat := by
  have hlt : addr.toNat < 2 ^ 28 := Nat.not_le.mp (not_or.mp hsmall).1
  rw [address, if_neg hsmall, if_pos hlba] at haddr
  obtain ⟨rfl, hrest⟩ := Prod.mk.inj haddr
  obtain ⟨rfl, rfl⟩ := Prod.mk.inj hrest
  have hhead := toNat_headOf addr
  have hsixteen : (((addr &&& 0xF000000) >>> 24).setWidth 8 : Byte).toNat < 16 := by omega
  obtain ⟨hbit, hnibble, -⟩ := h.readHead hd hsixteen
  refine ⟨hsixteen, rfl, hbit.trans hlba, ?_⟩
  rw [RegFile.current, hnibble, h.LBA0, h.LBA1, h.LBA2]
  simp only [List.getD_cons_zero, List.getD_cons_succ, toNat_byteOf, toNat_headOf]
  omega

theorem Programmed.target_eq (h : Programmed d io_addr head lba48 f) (hd : LbaMode d)
    (haddr : d.address addr addr_hi = (io_addr, head, lba48)) :
    (f.devSel.getLsbD 4 = true ↔ d.type = .ATASlave) ∧
      (if lba48 then f.lba48 else f.lba28 heads sectors) = target addr addr_hi := by
  by_cases hbig : Big addr addr_hi
  · obtain ⟨rfl, rfl, hvalue⟩ := h.lba48_eq haddr hbig
    exact ⟨(h.readHead hd.matches (by decide)).2.2, hvalue⟩
  · obtain ⟨hhead, rfl, hbit, hvalue⟩ := h.lba28_eq hd.matches haddr hbig hd.1
    have hhi : addr_hi.toNat = 0 := Nat.eq_zero_of_not_pos (not_or.mp hbig).2
    have hsel : f.devSel.getLsbD 6 = true := hbit
    refine ⟨(h.readHead hd.matches hhead).2.2, ?_⟩
    rw [if_neg Bool.false_ne_true, RegFile.lba28, if_pos hsel, target, hhi, Nat.zero_mod, Nat.zero_mul, Nat.add_zero]
    exact hvalue

/-- The call fails before it asks the drive, or it asks once, for this. -/
def Asks {α : Type} (heads sectors : ℕ) (q : Request) (s : Io) (r : Option α × Io) : Prop :=
  (r.1 = none ∧ requests heads sectors r.2.log = requests heads sectors s.log) ∨
    requests heads sectors r.2.log = q :: requests heads sectors s.log

/-- A command behind `prepareAccess`, and what keeps quiet behind it. -/
theorem asks_of_command {α : Type} {n : BitVec 16} {cmd : DevicePrivate → Byte} {rest : DevicePrivate → Prog Io α}
    {write : Bool} (hd : LbaMode s.dev)
    (hcmd : ∀ d f, asked heads sectors f (cmd d) = some ⟨if f.devSel.getLsbD 4 then .ATASlave else .ATAMaster, write,
      if d.lba48 then f.lba48 else f.lba28 heads sectors⟩)
    (hrest : ∀ d, Keeps (Quiet heads sectors) (rest d)) :
    Asks heads sectors ⟨s.dev.type, write, target addr addr_hi⟩ s
      (exec (prepareAccess hw n addr addr_hi >>= fun _ => getDev >>= fun d =>
        DevicePrivate.write .command (cmd d) >>= fun _ => rest d) s) := by
  have hidle := @idle_prepareAccess heads sectors hw n addr addr_hi s
  rw [exec_bind]
  rcases hprep : exec (prepareAccess hw n addr addr_hi) s with ⟨_ | u, s₁⟩
  · rw [hprep] at hidle
    exact .inl ⟨rfl, hidle.requests⟩
  · rw [hprep] at hidle
    rcases haddr : s.dev.address addr addr_hi with ⟨io_addr, head, lba48⟩
    obtain ⟨hflag, hregs⟩ := prepareAccess_spec haddr hprep
    obtain ⟨htype, htarget⟩ := @Programmed.target_eq heads sectors _ _ _ _ _ _ _ hregs hd haddr
    have hquiet := hrest s₁.dev { s₁ with log := .portOut .command (cmd s₁.dev) :: s₁.log }
    refine .inr (hquiet.requests.trans ?_)
    change (asked heads sectors (regs s₁.log) (cmd s₁.dev)).toList ++ requests heads sectors s₁.log = _
    have hdrive : (if (regs s₁.log).devSel.getLsbD 4 then DeviceType.ATASlave else .ATAMaster) = s.dev.type := by
      cases hcase : s.dev.type with
      | ATAMaster => exact if_neg fun hc => by rw [htype.mp hc] at hcase; cases hcase
      | ATASlave => exact if_pos (htype.mpr hcase)
    rw [hcmd, hflag, htarget, hdrive, hidle.requests]
    rfl

/-- Of the drive's data only `m_lba48` may have changed. -/
def SameDrive (s s' : Io) : Prop := s'.dev = { s.dev with lba48 := s'.dev.lba48 }

instance : Std.Refl SameDrive := ⟨fun _ => rfl⟩

instance : IsTrans Io SameDrive := ⟨fun s t u h h' => by rw [SameDrive, h', h]⟩

theorem SameDrive.lbaMode {s' : Io} (h : SameDrive s s') (hd : LbaMode s.dev) : LbaMode s'.dev := by
  rw [h]
  exact hd

theorem SameDrive.type {s' : Io} (h : SameDrive s s') : s'.dev.type = s.dev.type := by
  rw [h]

theorem Idle.sameDrive {s' : Io} (h : Idle heads sectors s s') : SameDrive s s' := h.dev

theorem sameDrive_of_quiet {α : Type} {x : Prog Io α} (h : Keeps (Quiet 0 0) x) : Keeps SameDrive x :=
  h.mono fun _ _ hs => hs.idle.sameDrive

theorem sameDrive_write (port : Reg) (data : Byte) : Keeps SameDrive (write port data) := keeps_step fun _ => rfl

theorem sameDrive_readSector (n : BitVec 16) (addr addr_hi : Word) :
    Keeps SameDrive (readSector hw n addr addr_hi) := by
  have hidle := @idle_prepareAccess 0 0 hw n addr addr_hi
  apply (hidle.mono fun _ _ hs => hs.sameDrive).bind
  intro _
  apply (sameDrive_of_quiet quiet_getDev).bind
  intro d
  apply (sameDrive_write _ _).bind
  intro _
  apply (sameDrive_of_quiet (quiet_waitStatus _ _)).bind
  intro _
  apply (sameDrive_of_quiet (quiet_waitStatus _ _)).bind
  intro _
  split_ifs
  · exact keeps_pure _
  · exact (sameDrive_of_quiet (quiet_readLoop _)).bind fun _ =>
      (sameDrive_of_quiet quiet_wait).bind fun _ => keeps_pure _

theorem sameDrive_writeSector (buffer : ℕ → Word) (n : BitVec 16) (addr addr_hi : Word) :
    Keeps SameDrive (writeSector hw buffer n addr addr_hi) := by
  have hidle := @idle_prepareAccess 0 0 hw n addr addr_hi
  have hflush : ∀ cmd, Keeps SameDrive (write .command cmd >>= fun _ => (poll hw false <|> pure ())) := fun cmd =>
    (sameDrive_write _ _).bind fun _ => (sameDrive_of_quiet (quiet_poll false)).orElse (keeps_pure ())
  apply (hidle.mono fun _ _ hs => hs.sameDrive).bind
  intro _
  apply (sameDrive_of_quiet quiet_getDev).bind
  intro d
  apply (sameDrive_write _ _).bind
  intro _
  split_ifs
  · exact keeps_pure _
  · exact (sameDrive_of_quiet (quiet_writeLoop _ _ _)).bind fun _ => hflush _
  · exact (sameDrive_of_quiet (quiet_writeLoop _ _ _)).bind fun _ => hflush _

theorem readSector_asks (hd : LbaMode s.dev) (n : BitVec 16) (addr addr_hi : Word) :
    Asks heads sectors ⟨s.dev.type, false, target addr addr_hi⟩ s (exec (readSector hw n addr addr_hi) s) := by
  apply asks_of_command hd
  · intro d f
    generalize d.lba48 = b, d.dma = c
    cases b <;> cases c <;> rfl
  · intro d
    apply (quiet_waitStatus _ _).bind
    intro _
    apply (quiet_waitStatus _ _).bind
    intro _
    split_ifs
    · exact keeps_pure _
    · exact (quiet_readLoop _).bind fun _ => quiet_wait.bind fun _ => keeps_pure _

theorem writeSector_asks (hd : LbaMode s.dev) (buffer : ℕ → Word) (n : BitVec 16) (addr addr_hi : Word) :
    Asks heads sectors ⟨s.dev.type, true, target addr addr_hi⟩ s
      (exec (writeSector hw buffer n addr addr_hi) s) := by
  apply asks_of_command hd
  · intro d f
    generalize d.lba48 = b, d.dma = c
    cases b <;> cases c <;> rfl
  · intro d
    split_ifs
    · exact keeps_pure _
    · exact (quiet_writeLoop _ _ _).bind fun _ => (quiet_command fun _ => rfl).bind fun _ =>
        (quiet_poll false).orElse (keeps_pure _)
    · exact (quiet_writeLoop _ _ _).bind fun _ => (quiet_command fun _ => rfl).bind fun _ =>
        (quiet_poll false).orElse (keeps_pure _)

end Requests

end DevicePrivate

end CxxKernel.Devices.ATA
