import CxxKernel.Lib.Fallible
import CxxKernel.Memory
import Mathlib.Tactic.SplitIfs

/-! The driver of an ATA drive, and the drive's reading of its registers. What the drive answers is a
parameter; a function that answers false fails here, and keeps what went over the ports. -/
namespace CxxKernel.Devices
open Fallible

namespace ATA

def ATA_MODE_LBA : Byte := 0x40
def ATA_MODE_PIO : Byte := 0
def ATA_DEVSEL_CONST : Byte := 0xA0

def ATA_CMD_READ : Byte := 0x20
def ATA_CMD_READ_48 : Byte := 0x24
def ATA_CMD_READ_DMA : Byte := 0xC8
def ATA_CMD_READ_DMA_48 : Byte := 0x25
def ATA_CMD_WRITE : Byte := 0x30
def ATA_CMD_WRITE_48 : Byte := 0x34
def ATA_CMD_WRITE_DMA : Byte := 0xCA
def ATA_CMD_WRITE_DMA_48 : Byte := 0x35
def ATA_CMD_FLUSH : Byte := 0xE7
def ATA_CMD_FLUSH_48 : Byte := 0xEA
def ATA_CMD_IDENTIFY_PACKET : Byte := 0xA1
def ATA_CMD_IDENTIFY : Byte := 0xEC

def ATA_STATUS_ERROR : Byte := 0x01
def ATA_STATUS_DRQ : Byte := 0x08
def ATA_STATUS_DF : Byte := 0x20
def ATA_STATUS_BUSY : Byte := 0x80

def ATA_IDENT_CYLINDERS : ℕ := 2
def ATA_IDENT_HEADS : ℕ := 6
def ATA_IDENT_SECTORS : ℕ := 12
def ATA_IDENT_CAPABILITIES : ℕ := 98
def ATA_IDENT_MAX_LBA : ℕ := 120

def ATA_MAX_WAIT_CNT : ℕ := 0xFFF

inductive DeviceType
  | ATAMaster
  | ATASlave
  deriving DecidableEq, Repr

inductive DeviceModel
  | unknown
  | pata
  | patapi
  | sata
  | satapi
  deriving DecidableEq, Repr

/-- The registers behind the ports; a status is read where a command is written. -/
inductive Reg
  | data
  | secCount
  | LBA0
  | LBA1
  | LBA2
  | devSel
  | command
  | control
  deriving DecidableEq, Repr

def LBA3 : Reg := .LBA0
def LBA4 : Reg := .LBA1
def LBA5 : Reg := .LBA2
def status : Reg := .command
def altStatus : Reg := .control

inductive Access
  | portIn (r : Reg)
  | portOut (r : Reg) (val : Byte)
  | portIn16 (r : Reg)
  | portOut32 (r : Reg) (val : Word)

structure DevicePrivate where
  basePort : Word
  size : Word
  irq : Bool
  avail : Bool
  lba : Bool
  lba48 : Bool
  dma : Bool
  type : DeviceType
  model : DeviceModel
  mode : Byte
  cyl : BitVec 16
  sect : Byte
  head : Byte

/-- A drive with the accesses to its ports so far, the last one first. -/
structure Io where
  dev : DevicePrivate
  log : List Access

/-- What the drive answers, after these accesses. -/
abbrev Hardware := List Access → Reg → BitVec 16

namespace DevicePrivate
variable (hw : Hardware)

def modifyDev (f : DevicePrivate → DevicePrivate) : Prog Io Unit := step fun s => ((), { s with dev := f s.dev })

def getDev : Prog Io DevicePrivate := step fun s => (s.dev, s)

def read (port : Reg) : Prog Io Byte :=
  step fun s => ((hw s.log port).setWidth 8, { s with log := .portIn port :: s.log })

def read16 (port : Reg) : Prog Io (BitVec 16) :=
  step fun s => (hw s.log port, { s with log := .portIn16 port :: s.log })

def write (port : Reg) (data : Byte) : Prog Io Unit :=
  step fun s => ((), { s with log := .portOut port data :: s.log })

def write32 (port : Reg) (data : Word) : Prog Io Unit :=
  step fun s => ((), { s with log := .portOut32 port data :: s.log })

def readBuffer (port : Reg) : ℕ → Prog Io (List Word)
  | 0 => pure []
  | n + 1 => do
    let a ← read16 hw port
    let b ← read16 hw port
    let rest ← readBuffer port n
    pure ((a.setWidth 32 + b.setWidth 32 <<< 16) :: rest)

/-- The loop of `writeBuffer`, from one word of the buffer on. -/
def writeBuffer (port : Reg) (buffer : ℕ → Word) (pos : ℕ) : ℕ → Prog Io Unit
  | 0 => pure ()
  | n + 1 => do
    write32 port (buffer pos)
    writeBuffer port buffer (pos + 1) n

def readTimes (port : Reg) : ℕ → Prog Io Unit
  | 0 => pure ()
  | n + 1 => do
    let _ ← read hw port
    readTimes port n

def wait : Prog Io Unit := readTimes hw altStatus 5

def getStatus : Prog Io Byte := read hw status

/-- The first loop of `waitStatus`. -/
def waitBusy : ℕ → Prog Io Unit
  | 0 => do
    let _ ← getStatus hw
    failure
  | n + 1 => do
    let stat ← getStatus hw
    if stat &&& ATA_STATUS_BUSY ≠ 0 then waitBusy n else pure ()

/-- The second loop of `waitStatus`. -/
def waitExtra (extra extra_val : Byte) : ℕ → Prog Io Unit
  | 0 => do
    let _ ← getStatus hw
    failure
  | n + 1 => do
    let stat ← getStatus hw
    wait hw
    if stat &&& extra ≠ extra_val then waitExtra extra extra_val n else pure ()

def waitStatus (extra extra_val : Byte) : Prog Io Unit := do
  waitBusy hw (ATA_MAX_WAIT_CNT + 1)
  if 0 < extra then waitExtra hw extra extra_val (ATA_MAX_WAIT_CNT + 1) else pure ()

def reset : Prog Io Unit := do
  write status 4
  write status 0
  wait hw
  waitStatus hw 0 0

def typeBit (t : DeviceType) : Byte :=
  match t with
  | .ATAMaster => 0
  | .ATASlave => 0x10

def select (head : Byte) : Prog Io Unit := do
  let d ← getDev
  write .devSel (ATA_DEVSEL_CONST ||| d.mode ||| typeBit d.type ||| head)
  wait hw

/-- The high byte is asked for with a sum that is never zero. -/
def setHi : Prog Io Unit := do
  let d ← getDev
  write .control (if 0x80 + (if d.irq then 1 else 0) ≠ 0 then 0 else 2)

def setLo : Prog Io Unit := do
  let d ← getDev
  write .control (if d.irq then 0 else 2)

def byteOf (x : Word) (i : ℕ) : Byte := (x >>> (8 * i)).setWidth 8

/-- The three ways in which `prepareAccess` splits an address: `io_addr`, the head and `m_lba48`. -/
def address (d : DevicePrivate) (addr addr_hi : Word) : List Byte × Byte × Bool :=
  if 0x10000000 ≤ addr ∨ 0 < addr_hi then
    ([byteOf addr 0, byteOf addr 1, byteOf addr 2, byteOf addr 3, byteOf addr_hi 0, byteOf addr_hi 1], 0, true)
  else if d.lba then
    ([byteOf addr 0, byteOf addr 1, byteOf addr 2, 0, 0, 0], ((addr &&& 0xF000000) >>> 24).setWidth 8, false)
  else
    let perTrack := d.sect.setWidth 32
    let perCyl := d.head.setWidth 32 * perTrack
    let sect : Byte := if 0 < d.sect then (addr % perTrack + 1).setWidth 8 else 0
    let rest := addr + 1 - sect.setWidth 32
    let cyl : BitVec 16 := (rest / perCyl).setWidth 16
    let head : Byte := (rest % perCyl / perTrack).setWidth 8
    ([sect, cyl.setWidth 8, (cyl >>> 8).setWidth 8, 0, 0, 0], head, false)

/-- `setHi`, a register, `setLo`. -/
def writeHi (port : Reg) (data : Byte) : Prog Io Unit := do
  setHi
  write port data
  setLo

/-- The register writes at the end of `prepareAccess`. -/
def program (sectors : BitVec 16) (io_addr : List Byte) (lba48 : Bool) : Prog Io Unit := do
  if lba48 then do
    writeHi .secCount 0
    writeHi LBA3 (io_addr.getD 3 0)
    writeHi LBA4 (io_addr.getD 4 0)
    writeHi LBA5 (io_addr.getD 5 0)
  else pure ()
  setLo
  write .secCount (sectors.setWidth 8)
  write .LBA0 (io_addr.getD 0 0)
  write .LBA1 (io_addr.getD 1 0)
  write .LBA2 (io_addr.getD 2 0)

def prepareAccess (sectors : BitVec 16) (addr addr_hi : Word) : Prog Io Unit := do
  modifyDev fun d => { d with lba48 := false }
  reset hw
  let d ← getDev
  let (io_addr, head, lba48) := d.address addr addr_hi
  modifyDev fun d => { d with lba48 }
  waitStatus hw 0 0
  select hw head
  waitStatus hw 0 0
  program sectors io_addr lba48

def poll (extra : Bool) : Prog Io Unit := do
  wait hw
  waitStatus hw 0 0
  if extra then do
    let status ← getStatus hw
    guard (status &&& ATA_STATUS_ERROR = 0)
    guard (status &&& ATA_STATUS_DF = 0)
    guard (status &&& ATA_STATUS_DRQ ≠ 0)
  else pure ()

def readLoop : ℕ → Prog Io (List Word)
  | 0 => pure []
  | n + 1 => do
    poll hw true
    let words ← readBuffer hw .data 128
    let rest ← readLoop n
    pure (words ++ rest)

/-- With DMA nothing is copied here. -/
def readSector (sectors : BitVec 16) (addr addr_hi : Word) : Prog Io (List Word) := do
  prepareAccess hw sectors addr addr_hi
  let d ← getDev
  write .command (if d.lba48 ∧ d.dma then ATA_CMD_READ_DMA_48 else if d.dma then ATA_CMD_READ_DMA
    else if d.lba48 ∧ ¬ d.dma then ATA_CMD_READ_48 else ATA_CMD_READ)
  waitStatus hw ATA_STATUS_ERROR 0
  waitStatus hw ATA_STATUS_DRQ ATA_STATUS_DRQ
  if d.dma then pure []
  else do
    let words ← readLoop hw sectors.toNat
    wait hw
    pure words

def writeLoop (buffer : ℕ → Word) (pos : ℕ) : ℕ → Prog Io Unit
  | 0 => pure ()
  | n + 1 => do
    poll hw false
    writeBuffer .data buffer pos 128
    writeLoop buffer (pos + 128) n

/-- The last `poll` is not looked at. -/
def writeSector (buffer : ℕ → Word) (sectors : BitVec 16) (addr addr_hi : Word) : Prog Io Unit := do
  prepareAccess hw sectors addr addr_hi
  let d ← getDev
  write .command (if d.lba48 ∧ d.dma then ATA_CMD_WRITE_DMA_48 else if d.dma then ATA_CMD_WRITE_DMA
    else if d.lba48 ∧ ¬ d.dma then ATA_CMD_WRITE_48 else ATA_CMD_WRITE)
  if d.dma then pure ()
  else do
    writeLoop hw buffer 0 sectors.toNat
    write .command (if d.lba48 then ATA_CMD_FLUSH_48 else ATA_CMD_FLUSH)
    poll hw false <|> pure ()

def identify : Prog Io Unit := do
  select hw 0
  write .command ATA_CMD_IDENTIFY
  wait hw
  let status ← getStatus hw
  guard (status ≠ 0xFF ∧ status ≠ 0x7F)

/-- One round of the loop of `detect`: true when the drive reports an error. -/
def identifyRound (again : Prog Io Bool) : Prog Io Bool := do
  let status ← getStatus hw
  if status &&& ATA_STATUS_ERROR ≠ 0 then pure true
  else if status &&& ATA_STATUS_BUSY = 0 ∧ status &&& ATA_STATUS_DRQ ≠ 0 then pure false
  else again

def identifyLoop : ℕ → Prog Io Bool
  | 0 => identifyRound hw failure
  | n + 1 => identifyRound hw (identifyLoop n)

def detectModel : Prog Io Unit := do
  let low ← read hw .LBA1
  let high ← read hw .LBA2
  modifyDev fun d => { d with model :=
    if low = 0x14 ∧ high = 0xEB then .patapi
    else if low = 0x69 ∧ high = 0x96 then .satapi
    else if low = 0x0 ∧ high = 0x0 then .pata
    else if low = 0x3C ∧ high = 0xC3 then .sata
    else .unknown }

/-- `detect` up to the data of the drive. -/
def identifyData : Prog Io (List Word) := do
  modifyDev fun d => { d with mode := ATA_MODE_PIO }
  setLo
  reset hw
  identify hw
  let error ← identifyLoop hw (ATA_MAX_WAIT_CNT + 1)
  detectModel hw
  let d ← getDev
  guard (d.model ≠ .unknown)
  if error then write .command ATA_CMD_IDENTIFY_PACKET else pure ()
  readBuffer hw .data 32

/-- A byte of the data of the drive. -/
def byteAt (buf : List Word) (i : ℕ) : Byte := byteOf (buf.getD (i / 4) 0) (i % 4)

def halfAt (buf : List Word) (i : ℕ) : BitVec 16 := byteAt buf (i + 1) ++ byteAt buf i

def wordAt (buf : List Word) (i : ℕ) : Word := halfAt buf (i + 2) ++ halfAt buf i

/-- The bit of the capabilities for LBA. -/
def HasLba (buf : List Word) : Prop := halfAt buf ATA_IDENT_CAPABILITIES &&& 0x200 = 0x200

instance (buf : List Word) : Decidable (HasLba buf) := inferInstanceAs (Decidable (_ = _))

/-- What `detect` takes from the data of the drive. The size has 32 bits. -/
def identified (d : DevicePrivate) (buf : List Word) : DevicePrivate :=
  let d := if HasLba buf then { d with lba := true, mode := ATA_MODE_LBA } else d
  if d.lba = false then
    let sect := byteAt buf ATA_IDENT_SECTORS
    let cyl := halfAt buf ATA_IDENT_CYLINDERS
    let head := byteAt buf ATA_IDENT_HEADS
    let size := if 0 < sect then ((cyl.setWidth 32 * head.setWidth 32 + head.setWidth 32) * sect.setWidth 32 +
      (sect.setWidth 32 - 1)) * 512 else 0
    { d with sect, cyl, head, size, avail := true }
  else { d with size := wordAt buf ATA_IDENT_MAX_LBA * 512, avail := true }

def detect : Prog Io Unit := do
  let d ← getDev
  if d.avail ∨ d.basePort = 0 then pure ()
  else (do
    let buf ← identifyData hw
    modifyDev (·.identified buf)) <|> pure ()

end DevicePrivate

end ATA

end CxxKernel.Devices
