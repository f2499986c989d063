import CxxKernel.Devices.PCI

/-! The fields of a header of type 0, which the code reads through `PCI::Header00`. -/
namespace CxxKernel.Devices

/-! The other fields of `PCI::HeaderCommon`. -/
namespace HeaderGeneric
variable (h : HeaderGeneric)

/-- Word `i` of the record. -/
def dword (i : ℕ) : Word := if hi : i < 32 then h.reg ⟨i, hi⟩ else 0

def status : BitVec 16 := (h.dword 1 >>> 16).setWidth 16
def revID : BitVec 8 := (h.dword 2).setWidth 8
def progIF : BitVec 8 := (h.dword 2 >>> 8).setWidth 8
def cacheLineSize : BitVec 8 := (h.dword 3).setWidth 8
def latency : BitVec 8 := (h.dword 3 >>> 8).setWidth 8
def bist : BitVec 8 := (h.dword 3 >>> 24).setWidth 8

/-- The words of `HeaderCommon`: the fields of the configuration space, `unknown`, and the place of the
function, which stands in front of the fields of `Header00`. -/
def commonWords : ℕ := 4 + 12 + 3

/-- The word of `Header00` behind `HeaderCommon` and `i` more words. -/
def word00 (i : ℕ) : Word := h.dword (commonWords + i)

def baseAddress0 : Word := h.word00 0
def baseAddress1 : Word := h.word00 1
def baseAddress2 : Word := h.word00 2
def baseAddress3 : Word := h.word00 3
def baseAddress4 : Word := h.word00 4
def baseAddress5 : Word := h.word00 5

/-- Behind the six addresses stand `cardbus`, the two subsystem numbers, the address of the ROM, `caps` with
three bytes that are not used, and `res4`. -/
def interruptLine : BitVec 8 := (h.word00 (6 + 5)).setWidth 8

end HeaderGeneric

namespace PCI

section View
variable (config : Config) (f : DeviceIterator)

def configDword (offset : ℕ) : Word := getConfig config f.bus f.dev f.func (BitVec.ofNat 32 offset)

def configByte (offset : ℕ) : BitVec 8 := (configDword config f offset >>> (8 * (offset % 4))).setWidth 8

def configHalf (offset : ℕ) : BitVec 16 := configByte config f (offset + 1) ++ configByte config f offset

/-- The common fields are what the configuration space of the function has in its first sixteen bytes. -/
structure CommonView (h : HeaderGeneric) : Prop where
  vendor : h.vendor = configHalf config f 0x00
  device : h.device = configHalf config f 0x02
  command : h.command = configHalf config f 0x04
  status : h.status = configHalf config f 0x06
  revID : h.revID = configByte config f 0x08
  progIF : h.progIF = configByte config f 0x09
  subclass : h.subclass = configByte config f 0x0A
  classCode : h.classCode = configByte config f 0x0B
  cacheLineSize : h.cacheLineSize = configByte config f 0x0C
  latency : h.latency = configByte config f 0x0D
  headerType : h.headerType = configByte config f 0x0E
  bist : h.bist = configByte config f 0x0F
  place : (⟨h.bus, h.dev, h.func⟩ : DeviceIterator) = f

/-- The fields of a header of type 0 are what the configuration space has at their offsets. -/
structure View00 (h : HeaderGeneric) : Prop where
  baseAddress0 : h.baseAddress0 = configDword config f 0x10
  baseAddress1 : h.baseAddress1 = configDword config f 0x14
  baseAddress2 : h.baseAddress2 = configDword config f 0x18
  baseAddress3 : h.baseAddress3 = configDword config f 0x1C
  baseAddress4 : h.baseAddress4 = configDword config f 0x20
  baseAddress5 : h.baseAddress5 = configDword config f 0x24
  interruptLine : h.interruptLine = configByte config f 0x3C

end View

variable (config : Config) (mem : HeaderGeneric) (f : DeviceIterator)

theorem half_eq (w : Word) (s : ℕ) :
    (w >>> s).setWidth 16 = (w >>> (s + 8)).setWidth 8 ++ (w >>> s).setWidth 8 := by
  apply BitVec.eq_of_getLsbD_eq
  intro i hi
  simp only [BitVec.getLsbD_append, BitVec.getLsbD_setWidth, BitVec.getLsbD_ushiftRight]
  grind

/-- The common fields are in the words that `getHeader` fills. -/
theorem getHeader_common : CommonView config f (getHeader config mem f.bus f.dev f.func) where
  vendor := half_eq (configDword config f 0x00) 0
  device := half_eq (configDword config f 0x00) 16
  command := half_eq (configDword config f 0x04) 0
  status := half_eq (configDword config f 0x04) 16
  revID := rfl
  progIF := rfl
  subclass := rfl
  classCode := rfl
  cacheLineSize := rfl
  latency := rfl
  headerType := rfl
  bist := rfl
  place := rfl

/-- The others are behind them, where the memory keeps what it had. -/
theorem getHeader_word00 {i : ℕ} (h : i < 13) :
    (getHeader config mem f.bus f.dev f.func).word00 i = mem.word00 i := by
  have hlt : HeaderGeneric.commonWords + i < 32 := by
    unfold HeaderGeneric.commonWords
    omega
  have hbehind : (19 : Fin 32) ≤ ⟨HeaderGeneric.commonWords + i, hlt⟩ := Nat.le_add_right _ _
  have h16 : ¬ (⟨HeaderGeneric.commonWords + i, hlt⟩ : Fin 32) < 16 := by omega
  have hne : ∀ k : Fin 32, k < 19 → (⟨HeaderGeneric.commonWords + i, hlt⟩ : Fin 32) ≠ k := by omega
  rw [HeaderGeneric.word00, HeaderGeneric.word00, HeaderGeneric.dword, HeaderGeneric.dword, dif_pos hlt, dif_pos hlt,
    getHeader]
  dsimp only
  rw [if_neg h16, if_neg (hne 16 (by decide)), if_neg (hne 17 (by decide)), if_neg (hne 18 (by decide))]

theorem View00.congr {config : Config} {f : DeviceIterator} {h h' : HeaderGeneric} (hview : View00 config f h)
    (hword : ∀ i < 13, h'.word00 i = h.word00 i) : View00 config f h' where
  baseAddress0 := (hword 0 (by decide)).trans hview.baseAddress0
  baseAddress1 := (hword 1 (by decide)).trans hview.baseAddress1
  baseAddress2 := (hword 2 (by decide)).trans hview.baseAddress2
  baseAddress3 := (hword 3 (by decide)).trans hview.baseAddress3
  baseAddress4 := (hword 4 (by decide)).trans hview.baseAddress4
  baseAddress5 := (hword 5 (by decide)).trans hview.baseAddress5
  interruptLine := by
    rw [HeaderGeneric.interruptLine, hword (6 + 5) (by decide)]
    exact hview.interruptLine

/-- The header shows the function exactly if the memory happened to, in the words behind `HeaderCommon`. -/
theorem header00_iff :
    (CommonView config f (getHeader config mem f.bus f.dev f.func) ∧
      View00 config f (getHeader config mem f.bus f.dev f.func)) ↔ View00 config f mem := by
  have hold (i : ℕ) (h : i < 13) := getHeader_word00 config mem f h
  constructor
  · rintro ⟨-, hview⟩
    exact hview.congr fun i h => (hold i h).symm
  · intro hview
    exact ⟨getHeader_common config mem f, hview.congr hold⟩

/-- An IDE controller with a header of type 0 that has its bus master registers at `0xC000`. -/
def ide : Config := fun addr =>
  if addr = getPciAddr 0 1 1 0x00 then 0x70108086
  else if addr = getPciAddr 0 1 1 0x08 then 0x01018000
  else if addr = getPciAddr 0 1 1 0x20 then 0xC001
  else 0

/-- In memory with old zeros its address reads as zero. -/
theorem not_header00 : configByte ide ⟨0, 1, 1⟩ 0x0E &&& 0x7F = 0 ∧
    ¬ (CommonView ide ⟨0, 1, 1⟩ (getHeader ide ⟨fun _ => 0⟩ 0 1 1) ∧
      View00 ide ⟨0, 1, 1⟩ (getHeader ide ⟨fun _ => 0⟩ 0 1 1)) := by
  refine ⟨by decide, fun h => ?_⟩
  have haddress := h.2.baseAddress4
  revert haddress
  decide

end PCI

end CxxKernel.Devices
