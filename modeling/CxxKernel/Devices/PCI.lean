import CxxKernel.Memory

/-! `PCI`: the headers of the functions in configuration space, and the search for a device. -/
namespace CxxKernel.Devices

/-- What the configuration space holds at each address. -/
abbrev Config := Word → Word

/-- `PCI::DeviceIterator`, which is also the place of a function. -/
structure DeviceIterator where
  bus : Word
  dev : Word
  func : Word
  deriving DecidableEq

structure HeaderGeneric where
  reg : Fin 32 → Word

/-! The fields of `PCI::HeaderCommon`. -/
namespace HeaderGeneric
variable (h : HeaderGeneric)

def vendor : BitVec 16 := (h.reg 0).setWidth 16
def device : BitVec 16 := (h.reg 0 >>> 16).setWidth 16
def command : BitVec 16 := (h.reg 1).setWidth 16
def subclass : BitVec 8 := (h.reg 2 >>> 16).setWidth 8
def classCode : BitVec 8 := (h.reg 2 >>> 24).setWidth 8
def headerType : BitVec 8 := (h.reg 3 >>> 16).setWidth 8
def bus : Word := h.reg 16
def dev : Word := h.reg 17
def func : Word := h.reg 18

end HeaderGeneric

namespace PCI

def CONFIG_GET_VENDOR (x : Word) : Word := x &&& 0xFFFF
def CONFIG_IS_MULTI (x : BitVec 8) : Bool := x &&& 0x80 = 0x80

def getPciAddr (bus device func reg : Word) : Word :=
  (1 : Word) <<< 31 ||| (bus &&& 0xFF) <<< 16 ||| (device &&& 0x1F) <<< 11 ||| (func &&& 0x7) <<< 8 |||
    (reg &&& 0xFC)

section Read
variable (config : Config) (mem : HeaderGeneric)

def getConfig (bus device func reg : Word) : Word := config (getPciAddr bus device func reg)

def getVendor (bus device func : Word) : Word := CONFIG_GET_VENDOR (getConfig config bus device func 0x0)

def isDevice (bus device func : Word) : Bool := getVendor config bus device func ≠ 0xFFFF

/-- The allocation succeeds. Words that are not set keep what the memory holds, `mem`. -/
def getHeader (bus device func : Word) : HeaderGeneric where
  reg i :=
    if i < 16 then getConfig config bus device func (BitVec.ofNat 32 (i * 4))
    else if i = 16 then bus
    else if i = 17 then device
    else if i = 18 then func
    else mem.reg i

def startIter : DeviceIterator := ⟨0, 0, 0⟩

/-- The header at the place of the iterator, or a null pointer. -/
def getCurrent (iter : DeviceIterator) : Option HeaderGeneric :=
  let res := getConfig config iter.bus iter.dev iter.func 0
  if CONFIG_GET_VENDOR res ≠ 0xFFFF then some (getHeader config mem iter.bus iter.dev iter.func) else none

variable (test : HeaderGeneric → Bool)

/-- The innermost loop, which has at most the given number of rounds left. -/
def funcLoop : ℕ → Bool → DeviceIterator → Option HeaderGeneric × DeviceIterator
  | 0, _, iter => (none, iter)
  | rounds + 1, multi, iter =>
    if 0 < iter.func ∧ multi = false then (none, iter)
    else
      let res := getConfig config iter.bus iter.dev iter.func 0
      if CONFIG_GET_VENDOR res ≠ 0xFFFF then
        let hdr := getHeader config mem iter.bus iter.dev iter.func
        if test hdr then (some hdr, iter)
        else
          let multi := if CONFIG_IS_MULTI hdr.headerType then true else multi
          funcLoop rounds multi { iter with func := iter.func + 1 }
      else funcLoop rounds multi { iter with func := iter.func + 1 }

def devLoop : ℕ → DeviceIterator → Option HeaderGeneric × DeviceIterator
  | 0, iter => (none, iter)
  | rounds + 1, iter =>
    match funcLoop config mem test (0x8 - iter.func.toNat) false iter with
    | (some hdr, iter) => (some hdr, iter)
    | (none, iter) => devLoop rounds { iter with func := 0, dev := iter.dev + 1 }

def busLoop : ℕ → DeviceIterator → Option HeaderGeneric × DeviceIterator
  | 0, iter => (none, iter)
  | rounds + 1, iter =>
    match devLoop config mem test (0x20 - iter.dev.toNat) iter with
    | (some hdr, iter) => (some hdr, iter)
    | (none, iter) => busLoop rounds { iter with dev := 0, bus := iter.bus + 1 }

/-- The search from the place of the iterator on, which stays at what is found. -/
def search (iter : DeviceIterator) : Option HeaderGeneric × DeviceIterator :=
  busLoop config mem test (0x100 - iter.bus.toNat) iter

end Read

variable (config : Config) (mem : HeaderGeneric) (iter : DeviceIterator)

/-- `put` is what the hardware makes of a byte for an address. -/
def setConfig (put : Config → Word → BitVec 8 → Config) (bus device func reg val : Word) : Config :=
  put config (getPciAddr bus device func reg) (val.setWidth 8)

def setHeader (put : Config → Word → BitVec 8 → Config) (bus device func reg : Word) (val : BitVec 8) : Config :=
  setConfig config put bus device func reg (val.setWidth 32)

def set (put : Config → Word → BitVec 8 → Config) (reg : Word) (val : BitVec 8) : Config :=
  setHeader config put iter.bus iter.dev iter.func reg val

def hasClass (classcode subclass : BitVec 8) (h : HeaderGeneric) : Bool :=
  h.classCode = classcode ∧ h.subclass = subclass

def hasVendor (vendor deviceid : BitVec 16) (h : HeaderGeneric) : Bool :=
  h.vendor = vendor ∧ h.device = deviceid

def findNextDevice (classcode subclass : BitVec 8) : Option HeaderGeneric × DeviceIterator :=
  search config mem (hasClass classcode subclass) iter

def findNextDeviceByVendor (vendor deviceid : BitVec 16) : Option HeaderGeneric × DeviceIterator :=
  search config mem (hasVendor vendor deviceid) iter

end PCI

end CxxKernel.Devices
