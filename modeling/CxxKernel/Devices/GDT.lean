import CxxKernel.Memory
import Mathlib.Logic.Function.Basic
import Mathlib.Tactic.Common

/-! The table of segment descriptors, and what the processor reads from it. -/
namespace CxxKernel.Devices

/-- `gdt_entry_t`. -/
structure GdtEntry where
  limit_low : BitVec 16
  base_low : BitVec 16
  base_middle : BitVec 8
  access : BitVec 8
  granularity : BitVec 8
  base_high : BitVec 8
  deriving DecidableEq

/-- The eight bytes of an entry in memory, with the first byte in the low bits. -/
abbrev Descriptor := BitVec (8 + 8 + 8 + 8 + 16 + 16)

def GdtEntry.packed (e : GdtEntry) : Descriptor :=
  e.base_high ++ e.granularity ++ e.access ++ e.base_middle ++ e.base_low ++ e.limit_low

def GDT_TABLE_SIZE : ℕ := 9

/-- `__gdt`. -/
abbrev GdtTable := Fin GDT_TABLE_SIZE → GdtEntry

namespace GdtTable

/-- The stores to the three parts of the base. -/
def putBase (e : GdtEntry) (base : Word) : GdtEntry :=
  { e with
    base_low := (base &&& 0xFFFF).setWidth 16
    base_middle := (base >>> 16 &&& 0xFF).setWidth 8
    base_high := (base >>> 24 &&& 0xFF).setWidth 8 }

def gdt_set_gate (gdt : GdtTable) (num : Fin GDT_TABLE_SIZE) (base limit : Word) (access gran : BitVec 8) :
    GdtTable :=
  let e := putBase (gdt num) base
  let e := { e with
    limit_low := (limit &&& 0xFFFF).setWidth 16
    granularity := (limit >>> 16 &&& 0x0F).setWidth 8 }
  let e := { e with granularity := e.granularity ||| gran &&& 0xF0 }
  Function.update gdt num { e with access := access }

def get_gdt_base (gdt : GdtTable) (num : Fin GDT_TABLE_SIZE) : Word :=
  let res := (gdt num).base_low.setWidth 32
  let res := res ||| (gdt num).base_middle.setWidth 32 <<< 16
  res ||| (gdt num).base_high.setWidth 32 <<< 24

def set_gdt_base (gdt : GdtTable) (num : Fin GDT_TABLE_SIZE) (base : Word) : GdtTable :=
  Function.update gdt num (putBase (gdt num) base)

end GdtTable

/-- A segment as the processor knows it. -/
structure Segment where
  base : Word
  limit : BitVec 20
  access : BitVec 8
  flags : BitVec 4
  deriving DecidableEq

/-- How the processor takes the eight bytes of a descriptor apart. -/
def Segment.decode (d : Descriptor) : Segment where
  base := d.extractLsb' 56 8 ++ d.extractLsb' 32 8 ++ d.extractLsb' 16 16
  limit := d.extractLsb' 48 4 ++ d.extractLsb' 0 16
  access := d.extractLsb' 40 8
  flags := d.extractLsb' 52 4

/-- What entry `num` of the table means. -/
def GdtTable.segment (gdt : GdtTable) (num : Fin GDT_TABLE_SIZE) : Segment := .decode (gdt num).packed

section Codec

theorem extract_low {v w start n : ℕ} (x : BitVec v) (y : BitVec w) (h : start + n ≤ w) :
    (x ++ y).extractLsb' start n = y.extractLsb' start n := by
  apply BitVec.eq_of_getLsbD_eq
  intro i hi
  have hlt : start + i < w := by omega
  rw [BitVec.getLsbD_extractLsb', BitVec.getLsbD_append, if_pos hlt, BitVec.getLsbD_extractLsb']

theorem extract_high {v w start n : ℕ} (x : BitVec v) (y : BitVec w) (h : w ≤ start) :
    (x ++ y).extractLsb' start n = x.extractLsb' (start - w) n := by
  apply BitVec.eq_of_getLsbD_eq
  intro i hi
  have hle : ¬ start + i < w := by omega
  have hsub : start + i - w = start - w + i := by omega
  rw [BitVec.getLsbD_extractLsb', BitVec.getLsbD_append, if_neg hle, BitVec.getLsbD_extractLsb', hsub]

theorem extract_whole {w start : ℕ} (x : BitVec w) (h : start = 0) : x.extractLsb' start w = x := by
  rw [h]
  exact BitVec.extractLsb'_eq_self

/-- The processor finds the fields of an entry, the limit split between two of them. -/
theorem decode_packed (e : GdtEntry) : Segment.decode e.packed =
    ⟨e.base_high ++ e.base_middle ++ e.base_low, e.granularity.extractLsb' 0 4 ++ e.limit_low, e.access,
      e.granularity.extractLsb' 4 4⟩ := by
  simp (disch := omega) only [Segment.decode, GdtEntry.packed, extract_low, extract_high, extract_whole,
    Nat.reduceSub]

theorem field_eq {n s : ℕ} {mask : Word} (hmask : mask = BitVec.setWidth 32 (BitVec.allOnes n)) (x : Word) :
    (x >>> s &&& mask).setWidth n = x.extractLsb' s n := by
  apply BitVec.eq_of_getLsbD_eq
  intro i hi
  rw [hmask, BitVec.getLsbD_setWidth, BitVec.getLsbD_and, BitVec.getLsbD_ushiftRight, BitVec.getLsbD_setWidth,
    BitVec.getLsbD_allOnes, BitVec.getLsbD_extractLsb']
  by_cases hs : s + i < 32
  · have hi' : i < 32 := by omega
    simp [hi, hi']
  · have hout : x.getLsbD (s + i) = false := BitVec.getLsbD_of_ge x _ (Nat.not_lt.mp hs)
    simp [hout]

theorem putBase_eq (e : GdtEntry) (base : Word) : GdtTable.putBase e base =
    { e with
      base_low := base.extractLsb' 0 16
      base_middle := base.extractLsb' 16 8
      base_high := base.extractLsb' 24 8 } := by
  have hlow : (base &&& 0xFFFF).setWidth 16 = base.extractLsb' 0 16 := field_eq (s := 0) (by decide) base
  have hmiddle : (base >>> 16 &&& 0xFF).setWidth 8 = base.extractLsb' 16 8 := field_eq (by decide) base
  have hhigh : (base >>> 24 &&& 0xFF).setWidth 8 = base.extractLsb' 24 8 := field_eq (by decide) base
  rw [GdtTable.putBase, hlow, hmiddle, hhigh]

theorem base_parts (base : Word) :
    base.extractLsb' 24 8 ++ base.extractLsb' 16 8 ++ base.extractLsb' 0 16 = base := by
  have htop : base.extractLsb' 24 8 ++ base.extractLsb' 16 8 = base.extractLsb' 16 16 :=
    BitVec.extractLsb'_append_extractLsb'_eq_extractLsb' rfl
  rw [htop]
  exact BitVec.extractLsb'_append_extractLsb' (w := 16)

/-- `get_gdt_base` reads the base where the processor does. -/
theorem get_gdt_base_eq (gdt : GdtTable) (num : Fin GDT_TABLE_SIZE) :
    gdt.get_gdt_base num = (gdt.segment num).base := by
  rw [GdtTable.segment, decode_packed]
  apply BitVec.eq_of_getLsbD_eq
  intro i hi
  simp only [GdtTable.get_gdt_base, BitVec.getLsbD_or, BitVec.getLsbD_shiftLeft, BitVec.getLsbD_setWidth,
    BitVec.getLsbD_append]
  grind

theorem decode_putBase (e : GdtEntry) (base : Word) :
    Segment.decode (GdtTable.putBase e base).packed = { Segment.decode e.packed with base := base } := by
  rw [decode_packed, decode_packed, putBase_eq]
  dsimp only
  rw [base_parts]

theorem low_nibble (x : Word) (gran : BitVec 8) :
    (x.setWidth 8 ||| gran &&& 0xF0).extractLsb' 0 4 = x.setWidth 4 := by
  have hmask : ∀ i < 4, (0xF0 : BitVec 8).getLsbD i = false := by decide
  apply BitVec.eq_of_getLsbD_eq
  intro i hi
  have hi' : i < 8 := by omega
  rw [BitVec.getLsbD_extractLsb', Nat.zero_add, BitVec.getLsbD_or, BitVec.getLsbD_and, hmask i hi, Bool.and_false,
    Bool.or_false, BitVec.getLsbD_setWidth, BitVec.getLsbD_setWidth, decide_eq_true hi']
  rfl

theorem high_nibble (x : Word) (gran : BitVec 8) :
    ((x &&& 0x0F).setWidth 8 ||| gran &&& 0xF0).extractLsb' 4 4 = gran.extractLsb' 4 4 := by
  have hmask : ∀ i < 4, (0xF0 : BitVec 8).getLsbD (4 + i) = true := by decide
  have hlimit : ∀ i < 4, (0x0F : Word).getLsbD (4 + i) = false := by decide
  apply BitVec.eq_of_getLsbD_eq
  intro i hi
  rw [BitVec.getLsbD_extractLsb', BitVec.getLsbD_extractLsb', BitVec.getLsbD_or, BitVec.getLsbD_and, hmask i hi,
    BitVec.getLsbD_setWidth, BitVec.getLsbD_and, hlimit i hi, Bool.and_false, Bool.and_false, Bool.false_or,
    Bool.and_true]

theorem limit_parts (limit : Word) :
    (limit >>> 16 &&& 0x0F).setWidth 4 ++ (limit &&& 0xFFFF).setWidth 16 = limit.setWidth 20 := by
  have hhigh : (limit >>> 16 &&& 0x0F).setWidth 4 = limit.extractLsb' 16 4 := field_eq (by decide) limit
  have hlow : (limit &&& 0xFFFF).setWidth 16 = limit.extractLsb' 0 16 := field_eq (s := 0) (by decide) limit
  rw [hhigh, hlow, BitVec.setWidth_eq_extractLsb' (by decide)]
  exact BitVec.extractLsb'_append_extractLsb'_eq_extractLsb' rfl

/-- A gate has the base, the limit in twenty bits, the access byte and the high nibble of `gran`. -/
theorem segment_gdt_set_gate (gdt : GdtTable) (num : Fin GDT_TABLE_SIZE) (base limit : Word)
    (access gran : BitVec 8) : (gdt.gdt_set_gate num base limit access gran).segment num =
      ⟨base, limit.setWidth 20, access, gran.extractLsb' 4 4⟩ := by
  rw [GdtTable.segment, GdtTable.gdt_set_gate, Function.update_self, decode_packed, putBase_eq]
  dsimp only
  rw [base_parts, low_nibble, high_nibble, limit_parts]

theorem segment_set_gdt_base (gdt : GdtTable) (num : Fin GDT_TABLE_SIZE) (base : Word) :
    (gdt.set_gdt_base num base).segment num = { gdt.segment num with base := base } := by
  rw [GdtTable.segment, GdtTable.set_gdt_base, Function.update_self, decode_putBase, GdtTable.segment]

/-- The descriptors and the three functions agree, for each entry of the table and all values. -/
theorem descriptor_codec (gdt : GdtTable) (num : Fin GDT_TABLE_SIZE) :
    (∀ base limit access gran,
      let gdt' := gdt.gdt_set_gate num base limit access gran
      ((gdt'.segment num).base = base ∧ (gdt'.segment num).limit.toNat = limit.toNat % 2 ^ 20 ∧
        (gdt'.segment num).access = access ∧ (gdt'.segment num).flags.toNat = gran.toNat / 16) ∧
      gdt'.get_gdt_base num = base ∧ ∀ k, k ≠ num → gdt' k = gdt k) ∧
    ∀ base,
      let gdt' := gdt.set_gdt_base num base
      gdt'.get_gdt_base num = base ∧
      ((gdt'.segment num).limit = (gdt.segment num).limit ∧ (gdt'.segment num).access = (gdt.segment num).access ∧
        (gdt'.segment num).flags = (gdt.segment num).flags) ∧
      ∀ k, k ≠ num → gdt' k = gdt k := by
  constructor
  · intro base limit access gran gdt'
    have hseg : gdt'.segment num = _ := segment_gdt_set_gate gdt num base limit access gran
    refine ⟨⟨?_, ?_, ?_, ?_⟩, ?_, fun k hk => Function.update_of_ne hk _ _⟩
    · rw [hseg]
    · rw [hseg, BitVec.toNat_setWidth]
    · rw [hseg]
    · have hgran := gran.isLt
      rw [hseg, BitVec.extractLsb'_toNat, Nat.shiftRight_eq_div_pow, Nat.mod_eq_of_lt (by omega)]
    · rw [get_gdt_base_eq, hseg]
  · intro base gdt'
    have hseg : gdt'.segment num = _ := segment_set_gdt_base gdt num base
    refine ⟨?_, ⟨?_, ?_, ?_⟩, fun k hk => Function.update_of_ne hk _ _⟩
    · rw [get_gdt_base_eq, hseg]
    all_goals rw [hseg]

end Codec

end CxxKernel.Devices
