import CxxKernel.Lib.Walks
import CxxKernel.Words
import Mathlib.Data.Fintype.EquivFin

/-! The search for the ACPI tables and the processors that they list. The mapping of the pages is left out. -/
open Cursor Relation
namespace CxxKernel.Devices
open Mem

namespace ACPI

def max_cpu_count : ℕ := 64

/-- `cpu_ids` up to `cpu_count`. -/
structure CpuTable where
  ids : List Word
  bound : ids.length ≤ max_cpu_count

namespace CpuTable

def acpiCpuCount (t : CpuTable) : Word := BitVec.ofNat 32 t.ids.length

def acpiCpuId (t : CpuTable) (index : Word) : Word :=
  if max_cpu_count ≤ index.toNat then 0xFFFFFFFF else t.ids.getD index.toNat 0

def add (t : CpuTable) (id : Word) : CpuTable :=
  if h : t.ids.length < max_cpu_count then ⟨t.ids ++ [id], by rw [List.length_append]; exact h⟩ else t

end CpuTable

structure State where
  acpi_addr : Word
  cpus : CpuTable

section Parse
variable (mem : Bytes)

/-! The fields of `AcpiHeader`, `AcpiMadt`, `ApicHeader` and `ApicLocalApic`. -/

def signature (addr : Word) : Word := word mem addr

def length (addr : Word) : Word := word mem (addr + 4)

def localApicAddr (addr : Word) : Word := word mem (addr + 36)

def entryType (ptr : Word) : UInt8 := mem ptr

def entryLength (ptr : Word) : Word := (mem (ptr + 1)).toBitVec.setWidth 32

def apicId (ptr : Word) : Word := (mem (ptr + 3)).toBitVec.setWidth 32

/-- The loop over the entries of a table that ends at `last`, with at most `fuel` looks at its condition.
The other types are passed over. -/
def apicLoop (last : Word) : ℕ → Word → CpuTable → Option CpuTable
  | 0, _, _ => none
  | fuel + 1, ptr, t =>
    if ptr < last then
      let t := if entryType mem ptr = 0 then t.add (apicId mem ptr) else t
      apicLoop last fuel (ptr + entryLength mem ptr) t
    else some t

def parseAcpiApic (fuel : ℕ) (addr : Word) (s : State) : Option (Word × State) :=
  let s := { s with acpi_addr := localApicAddr mem addr }
  (apicLoop mem (addr + length mem addr) fuel (addr + 44) s.cpus).map fun cpus => (0, { s with cpus })

def parseAcpiDT (fuel : ℕ) (addr : Word) (s : State) : Option (Word × State) :=
  if signature mem addr = 0x50434146 then some (0, s)
  else if signature mem addr = 0x43495041 then parseAcpiApic mem fuel addr s
  else some (0, s)

/-- The loop over the addresses in a table that ends at `last`. -/
def rsdtLoop (last : Word) : ℕ → Word → State → Option State
  | 0, _, _ => none
  | fuel + 1, ptr, s =>
    if ptr < last then
      (parseAcpiDT mem fuel (word mem ptr) s).bind fun (_, s) => rsdtLoop last fuel (ptr + 4) s
    else some s

def parseRSDT (fuel : ℕ) (addr : Word) (s : State) : Option (Word × State) :=
  (rsdtLoop mem (addr + length mem addr) fuel (addr + 36) s).map (0, ·)

section Search
variable {σ : Type} (parseRSDT : Word → σ → Option σ)

def checksum (ptr : Word) : UInt8 := ((List.range 20).map fun i => mem (cells ptr i)).foldl (· + ·) 0

def revision (ptr : Word) : UInt8 := mem (ptr + 15)

def rsdtAddress (ptr : Word) : Word := word mem (ptr + 16)

/-- `"RSD PTR "`. -/
def HasSignature (ptr : Word) : Prop := word mem (ptr + 4) ++ word mem ptr = (0x2052545020445352 : BitVec 64)

instance (ptr : Word) : Decidable (HasSignature mem ptr) := inferInstanceAs (Decidable (_ = _))

/-- What `parseRSDT` does is a parameter. The name of the manufacturer is copied and not used. -/
def parseACPI (ptr : Word) (s : σ) : Option (Word × σ) :=
  if checksum mem ptr ≠ 0 then some (1, s)
  else if revision mem ptr = 0 then (parseRSDT (rsdtAddress mem ptr) s).map (0, ·)
  else some (0, s)

/-- The loop of `acpiSearch`, with at most `fuel` looks at its condition. -/
def searchLoop : ℕ → Word → σ → Option σ
  | 0, _, _ => none
  | fuel + 1, ptr, s =>
    if ptr < 0x000FFFFF then
      if HasSignature mem ptr then
        (parseACPI mem parseRSDT ptr s).bind fun (res, s) =>
          if res ≠ 0 then some s else searchLoop fuel (ptr + 16) s
      else searchLoop fuel (ptr + 16) s
    else some s

/-- The places that the loop can look at. -/
def places : ℕ := 8192

def searchWith (s : σ) : Option σ := searchLoop mem parseRSDT (places + 1) 0x000E0000 s

end Search

def acpiSearch (fuel : ℕ) (s : State) : Option State :=
  searchWith mem (fun addr s => (parseRSDT mem fuel addr s).map Prod.snd) s

end Parse

/-- The entries of a table that ends at `last`, each behind the one before. -/
def nextEntry (mem : Bytes) (last ptr : Word) : Option (Word × Word) :=
  if ptr < last then some (ptr, ptr + entryLength mem ptr) else none

/-- The walk ends, and adds to the processors those that the entries of type 0 name, up to 64 in all. -/
def ApicLaw (mem : Bytes) (addr : Word) (s : State) : Prop :=
  ∃ entries fuel s', Yields (nextEntry mem (addr + length mem addr)) (addr + 44) entries ∧
    parseAcpiApic mem fuel addr s = some (0, s') ∧
    s'.cpus.ids =
      (s.cpus.ids ++ (entries.filter fun ptr => entryType mem ptr = 0).map (apicId mem)).take max_cpu_count

/-- The walk comes to an entry. -/
def Meets (mem : Bytes) (addr ptr : Word) : Prop :=
  ReflTransGen (Moves (nextEntry mem (addr + length mem addr))) (addr + 44) ptr ∧ ptr < addr + length mem addr

section Walk
variable {mem : Bytes} {last ptr : Word} {entries : List Word}

instance : Finite Word := Finite.of_injective BitVec.toFin fun _ _ => BitVec.eq_of_toFin_eq

theorem add_ids (t : CpuTable) (id : Word) (rest : List Word) :
    ((t.add id).ids ++ rest).take max_cpu_count = (t.ids ++ id :: rest).take max_cpu_count := by
  unfold CpuTable.add
  split_ifs with hlt
  · rw [List.append_assoc]
    rfl
  · have hlen : t.ids.length = max_cpu_count := Nat.le_antisymm t.bound (Nat.le_of_not_lt hlt)
    rw [← hlen, List.take_left, List.take_left]

/-- The loop takes the entries that the walk comes to. -/
theorem apicLoop_eq (h : Yields (nextEntry mem last) ptr entries) (t : CpuTable) :
    ∃ t', apicLoop mem last (entries.length + 1) ptr t = some t' ∧ t'.ids =
      (t.ids ++ (entries.filter fun ptr => entryType mem ptr = 0).map (apicId mem)).take max_cpu_count := by
  induction h generalizing t with
  | @stop ptr hstop =>
    have hend : ¬ ptr < last := by
      intro hlt
      rw [nextEntry, if_pos hlt] at hstop
      cases hstop
    refine ⟨t, by rw [apicLoop, if_neg hend], ?_⟩
    rw [List.filter_nil, List.map_nil, List.append_nil, List.take_of_length_le t.bound]
  | @item ptr ptr' entry entries hitem hrest ih =>
    by_cases hlt : ptr < last
    · rw [nextEntry, if_pos hlt] at hitem
      obtain ⟨rfl, rfl⟩ := Prod.mk.inj (Option.some.inj hitem)
      rw [List.length_cons, apicLoop, if_pos hlt]
      by_cases htype : entryType mem ptr = 0
      · obtain ⟨t', hloop, hids⟩ := ih (t.add (apicId mem ptr))
        refine ⟨t', by rw [if_pos htype]; exact hloop, ?_⟩
        rw [hids, add_ids, List.filter_cons, if_pos (decide_eq_true htype), List.map_cons]
      · obtain ⟨t', hloop, hids⟩ := ih t
        refine ⟨t', by rw [if_neg htype]; exact hloop, ?_⟩
        rw [hids, List.filter_cons, if_neg (by rwa [decide_eq_true_eq])]
    · rw [nextEntry, if_neg hlt] at hitem
      cases hitem

/-- The table is read right exactly when the walk over it ends. -/
theorem apicLaw_iff_yields (mem : Bytes) (addr : Word) (s : State) :
    ApicLaw mem addr s ↔ ∃ entries, Yields (nextEntry mem (addr + length mem addr)) (addr + 44) entries := by
  constructor
  · rintro ⟨entries, -, -, hyields, -⟩
    exact ⟨entries, hyields⟩
  · rintro ⟨entries, hyields⟩
    obtain ⟨t', hloop, hids⟩ := apicLoop_eq hyields s.cpus
    refine ⟨entries, entries.length + 1, ⟨localApicAddr mem addr, t'⟩, hyields, ?_, hids⟩
    rw [parseAcpiApic]
    dsimp only
    rw [hloop]
    rfl

theorem moves_iff {ptr' : Word} :
    Moves (nextEntry mem last) ptr ptr' ↔ ptr < last ∧ ptr' = ptr + entryLength mem ptr := by
  unfold Moves nextEntry
  split_ifs with hlt
  · constructor
    · rintro ⟨entry, hentry⟩
      obtain ⟨-, rfl⟩ := Prod.mk.inj (Option.some.inj hentry)
      exact ⟨hlt, rfl⟩
    · rintro ⟨-, rfl⟩
      exact ⟨ptr, rfl⟩
  · refine iff_of_false ?_ fun h => hlt h.1
    rintro ⟨entry, hentry⟩
    cases hentry

theorem entryLength_le (mem : Bytes) (ptr : Word) : (entryLength mem ptr).toNat ≤ 255 := by
  have hlt := (mem (ptr + 1)).toBitVec.isLt
  rw [entryLength, BitVec.toNat_setWidth]
  omega

theorem moves_le (hroom : last.toNat + 255 ≤ 2 ^ 32) {ptr' : Word} (h : Moves (nextEntry mem last) ptr ptr') :
    ptr.toNat ≤ ptr'.toNat := by
  obtain ⟨hlt, rfl⟩ := moves_iff.mp h
  have hle := entryLength_le mem ptr
  rw [BitVec.lt_def] at hlt
  rw [BitVec.toNat_add, Nat.mod_eq_of_lt (by omega)]
  exact Nat.le_add_right _ _

theorem stays_iff : Moves (nextEntry mem last) ptr ptr ↔ ptr < last ∧ entryLength mem ptr = 0 := by
  rw [moves_iff]
  refine and_congr_right fun _ => ⟨fun h => ?_, fun h => ?_⟩
  · exact (BitVec.add_right_inj ptr).mp (h.symm.trans (BitVec.add_zero ptr).symm)
  · rw [h]
    exact (BitVec.add_zero ptr).symm

/-- The walk comes back to the entry. -/
def ComesBack (mem : Bytes) (addr ptr : Word) : Prop :=
  TransGen (Moves (nextEntry mem (addr + length mem addr))) ptr ptr

/-- The table is read right exactly when no entry that the walk comes to is met again. Where the table ends
255 bytes or more below 4 GiB, that is when no entry that it comes to has length 0. -/
theorem apicLaw_iff (mem : Bytes) (addr : Word) (s : State) :
    (ApicLaw mem addr s ↔ ∀ ptr, Meets mem addr ptr → ¬ ComesBack mem addr ptr) ∧
      ((addr + length mem addr).toNat + 255 ≤ 2 ^ 32 →
        (ApicLaw mem addr s ↔ ∀ ptr, Meets mem addr ptr → entryLength mem ptr ≠ 0)) := by
  rw [apicLaw_iff_yields]
  constructor
  · rw [yields_iff]
    constructor
    · exact fun h ptr hmeets => h ptr hmeets.1
    · intro h ptr hreach hback
      obtain ⟨ptr', hmove, -⟩ := TransGen.head'_iff.mp hback
      exact h ptr ⟨hreach, (moves_iff.mp hmove).1⟩ hback
  · intro hroom
    rw [yields_iff_of_le (fun _ _ => BitVec.eq_of_toNat_eq) fun _ _ => moves_le hroom]
    constructor
    · exact fun h ptr hmeets hzero => h ptr hmeets.1 (stays_iff.mpr ⟨hmeets.2, hzero⟩)
    · intro h ptr hreach hstays
      obtain ⟨hlt, hzero⟩ := stays_iff.mp hstays
      exact h ptr ⟨hreach, hlt⟩ hzero

/-- A table of 60 bytes at 0x1000, which is all zero behind its length. -/
def zeroTable : Bytes := fun p => if p = 0x1004 then 60 else 0

def noCpus : State := ⟨0, ⟨[], Nat.zero_le _⟩⟩

theorem apicLaw_iff_zeroTable : ApicLaw zeroTable 0x1000 noCpus ↔
    ∀ ptr, Meets zeroTable 0x1000 ptr → entryLength zeroTable ptr ≠ 0 :=
  (apicLaw_iff zeroTable 0x1000 noCpus).2 (by decide)

/-- Its first entry has length 0, and the walk stays there. -/
theorem not_apicLaw_zeroTable : ¬ ApicLaw zeroTable 0x1000 noCpus := by
  rintro ⟨entries, -, -, hyields, -⟩
  have hstays : nextEntry zeroTable (0x1000 + length zeroTable 0x1000) (0x1000 + 44) =
      some (0x1000 + 44, 0x1000 + 44) := by decide
  exact not_yields_of_stays hstays hyields

end Walk

/-! The search for the root pointer. -/

/-- The places that the loop looks at, from `ptr` on. -/
def placesFrom (ptr : Word) (n : ℕ) : List Word := (List.range n).map fun i => ptr + BitVec.ofNat 32 (16 * i)

/-- The places of the BIOS area with the signature. -/
def candidates (mem : Bytes) : List Word := (placesFrom 0x000E0000 places).filter fun ptr => HasSignature mem ptr

/-- The structure has revision 0, and its checksum is right. -/
def Good (mem : Bytes) (ptr : Word) : Prop := checksum mem ptr = 0 ∧ revision mem ptr = 0

instance (mem : Bytes) (ptr : Word) : Decidable (Good mem ptr) := inferInstanceAs (Decidable (_ ∧ _))

def firstGood (mem : Bytes) : Option Word := (candidates mem).find? fun ptr => Good mem ptr

/-- Whatever `parseRSDT` does, the search does it once, for the first good candidate, or not at all. -/
def SearchLaw (mem : Bytes) : Prop :=
  ∀ (σ : Type) (parseRSDT : Word → σ → Option σ) (s : σ), searchWith mem parseRSDT s =
    match firstGood mem with
    | some ptr => parseRSDT (rsdtAddress mem ptr) s
    | none => some s

/-- No candidate before the first good one has a wrong checksum, and there is no second good one before the
next candidate with a wrong checksum. -/
def OneGood (mem : Bytes) : Prop :=
  ∀ pre ptr post, candidates mem = pre ++ ptr :: post → (∀ b ∈ pre, ¬ Good mem b) → Good mem ptr →
    (∀ b ∈ pre, checksum mem b = 0) ∧ ∀ b ∈ post.takeWhile fun b => checksum mem b = 0, ¬ Good mem b

section Search
variable {mem : Bytes} {σ : Type} {parseRSDT : Word → σ → Option σ}

/-- The structures that the search over the candidates `ptrs` parses. -/
def parsed (mem : Bytes) (ptrs : List Word) : List Word :=
  (ptrs.takeWhile fun b => checksum mem b = 0).filter fun b => Good mem b

/-- `parseRSDT` for each of the structures. -/
def parseAll (mem : Bytes) (parseRSDT : Word → σ → Option σ) (ptrs : List Word) (s : σ) : Option σ :=
  ptrs.foldlM (fun s ptr => parseRSDT (rsdtAddress mem ptr) s) s

theorem placesFrom_succ (ptr : Word) (n : ℕ) : placesFrom ptr (n + 1) = ptr :: placesFrom (ptr + 16) n := by
  unfold placesFrom
  rw [List.range_succ_eq_map, List.map_cons, List.map_map]
  refine congrArg₂ List.cons (BitVec.add_zero ptr) (List.map_congr_left fun i _ => ?_)
  have hsucc : BitVec.ofNat 32 (16 * (i + 1)) = 16 + BitVec.ofNat 32 (16 * i) := by
    rw [Nat.mul_succ, Nat.add_comm, BitVec.ofNat_add]
    rfl
  rw [Function.comp_apply, Nat.succ_eq_add_one, hsucc, BitVec.add_assoc]

theorem parsed_bad {ptr : Word} (h : checksum mem ptr ≠ 0) (ptrs : List Word) : parsed mem (ptr :: ptrs) = [] := by
  rw [parsed, List.takeWhile_cons, if_neg (by rwa [decide_eq_true_eq])]
  rfl

theorem parsed_good {ptr : Word} (h : Good mem ptr) (ptrs : List Word) :
    parsed mem (ptr :: ptrs) = ptr :: parsed mem ptrs := by
  rw [parsed, List.takeWhile_cons, if_pos (decide_eq_true h.1), List.filter_cons, if_pos (decide_eq_true h)]
  rfl

theorem parsed_other {ptr : Word} (h : checksum mem ptr = 0) (hgood : ¬ Good mem ptr) (ptrs : List Word) :
    parsed mem (ptr :: ptrs) = parsed mem ptrs := by
  rw [parsed, List.takeWhile_cons, if_pos (decide_eq_true h), List.filter_cons, if_neg (by rwa [decide_eq_true_eq])]
  rfl

theorem searchLoop_eq (n : ℕ) {ptr : Word} (hptr : ptr.toNat + 16 * n = 0x100000) (s : σ) :
    searchLoop mem parseRSDT (n + 1) ptr s =
      parseAll mem parseRSDT (parsed mem ((placesFrom ptr n).filter fun b => HasSignature mem b)) s := by
  have hlast : (0x000FFFFF : Word).toNat = 0xFFFFF := rfl
  induction n generalizing ptr s with
  | zero =>
    have hend : ¬ ptr < 0x000FFFFF := by
      rw [BitVec.lt_def, hlast]
      omega
    rw [searchLoop, if_neg hend]
    rfl
  | succ n ih =>
    have hin : ptr < 0x000FFFFF := by
      rw [BitVec.lt_def, hlast]
      omega
    have hnext : (ptr + 16).toNat + 16 * n = 0x100000 := by
      have hstep : (16 : Word).toNat = 16 := rfl
      rw [BitVec.toNat_add, hstep, Nat.mod_eq_of_lt (by omega)]
      omega
    rw [searchLoop, if_pos hin, placesFrom_succ]
    by_cases hsignature : HasSignature mem ptr
    · rw [if_pos hsignature, List.filter_cons, if_pos (decide_eq_true hsignature), parseACPI]
      by_cases hsum : checksum mem ptr = 0
      · rw [if_neg (not_not.mpr hsum)]
        by_cases hrev : revision mem ptr = 0
        · rw [if_pos hrev, parsed_good ⟨hsum, hrev⟩, parseAll, List.foldlM_cons, Option.bind_map]
          exact Option.bind_congr fun s _ => ih hnext s
        · rw [if_neg hrev, parsed_other hsum fun h => hrev h.2]
          exact ih hnext s
      · rw [if_pos hsum, parsed_bad hsum]
        rfl
    · rw [if_neg hsignature, List.filter_cons, if_neg (by rwa [decide_eq_true_eq])]
      exact ih hnext s

theorem searchWith_eq (mem : Bytes) (parseRSDT : Word → σ → Option σ) (s : σ) :
    searchWith mem parseRSDT s = parseAll mem parseRSDT (parsed mem (candidates mem)) s :=
  searchLoop_eq places rfl s

/-- What is parsed can be seen when `parseRSDT` writes down its arguments. -/
theorem parseAll_log (ptrs log : List Word) :
    parseAll mem (fun addr log => some (log ++ [addr])) ptrs log = some (log ++ ptrs.map (rsdtAddress mem)) := by
  induction ptrs generalizing log with
  | nil => exact congrArg some (List.append_nil log).symm
  | cons ptr ptrs ih =>
    rw [parseAll, List.foldlM_cons]
    refine (ih (log ++ [rsdtAddress mem ptr])).trans ?_
    rw [List.append_assoc]
    rfl

/-- Two lists are parsed alike, whatever `parseRSDT` does, when they name the same addresses. -/
theorem parseAll_iff (ptrs ptrs' : List Word) :
    (∀ (σ : Type) (parseRSDT : Word → σ → Option σ) (s : σ),
      parseAll mem parseRSDT ptrs s = parseAll mem parseRSDT ptrs' s) ↔
      ptrs.map (rsdtAddress mem) = ptrs'.map (rsdtAddress mem) := by
  constructor
  · intro h
    have hlog := h (List Word) (fun addr log => some (log ++ [addr])) []
    rw [parseAll_log, parseAll_log] at hlog
    exact Option.some.inj hlog
  · intro h σ parseRSDT s
    have hmap : ∀ ptrs, parseAll mem parseRSDT ptrs s =
        (ptrs.map (rsdtAddress mem)).foldlM (fun s addr => parseRSDT addr s) s := by
      intro ptrs
      rw [List.foldlM_map]
      rfl
    rw [hmap, hmap, h]

theorem searchLaw_iff_parsed (mem : Bytes) : SearchLaw mem ↔
    (parsed mem (candidates mem)).map (rsdtAddress mem) = (firstGood mem).toList.map (rsdtAddress mem) := by
  rw [← parseAll_iff]
  refine forall₃_congr fun σ parseRSDT s => ?_
  rw [searchWith_eq]
  cases firstGood mem with
  | none => rfl
  | some ptr =>
    have hone : parseAll mem parseRSDT [ptr] s = parseRSDT (rsdtAddress mem ptr) s := by
      rw [parseAll, List.foldlM_cons]
      cases parseRSDT (rsdtAddress mem ptr) s with
      | none => rfl
      | some s => rfl
    rw [Option.toList_some, hone]

/-- A good candidate with no other before it is the only one that is parsed. -/
theorem parsed_eq_iff {pre post : List Word} {ptr : Word} (hpre : ∀ b ∈ pre, ¬ Good mem b) (hgood : Good mem ptr) :
    (parsed mem (pre ++ ptr :: post)).map (rsdtAddress mem) = [rsdtAddress mem ptr] ↔
      (∀ b ∈ pre, checksum mem b = 0) ∧ ∀ b ∈ post.takeWhile fun b => checksum mem b = 0, ¬ Good mem b := by
  induction pre with
  | nil =>
    rw [List.nil_append, parsed_good hgood, List.map_cons, List.cons_inj_right, List.map_eq_nil_iff, parsed,
      List.filter_eq_nil_iff]
    simp
  | cons b pre ih =>
    have hb := hpre b List.mem_cons_self
    by_cases hsum : checksum mem b = 0
    · rw [List.cons_append, parsed_other hsum hb, ih fun c hc => hpre c (List.mem_cons_of_mem _ hc)]
      simp [hsum]
    · rw [List.cons_append, parsed_bad hsum]
      simp [hsum]

/-- The search goes on behind a good candidate, and stops at one with a wrong checksum. So it parses the first
good one alone exactly when none with a wrong checksum comes before it, and none that is good behind it before
the next with a wrong checksum. -/
theorem searchLaw_iff (mem : Bytes) : SearchLaw mem ↔ OneGood mem := by
  rw [searchLaw_iff_parsed]
  constructor
  · intro h pre ptr post hsplit hpre hgood
    have hnone : ∀ b ∈ pre, (!decide (Good mem b)) = true := fun b hb => by simpa using hpre b hb
    have hfirst : firstGood mem = some ptr :=
      List.find?_eq_some_iff_append.mpr ⟨decide_eq_true hgood, pre, post, hsplit, hnone⟩
    rw [hfirst, hsplit] at h
    exact (parsed_eq_iff hpre hgood).mp h
  · intro h
    cases hfirst : firstGood mem with
    | none =>
      have hnot : ∀ b ∈ candidates mem, ¬ Good mem b := fun b hb hgood =>
        List.find?_eq_none.mp hfirst b hb (decide_eq_true hgood)
      have hnil : parsed mem (candidates mem) = [] :=
        List.filter_eq_nil_iff.mpr fun b hb hgood =>
          hnot b ((List.takeWhile_sublist _).subset hb) (of_decide_eq_true hgood)
      rw [hnil]
      rfl
    | some ptr =>
      obtain ⟨hgood, pre, post, hsplit, hpre⟩ := List.find?_eq_some_iff_append.mp hfirst
      have hgood' := of_decide_eq_true hgood
      have hpre' : ∀ b ∈ pre, ¬ Good mem b := fun b hb => by simpa using hpre b hb
      rw [hsplit]
      exact (parsed_eq_iff hpre' hgood').mpr (h pre ptr post hsplit hpre' hgood')

/-- A structure with a wrong checksum at 0xE0000, and a good one at 0xE0020. -/
def twoPointers : Bytes := fun p =>
  if p - 0xE0000 < 8 then [0x52, 0x53, 0x44, 0x20, 0x50, 0x54, 0x52, 0x20].getD (p - 0xE0000).toNat 0
  else if p - 0xE0020 < 9 then [0x52, 0x53, 0x44, 0x20, 0x50, 0x54, 0x52, 0x20, 0xE1].getD (p - 0xE0020).toNat 0
  else 0

theorem candidates_twoPointers : ∃ rest, candidates twoPointers = 0xE0000 :: 0xE0020 :: rest := by
  have hplaces : placesFrom 0xE0000 places = 0xE0000 :: 0xE0010 :: 0xE0020 :: placesFrom 0xE0030 8189 := by
    have hcount : places = 8189 + 1 + 1 + 1 := rfl
    rw [hcount, placesFrom_succ, placesFrom_succ, placesFrom_succ]
    rfl
  refine ⟨(placesFrom 0xE0030 8189).filter fun ptr => HasSignature twoPointers ptr, ?_⟩
  rw [candidates, hplaces, List.filter_cons, if_pos (by decide), List.filter_cons, if_neg (by decide),
    List.filter_cons, if_pos (by decide)]

/-- The search stops at the first structure, and does not parse the second one. -/
theorem not_searchLaw_twoPointers : ¬ SearchLaw twoPointers := by
  obtain ⟨rest, hrest⟩ := candidates_twoPointers
  have hfirst : firstGood twoPointers = some 0xE0020 := by
    rw [firstGood, hrest, List.find?_cons_of_neg (by decide), List.find?_cons_of_pos (by decide)]
  have hbad : checksum twoPointers 0xE0000 ≠ 0 := by decide
  rw [searchLaw_iff_parsed, hrest, parsed_bad hbad, hfirst]
  exact (List.cons_ne_nil _ _).symm

end Search

end ACPI

end CxxKernel.Devices
