import CxxKernel.Fs.Ustar

/-! The walk over an archive: the iterator stands on every entry once, in order. -/
namespace CxxKernel.Fs
open Cursor

/-- An entry: the block of its header, and the size of its data in bytes. -/
structure Entry where
  block : ℕ
  size : ℕ

/-- The block behind the data of an entry. -/
def Entry.behind (e : Entry) : ℕ := e.block + 1 + (e.size + 511) / 512

/-- Block `k` of a device. -/
def blockOf (content : ℕ → Byte) (k : ℕ) : Buffer := fun i => content (512 * k + i)

/-- The header in block `k` has the ustar magic. -/
def Magic (content : ℕ → Byte) (k : ℕ) : Prop :=
  field (blockOf content k) 257 5 = ustarMagic

/-- The size field of the header holds `n` as 11 octal digits, the highest one first, and a NUL. -/
def OctalSize (content : ℕ → Byte) (k n : ℕ) : Prop :=
  ∃ digits : List ℕ, digits.length = 11 ∧ (∀ x ∈ digits, x < 8) ∧
    field (blockOf content k) 124 12 = digits.map digitChar ++ [0] ∧ n = Nat.ofDigits 8 digits.reverse

/-- From block `k` on, the device holds the headers and the data of the entries, and then a block
without the magic or nothing. -/
inductive Archive (content : ℕ → Byte) (size : ℕ) : ℕ → List Entry → Prop
  | flush (k : ℕ) (h : 512 * k = size) : Archive content size k []
  | other (k : ℕ) (h : 512 * (k + 1) ≤ size) (hmagic : ¬ Magic content k) : Archive content size k []
  | entry (e : Entry) (es : List Entry) (hmagic : Magic content e.block)
      (hsize : OctalSize content e.block e.size) (h : 512 * e.behind ≤ size)
      (hrest : Archive content size e.behind es) : Archive content size e.block (e :: es)

/-- Reads inside the device succeed. -/
def FilesystemPhys.Reads (phys : FilesystemPhys) (content : ℕ → Byte) : Prop :=
  ∀ pos, pos + 512 ≤ phys.size → ∃ b, phys.read pos = some b ∧ ∀ i < 512, b i = content (pos + i)

section Walk
variable {content : ℕ → Byte} {fs : Ustar} {k : ℕ} {e : Entry} {es : List Entry} {b b' : Buffer}
  {it : Ustar.Iterator}

theorem field_congr {start len : ℕ} (h : ∀ i, start ≤ i → i < start + len → b i = b' i) :
    field b start len = field b' start len := by
  apply List.map_congr_left
  intro i hi
  rw [List.mem_range] at hi
  exact h _ (Nat.le_add_right _ _) (by omega)

theorem Archive.le {size : ℕ} (h : Archive content size k es) : 512 * k ≤ size := by
  cases h with
  | flush _ h => omega
  | other _ h => omega
  | entry e es hmagic hsize h =>
    unfold Entry.behind at h
    omega

theorem Archive.room {size : ℕ} (h : Archive content size k es) (hlt : 512 * k < size) :
    512 * (k + 1) ≤ size := by
  cases h with
  | flush _ h => omega
  | other _ h => exact h
  | entry e es hmagic hsize h =>
    unfold Entry.behind at h
    omega

theorem Archive.eq_nil {size : ℕ} (h : Archive content size k es) (hle : size ≤ 512 * k) : es = [] := by
  cases h with
  | flush => rfl
  | other => rfl
  | entry e es hmagic hsize h =>
    unfold Entry.behind at h
    omega

theorem parseOct_size {n : ℕ} (h : OctalSize content k n) :
    (parseOct (field (blockOf content k) 124 12)).toNat = n := by
  obtain ⟨digits, hlen, hdigits, hfield, rfl⟩ := h
  have hlt : ((0 : BitVec 64).toNat + 1) * 8 ^ digits.length ≤ 2 ^ 64 := by
    rw [hlen]
    decide
  rw [hfield, parseOct, parseOctFrom_digits hdigits [] hlt]
  simp

/-- The iterator stands on an entry. -/
structure StandsOn (it : Ustar.Iterator) (e : Entry) : Prop where
  ok : it.ok = true
  block : it.block.toNat = e.block
  index : it.index = it.block
  size : it.size.toNat = e.size
  data_block : it.data_block.toNat = e.block + 1

/-- What `getCurrent` leaves when the entries `es` are still to come. -/
def Found (es : List Entry) (r : Ustar.Iterator × Bool) : Prop :=
  match es with
  | [] => r.2 = false
  | e :: _ => r.2 = true ∧ StandsOn { r.1 with ok := true } e

theorem found_loadEntry (h : Archive content fs.phys.size k es) (hpos : 512 * k < 2 ^ 32)
    (hend : 512 * (k + 1) ≤ fs.phys.size) (hblock : it.block.toNat = k) (hindex : it.index = it.block)
    (hdata : ∀ i < 512, it.data i = blockOf content k i) : Found es (Ustar.loadEntry it) := by
  have hmagic : field it.data 257 5 = field (blockOf content k) 257 5 :=
    field_congr fun i _ hi => hdata i (by omega)
  have hcmp := memCmp_magic it.data
  rw [hmagic] at hcmp
  rw [Ustar.loadEntry, hmagic]
  cases h with
  | flush h => omega
  | other _ _ hno =>
    rw [if_pos fun hz => hno (hcmp.mp hz)]
    rfl
  | entry e es hyes hsize =>
    rw [if_neg fun hne => hne (hcmp.mpr hyes)]
    have hfield : field it.data 124 12 = field (blockOf content e.block) 124 12 :=
      field_congr fun i _ hi => hdata i (by omega)
    have hone : (1 : Word).toNat = 1 := rfl
    refine ⟨rfl, rfl, hblock, hindex, ?_, ?_⟩
    · change (parseOct (field it.data 124 12)).toNat = _
      rw [hfield, parseOct_size hsize]
    · change (it.block + 1).toNat = _
      rw [BitVec.toNat_add, hblock, hone]
      omega

theorem toNat_mul_blockSize {w : Word} (h : w.toNat * 512 < 2 ^ 32) :
    (w * Ustar.blockSize).toNat = 512 * w.toNat := by
  have hsize : Ustar.blockSize.toNat = 512 := rfl
  rw [BitVec.toNat_mul, hsize, Nat.mod_eq_of_lt h, Nat.mul_comm]

theorem getBlock_inside (hreads : fs.phys.Reads content) {w : Word} (hpos : 512 * w.toNat < 2 ^ 32)
    (hend : 512 * (w.toNat + 1) ≤ fs.phys.size) :
    ∃ b, fs.getBlock w = some b ∧ ∀ i < 512, b i = blockOf content w.toNat i := by
  rw [Ustar.getBlock, toNat_mul_blockSize (by omega)]
  exact hreads _ (by omega)

/-- The block that `getCurrent` computes from the size of the entry. -/
theorem toNat_next_block (h : StandsOn it e) (hlt : 512 * e.behind < 2 ^ 32) :
    ((it.block.setWidth 64 + (it.size + Ustar.blockSize.setWidth 64 - 1) / Ustar.blockSize.setWidth 64 +
      1).setWidth 32 : Word).toNat = e.behind := by
  have hsize : (Ustar.blockSize.setWidth 64).toNat = 512 := rfl
  have hone : (1 : BitVec 64).toNat = 1 := rfl
  have hblock := h.block
  have hit := h.size
  unfold Entry.behind at hlt ⊢
  simp only [BitVec.toNat_setWidth, BitVec.toNat_add, BitVec.toNat_udiv, BitVec.toNat_sub, hsize, hone,
    hblock, hit]
  omega

theorem found_next (hreads : fs.phys.Reads content) (hbelow : 512 * e.behind < 2 ^ 32) (h : StandsOn it e)
    (harchive : Archive content fs.phys.size e.behind es) :
    Found es (fs.getCurrent { it with index := it.index + 1 }) := by
  have hbehind : e.block + 1 ≤ e.behind := Nat.le_add_right _ _
  have hblock := h.block
  have hone : (1 : Word).toNat = 1 := rfl
  have hindex : (it.index + 1).toNat = e.block + 1 := by
    rw [h.index, BitVec.toNat_add, hblock, hone]
    omega
  have hpos : ((it.index + 1) * Ustar.blockSize).toNat = 512 * (e.block + 1) := by
    rw [toNat_mul_blockSize (by omega), hindex]
  have hne : it.block ≠ it.index + 1 := by
    intro he
    rw [he, hindex] at hblock
    omega
  have hnext := toNat_next_block h hbelow
  have hstop : fs.phys.size ≤ 512 * e.behind → ∀ it' : Ustar.Iterator, Found es (it', false) := by
    intro hend it'
    rw [harchive.eq_nil hend]
    rfl
  rw [Ustar.getCurrent]
  simp only [hpos, if_neg hne]
  generalize hblocks : ((it.block.setWidth 64 + (it.size + Ustar.blockSize.setWidth 64 - 1) /
    Ustar.blockSize.setWidth 64 + 1).setWidth 32 : Word) = next_block at hnext ⊢
  have hpos' : (next_block * Ustar.blockSize).toNat = 512 * e.behind := by
    rw [toNat_mul_blockSize (by omega), hnext]
  have hnot : ¬ next_block < it.index + 1 := by
    rw [BitVec.lt_def, hnext, hindex]
    omega
  simp only [hpos', if_neg hnot]
  by_cases hend : fs.phys.size ≤ 512 * e.behind
  · split_ifs
    · exact hstop hend _
    · exact hstop hend _
  · have hroom := harchive.room (Nat.not_le.mp hend)
    obtain ⟨b, hload, hdata⟩ := getBlock_inside hreads (hnext.symm ▸ hbelow) (hnext.symm ▸ hroom)
    rw [if_neg (by omega), if_neg hend, hload]
    rw [hnext] at hdata
    exact found_loadEntry harchive hbelow hroom hnext rfl hdata

/-- The iterator when the entries `es` are still to come. -/
def Arrived (es : List Entry) (it : Ustar.Iterator) : Prop :=
  match es with
  | [] => it.ok = false
  | e :: _ => StandsOn it e

theorem arrived_next (hreads : fs.phys.Reads content) (hbelow : 512 * e.behind < 2 ^ 32) (h : StandsOn it e)
    (harchive : Archive content fs.phys.size e.behind es) : Arrived es (fs.next it) := by
  have hfound := found_next hreads hbelow h harchive
  cases es with
  | nil => exact hfound
  | cons e' es' =>
    obtain ⟨hok, hit⟩ := hfound
    exact ⟨hok, hit.block, hit.index, hit.size, hit.data_block⟩

theorem loadEntry_ok (it : Ustar.Iterator) : (Ustar.loadEntry it).1.ok = it.ok := by
  unfold Ustar.loadEntry
  dsimp only
  split <;> rfl

theorem arrived_list (hreads : fs.phys.Reads content) (harchive : Archive content fs.phys.size 0 es) :
    Arrived es (fs.list 0) := by
  have hzero : ((0 : Word) * Ustar.blockSize).toNat = 0 := by decide
  by_cases hsize : fs.phys.size ≤ 0
  · -- the device is empty, whatever a read from it does
    obtain rfl := harchive.eq_nil hsize
    have hpos : fs.phys.size ≤ ((0 : Word) * Ustar.blockSize).toNat := hzero.symm ▸ hsize
    change (fs.list 0).ok = false
    rw [Ustar.list]
    split
    · rfl
    · rw [Ustar.getCurrent, if_pos hpos]
      rfl
  · have hroom : 512 * ((0 : Word).toNat + 1) ≤ fs.phys.size := harchive.room (Nat.not_le.mp hsize)
    obtain ⟨b, hload, hdata⟩ := getBlock_inside hreads (by decide) hroom
    let it : Ustar.Iterator := ⟨false, 0, 0, 0, 0, 0, 0, b⟩
    have hcur : fs.getCurrent it = Ustar.loadEntry it := by
      have hpos : ¬ fs.phys.size ≤ (it.index * Ustar.blockSize).toNat := by
        change ¬ fs.phys.size ≤ ((0 : Word) * Ustar.blockSize).toNat
        rw [hzero]
        exact hsize
      have hindex : it.block = it.index := rfl
      rw [Ustar.getCurrent, if_neg hpos, if_pos hindex]
    have hfound : Found es (Ustar.loadEntry it) := found_loadEntry harchive (by decide) hroom rfl rfl hdata
    have hkeep := loadEntry_ok it
    rw [Ustar.list, hload]
    change Arrived es (if (fs.getCurrent it).2 then { (fs.getCurrent it).1 with ok := true }
      else (fs.getCurrent it).1)
    rw [hcur]
    cases es with
    | nil =>
      have hno : (Ustar.loadEntry it).2 = false := hfound
      rw [hno]
      exact hkeep
    | cons e es' =>
      obtain ⟨hok, hit⟩ := hfound
      rw [hok]
      exact hit

/-- An entry as a loop over the archive sees it: its header, its size and the start of its data. -/
def Entry.place (e : Entry) : ℕ × ℕ × ℕ := (e.block, e.size, e.block + 1)

theorem yields_of_arrived (hreads : fs.phys.Reads content) (hlt : fs.phys.size < 2 ^ 32)
    (harchive : Archive content fs.phys.size k es) (h : Arrived es it) :
    Yields fs.visit it (es.map Entry.place) := by
  have hstop : ∀ it' : Ustar.Iterator, it'.ok = false → fs.visit it' = none := by
    intro it' hok
    rw [Ustar.visit, hok]
    rfl
  induction harchive generalizing it with
  | flush => exact .stop (hstop it h)
  | other => exact .stop (hstop it h)
  | entry e es _ _ _ hrest ih =>
    have hstands : StandsOn it e := h
    have hvisit : fs.visit it = some (e.place, fs.next it) := by
      rw [Ustar.visit, if_pos hstands.ok, hstands.block, hstands.size, hstands.data_block]
      rfl
    have hle := hrest.le
    exact .item hvisit (ih (arrived_next hreads (by omega) hstands hrest))

/-- The walk from the first block on stands on every entry once, in the order of the archive, with
its block, its size and the start of its data, and then stops. -/
theorem walk_yields (hreads : fs.phys.Reads content) (hlt : fs.phys.size < 2 ^ 32)
    (harchive : Archive content fs.phys.size 0 es) :
    Yields fs.visit (fs.list 0) (es.map Entry.place) :=
  yields_of_arrived hreads hlt harchive (arrived_list hreads harchive)

end Walk

/-- Byte `p` of a header whose size has the last digit `digit`. -/
def headerByte (digit : Byte) (p : ℕ) : Byte :=
  if 257 ≤ p ∧ p < 262 then ustarMagic.getD (p - 257) 0
  else if 124 ≤ p ∧ p < 134 then 0x30
  else if p = 134 then digit
  else 0

/-- A file of one byte, and an empty file at the end of the device. -/
def twoFiles (i : ℕ) : Byte :=
  if i / 512 = 0 then headerByte 0x31 i else if i / 512 = 2 then headerByte 0x30 (i - 1024) else 0

def twoFilesPhys : FilesystemPhys :=
  ⟨1536, fun pos => if pos + 512 ≤ 1536 then some fun i => twoFiles (pos + i) else none⟩

theorem twoFilesPhys_reads : twoFilesPhys.Reads twoFiles := by
  intro pos hpos
  have hle : pos + 512 ≤ 1536 := hpos
  refine ⟨fun i => twoFiles (pos + i), ?_, fun i _ => rfl⟩
  simp only [twoFilesPhys, if_pos hle]

theorem walk_yields_twoFiles :
    Yields (Ustar.visit ⟨twoFilesPhys⟩) (Ustar.list ⟨twoFilesPhys⟩ 0) [(0, 1, 1), (2, 0, 3)] := by
  have hmagic : field (blockOf twoFiles 0) 257 5 = ustarMagic := by decide
  have hmagic' : field (blockOf twoFiles 2) 257 5 = ustarMagic := by decide
  have hempty : Archive twoFiles 1536 2 [⟨2, 0⟩] :=
    .entry ⟨2, 0⟩ [] hmagic' ⟨List.replicate 11 0, rfl, by decide, by decide, by decide⟩
      (by decide) (.flush _ (by decide))
  have harchive : Archive twoFiles 1536 0 [⟨0, 1⟩, ⟨2, 0⟩] :=
    .entry ⟨0, 1⟩ _ hmagic ⟨List.replicate 10 0 ++ [1], rfl, by decide, by decide, by decide⟩
      (by decide) hempty
  have hlt : twoFilesPhys.size < 2 ^ 32 := by decide
  exact walk_yields twoFilesPhys_reads hlt harchive

end CxxKernel.Fs
