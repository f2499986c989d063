import CxxKernel.Fs.UstarWalk
import CxxKernel.Lib.Runs

/-! The walk over a device with any contents: where it leaves the device. -/
namespace CxxKernel.Fs
open Runs

section Size
variable {res : BitVec 64} {data : List Byte}

theorem digit_toNat {c : Byte} (h : ¬ (c.slt 0x30 ∨ BitVec.slt 0x39 c)) :
    (c.setWidth 64 - 0x30).toNat ≤ 9 := by
  revert c
  decide

theorem parseOctFrom_le (h : (res.toNat + 2) * 8 ^ data.length ≤ 2 ^ 64) :
    (parseOctFrom res data).toNat + 2 ≤ (res.toNat + 2) * 8 ^ data.length := by
  induction data generalizing res with
  | nil => simp [parseOctFrom]
  | cons c cs ih =>
    have hpow : 0 < 8 ^ cs.length := Nat.pow_pos (by decide)
    rw [List.length_cons, Nat.pow_succ, Nat.mul_comm (8 ^ cs.length), ← Nat.mul_assoc] at h ⊢
    have hstop : res.toNat + 2 ≤ (res.toNat + 2) * 8 * 8 ^ cs.length :=
      Nat.le_trans (Nat.le_mul_of_pos_right _ (by decide)) (Nat.le_mul_of_pos_right _ hpow)
    rw [parseOctFrom]
    split_ifs with hzero hdigit
    · exact hstop
    · exact hstop
    · have hle := digit_toNat hdigit
      have hroom : (res.toNat + 2) * 8 ≤ 2 ^ 64 := Nat.le_trans (Nat.le_mul_of_pos_right _ hpow) h
      have hnext : (res * 8 + (c.setWidth 64 - 0x30)).toNat + 2 ≤ (res.toNat + 2) * 8 := by
        have height : (8 : BitVec 64).toNat = 8 := rfl
        rw [BitVec.toNat_add, BitVec.toNat_mul, height]
        omega
      have hmul := Nat.mul_le_mul_right (8 ^ cs.length) hnext
      exact Nat.le_trans (ih (Nat.le_trans hmul h)) hmul

theorem parseOct_lt (h : data.length = 12) : (parseOct data).toNat < 2 ^ 37 := by
  have hle := @parseOctFrom_le 0 data (by rw [h]; decide)
  rw [h] at hle
  have hzero : (0 : BitVec 64).toNat = 0 := rfl
  rw [hzero] at hle
  unfold parseOct
  omega

end Size

namespace Ustar

/-- The block behind the data of the entry, without wrapping. -/
def Iterator.behind (it : Iterator) : ℕ := it.block.toNat + 1 + (it.size.toNat + 511) / 512

/-- The iterator stands on a header inside the device, and its data was read from there. -/
structure Inside (fs : Ustar) (it : Iterator) : Prop where
  index : it.index = it.block
  block : 512 * it.block.toNat < fs.phys.size
  data : fs.phys.read (512 * it.block.toNat) = some it.data
  magic : field it.data 257 5 = ustarMagic
  size : it.size = parseOct (field it.data 124 12)

/-- The iterator moves on while it is ok. -/
def WalkStep (fs : Ustar) (it : Iterator) (_ : Unit) (it' : Iterator) : Prop :=
  it.ok = true ∧ it' = fs.next it

/-- What a step that answers true promises: a block of the device, its header, behind the entry before. -/
def WalkLaw (fs : Ustar) (it : Iterator) (_ : Unit) (it' : Iterator) : Prop :=
  it'.ok = true → 512 * it'.block.toNat < fs.phys.size ∧
    fs.phys.read (512 * it'.block.toNat) = some it'.data ∧ it.behind ≤ it'.block.toNat

/-- There is a header at the position that the block behind the entry has in 32 bits. -/
def HeaderAt (fs : Ustar) (pos : ℕ) : Prop :=
  pos < fs.phys.size ∧ ∃ data ∈ fs.phys.read pos, field data 257 5 = ustarMagic

/-- The block behind the entry lies outside the device, but its 32-bit position is that of a header. -/
def Slips (fs : Ustar) (it : Iterator) : Prop :=
  512 * (it.block.toNat + 1) < fs.phys.size ∧ fs.phys.size ≤ 512 * it.behind ∧
    HeaderAt fs (512 * it.behind % 2 ^ 32)

section Step
variable {fs : Ustar} {it : Iterator}

theorem loadEntry_snd (it : Iterator) : (loadEntry it).2 = true ↔ field it.data 257 5 = ustarMagic := by
  have hcmp := memCmp_magic it.data
  rw [loadEntry]
  by_cases hmagic : field it.data 257 5 = ustarMagic
  · rw [if_neg (not_not.mpr (hcmp.mpr hmagic))]
    exact iff_of_true rfl hmagic
  · rw [if_pos (mt hcmp.mp hmagic)]
    exact iff_of_false Bool.false_ne_true hmagic

theorem loadEntry_fst (h : field it.data 257 5 = ustarMagic) : (loadEntry it).1 =
    { it with data_block := it.block + 1, size := parseOct (field it.data 124 12) } := by
  rw [loadEntry, if_neg]
  exact not_not.mpr ((memCmp_magic it.data).mpr h)

theorem toNat_blockPos (w : Word) : (w * blockSize).toNat = 512 * w.toNat % 2 ^ 32 := by
  have hsize : blockSize.toNat = 512 := rfl
  rw [BitVec.toNat_mul, hsize, Nat.mul_comm]

theorem toNat_next_block_of_lt (hblock : it.block.toNat < 2 ^ 31) (hsize : it.size.toNat < 2 ^ 37) :
    ((it.block.setWidth 64 + (it.size + blockSize.setWidth 64 - 1) / blockSize.setWidth 64 +
      1).setWidth 32 : Word).toNat = it.behind := by
  have hbs : (blockSize.setWidth 64).toNat = 512 := rfl
  have hone : (1 : BitVec 64).toNat = 1 := rfl
  unfold Iterator.behind
  simp only [BitVec.toNat_setWidth, BitVec.toNat_add, BitVec.toNat_udiv, BitVec.toNat_sub, hbs, hone]
  omega

theorem Inside.size_lt (h : Inside fs it) : it.size.toNat < 2 ^ 37 := by
  rw [h.size]
  exact parseOct_lt (length_field ..)

/-- `next` answers true exactly when there is a header at the 32-bit position of the block behind the
entry, and then it stands on it. -/
theorem next_spec (h : Inside fs it) (hsize : fs.phys.size ≤ 2 ^ 32 - 512) :
    ((fs.next it).ok = true ↔
      512 * (it.block.toNat + 1) < fs.phys.size ∧ HeaderAt fs (512 * it.behind % 2 ^ 32)) ∧
    ((fs.next it).ok = true → (fs.next it).block.toNat = it.behind ∧
      (fs.next it).index = (fs.next it).block ∧
      fs.phys.read (512 * it.behind % 2 ^ 32) = some (fs.next it).data ∧
      field (fs.next it).data 257 5 = ustarMagic ∧
      (fs.next it).size = parseOct (field (fs.next it).data 124 12)) := by
  have hblock := h.block
  have hone : (1 : Word).toNat = 1 := rfl
  have hindex : (it.index + 1).toNat = it.block.toNat + 1 := by
    rw [h.index, BitVec.toNat_add, hone]
    omega
  have hpos : ((it.index + 1) * blockSize).toNat = 512 * (it.block.toNat + 1) := by
    rw [toNat_blockPos, hindex]
    omega
  have hne : it.block ≠ it.index + 1 := by
    intro he
    have hnat := congrArg BitVec.toNat he
    omega
  have hbehind : it.block.toNat + 1 ≤ it.behind := Nat.le_add_right _ _
  rw [next, getCurrent]
  simp only [hpos, if_neg hne]
  generalize hnext : ((it.block.setWidth 64 + (it.size + blockSize.setWidth 64 - 1) / blockSize.setWidth 64 +
    1).setWidth 32 : Word) = next_block
  have hnat : next_block.toNat = it.behind := by
    rw [← hnext]
    exact toNat_next_block_of_lt (by omega) h.size_lt
  have hnot : ¬ next_block < it.index + 1 := by
    rw [BitVec.lt_def, hnat, hindex]
    omega
  have hpos' : (next_block * blockSize).toNat = 512 * it.behind % 2 ^ 32 := by
    rw [toNat_blockPos, hnat]
  simp only [if_neg hnot, hpos', getBlock]
  by_cases hend : fs.phys.size ≤ 512 * (it.block.toNat + 1)
  · rw [if_pos hend]
    exact ⟨iff_of_false (by simp) fun hc => absurd hc.1 (not_lt.mpr hend), fun hc => by simp at hc⟩
  · rw [if_neg hend]
    by_cases hend' : fs.phys.size ≤ 512 * it.behind % 2 ^ 32
    · rw [if_pos hend']
      exact ⟨iff_of_false (by simp) fun hc => absurd hc.2.1 (not_lt.mpr hend'), fun hc => by simp at hc⟩
    · rw [if_neg hend']
      cases hread : fs.phys.read (512 * it.behind % 2 ^ 32) with
      | none =>
        refine ⟨iff_of_false (by simp) fun hc => ?_, fun hc => by simp at hc⟩
        obtain ⟨-, -, data, hdata, -⟩ := hc
        rw [hread] at hdata
        cases hdata
      | some data =>
        dsimp only
        rw [loadEntry_snd]
        constructor
        · constructor
          · intro hmagic
            exact ⟨not_le.mp hend, not_le.mp hend', data, hread, hmagic⟩
          · rintro ⟨-, -, data', hdata', hmagic⟩
            rw [hread] at hdata'
            obtain rfl := Option.some.inj hdata'
            exact hmagic
        · intro hmagic
          rw [loadEntry_fst hmagic]
          exact ⟨hnat, rfl, rfl, hmagic, rfl⟩

/-- A step obeys its law exactly when it does not slip, and then it stays inside. -/
theorem walkLaw_iff_of_inside (h : Inside fs it) (hsize : fs.phys.size ≤ 2 ^ 32 - 512) :
    (WalkLaw fs it () (fs.next it) ↔ ¬ Slips fs it) ∧
      (¬ Slips fs it → (fs.next it).ok = true → Inside fs (fs.next it)) := by
  obtain ⟨hok, hnext⟩ := next_spec h hsize
  have hroom : ¬ Slips fs it → (fs.next it).ok = true → 512 * it.behind < fs.phys.size := by
    intro hno hyes
    obtain ⟨hfirst, hheader⟩ := hok.mp hyes
    exact not_le.mp fun hle => hno ⟨hfirst, hle, hheader⟩
  have hexact : 512 * it.behind < fs.phys.size → 512 * it.behind % 2 ^ 32 = 512 * it.behind :=
    fun hlt => Nat.mod_eq_of_lt (by omega)
  refine ⟨⟨fun hlaw hslip => ?_, fun hno hyes => ?_⟩, fun hno hyes => ?_⟩
  · have hyes := hok.mpr ⟨hslip.1, hslip.2.2⟩
    have hlt := (hlaw hyes).1
    rw [(hnext hyes).1] at hlt
    exact absurd hslip.2.1 (not_le.mpr hlt)
  · obtain ⟨hblock, -, hdata, -⟩ := hnext hyes
    have hlt := hroom hno hyes
    rw [hexact hlt] at hdata
    rw [hblock]
    exact ⟨hlt, hdata, le_refl _⟩
  · obtain ⟨hblock, hindex, hdata, hmagic, hsize'⟩ := hnext hyes
    have hlt := hroom hno hyes
    rw [hexact hlt] at hdata
    constructor
    · exact hindex
    · rwa [hblock]
    · rwa [hblock]
    · exact hmagic
    · exact hsize'

end Step

section Walk
variable {fs : Ustar} {it₀ it : Iterator} {steps : List Unit}

/-- A walk that starts at the first block starts inside the device, if it finds an entry at all. -/
theorem list_inside (hok : (fs.list 0).ok = true) : Inside fs (fs.list 0) := by
  have hzero : ((0 : Word) * blockSize).toNat = 0 := by decide
  rw [list] at hok ⊢
  cases hload : fs.getBlock 0 with
  | none =>
    rw [hload] at hok
    cases hok
  | some data =>
    rw [hload] at hok
    dsimp only at hok ⊢
    rw [getBlock, hzero] at hload
    by_cases hsize : fs.phys.size ≤ 0
    · have hcur : fs.getCurrent ⟨false, 0, 0, 0, 0, 0, 0, data⟩ = (⟨false, 0, 0, 0, 0, 0, 0, data⟩, false) := by
        rw [getCurrent, hzero, if_pos hsize]
      rw [hcur] at hok
      cases hok
    · have hcur : fs.getCurrent ⟨false, 0, 0, 0, 0, 0, 0, data⟩ = loadEntry ⟨false, 0, 0, 0, 0, 0, 0, data⟩ := by
        rw [getCurrent, hzero, if_neg hsize, if_pos rfl]
      rw [hcur] at hok ⊢
      by_cases hfound : (loadEntry ⟨false, 0, 0, 0, 0, 0, 0, data⟩).2 = true
      · have hmagic := (loadEntry_snd _).mp hfound
        rw [if_pos hfound, loadEntry_fst hmagic]
        constructor
        · rfl
        · exact Nat.not_le.mp hsize
        · exact hload
        · exact hmagic
        · rfl
      · rw [if_neg hfound, loadEntry_ok] at hok
        cases hok

/-- From the first block, or from any entry inside the device, a walk obeys its law exactly as long as
no step slips. -/
theorem hostileWalk_iff (hsize : fs.phys.size ≤ 2 ^ 32 - 512) (h : it₀ = fs.list 0 ∨ Inside fs it₀) :
    Run (Guarded (WalkStep fs) (WalkLaw fs)) it₀ steps it ↔
      Run (Guarded (WalkStep fs) fun it _ _ => ¬ Slips fs it) it₀ steps it := by
  have hstart : it₀.ok = true → Inside fs it₀ := by
    rcases h with rfl | hin
    · exact list_inside
    · exact fun _ => hin
  have hiff : ∀ it step it', (it.ok = true → Inside fs it) → WalkStep fs it step it' →
      (WalkLaw fs it step it' ↔ ¬ Slips fs it) := by
    rintro it _ it' hinv ⟨hok, rfl⟩
    exact (walkLaw_iff_of_inside (hinv hok) hsize).1
  have hkeep : ∀ it step it', (it.ok = true → Inside fs it) → WalkStep fs it step it' →
      ¬ Slips fs it → it'.ok = true → Inside fs it' := by
    rintro it _ it' hinv ⟨hok, rfl⟩ hno
    exact (walkLaw_iff_of_inside (hinv hok) hsize).2 hno
  exact guarded_iff hiff hkeep hstart

end Walk

theorem hostileWalk_iff_twoFiles :
    WalkLaw ⟨twoFilesPhys⟩ (list ⟨twoFilesPhys⟩ 0) () (next ⟨twoFilesPhys⟩ (list ⟨twoFilesPhys⟩ 0)) := by
  have hno : ¬ Slips ⟨twoFilesPhys⟩ (list ⟨twoFilesPhys⟩ 0) := fun hslip =>
    absurd hslip.2.1 (by decide +kernel)
  have hstep : Run (Guarded (WalkStep ⟨twoFilesPhys⟩) fun it _ _ => ¬ Slips ⟨twoFilesPhys⟩ it)
      (list ⟨twoFilesPhys⟩ 0) [()] (next ⟨twoFilesPhys⟩ (list ⟨twoFilesPhys⟩ 0)) :=
    Run.single ⟨⟨by decide +kernel, rfl⟩, hno⟩
  have hrun := (hostileWalk_iff (by decide) (.inl rfl)).mpr hstep
  cases hrun with
  | cons hstep _ =>
    obtain ⟨⟨-, rfl⟩, hlaw⟩ := hstep
    exact hlaw

/-- A device of two headers; the first one claims 2 ^ 32 bytes of data. -/
def hugeFile (i : ℕ) : Byte := if i = 124 then 0x34 else headerByte 0x30 (i % 512)

def hugeFilePhys : FilesystemPhys :=
  ⟨1024, fun pos => if pos + 512 ≤ 1024 then some fun i => hugeFile (pos + i) else none⟩

/-- The position of the next block wraps to the second header. -/
theorem walk_slips :
    (list ⟨hugeFilePhys⟩ 0).ok = true ∧ (next ⟨hugeFilePhys⟩ (list ⟨hugeFilePhys⟩ 0)).ok = true ∧
      (next ⟨hugeFilePhys⟩ (list ⟨hugeFilePhys⟩ 0)).block = 0x800001 ∧
      ¬ WalkLaw ⟨hugeFilePhys⟩ (list ⟨hugeFilePhys⟩ 0) () (next ⟨hugeFilePhys⟩ (list ⟨hugeFilePhys⟩ 0)) := by
  have hok : (next ⟨hugeFilePhys⟩ (list ⟨hugeFilePhys⟩ 0)).ok = true := by decide +kernel
  refine ⟨by decide +kernel, hok, by decide +kernel, fun hlaw => ?_⟩
  exact absurd (hlaw hok).1 (by decide +kernel)

end Ustar

end CxxKernel.Fs
