import CxxKernel.Memory

/-! The words in byte memory, with the low byte first, and the stores to regions that have no byte in common. -/
namespace CxxKernel.Mem

def word (mem : Bytes) (p : Word) : Word :=
  (mem (p + 3)).toBitVec ++ (mem (p + 2)).toBitVec ++ (mem (p + 1)).toBitVec ++ (mem p).toBitVec

def setWord (mem : Bytes) (p val : Word) : Bytes := fun x =>
  if (x - p).toNat < 4 then ⟨(val >>> (8 * (x - p).toNat)).setWidth 8⟩ else mem x

def setHalf (mem : Bytes) (p : Word) (val : BitVec 16) : Bytes := fun x =>
  if (x - p).toNat < 2 then ⟨(val >>> (8 * (x - p).toNat)).setWidth 8⟩ else mem x

/-- No byte of the word at the one address is a byte of the word at the other. -/
def Apart (p q : Word) : Prop := 4 ≤ (q - p).toNat ∧ 4 ≤ (p - q).toNat

instance (p q : Word) : Decidable (Apart p q) := inferInstanceAs (Decidable (_ ∧ _))

/-- The `m` bytes at `a` and the `n` bytes at `b` have none in common. -/
def ClearOf (a : Word) (m : ℕ) (b : Word) (n : ℕ) : Prop := m ≤ (b - a).toNat ∧ n ≤ (a - b).toNat

instance (a b : Word) (m n : ℕ) : Decidable (ClearOf a m b n) := inferInstanceAs (Decidable (_ ∧ _))

variable {mem mem' : Bytes} {p q val x : Word}

theorem Apart.symm (h : Apart p q) : Apart q p := ⟨h.2, h.1⟩

theorem setWord_of_le (h : 4 ≤ (x - p).toNat) : setWord mem p val x = mem x := if_neg (Nat.not_lt.mpr h)

theorem setWord_byte {i : ℕ} (h : i < 4) (hx : (x - p).toNat = i) :
    setWord mem p val x = ⟨(val >>> (8 * i)).setWidth 8⟩ := by
  rw [setWord, hx, if_pos h]

theorem bytes_eq (val : Word) : (val >>> 24).setWidth 8 ++ (val >>> 16).setWidth 8 ++ (val >>> 8).setWidth 8 ++
    val.setWidth 8 = val := by
  apply BitVec.eq_of_getLsbD_eq
  intro i hi
  simp only [BitVec.getLsbD_append, BitVec.getLsbD_setWidth, BitVec.getLsbD_ushiftRight]
  grind

@[simp] theorem word_setWord (mem : Bytes) (p val : Word) : word (setWord mem p val) p = val := by
  have h0 : (p - p).toNat = 0 := by bv_omega
  have h1 : (p + 1 - p).toNat = 1 := by bv_omega
  have h2 : (p + 2 - p).toNat = 2 := by bv_omega
  have h3 : (p + 3 - p).toNat = 3 := by bv_omega
  rw [word, setWord_byte (by decide) h0, setWord_byte (by decide) h1, setWord_byte (by decide) h2,
    setWord_byte (by decide) h3]
  exact bytes_eq val

theorem word_congr (h : ∀ i < 4, mem (cells p i) = mem' (cells p i)) : word mem p = word mem' p := by
  have h0 := h 0 (by decide)
  have h1 : mem (p + 1) = mem' (p + 1) := h 1 (by decide)
  have h2 : mem (p + 2) = mem' (p + 2) := h 2 (by decide)
  have h3 : mem (p + 3) = mem' (p + 3) := h 3 (by decide)
  rw [cells_zero] at h0
  rw [word, word, h0, h1, h2, h3]

theorem append_eq_zero {v w : ℕ} {a : BitVec v} {b : BitVec w} : a ++ b = 0#(v + w) ↔ a = 0#v ∧ b = 0#w := by
  rw [← BitVec.toNat_inj, ← BitVec.toNat_inj, ← BitVec.toNat_inj, BitVec.toNat_append]
  simp [Nat.or_eq_zero_iff]

theorem word_eq_zero : word mem p = 0 ↔ ∀ i < 4, mem (cells p i) = 0 := by
  have hbyte : ∀ x, (mem x).toBitVec = 0#8 ↔ mem x = 0 := fun x => UInt8.toBitVec_inj
  have hword : word mem p = 0 ↔ ((mem (p + 3) = 0 ∧ mem (p + 2) = 0) ∧ mem (p + 1) = 0) ∧ mem p = 0 := by
    rw [← hbyte, ← hbyte, ← hbyte, ← hbyte, ← append_eq_zero, ← append_eq_zero, ← append_eq_zero]
    rfl
  rw [hword]
  constructor
  · rintro ⟨⟨⟨h3, h2⟩, h1⟩, h0⟩ i hi
    match i, hi with
    | 0, _ => rwa [cells_zero]
    | 1, _ => exact h1
    | 2, _ => exact h2
    | 3, _ => exact h3
  · intro h
    have h0 := h 0 (by decide)
    rw [cells_zero] at h0
    exact ⟨⟨⟨h 3 (by decide), h 2 (by decide)⟩, h 1 (by decide)⟩, h0⟩

theorem setWord_zero : setWord mem p 0 x = if (x - p).toNat < 4 then 0 else mem x := by
  have hzero : ∀ n : ℕ, (0 : Word) >>> n = 0 := fun n => BitVec.zero_ushiftRight
  unfold setWord
  rw [hzero]
  rfl

theorem word_setWord_of_apart (h : Apart p q) : word (setWord mem p val) q = word mem q := by
  refine word_congr fun i hi => setWord_of_le ?_
  obtain ⟨hpq, hqp⟩ := h
  rw [cells]
  bv_omega

section Halves
variable {half : BitVec 16}

end Halves

section Offsets
variable {a b i j : Word} {m n : ℕ} {half : BitVec 16}

theorem Apart.offset (h : Apart i j) : Apart (p + i) (p + j) := by
  obtain ⟨hij, hji⟩ := h
  unfold Apart
  bv_omega

theorem word_setWord_offset (h : Apart i j) : word (setWord mem (p + i) val) (p + j) = word mem (p + j) :=
  word_setWord_of_apart h.offset

namespace ClearOf

theorem symm (h : ClearOf a m b n) : ClearOf b n a m := ⟨h.2, h.1⟩

theorem apart (h : ClearOf a m b n) (hi : i.toNat + 4 ≤ m) (hj : j.toNat + 4 ≤ n) : Apart (a + i) (b + j) := by
  obtain ⟨hab, hba⟩ := h
  unfold Apart
  bv_omega

theorem word_setWord (h : ClearOf a m b n) (hi : i.toNat + 4 ≤ m) (hj : j.toNat + 4 ≤ n) :
    word (setWord mem (a + i) val) (b + j) = word mem (b + j) :=
  word_setWord_of_apart (h.apart hi hj)

end ClearOf
end Offsets

end CxxKernel.Mem
