import Mathlib.Data.List.Basic
import Mathlib.Data.Nat.ModEq
import Mathlib.Tactic.Common

/-! Ring buffers that keep two indices and no count: the read index and the write index are equal when
the ring is empty, and also when it is full. -/

structure RingBuffer (α : Type*) where
  slots : ℕ → Option α
  write : ℕ
  read : ℕ

namespace RingBuffer

variable {α : Type*} {n : ℕ} {r : RingBuffer α} {a : α} {items pushed popped : List α}

def push (n : ℕ) (r : RingBuffer α) (a : α) : RingBuffer α :=
  { r with slots := Function.update r.slots r.write (some a), write := (r.write + 1) % n }

def pop (n : ℕ) (r : RingBuffer α) : Option α × RingBuffer α :=
  if r.write = r.read then (none, r) else (r.slots r.read, { r with read := (r.read + 1) % n })

/-- What `k` calls of `pop` give. -/
def drain (n : ℕ) : ℕ → RingBuffer α → List α
  | 0, _ => []
  | k + 1, r => (r.pop n).1.toList ++ drain n k (r.pop n).2

/-- The ring holds these items, the oldest one first. -/
structure Queue (n : ℕ) (r : RingBuffer α) (items : List α) : Prop where
  read : r.read < n
  write : r.write = (r.read + items.length) % n
  room : items.length < n
  slots : ∀ i, (h : i < items.length) → r.slots ((r.read + i) % n) = some items[i]

namespace Queue

theorem empty_iff (h : Queue n r items) : r.write = r.read ↔ items = [] := by
  have hread := h.read
  have hroom := h.room
  rw [h.write]
  constructor
  · intro heq
    apply List.length_eq_zero_iff.mp
    by_cases hwrap : r.read + items.length < n
    · rw [Nat.mod_eq_of_lt hwrap] at heq
      omega
    · have hsub : (r.read + items.length) % n = r.read + items.length - n := by
        rw [Nat.mod_eq_sub_mod (not_lt.mp hwrap), Nat.mod_eq_of_lt (by omega)]
      omega
  · rintro rfl
    exact Nat.mod_eq_of_lt hread

theorem push (h : Queue n r items) (hroom : items.length + 1 < n) : Queue n (r.push n a) (items ++ [a]) := by
  have hread := h.read
  have hn : 0 < n := by omega
  constructor
  · exact hread
  · change (r.write + 1) % n = (r.read + (items ++ [a]).length) % n
    rw [h.write, List.length_append, List.length_singleton, Nat.mod_add_mod, Nat.add_assoc]
  · rw [List.length_append, List.length_singleton]
    exact hroom
  · intro i hi
    rw [List.length_append, List.length_singleton] at hi
    change Function.update r.slots r.write (some a) ((r.read + i) % n) = _
    rw [h.write]
    by_cases hlast : i = items.length
    · subst hlast
      rw [Function.update_self, List.getElem_concat_length rfl]
    · have hlt : i < items.length := by omega
      have hne : (r.read + i) % n ≠ (r.read + items.length) % n := by
        intro heq
        have hmod : i ≡ items.length [MOD n] := Nat.ModEq.add_left_cancel' r.read heq
        have hlow : i = items.length := hmod.eq_of_lt_of_lt (by omega) (by omega)
        exact hlast hlow
      rw [Function.update_of_ne hne, h.slots i hlt, List.getElem_append_left hlt]

theorem pop_nil (h : Queue n r []) : r.pop n = (none, r) := if_pos (h.empty_iff.mpr rfl)

theorem pop_cons (h : Queue n r (a :: items)) : (r.pop n).1 = some a ∧ Queue n (r.pop n).2 items := by
  have hread := h.read
  have hroom := h.room
  have hn : 0 < n := by omega
  have hne : ¬ r.write = r.read := mt h.empty_iff.mp (List.cons_ne_nil _ _)
  have hfirst := h.slots 0 (Nat.zero_lt_succ _)
  rw [Nat.add_zero, Nat.mod_eq_of_lt hread] at hfirst
  rw [List.length_cons] at hroom
  rw [pop, if_neg hne]
  refine ⟨hfirst, ?_⟩
  constructor
  · exact Nat.mod_lt _ hn
  · change r.write = ((r.read + 1) % n + items.length) % n
    rw [h.write, List.length_cons, Nat.mod_add_mod]
    congr 1
    omega
  · omega
  · intro i hi
    have hslot := h.slots (i + 1) (Nat.succ_lt_succ hi)
    change r.slots (((r.read + 1) % n + i) % n) = _
    rw [Nat.mod_add_mod, Nat.add_assoc, Nat.add_comm 1 i, hslot]
    rfl

/-- A queue gives back what it holds, in order. -/
theorem drain (h : Queue n r items) : RingBuffer.drain n items.length r = items := by
  induction items generalizing r with
  | nil => rfl
  | cons a items ih =>
    obtain ⟨hpop, hrest⟩ := h.pop_cons
    rw [List.length_cons, RingBuffer.drain, hpop, ih hrest]
    rfl

end Queue

/-- Each slot holds the last item that was pushed there, and what was popped is in the order of the
pushes, also where the ring has lost items. -/
structure InOrder (n : ℕ) (r : RingBuffer α) (pushed popped : List α) : Prop where
  write : r.write = pushed.length % n
  slots : ∀ i, (h : i < pushed.length) → pushed.length ≤ i + n → r.slots (i % n) = some pushed[i]
  popped : ∃ low ≤ pushed.length, low % n = r.read ∧ popped.Sublist (pushed.take low)

namespace InOrder

theorem push (h : InOrder n r pushed popped) : InOrder n (r.push n a) (pushed ++ [a]) popped := by
  obtain ⟨low, hlow, hread, hsub⟩ := h.popped
  constructor
  · change (r.write + 1) % n = (pushed ++ [a]).length % n
    rw [h.write, List.length_append, List.length_singleton, Nat.mod_add_mod]
  · intro i hi hnew
    rw [List.length_append, List.length_singleton] at hi hnew
    change Function.update r.slots r.write (some a) (i % n) = _
    rw [h.write]
    by_cases hlast : i = pushed.length
    · subst hlast
      rw [Function.update_self, List.getElem_concat_length rfl]
    · have hlt : i < pushed.length := by omega
      have hne : i % n ≠ pushed.length % n := by
        intro heq
        have hmod : i ≡ pushed.length [MOD n] := heq
        have hdvd := (Nat.modEq_iff_dvd' hlt.le).mp hmod
        have hle := Nat.le_of_dvd (Nat.sub_pos_of_lt hlt) hdvd
        omega
      rw [Function.update_of_ne hne, h.slots i hlt (by omega), List.getElem_append_left hlt]
  · refine ⟨low, ?_, hread, ?_⟩
    · rw [List.length_append]
      omega
    · rwa [List.take_append_of_le_length hlow]

/-- What is popped was pushed behind everything popped before. -/
theorem pop (h : InOrder n r pushed popped) (hn : 0 < n) :
    InOrder n (r.pop n).2 pushed (popped ++ (r.pop n).1.toList) := by
  obtain ⟨low, hlow, hread, hsub⟩ := h.popped
  by_cases hempty : r.write = r.read
  · rw [RingBuffer.pop, if_pos hempty, Option.toList_none, List.append_nil]
    exact h
  · -- the last push into the slot that is read is not before `low`
    have hlt : low < pushed.length := by
      apply lt_of_le_of_ne hlow
      rintro rfl
      exact hempty (h.write.trans hread)
    let i := low + (pushed.length - 1 - low) / n * n
    have hmul := Nat.div_add_mod' (pushed.length - 1 - low) n
    have hmod := Nat.mod_lt (pushed.length - 1 - low) hn
    have hi : i < pushed.length := by omega
    have hnew : pushed.length ≤ i + n := by omega
    have hslot : i % n = r.read := by
      rw [← hread]
      exact Nat.add_mul_mod_self_right _ _ _
    have hvalue := h.slots i hi hnew
    rw [hslot] at hvalue
    rw [RingBuffer.pop, if_neg hempty]
    constructor
    · exact h.write
    · exact h.slots
    · refine ⟨i + 1, hi, ?_, ?_⟩
      · change (i + 1) % n = (r.read + 1) % n
        rw [← hslot, Nat.mod_add_mod]
      · have hlow' : low ≤ i := Nat.le_add_right _ _
        have hprefix : (pushed.take low).Sublist (pushed.take i) :=
          (List.take_prefix_take_left hlow').sublist
        change (popped ++ (r.slots r.read).toList).Sublist _
        rw [hvalue, List.take_succ_eq_append_getElem hi]
        exact (hsub.trans hprefix).append (List.Sublist.refl _)

theorem sublist (h : InOrder n r pushed popped) : popped.Sublist pushed := by
  obtain ⟨low, -, -, hsub⟩ := h.popped
  exact hsub.trans (List.take_sublist _ _)

end InOrder

end RingBuffer
