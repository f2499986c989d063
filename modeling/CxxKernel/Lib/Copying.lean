import Mathlib.Logic.Function.Basic
import Mathlib.Data.Nat.Notation

/-! What a copy leaves behind, and the rules that build a copy from smaller ones. The cells of a
region are given by an address for each index. -/
namespace Copying

variable {α β : Type*}

/-- The cells `d 0 .. d (n - 1)` hold `v 0 .. v (n - 1)`, and nothing else has changed. -/
structure Filled (d : ℕ → α) (v : ℕ → β) (n : ℕ) (m m' : α → β) : Prop where
  inside : ∀ i < n, m' (d i) = v i
  outside : ∀ x, (∀ i < n, x ≠ d i) → m' x = m x

/-- The cells at `d` hold what the cells at `s` held before. -/
def Copied (d s : ℕ → α) (n : ℕ) (m m' : α → β) : Prop := Filled d (fun i => m (s i)) n m m'

/-- No cell of one region is a cell of the other. -/
def Apart (d s : ℕ → α) (n : ℕ) : Prop := ∀ i < n, ∀ j < n, d i ≠ s j

section Fill
variable {d : ℕ → α} {v w : ℕ → β} {m m₁ m₂ : α → β} {k n : ℕ}

theorem Filled.zero : Filled d v 0 m m := ⟨fun i hi => absurd hi (by omega), fun _ _ => rfl⟩

theorem Filled.congr (h : Filled d v n m m₁) (hv : ∀ i < n, v i = w i) : Filled d w n m m₁ :=
  ⟨fun i hi => (h.inside i hi).trans (hv i hi), h.outside⟩

/-- The first part first. The second part must not store to it again. -/
theorem Filled.append (hfirst : Filled d v k m m₁)
    (hrest : Filled (fun i => d (k + i)) (fun i => v (k + i)) n m₁ m₂)
    (hkeep : ∀ i < k, ∀ j < n, d i ≠ d (k + j)) : Filled d v (k + n) m m₂ := by
  refine ⟨fun i hi => ?_, fun x hx => ?_⟩
  · by_cases hik : i < k
    · rw [hrest.outside (d i) (fun j hj => hkeep i hik j hj), hfirst.inside i hik]
    · obtain ⟨j, rfl⟩ := Nat.exists_eq_add_of_le (Nat.le_of_not_lt hik)
      exact hrest.inside j (by omega)
  · rw [hrest.outside x (fun j hj => hx (k + j) (by omega)), hfirst.outside x (fun i hi => hx i (by omega))]

/-- The second part first. -/
theorem Filled.before (hrest : Filled (fun i => d (k + i)) (fun i => v (k + i)) n m m₁)
    (hfirst : Filled d v k m₁ m₂) (hkeep : ∀ i < k, ∀ j < n, d i ≠ d (k + j)) :
    Filled d v (k + n) m m₂ := by
  refine ⟨fun i hi => ?_, fun x hx => ?_⟩
  · by_cases hik : i < k
    · exact hfirst.inside i hik
    · obtain ⟨j, rfl⟩ := Nat.exists_eq_add_of_le (Nat.le_of_not_lt hik)
      have hj : j < n := by omega
      rw [hfirst.outside _ (fun i hi => (hkeep i hi j hj).symm), hrest.inside j hj]
  · rw [hfirst.outside x (fun i hi => hx i (by omega)), hrest.outside x (fun j hj => hx (k + j) (by omega))]

/-- Nothing is left open: the memory before, the cells and the values give the memory after. -/
theorem Filled.unique (h₁ : Filled d v n m m₁) (h₂ : Filled d v n m m₂) : m₁ = m₂ := by
  funext x
  by_cases hx : ∃ i < n, x = d i
  · obtain ⟨i, hi, rfl⟩ := hx
    rw [h₁.inside i hi, h₂.inside i hi]
  · have hout : ∀ i < n, x ≠ d i := fun i hi he => hx ⟨i, hi, he⟩
    rw [h₁.outside x hout, h₂.outside x hout]

theorem Filled.update [DecidableEq α] : Filled d v 1 m (Function.update m (d 0) (v 0)) := by
  refine ⟨fun i hi => ?_, fun x hx => Function.update_of_ne (hx 0 Nat.one_pos) _ _⟩
  obtain rfl : i = 0 := by omega
  exact Function.update_self (d 0) (v 0) m

end Fill

section Copy
variable {d s : ℕ → α} {m m₁ m₂ : α → β} {k n : ℕ}

/-- A copy of a region to itself. -/
theorem Copied.self : Copied d d n m m := ⟨fun _ _ => rfl, fun _ _ => rfl⟩

/-- The first part first. What it stores must leave the second part of the source alone. -/
theorem Copied.append (hfirst : Copied d s k m m₁)
    (hrest : Copied (fun i => d (k + i)) (fun i => s (k + i)) n m₁ m₂)
    (hread : ∀ i < k, ∀ j < n, d i ≠ s (k + j)) (hkeep : ∀ i < k, ∀ j < n, d i ≠ d (k + j)) :
    Copied d s (k + n) m m₂ := by
  have hsource : ∀ j < n, m₁ (s (k + j)) = m (s (k + j)) := fun j hj =>
    hfirst.outside _ (fun i hi => (hread i hi j hj).symm)
  exact Filled.append hfirst (Filled.congr hrest hsource) hkeep

/-- The second part first. What it stores must leave the first part of the source alone. -/
theorem Copied.before (hrest : Copied (fun i => d (k + i)) (fun i => s (k + i)) n m m₁)
    (hfirst : Copied d s k m₁ m₂) (hread : ∀ i < k, ∀ j < n, d (k + j) ≠ s i)
    (hkeep : ∀ i < k, ∀ j < n, d i ≠ d (k + j)) : Copied d s (k + n) m m₂ := by
  have hsource : ∀ i < k, m₁ (s i) = m (s i) := fun i hi =>
    hrest.outside _ (fun j hj => (hread i hi j hj).symm)
  exact Filled.before hrest (Filled.congr hfirst hsource) hkeep

end Copy
end Copying
