import Mathlib.Data.List.Basic

/-! Cursors: a step stops, or it yields an item and the cursor behind the item. -/
namespace Cursor

variable {ι β : Type*}

/-- The cursor yields the items of the list, in order, and then stops. -/
inductive Yields (next : ι → Option (β × ι)) : ι → List β → Prop
  | stop {c : ι} (h : next c = none) : Yields next c []
  | item {c c' : ι} {x : β} {xs : List β} (h : next c = some (x, c'))
      (hrest : Yields next c' xs) : Yields next c (x :: xs)

section Rules
variable {next : ι → Option (β × ι)} {c : ι} {xs ys : List β}

theorem Yields.unique (h : Yields next c xs) (h' : Yields next c ys) : xs = ys := by
  induction h generalizing ys with
  | stop h =>
    cases h' with
    | stop => rfl
    | item h' => rw [h] at h'; cases h'
  | item h _ ih =>
    cases h' with
    | stop h' => rw [h] at h'; cases h'
    | item h' hrest =>
      rw [h] at h'
      cases h'
      rw [ih hrest]

/-- Two cursors with the same next step yield the same items. -/
theorem Yields.congr {c' : ι} (hnext : next c = next c') (h : Yields next c xs) : Yields next c' xs := by
  cases h with
  | stop h => exact .stop (hnext ▸ h)
  | item h hrest => exact .item (hnext ▸ h) hrest

/-- A cursor that does not move yields the same item again and again. -/
theorem not_yields_of_stays {x : β} (h : next c = some (x, c)) : ¬ Yields next c xs := by
  intro hyields
  induction hyields with
  | stop hstop => rw [h] at hstop; cases hstop
  | item hitem _ ih =>
    obtain ⟨-, rfl⟩ := Prod.mk.inj (Option.some.inj (h.symm.trans hitem))
    exact ih h

/-- The rule for a cursor that keeps a place in a list: it yields what stands there and goes on,
and it stops at the end. -/
theorem yields_drop {At : ℕ → ι → Prop} {xs : List β}
    (hitem : ∀ i c x, At i c → xs[i]? = some x → ∃ c', next c = some (x, c') ∧ At (i + 1) c')
    (hstop : ∀ c, At xs.length c → next c = none) {i : ℕ} (hi : i ≤ xs.length) (hc : At i c) :
    Yields next c (xs.drop i) := by
  induction hn : xs.length - i generalizing i c with
  | zero =>
    have hend : i = xs.length := by omega
    subst hend
    rw [List.drop_length]
    exact .stop (hstop c hc)
  | succ n ih =>
    have hlt : i < xs.length := by omega
    obtain ⟨c', hnext, hc'⟩ := hitem i c xs[i] hc (List.getElem?_eq_getElem hlt)
    rw [List.drop_eq_getElem_cons hlt]
    exact .item hnext (ih hlt hc' (by omega))

/-- The rule from the start of the list on. -/
theorem yields_all {At : ℕ → ι → Prop} {xs : List β}
    (hitem : ∀ i c x, At i c → xs[i]? = some x → ∃ c', next c = some (x, c') ∧ At (i + 1) c')
    (hstop : ∀ c, At xs.length c → next c = none) (hc : At 0 c) : Yields next c xs :=
  yields_drop hitem hstop (Nat.zero_le _) hc

end Rules

/-- The first items of the cursor, at most `n` of them, and the cursor behind them. -/
def take (next : ι → Option (β × ι)) : ℕ → ι → List β × ι
  | 0, c => ([], c)
  | n + 1, c =>
    match next c with
    | none => ([], c)
    | some (x, c') => (x :: (take next n c').1, (take next n c').2)

section Take
variable {next : ι → Option (β × ι)} {c c' : ι} {x : β} {m n : ℕ}

@[simp] theorem take_zero : take next 0 c = ([], c) := rfl

theorem take_stop (h : next c = none) (n : ℕ) : take next n c = ([], c) := by
  cases n with
  | zero => rfl
  | succ n => rw [take, h]

theorem take_item (h : next c = some (x, c')) (n : ℕ) :
    take next (n + 1) c = (x :: (take next n c').1, (take next n c').2) := by
  rw [take, h]

theorem length_take_le (next : ι → Option (β × ι)) (n : ℕ) (c : ι) : (take next n c).1.length ≤ n := by
  induction n generalizing c with
  | zero => exact Nat.le_refl 0
  | succ n ih =>
    cases h : next c with
    | none =>
      rw [take_stop h]
      exact Nat.zero_le _
    | some r =>
      rw [take_item h]
      exact Nat.succ_le_succ (ih r.2)

/-- Taking items twice is taking them at once. -/
theorem take_add (next : ι → Option (β × ι)) (m n : ℕ) (c : ι) : take next (m + n) c =
    ((take next m c).1 ++ (take next n (take next m c).2).1, (take next n (take next m c).2).2) := by
  induction m generalizing c with
  | zero => rw [Nat.zero_add, take_zero, List.nil_append]
  | succ m ih =>
    rw [Nat.succ_add]
    cases h : next c with
    | none => rw [take_stop h, take_stop h, take_stop h, List.nil_append]
    | some r =>
      obtain ⟨x, c'⟩ := r
      rw [take_item h, take_item h, ih, List.cons_append]

/-- When there are less items than asked for, the cursor is at its end. -/
theorem next_take (h : (take next n c).1.length < n) : next (take next n c).2 = none := by
  induction n generalizing c with
  | zero => cases h
  | succ n ih =>
    cases hnext : next c with
    | none =>
      rw [take_stop hnext]
      exact hnext
    | some r =>
      obtain ⟨x, c'⟩ := r
      rw [take_item hnext] at h ⊢
      exact ih (Nat.lt_of_succ_lt_succ h)

end Take

end Cursor
