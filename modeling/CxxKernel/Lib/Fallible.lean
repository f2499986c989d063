import Mathlib.Data.Option.Basic
import Mathlib.Tactic.Common

/-! Programs on a state that may fail, and keep what they did to the state before. -/
namespace Fallible

variable {σ α β : Type}

abbrev Prog (σ α : Type) := OptionT (StateM σ) α

/-- The result and the final state of a program. -/
def exec (x : Prog σ α) (s : σ) : Option α × σ := x.run.run s

/-- A step that cannot fail. -/
def step (f : σ → α × σ) : Prog σ α := OptionT.mk fun s => pure (some (f s).1, (f s).2)

@[simp] theorem exec_step (f : σ → α × σ) (s : σ) : exec (step f) s = (some (f s).1, (f s).2) := rfl

/-- A look at the state, which may fail. -/
def look (f : σ → Option α) : Prog σ α := OptionT.mk fun s => pure (f s, s)

@[simp] theorem exec_look (f : σ → Option α) (s : σ) : exec (look f) s = (f s, s) := rfl

/-- The program succeeds with the result `a` and leaves the state `s'`. -/
def Returns (x : Prog σ α) (s : σ) (a : α) (s' : σ) : Prop := exec x s = (some a, s')

/-- The program fails and leaves the state `s'`. -/
def Fails (x : Prog σ α) (s s' : σ) : Prop := exec x s = (none, s')

@[simp] theorem exec_pure (a : α) (s : σ) : exec (pure a) s = (some a, s) := rfl

@[simp] theorem exec_failure (s : σ) : exec (failure : Prog σ α) s = (none, s) := rfl

theorem exec_bind (x : Prog σ α) (f : α → Prog σ β) (s : σ) :
    exec (x >>= f) s = match exec x s with
      | (some a, t) => exec (f a) t
      | (none, t) => (none, t) := by
  unfold exec
  cases h : x.run.run s with
  | mk o t =>
    simp only [OptionT.run_bind, Option.elimM, StateT.run_bind, h]
    cases o <;> rfl

theorem exec_look_bind (f : σ → Option α) (g : α → Prog σ β) (s : σ) :
    exec (look f >>= g) s = match f s with
      | some a => exec (g a) s
      | none => (none, s) := by
  rw [exec_bind, exec_look]
  cases f s with
  | none => rfl
  | some a => rfl

theorem exec_orElse (x y : Prog σ α) (s : σ) :
    exec (x <|> y) s = match exec x s with
      | (some a, t) => (some a, t)
      | (none, t) => exec y t := by
  unfold exec
  cases h : x.run.run s with
  | mk o t =>
    simp only [OptionT.run_orElse, Option.elimM, StateT.run_bind, h]
    cases o <;> rfl

section Rules
variable {x y : Prog σ α} {f : α → Prog σ β} {s s' t : σ} {a b : α}

theorem Returns.unique (h : Returns x s a s') (h' : Returns x s b t) : a = b ∧ s' = t := by
  rw [Returns, h, Prod.mk.injEq, Option.some.injEq] at h'
  exact h'

theorem returns_of_fst (h : (exec x s).1 = some a) : Returns x s a (exec x s).2 :=
  Prod.ext h rfl

/-- A sequence goes on with the second program where the first one has succeeded. -/
theorem Returns.bind (h : Returns x s a t) : exec (x >>= f) s = exec (f a) t := by
  rw [exec_bind, h]

theorem Fails.bind (h : Fails x s t) : exec (x >>= f) s = (none, t) := by
  rw [exec_bind, h]

@[simp] theorem returns_pure : Returns (pure a : Prog σ α) s b s' ↔ a = b ∧ s = s' := by
  simp [Returns]

@[simp] theorem returns_failure : ¬ Returns (failure : Prog σ α) s a s' := by
  simp [Returns]

@[simp] theorem fails_pure : ¬ Fails (pure a : Prog σ α) s s' := by
  simp [Fails]

@[simp] theorem fails_failure : Fails (failure : Prog σ α) s s' ↔ s = s' := by
  simp [Fails]

@[simp] theorem returns_step {g : σ → α × σ} : Returns (step g) s a s' ↔ g s = (a, s') := by
  simp [Returns, Prod.ext_iff]

@[simp] theorem fails_step {g : σ → α × σ} : ¬ Fails (step g) s s' := by
  simp [Fails]

@[simp] theorem returns_look {g : σ → Option α} : Returns (look g) s a s' ↔ g s = some a ∧ s = s' := by
  simp [Returns]

/-- The sequence rule. -/
@[simp] theorem returns_bind {b : β} :
    Returns (x >>= f) s b s' ↔ ∃ a t, Returns x s a t ∧ Returns (f a) t b s' := by
  unfold Returns
  rw [exec_bind]
  rcases exec x s with ⟨_ | a, t⟩ <;> simp

@[simp] theorem fails_bind :
    Fails (x >>= f) s s' ↔ Fails x s s' ∨ ∃ a t, Returns x s a t ∧ Fails (f a) t s' := by
  unfold Fails Returns
  rw [exec_bind]
  rcases exec x s with ⟨_ | a, t⟩ <;> simp

/-- The second program starts from the state that the first one leaves. -/
@[simp] theorem returns_orElse :
    Returns (x <|> y) s a s' ↔ Returns x s a s' ∨ ∃ t, Fails x s t ∧ Returns y t a s' := by
  unfold Returns Fails
  rw [exec_orElse]
  rcases exec x s with ⟨_ | b, t⟩ <;> simp

@[simp] theorem returns_guard {c : Prop} [Decidable c] {u : Unit} :
    Returns (guard c : Prog σ Unit) s u s' ↔ c ∧ s = s' := by
  by_cases hc : c <;> simp [guard, hc]

@[simp] theorem fails_guard {c : Prop} [Decidable c] :
    Fails (guard c : Prog σ Unit) s s' ↔ ¬ c ∧ s = s' := by
  by_cases hc : c <;> simp [guard, hc]

theorem returns_guard_of {c : Prop} [Decidable c] (h : c) : Returns (guard c : Prog σ Unit) s () s :=
  returns_guard.mpr ⟨h, rfl⟩

theorem fails_guard_of {c : Prop} [Decidable c] (h : ¬ c) : Fails (guard c : Prog σ Unit) s s :=
  fails_guard.mpr ⟨h, rfl⟩

end Rules

/-- However much fuel it gets, from some amount on the program ends as `r`. -/
def Settles (x : ℕ → Prog σ α) (s : σ) (r : Option α × σ) : Prop :=
  ∃ bound, ∀ fuel, bound ≤ fuel → exec (x fuel) s = r

section Settles
variable {x : ℕ → Prog σ α} {f : ℕ → α → Prog σ β} {s t : σ} {a : α} {r q : Option α × σ} {r' : Option β × σ}

theorem Settles.unique (h : Settles x s r) (h' : Settles x s q) : r = q := by
  obtain ⟨bound, h⟩ := h
  obtain ⟨bound', h'⟩ := h'
  rw [← h (bound + bound') (Nat.le_add_right _ _), ← h' (bound + bound') (Nat.le_add_left _ _)]

/-- A program that needs no fuel. -/
theorem settles_of_exec {x : Prog σ α} (h : exec x s = r) : Settles (fun _ => x) s r := ⟨0, fun _ _ => h⟩

/-- A program that needs fuel for one round. -/
theorem settles_of_succ (h : ∀ fuel, exec (x (fuel + 1)) s = r) : Settles x s r := by
  refine ⟨1, fun fuel hfuel => ?_⟩
  obtain ⟨fuel, rfl⟩ := Nat.exists_eq_add_of_le' hfuel
  exact h fuel

/-- A program that needs `k` more than another one. -/
theorem Settles.add {y : ℕ → Prog σ α} {k : ℕ} (h : Settles y t r)
    (hxy : ∀ fuel, exec (x (fuel + k)) s = exec (y fuel) t) : Settles x s r := by
  obtain ⟨bound, h⟩ := h
  refine ⟨bound + k, fun fuel hfuel => ?_⟩
  obtain ⟨fuel, rfl⟩ := Nat.exists_eq_add_of_le' (Nat.le_of_add_left_le hfuel)
  rw [hxy]
  exact h fuel (by omega)

theorem Settles.bind (h : Settles x s (some a, t)) (hf : Settles (fun fuel => f fuel a) t r') :
    Settles (fun fuel => x fuel >>= f fuel) s r' := by
  obtain ⟨bound, h⟩ := h
  obtain ⟨bound', hf⟩ := hf
  refine ⟨bound + bound', fun fuel hfuel => ?_⟩
  rw [Returns.bind (h fuel (by omega))]
  exact hf fuel (by omega)

theorem Settles.bind_fails (h : Settles x s (none, t)) :
    Settles (fun fuel => x fuel >>= f fuel) s (none, t) := by
  obtain ⟨bound, h⟩ := h
  exact ⟨bound, fun fuel hfuel => Fails.bind (h fuel hfuel)⟩

end Settles

/-- The program takes the state along `R`, whether it succeeds or fails. -/
def Keeps (R : σ → σ → Prop) (x : Prog σ α) : Prop := ∀ s, R s (exec x s).2

section Keeps
variable {R : σ → σ → Prop} {x y : Prog σ α} {f : α → Prog σ β} {s s' : σ} {a : α}

theorem Keeps.returns (h : Keeps R x) (hx : Returns x s a s') : R s s' := by
  have hs := h s
  rwa [hx] at hs

theorem Keeps.mono {R' : σ → σ → Prop} (h : Keeps R x) (hm : ∀ s s', R s s' → R' s s') : Keeps R' x :=
  fun s => hm _ _ (h s)

theorem keeps_pure [Std.Refl R] (a : α) : Keeps R (pure a : Prog σ α) := fun s => refl_of R s

theorem keeps_failure [Std.Refl R] : Keeps R (failure : Prog σ α) := fun s => refl_of R s

theorem Keeps.bind [IsTrans σ R] (hx : Keeps R x) (hf : ∀ a, Keeps R (f a)) : Keeps R (x >>= f) := by
  intro s
  have hs := hx s
  rw [exec_bind]
  generalize exec x s = r at hs
  obtain ⟨_ | a, t⟩ := r
  · exact hs
  · exact trans_of R hs (hf a t)

theorem Keeps.orElse [IsTrans σ R] (hx : Keeps R x) (hy : Keeps R y) : Keeps R (x <|> y) := by
  intro s
  have hs := hx s
  rw [exec_orElse]
  generalize exec x s = r at hs
  obtain ⟨_ | a, t⟩ := r
  · exact trans_of R hs (hy t)
  · exact hs

theorem keeps_guard [Std.Refl R] {c : Prop} [Decidable c] : Keeps R (guard c : Prog σ Unit) := by
  by_cases hc : c
  · rw [guard, if_pos hc]
    exact keeps_pure ()
  · rw [guard, if_neg hc]
    exact keeps_failure

end Keeps

/-- The program succeeds, with a result and a final state that satisfy `Q`. -/
def Ensures (x : Prog σ α) (s : σ) (Q : α → σ → Prop) : Prop := ∃ a s', Returns x s a s' ∧ Q a s'

section Ensures
variable {x : Prog σ α} {f : α → Prog σ β} {g : σ → α × σ} {s : σ} {Q P : α → σ → Prop} {Q' : β → σ → Prop}
  {R : σ → σ → Prop}

theorem ensures_pure {a : α} (h : Q a s) : Ensures (pure a) s Q := ⟨a, s, rfl, h⟩

theorem ensures_step (h : Q (g s).1 (g s).2) : Ensures (step g) s Q := ⟨_, _, rfl, h⟩

/-- The sequence rule. -/
theorem Ensures.bind (hx : Ensures x s Q) (hf : ∀ a t, Q a t → Ensures (f a) t Q') : Ensures (x >>= f) s Q' := by
  obtain ⟨a, t, hreturns, hpost⟩ := hx
  obtain ⟨b, s', hreturns', hpost'⟩ := hf a t hpost
  exact ⟨b, s', returns_bind.mpr ⟨a, t, hreturns, hreturns'⟩, hpost'⟩

theorem Ensures.mono (hx : Ensures x s Q) (h : ∀ a t, Q a t → P a t) : Ensures x s P := by
  obtain ⟨a, t, hreturns, hpost⟩ := hx
  exact ⟨a, t, hreturns, h a t hpost⟩

/-- What is known of every success is known of this one. -/
theorem Ensures.returns (hx : Ensures x s Q) : Ensures x s fun a t => Returns x s a t ∧ Q a t := by
  obtain ⟨a, t, hreturns, hpost⟩ := hx
  exact ⟨a, t, hreturns, hreturns, hpost⟩

theorem Ensures.keeps (hx : Ensures x s Q) (h : Keeps R x) : Ensures x s fun a t => R s t ∧ Q a t :=
  hx.returns.mono fun _ _ hpost => ⟨h.returns hpost.1, hpost.2⟩

end Ensures

end Fallible
