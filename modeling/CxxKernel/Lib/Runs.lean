import Mathlib.Logic.Relation
import Mathlib.Data.List.Basic

/-! Runs of a labelled transition relation, and the rules that carry an invariant
from one step to a whole run. -/
namespace Runs

variable {σ α : Type*}

/-- The actions `as`, taken in order, lead from one state to another. -/
inductive Run (step : σ → α → σ → Prop) : σ → List α → σ → Prop
  | nil (s : σ) : Run step s [] s
  | cons {s t u : σ} {a : α} {as : List α} :
      step s a t → Run step t as u → Run step s (a :: as) u

/-- A run along which `P` holds in every state, both ends included. -/
inductive Always (step : σ → α → σ → Prop) (P : σ → Prop) : σ → List α → σ → Prop
  | nil {s : σ} : P s → Always step P s [] s
  | cons {s t u : σ} {a : α} {as : List α} :
      P s → step s a t → Always step P t as u → Always step P s (a :: as) u

/-- The steps of `step` that also meet the condition `cond`. -/
def Guarded (step cond : σ → α → σ → Prop) (s : σ) (a : α) (t : σ) : Prop :=
  step s a t ∧ cond s a t

def Reachable (step : σ → α → σ → Prop) (init : σ → Prop) (s : σ) : Prop :=
  ∃ s₀ as, init s₀ ∧ Run step s₀ as s

variable {step cond : σ → α → σ → Prop} {P Inv : σ → Prop} {init : σ → Prop}

namespace Run

theorem single {s t : σ} {a : α} (h : step s a t) : Run step s [a] t :=
  .cons h (.nil t)

theorem append {s t u : σ} {as bs : List α} (h : Run step s as t) (h' : Run step t bs u) :
    Run step s (as ++ bs) u := by
  induction h with
  | nil => exact h'
  | cons hs _ ih => exact .cons hs (ih h')

/-- A run comes through a state between any two parts of its actions. -/
theorem exists_between {s u : σ} {as bs : List α} (h : Run step s (as ++ bs) u) :
    ∃ t, Run step s as t ∧ Run step t bs u := by
  induction as generalizing s with
  | nil => exact ⟨s, .nil s, h⟩
  | cons a as ih =>
    cases h with
    | cons hs hrest =>
      obtain ⟨t, ht, hu⟩ := ih hrest
      exact ⟨t, .cons hs ht, hu⟩

theorem mono {step' : σ → α → σ → Prop} (hm : ∀ s a t, step s a t → step' s a t)
    {s t : σ} {as : List α} (h : Run step s as t) : Run step' s as t := by
  induction h with
  | nil s => exact .nil s
  | cons hs _ ih => exact .cons (hm _ _ _ hs) ih

/-- The step rule for invariants: what every step keeps, every run keeps. -/
theorem invariant (hstep : ∀ s a t, Inv s → step s a t → Inv t)
    {s t : σ} {as : List α} (h : Run step s as t) (hs : Inv s) : Inv t := by
  induction h with
  | nil => exact hs
  | cons hst _ ih => exact ih (hstep _ _ _ hs hst)

theorem unguard {s t : σ} {as : List α} (h : Run (Guarded step cond) s as t) :
    Run step s as t :=
  h.mono fun _ _ _ hs => hs.1

/-- The simulation rule for a relation with a budget, of which each action that meets `p` takes one. -/
theorem simulate_count {τ : Type*} {step' : τ → α → τ → Prop} (p : α → Bool) {R : ℕ → σ → τ → Prop}
    (hsim : ∀ n s a t u, R (n + if p a then 1 else 0) s u → step s a t → ∃ v, step' u a v ∧ R n t v)
    {s t : σ} {u : τ} {as : List α} (h : Run step s as t) {n : ℕ} (hs : R (n + as.countP p) s u) :
    ∃ v, Run step' u as v ∧ R n t v := by
  induction h generalizing u with
  | nil => exact ⟨u, .nil u, hs⟩
  | cons hst _ ih =>
    rw [List.countP_cons, ← Nat.add_assoc] at hs
    obtain ⟨v, hstep, hv⟩ := hsim _ _ _ _ _ hs hst
    obtain ⟨w, hrun, hw⟩ := ih hv
    exact ⟨w, .cons hstep hrun, hw⟩

/-- The simulation rule: when every step has a step of the other relation beside it, with the same
action, every run has a run beside it. -/
theorem simulate {τ : Type*} {step' : τ → α → τ → Prop} {R : σ → τ → Prop}
    (hsim : ∀ s a t u, R s u → step s a t → ∃ v, step' u a v ∧ R t v)
    {s t : σ} {u : τ} {as : List α} (h : Run step s as t) (hs : R s u) : ∃ v, Run step' u as v ∧ R t v :=
  h.simulate_count (fun _ => false) (R := fun _ => R) (fun _ => hsim) (n := 0) hs

/-- The simulation rule for a relation to a program that is given as a function. -/
theorem simulate_fold {τ : Type*} {next : τ → α → τ} {R : σ → τ → Prop}
    (hsim : ∀ s a t u, R s u → step s a t → R t (next u a))
    {s t : σ} {u : τ} {as : List α} (h : Run step s as t) (hs : R s u) : R t (as.foldl next u) := by
  induction h generalizing u with
  | nil => exact hs
  | cons hst _ ih => exact ih (hsim _ _ _ _ hs hst)

/-- The simulation rule for steps that have any number of steps of the other relation beside them. -/
theorem simulate_many {τ β : Type*} {step' : τ → β → τ → Prop} {R : σ → τ → Prop}
    (hsim : ∀ s a t u, R s u → step s a t → ∃ bs v, Run step' u bs v ∧ R t v)
    {s t : σ} {u : τ} {as : List α} (h : Run step s as t) (hs : R s u) : ∃ bs v, Run step' u bs v ∧ R t v := by
  induction h generalizing u with
  | nil => exact ⟨[], u, .nil u, hs⟩
  | cons hst _ ih =>
    obtain ⟨bs, v, hrun, hv⟩ := hsim _ _ _ _ hs hst
    obtain ⟨bs', w, hrun', hw⟩ := ih hv
    exact ⟨bs ++ bs', w, hrun.append hrun', hw⟩

/-- The ranking rule: as long as no state of `goal` has come, no step raises the rank and each action
that meets `p` lowers it. A run with more of these actions than the rank comes through such a state. -/
theorem reaches {goal : σ → Prop} {rank : σ → ℕ} (p : α → Bool)
    (hstep : ∀ s a t, Inv s → step s a t → goal t ∨ Inv t ∧ rank t + (if p a then 1 else 0) ≤ rank s)
    {s t : σ} {as : List α} (h : Run step s as t) (hs : Inv s) (hmany : rank s < as.countP p) :
    ∃ bs cs u, as = bs ++ cs ∧ Run step s bs u ∧ Run step u cs t ∧ goal u ∧ bs.countP p ≤ rank s + 1 := by
  induction h with
  | nil s => exact absurd hmany (Nat.not_lt_zero _)
  | @cons s u t a as hst hrest ih =>
    rcases hstep _ _ _ hs hst with hgoal | ⟨hinv, hrank⟩
    · refine ⟨[a], as, u, rfl, .single hst, hrest, hgoal, ?_⟩
      rw [List.countP_singleton]
      split_ifs <;> omega
    · rw [List.countP_cons] at hmany
      obtain ⟨bs, cs, v, rfl, hbs, hcs, hgoal, hcount⟩ := ih hinv (by omega)
      refine ⟨a :: bs, cs, v, rfl, .cons hst hbs, hcs, hgoal, ?_⟩
      rw [List.countP_cons]
      omega

theorem guard {s t : σ} {as : List α} (hc : ∀ a ∈ as, ∀ u v, step u a v → cond u a v)
    (h : Run step s as t) : Run (Guarded step cond) s as t := by
  induction h with
  | nil s => exact .nil s
  | cons hs _ ih =>
    exact .cons ⟨hs, hc _ List.mem_cons_self _ _ hs⟩ (ih fun a ha => hc a (List.mem_cons_of_mem _ ha))

end Run

section Compute
variable {exec : σ → α → Option σ}

/-- The end of a run of a program that is given as a function. -/
def runAll (exec : σ → α → Option σ) (s : σ) (as : List α) : Option σ := as.foldlM exec s

theorem run_of_runAll {s t : σ} {as : List α} (h : runAll exec s as = some t) :
    Run (fun s a t => exec s a = some t) s as t := by
  induction as generalizing s with
  | nil =>
    obtain rfl : s = t := Option.some.inj h
    exact .nil s
  | cons a as ih =>
    obtain ⟨u, hu, hrest⟩ := Option.bind_eq_some_iff.mp h
    exact .cons hu (ih hrest)

/-- The actions are allowed one after the other. -/
def allowed (ok : σ → α → Bool) (next : σ → α → σ) : σ → List α → Bool
  | _, [] => true
  | s, a :: as => ok s a && allowed ok next (next s a) as

theorem run_of_allowed (ok : σ → α → Bool) {next : σ → α → σ} (hstep : ∀ s a, ok s a = true → step s a (next s a))
    {s : σ} {as : List α} (h : allowed ok next s as = true) : Run step s as (as.foldl next s) := by
  induction as generalizing s with
  | nil => exact .nil s
  | cons a as ih =>
    rw [allowed, Bool.and_eq_true] at h
    exact .cons (hstep s a h.1) (ih h.2)

end Compute

namespace Always

theorem run {s t : σ} {as : List α} (h : Always step P s as t) : Run step s as t := by
  induction h with
  | nil => exact .nil _
  | cons _ hs _ ih => exact .cons hs ih

theorem head {s t : σ} {as : List α} (h : Always step P s as t) : P s := by
  cases h with
  | nil hp => exact hp
  | cons hp _ _ => exact hp

theorem last {s t : σ} {as : List α} (h : Always step P s as t) : P t := by
  induction h with
  | nil hp => exact hp
  | cons _ _ _ ih => exact ih

end Always

/-- An invariant that the steps under a condition keep holds all along a run of such steps. -/
theorem always_of_guarded (hP : ∀ s, Inv s → P s)
    (hkeep : ∀ s a t, Inv s → step s a t → cond s a t → Inv t)
    {s t : σ} {as : List α} (hs : Inv s) (h : Run (Guarded step cond) s as t) :
    Always step P s as t := by
  induction h with
  | nil => exact .nil (hP _ hs)
  | cons hst _ ih => exact .cons (hP _ hs) hst.1 (ih (hkeep _ _ _ hs hst.1 hst.2))

/-- When, in invariant states, a step keeps the invariant and ends in a good state exactly if
it meets the condition, the runs that stay good are the runs whose steps meet it. -/
theorem always_iff_guarded (hP : ∀ s, Inv s → P s)
    (hkeep : ∀ s a t, Inv s → step s a t → cond s a t → Inv t)
    (hbad : ∀ s a t, Inv s → step s a t → P t → cond s a t)
    {s t : σ} {as : List α} (hs : Inv s) (h : Run step s as t) :
    Always step P s as t ↔ Run (Guarded step cond) s as t := by
  constructor
  · intro ha
    induction ha with
    | nil => exact .nil _
    | cons hp hst hrest ih =>
      have hc := hbad _ _ _ hs hst hrest.head
      exact .cons ⟨hst, hc⟩ (ih (hkeep _ _ _ hs hst hc) hrest.run)
  · exact always_of_guarded hP hkeep hs

/-- When, in invariant states, a step obeys a law exactly if it meets the condition, and then keeps
the invariant, the runs that obey the law are the runs whose steps meet the condition. -/
theorem guarded_iff {law : σ → α → σ → Prop}
    (hiff : ∀ s a t, Inv s → step s a t → (law s a t ↔ cond s a t))
    (hkeep : ∀ s a t, Inv s → step s a t → cond s a t → Inv t) {s t : σ} {as : List α} (hs : Inv s) :
    Run (Guarded step law) s as t ↔ Run (Guarded step cond) s as t := by
  constructor
  · intro h
    induction h with
    | nil => exact .nil _
    | cons hst _ ih =>
      have hc := (hiff _ _ _ hs hst.1).mp hst.2
      exact .cons ⟨hst.1, hc⟩ (ih (hkeep _ _ _ hs hst.1 hc))
  · intro h
    induction h with
    | nil => exact .nil _
    | cons hst _ ih =>
      have hl := (hiff _ _ _ hs hst.1).mpr hst.2
      exact .cons ⟨hst.1, hl⟩ (ih (hkeep _ _ _ hs hst.1 hst.2))

namespace Reachable

theorem start {s : σ} (h : init s) : Reachable step init s := ⟨s, [], h, .nil s⟩

theorem snoc {s t : σ} {a : α} (h : Reachable step init s) (hs : step s a t) :
    Reachable step init t := by
  obtain ⟨s₀, as, h₀, hr⟩ := h
  exact ⟨s₀, as ++ [a], h₀, hr.append (.single hs)⟩

theorem invariant (hinit : ∀ s, init s → Inv s) (hstep : ∀ s a t, Inv s → step s a t → Inv t)
    {s : σ} (h : Reachable step init s) : Inv s := by
  obtain ⟨s₀, as, h₀, hr⟩ := h
  exact hr.invariant hstep (hinit s₀ h₀)

end Reachable

end Runs
