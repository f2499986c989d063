import CxxKernel.Sched.Mutex

/-! `pthread_mutex_trylock`, whose test and `lock` are two steps, among the other calls on a mutex. -/
namespace CxxKernel.Sched
open Runs

variable {τ : Type*} [DecidableEq τ]

def EBUSY : Word := 16

/-- Where a task is in `pthread_mutex_trylock`: not in it, behind the test, or in the wait queue. -/
inductive TryPc
  | idle
  | tested
  | waiting
  deriving DecidableEq

structure TryState (τ : Type*) where
  base : MutexState τ
  pc : τ → TryPc

/-- The steps of the mutex, the test that `pthread_mutex_trylock` makes, and its call of `lock`. -/
inductive TryEvent (τ : Type*)
  | mutex (e : MutexEvent τ)
  | test (t : τ)
  | take (t : τ)

namespace TryState

/-- A task in `pthread_mutex_trylock` does nothing else. -/
def Enabled (s : TryState τ) : TryEvent τ → Prop
  | .mutex (.lock t) => s.base.Enabled (.lock t) ∧ s.pc t = .idle
  | .mutex (.unlock t) => s.base.Enabled (.unlock t) ∧ s.pc t = .idle
  | .mutex e => s.base.Enabled e
  | .test t => s.base.inside t = false ∧ s.pc t = .idle
  | .take t => s.base.Enabled (.lock t) ∧ s.pc t = .tested

def next (s : TryState τ) : TryEvent τ → TryState τ
  | .mutex (.resume t) => ⟨s.base.next (.resume t), Function.update s.pc t .idle⟩
  | .mutex e => { s with base := s.base.next e }
  | .test t => if s.base.mutex.value ≠ 0 then s else { s with pc := Function.update s.pc t .tested }
  | .take t =>
    ⟨s.base.next (.lock t), Function.update s.pc t (if s.base.mutex.value = 0 then .idle else .waiting)⟩

/-- What the step makes `pthread_mutex_trylock` return, and to which task. -/
def answer (s : TryState τ) : TryEvent τ → Option (τ × Word)
  | .test t => if s.base.mutex.value ≠ 0 then some (t, -EBUSY) else none
  | .take t => if s.base.mutex.value = 0 then some (t, 0) else none
  | .mutex (.resume t) => if s.pc t = .waiting then some (t, 0) else none
  | .mutex _ => none

def Step (s : TryState τ) (e : TryEvent τ) (s' : TryState τ) : Prop :=
  s.Enabled e ∧ s' = s.next e

def Init (s : TryState τ) : Prop := s.base.Init ∧ ∀ t, s.pc t = .idle

/-- The task that makes the step in `pthread_mutex_trylock`. -/
def caller : TryEvent τ → Option τ
  | .test t => some t
  | .take t => some t
  | .mutex _ => none

/-- The call does not put its caller into the wait queue and does not block it. It returns 0 exactly when
the caller has become the owner. -/
structure TryLaw (s : TryState τ) (e : TryEvent τ) (s' : TryState τ) : Prop where
  queue : ∀ t, caller e = some t → s'.base.enqueued = s.base.enqueued ∧
    ((s'.base.task t).status = .blocked → (s.base.task t).status = .blocked)
  code : ∀ t code, s.answer e = some (t, code) →
    (code = 0 ↔ s.base.holds t = false ∧ s'.base.holds t = true)

/-- The mutex is free when a task behind its test calls `lock`. -/
def TakesFree (s : TryState τ) (e : TryEvent τ) (_ : TryState τ) : Prop :=
  ∀ t, e = .take t → s.base.mutex.value = 0

/-- A task behind its test has no part in the mutex, and none waits for it. -/
structure Inv (s : TryState τ) : Prop where
  base : ∃ q, s.base.Inv q
  tested : ∀ t, s.pc t = .tested → s.base.inside t = false ∧ s.base.holds t = false
  waiting : ∀ t, s.pc t ≠ .waiting

theorem Init.inv {τ : Type*} {s : TryState τ} (h : s.Init) : s.Inv := by
  refine ⟨⟨[], h.1.inv⟩, fun t ht => ?_, fun t ht => ?_⟩
  · rw [h.2 t] at ht
    cases ht
  · rw [h.2 t] at ht
    cases ht

omit [DecidableEq τ] in
theorem enabled_base {s : TryState τ} {e : MutexEvent τ} (h : s.Enabled (.mutex e)) : s.base.Enabled e := by
  cases e with
  | lock t => exact h.1
  | unlock t => exact h.1
  | resume t => exact h
  | other t status waitNext => exact h

/-- The task that calls `lock` or `unlock`, or comes back to `lock`. -/
def actor : MutexEvent τ → Option τ
  | .lock t => some t
  | .unlock t => some t
  | .resume t => some t
  | .other .. => none

section Steps
variable {s s' : TryState τ} {e : TryEvent τ} {t : τ}

theorem next_lock_free {s : MutexState τ} (h : s.mutex.value = 0) (t : τ) :
    s.next (.lock t) =
      { s with mutex := { s.mutex with value := 1 }, holds := Function.update s.holds t true } := by
  have hlock : s.mutex.lock s.task t = ({ s.mutex with value := 1 }, s.task, true) := if_pos h
  dsimp only [MutexState.next]
  rw [hlock]
  rfl

theorem next_lock_taken {s : MutexState τ} (h : s.mutex.value ≠ 0) (t : τ) : s.next (.lock t) =
    { s with
      mutex := { s.mutex with queue := (s.mutex.queue.enqueue s.task t).1 }
      task := (s.mutex.queue.enqueue s.task t).2
      inside := Function.update s.inside t true
      enqueued := s.enqueued ++ [t] } := by
  have hlock : s.mutex.lock s.task t =
      ({ s.mutex with queue := (s.mutex.queue.enqueue s.task t).1 }, (s.mutex.queue.enqueue s.task t).2, false) :=
    if_neg h
  dsimp only [MutexState.next]
  rw [hlock]
  rfl

theorem next_frame (s : MutexState τ) {e : MutexEvent τ} (h : actor e ≠ some t) :
    (s.next e).inside t = s.inside t ∧ (s.next e).holds t = s.holds t := by
  cases e with
  | lock u =>
    have hne : t ≠ u := fun heq => h (congrArg some heq.symm)
    by_cases hv : s.mutex.value = 0
    · rw [next_lock_free hv]
      exact ⟨rfl, Function.update_of_ne hne ..⟩
    · rw [next_lock_taken hv]
      exact ⟨Function.update_of_ne hne .., rfl⟩
  | unlock u =>
    have hne : t ≠ u := fun heq => h (congrArg some heq.symm)
    exact ⟨rfl, Function.update_of_ne hne ..⟩
  | resume u =>
    have hne : t ≠ u := fun heq => h (congrArg some heq.symm)
    exact ⟨Function.update_of_ne hne .., Function.update_of_ne hne ..⟩
  | other u status waitNext => exact ⟨rfl, rfl⟩

omit [DecidableEq τ] in
theorem actor_ne_tested {e : MutexEvent τ} (h : s.Inv) (he : s.Enabled (.mutex e)) (ht : s.pc t = .tested) :
    actor e ≠ some t := by
  intro hactor
  cases e with
  | lock u =>
    obtain rfl := Option.some.inj hactor
    rw [he.2] at ht
    cases ht
  | unlock u =>
    obtain rfl := Option.some.inj hactor
    rw [he.2] at ht
    cases ht
  | resume u =>
    obtain rfl := Option.some.inj hactor
    have hin := (h.tested u ht).1
    rw [he.1] at hin
    cases hin
  | other u status waitNext => cases hactor

theorem base_next (s : TryState τ) (e : MutexEvent τ) : (s.next (.mutex e)).base = s.base.next e := by
  cases e <;> rfl

theorem take_base (s : TryState τ) (t : τ) : (s.next (.take t)).base = s.base.next (.lock t) := rfl

theorem test_base (s : TryState τ) (t : τ) : (s.next (.test t)).base = s.base := by
  dsimp only [next]
  split_ifs
  · rfl
  · rfl

theorem pc_next (s : TryState τ) (e : MutexEvent τ) (t : τ) :
    (s.next (.mutex e)).pc t = s.pc t ∨ (s.next (.mutex e)).pc t = .idle := by
  cases e with
  | lock u => exact .inl rfl
  | unlock u => exact .inl rfl
  | other u status waitNext => exact .inl rfl
  | resume u =>
    by_cases htu : t = u
    · rw [htu]
      exact .inr (Function.update_self ..)
    · exact .inl (Function.update_of_ne htu ..)

theorem mutex_inv {e : MutexEvent τ} (h : s.Inv) (he : s.Enabled (.mutex e)) : (s.next (.mutex e)).Inv := by
  obtain ⟨q, hq⟩ := h.base
  refine ⟨?_, fun t ht => ?_, fun t ht => ?_⟩
  · rw [base_next]
    exact MutexState.step_inv hq ⟨enabled_base he, rfl⟩
  · rcases pc_next s e t with hpc | hpc
    · rw [hpc] at ht
      obtain ⟨hinside, hholds⟩ := next_frame s.base (actor_ne_tested h he ht)
      rw [base_next, hinside, hholds]
      exact h.tested t ht
    · rw [hpc] at ht
      cases ht
  · rcases pc_next s e t with hpc | hpc
    · rw [hpc] at ht
      exact h.waiting t ht
    · rw [hpc] at ht
      cases ht

theorem pc_update {pc : τ → TryPc} {x y : TryPc} {u : τ} (h : Function.update pc t x u = y) (hne : x ≠ y) :
    u ≠ t ∧ pc u = y := by
  by_cases hut : u = t
  · rw [hut, Function.update_self] at h
    exact absurd h hne
  · rw [Function.update_of_ne hut] at h
    exact ⟨hut, h⟩

theorem test_inv (h : s.Inv) (he : s.Enabled (.test t)) : (s.next (.test t)).Inv := by
  by_cases hv : s.base.mutex.value = 0
  · have hnext : s.next (.test t) = { s with pc := Function.update s.pc t .tested } :=
      if_neg (not_not.mpr hv)
    rw [hnext]
    refine ⟨h.base, fun u hu => ?_, fun u hu => ?_⟩
    · by_cases hut : u = t
      · obtain ⟨q, hq⟩ := h.base
        have hno : ¬ s.base.Owner t := (hq.free hv).2 t
        rw [hut]
        exact ⟨he.1, Bool.eq_false_iff.mpr fun hholds => hno (.inl hholds)⟩
      · exact h.tested u ((Function.update_of_ne hut ..).symm.trans hu)
    · exact h.waiting u (pc_update hu (by decide)).2
  · have hnext : s.next (.test t) = s := if_pos hv
    rw [hnext]
    exact h

theorem take_inv (h : s.Inv) (he : s.Enabled (.take t)) (hfree : s.base.mutex.value = 0) :
    (s.next (.take t)).Inv := by
  obtain ⟨q, hq⟩ := h.base
  have hpc : (s.next (.take t)).pc = Function.update s.pc t .idle := by
    dsimp only [next]
    rw [if_pos hfree]
  refine ⟨⟨q, MutexState.lock_free_inv hq he.1 hfree⟩, fun u hu => ?_, fun u hu => ?_⟩
  · rw [hpc] at hu
    obtain ⟨hut, hu⟩ := pc_update hu (by decide)
    have hactor : actor (.lock t) ≠ some u := fun heq => hut (Option.some.inj heq).symm
    obtain ⟨hinside, hholds⟩ := next_frame s.base hactor
    rw [take_base, hinside, hholds]
    exact h.tested u hu
  · rw [hpc] at hu
    exact h.waiting u (pc_update hu (by decide)).2

theorem step_inv (h : s.Inv) (hstep : Step s e s') (hfree : TakesFree s e s') : s'.Inv := by
  obtain ⟨he, rfl⟩ := hstep
  cases e with
  | mutex e => exact mutex_inv h he
  | test t => exact test_inv h he
  | take t => exact take_inv h he (hfree t rfl)

/-- Outside of `pthread_mutex_trylock` the law says nothing. -/
theorem tryLaw_mutex (h : s.Inv) (e : MutexEvent τ) : TryLaw s (.mutex e) (s.next (.mutex e)) := by
  refine ⟨fun t ht => (by cases ht), fun t code hcode => ?_⟩
  cases e with
  | resume u =>
    have hnot : s.answer (.mutex (.resume u)) = none := if_neg (h.waiting u)
    rw [hnot] at hcode
    cases hcode
  | lock u => cases hcode
  | unlock u => cases hcode
  | other u status waitNext => cases hcode

/-- The test changes nothing of the mutex, and answers only when that is taken. -/
theorem tryLaw_test (s : TryState τ) (t : τ) : TryLaw s (.test t) (s.next (.test t)) := by
  refine ⟨fun u _ => ?_, fun u code hcode => ?_⟩
  · rw [test_base]
    exact ⟨rfl, id⟩
  · rw [test_base]
    by_cases hv : s.base.mutex.value = 0
    · have hnot : s.answer (.test t) = none := if_neg (not_not.mpr hv)
      rw [hnot] at hcode
      cases hcode
    · have hbusy : s.answer (.test t) = some (t, -EBUSY) := if_pos hv
      rw [hbusy] at hcode
      obtain ⟨rfl, rfl⟩ := Prod.mk.inj (Option.some.inj hcode)
      refine iff_of_false (by decide) fun hholds => ?_
      rw [hholds.1] at hholds
      exact Bool.false_ne_true hholds.2

theorem tryLaw_take (h : s.Inv) (he : s.Enabled (.take t)) (hv : s.base.mutex.value = 0) :
    TryLaw s (.take t) (s.next (.take t)) := by
  refine ⟨fun u _ => ?_, fun u code hcode => ?_⟩
  · rw [take_base, next_lock_free hv]
    exact ⟨rfl, id⟩
  · have hzero : s.answer (.take t) = some (t, 0) := if_pos hv
    rw [hzero] at hcode
    obtain ⟨rfl, rfl⟩ := Prod.mk.inj (Option.some.inj hcode)
    rw [take_base, next_lock_free hv]
    exact iff_of_true rfl ⟨(h.tested t he.2).2, Function.update_self ..⟩

/-- A step obeys the law exactly when it does not take the mutex from another task that has it. -/
theorem tryLaw_iff_step (h : s.Inv) (hstep : Step s e s') : TryLaw s e s' ↔ TakesFree s e s' := by
  obtain ⟨he, rfl⟩ := hstep
  constructor
  · rintro hlaw t rfl
    by_contra hv
    have hqueue := (hlaw.queue t rfl).1
    rw [take_base, next_lock_taken hv] at hqueue
    exact List.cons_ne_nil t [] (List.append_right_eq_self.mp hqueue)
  · intro hfree
    cases e with
    | mutex e => exact tryLaw_mutex h e
    | test t => exact tryLaw_test s t
    | take t => exact tryLaw_take h he (hfree t rfl)

end Steps

def twoTasks : TryState Bool where
  base :=
    { task _ := ⟨none, .running, false, 0, 0, 0, 0, 0⟩
      mutex := ⟨0, .new⟩
      inside _ := false
      holds _ := false
      enqueued := []
      woken := []
      returned := []
      reports := [] }
  pc _ := .idle

theorem init_twoTasks : twoTasks.Init :=
  ⟨⟨rfl, fun _ => rfl, fun _ => rfl, rfl, rfl, rfl, rfl⟩, fun _ => rfl⟩

/-- In the runs in which no task takes the mutex between the test of another one and its call of `lock`, and only
in these, all calls of `pthread_mutex_trylock` obey the law. -/
theorem tryLaw_iff {s s' : TryState τ} {es : List (TryEvent τ)} (h : s.Init) :
    Run (Guarded Step TryLaw) s es s' ↔ Run (Guarded Step TakesFree) s es s' := by
  have hiff : ∀ s e s', Inv s → Step s e s' → (TryLaw s e s' ↔ TakesFree s e s') :=
    fun _ _ _ hinv hstep => tryLaw_iff_step (τ := τ) hinv hstep
  exact guarded_iff hiff (fun _ _ _ hinv hstep hfree => step_inv hinv hstep hfree) h.inv

theorem tryLaw_iff_twoTasks : Run (Guarded Step TryLaw) twoTasks [.test true, .take true]
    ((twoTasks.next (.test true)).next (.take true)) := by
  refine (tryLaw_iff init_twoTasks).mpr (.cons ⟨⟨⟨rfl, rfl⟩, rfl⟩, fun _ h => ?_⟩
    (.cons ⟨⟨⟨rfl, rfl⟩, rfl⟩, fun _ _ => rfl⟩ (.nil _)))
  cases h

/-- The second task takes the mutex between the test of the first one and its call of `lock`. -/
theorem not_tryLaw_twoTasks : twoTasks.Init ∧
    Run Step twoTasks [.test true, .mutex (.lock false), .take true]
      (((twoTasks.next (.test true)).next (.mutex (.lock false))).next (.take true)) ∧
    ¬ Run (Guarded Step TryLaw) twoTasks [.test true, .mutex (.lock false), .take true]
      (((twoTasks.next (.test true)).next (.mutex (.lock false))).next (.take true)) := by
  refine ⟨init_twoTasks, ?_, fun h => ?_⟩
  · exact .cons ⟨⟨rfl, rfl⟩, rfl⟩ (.cons ⟨⟨rfl, rfl⟩, rfl⟩ (.cons ⟨⟨rfl, rfl⟩, rfl⟩ (.nil _)))
  · obtain _ | ⟨⟨⟨-, rfl⟩, -⟩, h⟩ := h
    obtain _ | ⟨⟨⟨-, rfl⟩, -⟩, h⟩ := h
    obtain _ | ⟨⟨⟨-, rfl⟩, hlaw⟩, -⟩ := h
    exact absurd (hlaw.queue true rfl).1 (by decide)

end TryState

end CxxKernel.Sched
