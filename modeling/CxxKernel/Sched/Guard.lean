import CxxKernel.Sched.Mutex

/-! The guard of a static local object: `__cxa_guard_acquire` and `__cxa_guard_release`, and the
threads that come to the guard. The compiler passes the address of a guard, so that the tests for
a null one are left out. -/
namespace CxxKernel.Sched
open Runs

variable {θ : Type*}

/-- A `GuardMutex` works on the guard word in the place of `value`. -/
abbrev GuardMutex (θ : Type*) := BaseMutex θ

/-- The `GuardMutex` that each call of the guard's functions makes for itself. -/
def GuardMutex.onGuard (word : Word) : GuardMutex θ := ⟨word, .new⟩

section Functions
variable [DecidableEq θ]

/-- `__cxa_guard_acquire` up to its store. It tells whether `lock` found the word clear. The
spinlock is a member of the caller's own `GuardMutex` and keeps nobody out, so that the store is
a step of its own. -/
def cxaGuardAcquire (word : Word) (tasks : Tasks θ) (current : θ) : Tasks θ × Bool :=
  if word = 0 then (tasks, true)
  else (((GuardMutex.onGuard word).queue.enqueue tasks current).2, false)

/-- The store in `lock`. -/
def cxaGuardStore : Word := 1

def cxaGuardRelease (word : Word) (tasks : Tasks θ) : Word × Tasks θ :=
  let (m, tasks, _) := (GuardMutex.onGuard word).unlock tasks
  (m.value, tasks)

theorem cxaGuardRelease_eq (word : Word) (tasks : Tasks θ) :
    cxaGuardRelease word tasks = (0, tasks) := rfl

theorem cxaGuardAcquire_wait {word : Word} (h : word ≠ 0) (tasks : Tasks θ) (t : θ) :
    (cxaGuardAcquire word tasks t).2 = false ∧
      ∀ u, ((cxaGuardAcquire word tasks t).1 u).status =
        if u = t then .blocked else (tasks u).status := by
  have hwait : cxaGuardAcquire word tasks t =
      (((GuardMutex.onGuard word).queue.enqueue tasks t).2, false) := if_neg h
  rw [hwait]
  exact ⟨rfl, Waitlist.enqueue_status (GuardMutex.onGuard word).queue tasks t⟩

end Functions

/-- The byte that the compiler's code looks at. -/
def firstByte (word : Word) : Word := word &&& 0xFF

/-- Where a thread is: `calling` has seen a zero byte, `claiming` a zero word, `sleeping` is in
`reschedule`, and `past` is behind the guard, from where it may come again. -/
inductive GuardPc
  | outside
  | calling
  | claiming
  | sleeping
  | initialising
  | initialised
  | past
  deriving DecidableEq, Repr

structure GuardState (θ : Type*) where
  task : Tasks θ
  word : Word
  pc : θ → GuardPc
  started : ℕ
  finished : ℕ

/-- `other` is whatever else changes a task. -/
inductive GuardEvent (θ : Type*)
  | check (t : θ)
  | acquire (t : θ)
  | store (t : θ)
  | resume (t : θ)
  | finish (t : θ)
  | release (t : θ)
  | other (t : θ) (status : Status) (waitNext : Option θ)

namespace GuardState
variable [DecidableEq θ]

def setPc (s : GuardState θ) (t : θ) (pc : GuardPc) : GuardState θ :=
  { s with pc := Function.update s.pc t pc }

@[simp] theorem setPc_pc (s : GuardState θ) (t u : θ) (pc : GuardPc) :
    (s.setPc t pc).pc u = if u = t then pc else s.pc u := Function.update_apply ..

/-- The compiler's protocol. Nothing else touches a task that sleeps at the guard. -/
def Enabled (s : GuardState θ) : GuardEvent θ → Prop
  | .check t => s.pc t = .outside ∨ s.pc t = .past
  | .acquire t => s.pc t = .calling
  | .store t => s.pc t = .claiming
  | .resume t => s.pc t = .sleeping
  | .finish t => s.pc t = .initialising
  | .release t => s.pc t = .initialised
  | .other t _ _ => s.pc t ≠ .sleeping

def next (s : GuardState θ) : GuardEvent θ → GuardState θ
  | .check t => s.setPc t (if firstByte s.word = 0 then .calling else .past)
  | .acquire t =>
    let (task, clear) := cxaGuardAcquire s.word s.task t
    { s with task }.setPc t (if clear then .claiming else .sleeping)
  | .store t =>
    { s with word := cxaGuardStore, started := s.started + 1 }.setPc t .initialising
  | .resume t => { s with started := s.started + 1 }.setPc t .initialising
  | .finish t => { s with finished := s.finished + 1 }.setPc t .initialised
  | .release t =>
    let (word, task) := cxaGuardRelease s.word s.task
    { s with word, task }.setPc t .past
  | .other t status waitNext =>
    { s with task := setWaitNext (setStatus s.task t status) t waitNext }

def Step (s : GuardState θ) (e : GuardEvent θ) (s' : GuardState θ) : Prop :=
  s.Enabled e ∧ s' = s.next e

/-- No thread has come to the guard yet. -/
structure Init (s : GuardState θ) : Prop where
  word : s.word = 0
  pc : ∀ t, s.pc t = .outside
  started : s.started = 0
  finished : s.finished = 0

/-- The initialiser runs once at most, and threads are past the guard only after its run. -/
def OnceSafe (s : GuardState θ) : Prop :=
  s.started ≤ 1 ∧ ∀ t, s.pc t = .past → s.started = 1 ∧ s.finished = 1

/-- The steps that keep to one run of the initialiser: a thread looks at the guard while its
first byte is zero or after the run, stores into it while it is still clear and before the run,
and does not come back from `reschedule` blocked. -/
def OnceStep (s : GuardState θ) : GuardEvent θ → Prop
  | .check _ => firstByte s.word = 0 ∨ 0 < s.finished
  | .store _ => s.word = 0 ∧ s.finished = 0
  | .resume t => (s.task t).status ≠ .blocked
  | _ => True

/-- The word is set from the store to the release, and the initialiser runs in between. -/
structure Counts (s : GuardState θ) : Prop where
  started : s.started ≤ 1
  finished : s.finished ≤ s.started
  clear : s.word = 0 → s.started = s.finished
  set : s.word ≠ 0 → s.started = 1

/-- What the place of a thread says about the run of the initialiser. -/
def Fits (s : GuardState θ) (t : θ) : GuardPc → Prop
  | .sleeping => (s.task t).status = .blocked ∧ s.started = 1
  | .initialising => s.started = 1 ∧ s.finished = 0
  | .initialised => s.finished = 1
  | .past => s.finished = 1
  | _ => True

structure Inv (s : GuardState θ) : Prop extends s.Counts where
  fits : ∀ t, s.Fits t (s.pc t)
  single : ∀ t u, s.pc t = .initialising → s.pc u = .initialising → t = u

theorem Init.inv {θ : Type*} {s : GuardState θ} (h : s.Init) : s.Inv := by
  obtain ⟨hw, hpc, hs, hf⟩ := h
  refine ⟨⟨by omega, by omega, fun _ => by omega, fun hne => absurd hw hne⟩, fun t => ?_, ?_⟩
  · rw [hpc t]
    trivial
  · intro t u ht
    rw [hpc t] at ht
    cases ht

theorem Inv.onceSafe {θ : Type*} {s : GuardState θ} (h : s.Inv) : s.OnceSafe := by
  refine ⟨h.started, fun t ht => ?_⟩
  have hfits := h.fits t
  rw [ht] at hfits
  have hf : s.finished = 1 := hfits
  have hle := h.finished
  have hs := h.started
  omega

section Steps
variable {s s' : GuardState θ} {e : GuardEvent θ} {t : θ} {pc : GuardPc}

theorem inv_setPc (hcounts : s.Counts) (hothers : ∀ u, u ≠ t → s.Fits u (s.pc u))
    (hfit : s.Fits t pc)
    (hsingle : ∀ u v, u ≠ t → v ≠ t → s.pc u = .initialising → s.pc v = .initialising → u = v)
    (hnew : pc = .initialising → ∀ u, u ≠ t → s.pc u ≠ .initialising) : (s.setPc t pc).Inv := by
  refine ⟨⟨hcounts.started, hcounts.finished, hcounts.clear, hcounts.set⟩, fun u => ?_,
    fun u v hu hv => ?_⟩
  · rw [setPc_pc]
    split_ifs with hut
    · subst hut
      exact hfit
    · exact hothers u hut
  · rw [setPc_pc] at hu hv
    by_cases hut : u = t
    · by_cases hvt : v = t
      · rw [hut, hvt]
      · rw [if_pos hut] at hu
        rw [if_neg hvt] at hv
        exact absurd hv (hnew hu v hvt)
    · rw [if_neg hut] at hu
      by_cases hvt : v = t
      · rw [if_pos hvt] at hv
        exact absurd hu (hnew hv u hut)
      · rw [if_neg hvt] at hv
        exact hsingle u v hut hvt hu hv

/-- A thread moves to a place that is not the initialiser, and nothing else changes. -/
theorem Inv.setPc (h : s.Inv) (hfit : s.Fits t pc) (hpc : pc ≠ .initialising) :
    (s.setPc t pc).Inv :=
  inv_setPc h.toCounts (fun u _ => h.fits u) hfit (fun u v _ _ => h.single u v)
    fun hc => absurd hc hpc

theorem check_inv (h : s.Inv) (hc : s.OnceStep (.check t)) : (s.next (.check t)).Inv := by
  by_cases hb : firstByte s.word = 0
  · have hnext : s.next (.check t) = s.setPc t .calling := by
      rw [next, if_pos hb]
    rw [hnext]
    exact h.setPc trivial (by decide)
  · have hnext : s.next (.check t) = s.setPc t .past := by
      rw [next, if_neg hb]
    have hpos := hc.resolve_left hb
    have hle := h.finished
    have hs := h.started
    have hf : s.finished = 1 := by omega
    rw [hnext]
    exact h.setPc hf (by decide)

theorem acquire_inv (h : s.Inv) : (s.next (.acquire t)).Inv := by
  by_cases hw : s.word = 0
  · have hnext : s.next (.acquire t) = s.setPc t .claiming := by
      have hacquire : cxaGuardAcquire s.word s.task t = (s.task, true) := if_pos hw
      rw [next, hacquire]
      rfl
    rw [hnext]
    exact h.setPc trivial (by decide)
  · obtain ⟨hdone, hstatus⟩ := cxaGuardAcquire_wait hw s.task t
    have hnext : s.next (.acquire t) =
        GuardState.setPc { s with task := (cxaGuardAcquire s.word s.task t).1 } t .sleeping := by
      simp only [next, hdone, Bool.false_eq_true, if_false]
    rw [hnext]
    refine inv_setPc ⟨h.started, h.finished, h.clear, h.set⟩ (fun u hut => ?_) ⟨?_, h.set hw⟩
      (fun u v _ _ => h.single u v) fun hc => by cases hc
    · have hfits := h.fits u
      cases hpc : s.pc u <;> rw [hpc] at hfits
      case sleeping =>
        refine ⟨?_, hfits.2⟩
        rw [hstatus, if_neg hut]
        exact hfits.1
      all_goals exact hfits
    · rw [hstatus, if_pos rfl]

/-- Before the store nothing has started, so that no other thread is in the initialiser. -/
theorem store_inv (h : s.Inv) (hc : s.OnceStep (.store t)) : (s.next (.store t)).Inv := by
  have hs : s.started = 0 := (h.clear hc.1).trans hc.2
  have hno : ∀ u, s.pc u ≠ .initialising := by
    intro u hu
    have hfits := h.fits u
    rw [hu] at hfits
    exact absurd (hfits.1.symm.trans hs) Nat.one_ne_zero
  refine inv_setPc ⟨?_, ?_, ?_, ?_⟩ (fun u _ => ?_) ⟨?_, hc.2⟩
    (fun u v _ _ hu => absurd hu (hno u)) (fun _ u _ => hno u)
  · simp [hs]
  · simp [hs, hc.2]
  · intro hw
    exact absurd hw (by decide : cxaGuardStore ≠ 0)
  · intro _
    simp [hs]
  · have hfits := h.fits u
    cases hpc : s.pc u <;> rw [hpc] at hfits
    case sleeping => exact absurd (hfits.2.symm.trans hs) Nat.one_ne_zero
    case initialising => exact absurd hpc (hno u)
    all_goals exact hfits
  · simp [hs]

theorem finish_inv (h : s.Inv) (he : s.pc t = .initialising) : (s.next (.finish t)).Inv := by
  have hfits := h.fits t
  rw [he] at hfits
  obtain ⟨hs, hf⟩ := hfits
  have hw : s.word ≠ 0 := by
    intro hw
    have hclear := h.clear hw
    omega
  have hno : ∀ u, u ≠ t → s.pc u ≠ .initialising := fun u hut hu => hut (h.single u t hu he)
  refine inv_setPc ⟨h.started, ?_, fun hc => absurd hc hw, h.set⟩ (fun u hut => ?_) ?_
    (fun u v hut _ hu => absurd hu (hno u hut)) fun hc => by cases hc
  · simp [hs, hf]
  · have hfits := h.fits u
    cases hpc : s.pc u <;> rw [hpc] at hfits
    case initialising => exact absurd hpc (hno u hut)
    case initialised => exact absurd (hf.symm.trans hfits) Nat.zero_ne_one
    case past => exact absurd (hf.symm.trans hfits) Nat.zero_ne_one
    all_goals exact hfits
  · simp [Fits, hf]

theorem release_inv (h : s.Inv) (he : s.pc t = .initialised) : (s.next (.release t)).Inv := by
  have hf := h.fits t
  rw [he] at hf
  have hnext : s.next (.release t) = GuardState.setPc { s with word := 0 } t .past := by
    rw [next, cxaGuardRelease_eq]
  have hstarted : s.started = s.finished := by
    have hs := h.started
    have hle := h.finished
    have hf' : s.finished = 1 := hf
    omega
  rw [hnext]
  exact inv_setPc ⟨h.started, h.finished, fun _ => hstarted, fun hc => absurd rfl hc⟩
    (fun u _ => h.fits u) hf (fun u v _ _ => h.single u v) fun hc => by cases hc

theorem other_inv {status : Status} {waitNext : Option θ} (h : s.Inv) (he : s.pc t ≠ .sleeping) :
    (s.next (.other t status waitNext)).Inv := by
  refine ⟨⟨h.started, h.finished, h.clear, h.set⟩, fun u => ?_, h.single⟩
  change Fits _ u (s.pc u)
  have hfits := h.fits u
  cases hpc : s.pc u <;> rw [hpc] at hfits
  case sleeping =>
    have hut : u ≠ t := by
      rintro rfl
      exact he hpc
    refine ⟨?_, hfits.2⟩
    simpa [next, hut] using hfits.1
  all_goals exact hfits

theorem step_inv (h : s.Inv) (hstep : Step s e s') (hc : s.OnceStep e) : s'.Inv := by
  obtain ⟨he, rfl⟩ := hstep
  cases e with
  | check t => exact check_inv h hc
  | acquire t => exact acquire_inv h
  | store t => exact store_inv h hc
  | resume t =>
    have hfits := h.fits t
    rw [show s.pc t = .sleeping from he] at hfits
    exact absurd hfits.1 hc
  | finish t => exact finish_inv h he
  | release t => exact release_inv h he
  | other t status waitNext => exact other_inv h he

theorem onceStep_of_safe (h : s.Inv) (hstep : Step s e s') (hsafe : s'.OnceSafe) :
    s.OnceStep e := by
  obtain ⟨he, rfl⟩ := hstep
  cases e with
  | check t =>
    by_cases hb : firstByte s.word = 0
    · exact .inl hb
    · have hpast : (s.next (.check t)).pc t = .past := by
        rw [next, if_neg hb, setPc_pc, if_pos rfl]
      have hf : s.finished = 1 := (hsafe.2 t hpast).2
      exact .inr (by omega)
  | store t =>
    have hone : s.started + 1 ≤ 1 := hsafe.1
    have hle := h.finished
    refine ⟨?_, by omega⟩
    by_contra hw
    have hset := h.set hw
    omega
  | resume t =>
    have hone : s.started + 1 ≤ 1 := hsafe.1
    have hfits := h.fits t
    rw [show s.pc t = .sleeping from he] at hfits
    have hs := hfits.2
    omega
  | acquire | finish | release | other => trivial

end Steps

section Runs
variable {s t : GuardState θ} {es : List (GuardEvent θ)}

/-- The initialiser runs once, and before any thread is past the guard, exactly in the runs that
keep to `OnceStep`. -/
theorem once_iff (h : s.Init) (hrun : Run Step s es t) :
    Always Step OnceSafe s es t ↔ Run (Guarded Step fun s e _ => s.OnceStep e) s es t := by
  have hgood : ∀ s : GuardState θ, s.Inv → s.OnceSafe := fun _ hi => hi.onceSafe
  have hkeep : ∀ (s : GuardState θ) e s', s.Inv → Step s e s' → s.OnceStep e → s'.Inv :=
    fun _ _ _ => step_inv
  have hbad : ∀ (s : GuardState θ) e s', s.Inv → Step s e s' → s'.OnceSafe → s.OnceStep e :=
    fun _ _ _ => onceStep_of_safe
  exact always_iff_guarded hgood hkeep hbad h.inv hrun

/-- Two threads that have not come to the guard. -/
def twoThreads : GuardState (Fin 2) where
  task _ := ⟨none, .running, false, 0, 1, 1, 0, 0⟩
  word := 0
  pc _ := .outside
  started := 0
  finished := 0

theorem twoThreads_init : twoThreads.Init := ⟨rfl, fun _ => rfl, rfl, rfl⟩

/-- The state of the two threads after some events. -/
def after (es : List (GuardEvent (Fin 2))) : GuardState (Fin 2) := es.foldl next twoThreads

/-- The first thread initialises the object while the second goes to sleep at the guard. -/
def sleepEvents : List (GuardEvent (Fin 2)) :=
  [.check 0, .check 1, .acquire 0, .store 0, .acquire 1, .finish 0, .release 0]

theorem once_sleep : Always Step OnceSafe twoThreads sleepEvents (after sleepEvents) := by
  have hguarded : Run (Guarded Step fun s e _ => s.OnceStep e) twoThreads sleepEvents
      (after sleepEvents) :=
    .cons ⟨⟨.inl rfl, rfl⟩, .inl rfl⟩ <| .cons ⟨⟨.inl rfl, rfl⟩, .inl rfl⟩ <|
    .cons ⟨⟨rfl, rfl⟩, trivial⟩ <| .cons ⟨⟨rfl, rfl⟩, rfl, rfl⟩ <|
    .cons ⟨⟨rfl, rfl⟩, trivial⟩ <| .cons ⟨⟨rfl, rfl⟩, trivial⟩ <|
    .cons ⟨⟨rfl, rfl⟩, trivial⟩ (.nil _)
  exact (once_iff twoThreads_init hguarded.unguard).mpr hguarded

/-- One thread that comes to the guard again after the release. -/
def againEvents : List (GuardEvent (Fin 2)) :=
  [.check 0, .acquire 0, .store 0, .finish 0, .release 0, .check 0, .acquire 0, .store 0]

/-- A thread that looks at the guard while another one initialises. -/
def earlyEvents : List (GuardEvent (Fin 2)) := [.check 0, .acquire 0, .store 0, .check 1]

/-- Two threads that both find the word clear. -/
def raceEvents : List (GuardEvent (Fin 2)) :=
  [.check 0, .check 1, .acquire 0, .acquire 1, .store 0, .store 1]

/-- The initialiser has been started twice, a thread has passed it too early, and it runs twice
at the same time. -/
theorem not_once : twoThreads.Init ∧
    (Run Step twoThreads againEvents (after againEvents) ∧ ¬ (after againEvents).OnceSafe) ∧
    (Run Step twoThreads earlyEvents (after earlyEvents) ∧ ¬ (after earlyEvents).OnceSafe) ∧
    Run Step twoThreads raceEvents (after raceEvents) ∧ ¬ (after raceEvents).OnceSafe := by
  have hagain : Run Step twoThreads againEvents (after againEvents) :=
    .cons ⟨.inl rfl, rfl⟩ <| .cons ⟨rfl, rfl⟩ <| .cons ⟨rfl, rfl⟩ <| .cons ⟨rfl, rfl⟩ <|
    .cons ⟨rfl, rfl⟩ <| .cons ⟨.inr rfl, rfl⟩ <| .cons ⟨rfl, rfl⟩ <| .cons ⟨rfl, rfl⟩ (.nil _)
  have hearly : Run Step twoThreads earlyEvents (after earlyEvents) :=
    .cons ⟨.inl rfl, rfl⟩ <| .cons ⟨rfl, rfl⟩ <| .cons ⟨rfl, rfl⟩ <|
    .cons ⟨.inl rfl, rfl⟩ (.nil _)
  have hrace : Run Step twoThreads raceEvents (after raceEvents) :=
    .cons ⟨.inl rfl, rfl⟩ <| .cons ⟨.inl rfl, rfl⟩ <| .cons ⟨rfl, rfl⟩ <|
    .cons ⟨rfl, rfl⟩ <| .cons ⟨rfl, rfl⟩ <| .cons ⟨rfl, rfl⟩ (.nil _)
  refine ⟨twoThreads_init, ⟨hagain, fun h => ?_⟩, ⟨hearly, fun h => ?_⟩, hrace, fun h => ?_⟩
  · exact absurd h.1 (by decide)
  · have hpast := h.2 1 rfl
    exact absurd hpast.2 (by decide)
  · exact absurd h.1 (by decide)

end Runs

end GuardState

end CxxKernel.Sched
