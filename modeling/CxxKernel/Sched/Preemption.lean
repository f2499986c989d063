import CxxKernel.Sched.MutexSteps

/-! One processor runs the accesses to a mutex, and the timer takes it from a task between any two of them. -/
namespace CxxKernel.Sched
open Runs

/-- A step of the task that runs, a change of a task from elsewhere, or a switch to another task. -/
inductive ProcessorEvent (τ : Type*)
  | lock
  | unlock
  | access
  | elsewhere (t : τ) (status : Status) (waitNext : Option τ)
  | switch (next : τ)

/-- The tasks around a mutex, and the task that runs. -/
structure Processor (τ : Type*) where
  machine : MutexMachine τ
  current : τ

namespace Processor
variable {τ : Type*} [DecidableEq τ]

def Enabled (p : Processor τ) : ProcessorEvent τ → Prop
  | .lock => p.machine.Enabled (.lock p.current)
  | .unlock => p.machine.Enabled (.unlock p.current)
  | .access => p.machine.Enabled (.access p.current)
  | .elsewhere t status waitNext => p.machine.Enabled (.elsewhere t status waitNext)
  | .switch next => (p.machine.task next).status ≠ .blocked

instance (p : Processor τ) : ∀ e, Decidable (p.Enabled e)
  | .lock => inferInstanceAs (Decidable (p.machine.Enabled (.lock p.current)))
  | .unlock => inferInstanceAs (Decidable (p.machine.Enabled (.unlock p.current)))
  | .access => inferInstanceAs (Decidable (p.machine.Enabled (.access p.current)))
  | .elsewhere t status waitNext => inferInstanceAs (Decidable (p.machine.Enabled (.elsewhere t status waitNext)))
  | .switch _ => inferInstanceAs (Decidable (_ ≠ _))

/-- The statuses that `schedule` sets when it goes from `current` to `next`. -/
def switchStatus (task : Tasks τ) (current next : τ) : Tasks τ :=
  let task := setStatus task next .running
  if (task current).status ≠ .blocked then setStatus task current .waiting else task

def next (p : Processor τ) : ProcessorEvent τ → Processor τ
  | .lock => { p with machine := p.machine.next (.lock p.current) }
  | .unlock => { p with machine := p.machine.next (.unlock p.current) }
  | .access => { p with machine := p.machine.next (.access p.current) }
  | .elsewhere t status waitNext => { p with machine := p.machine.next (.elsewhere t status waitNext) }
  | .switch next => ⟨{ p.machine with task := switchStatus p.machine.task p.current next }, next⟩

def Step (p : Processor τ) (e : ProcessorEvent τ) (p' : Processor τ) : Prop := p.Enabled e ∧ p' = p.next e

section Machine
variable {s s' : MutexMachine τ} {a : MutexState τ} {t u : τ} {holder : Option τ} {e : MachineEvent τ}

/-- A task that does not hold the spinlock spins, or comes back from `reschedule`. -/
theorem access_aside (hcritical : (s.pc t).critical = false) (hlocker : s.locker ≠ 0) :
    s.access t = s ∨ (s.pc t = .sleeping ∧
      s.access t = { s with holds := Function.update s.holds t true }.goto t .outside) := by
  have hspin : ∀ pc, s.spin t pc = s := fun pc => if_neg hlocker
  unfold MutexMachine.access
  cases hpc : s.pc t with
  | outside => exact .inl rfl
  | lockSpin | unlockSpin => exact .inl (hspin _)
  | sleeping => exact .inr ⟨rfl, rfl⟩
  | lockTest | lockStore | lockFree | enqNext | enqTail | enqHead | enqLink | enqSetTail | enqBlock | waitFree
  | unlockTest | unlockStore | deqTest | deqCompare | deqClearTail | deqClearHead | deqAdvance | deqCheck | deqWake
  | unlockFree =>
    rw [hpc] at hcritical
    cases hcritical

theorem access_pc_of_ne (hut : u ≠ t) : (s.access t).pc u = s.pc u := by
  have hgoto : ∀ (m : MutexMachine τ) pc, m.pc = s.pc → (m.goto t pc).pc u = s.pc u := fun m pc hm => by
    rw [MutexMachine.goto_pc, if_neg hut, hm]
  have hspin : ∀ pc, (s.spin t pc).pc u = s.pc u := by
    intro pc
    unfold MutexMachine.spin
    split_ifs
    · exact hgoto _ _ rfl
    · rfl
  unfold MutexMachine.access
  cases s.pc t with
  | outside => rfl
  | lockSpin | unlockSpin => exact hspin _
  | deqTest =>
    dsimp only
    cases s.mutex.queue.head with
    | none => exact hgoto _ _ rfl
    | some x => exact hgoto _ _ rfl
  | lockTest | lockStore | lockFree | enqNext | enqTail | enqHead | enqLink | enqSetTail | enqBlock | waitFree
  | sleeping | unlockTest | unlockStore | deqCompare | deqClearTail | deqClearHead | deqAdvance | deqCheck | deqWake
  | unlockFree => exact hgoto _ _ rfl

/-- A task comes to the release of the spinlock in `lock` from the write of its status. -/
theorem enqBlock_of_waitFree (h : (s.access t).pc t = .waitFree) : s.pc t = .enqBlock := by
  have hgoto : ∀ (m : MutexMachine τ) pc, (m.goto t pc).pc t = .waitFree → pc = .waitFree := by
    intro m pc hm
    rwa [MutexMachine.goto_pc, if_pos rfl] at hm
  have hspin : ∀ pc, (s.spin t pc).pc t = .waitFree → pc = .waitFree ∨ s.pc t = .waitFree := by
    intro pc hm
    unfold MutexMachine.spin at hm
    split_ifs at hm
    · exact .inl (hgoto _ _ hm)
    · exact .inr hm
  unfold MutexMachine.access at h
  cases hpc : s.pc t with
  | enqBlock => rfl
  | outside =>
    rw [hpc] at h
    cases hpc.symm.trans h
  | lockSpin | unlockSpin =>
    rw [hpc] at h
    rcases hspin _ h with hc | hc
    · cases hc
    · cases hpc.symm.trans hc
  | lockTest | unlockTest | deqCompare =>
    rw [hpc] at h
    have hc := hgoto _ _ h
    split_ifs at hc
  | enqTail =>
    rw [hpc] at h
    have hc := hgoto _ _ h
    split at hc
    · cases hc
    · cases hc
  | deqTest =>
    rw [hpc] at h
    dsimp only at h
    split at h
    · cases hgoto _ _ h
    · cases hgoto _ _ h
  | lockStore | lockFree | enqNext | enqHead | enqLink | enqSetTail | waitFree | sleeping | unlockStore
  | deqClearTail | deqClearHead | deqAdvance | deqCheck | deqWake | unlockFree =>
    rw [hpc] at h
    cases hgoto _ _ h

/-- Tasks between the write of their status and the release of the spinlock are blocked. -/
def Asleep (s : MutexMachine τ) : Prop := ∀ t, s.pc t = .waitFree → (s.task t).status = .blocked

theorem asleep_step (h : s.Refines a holder) (hasleep : Asleep s) (hstep : MutexMachine.Step s e s') : Asleep s' := by
  obtain ⟨henabled, rfl⟩ := hstep
  intro u hu
  cases e with
  | lock t =>
    by_cases hut : u = t
    · rw [MutexMachine.next, MutexMachine.goto_pc, if_pos hut] at hu
      cases hu
    · rw [MutexMachine.next, MutexMachine.goto_pc, if_neg hut] at hu
      exact hasleep u hu
  | unlock t =>
    by_cases hut : u = t
    · rw [MutexMachine.next, MutexMachine.goto_pc, if_pos hut] at hu
      cases hu
    · rw [MutexMachine.next, MutexMachine.goto_pc, if_neg hut] at hu
      exact hasleep u hu
  | access t =>
    by_cases hut : u = t
    · subst hut
      have hpc := enqBlock_of_waitFree hu
      rw [MutexMachine.next, MutexMachine.access, hpc]
      exact (setStatus_status ..).trans (if_pos rfl)
    · -- the spinlock is held by a task that does not take this step
      rw [MutexMachine.next, access_pc_of_ne hut] at hu
      have hheld : holder = some u := (h.held u).mp (by rw [hu]; rfl)
      have hcritical : (s.pc t).critical = false := eq_false_of_ne_true fun hc =>
        hut (Option.some.inj (hheld.symm.trans ((h.held t).mp hc)))
      have hlocker : s.locker ≠ 0 := fun hzero => Option.some_ne_none u (hheld.symm.trans (h.locker.mp hzero))
      have htask : (s.access t).task = s.task := by
        rcases access_aside hcritical hlocker with hs | ⟨-, hs⟩
        · rw [hs]
        · rw [hs]
          rfl
      rw [MutexMachine.next, htask]
      exact hasleep u hu
  | schedule t status =>
    have hblocked := hasleep u hu
    have hut : u ≠ t := by
      rintro rfl
      exact henabled.1 hblocked
    exact (setStatus_status ..).trans ((if_neg hut).trans hblocked)
  | elsewhere t status next =>
    have hut : u ≠ t := by
      rintro rfl
      exact absurd (hu.symm.trans henabled) (by simp)
    have hstatus : ((s.next (.elsewhere t status next)).task u).status = (s.task u).status := by
      rw [MutexMachine.next]
      dsimp only
      rw [setWaitNext_status, setStatus_status, if_neg hut]
    exact hstatus.trans (hasleep u hu)

end Machine

variable {p p' : Processor τ} {e : ProcessorEvent τ} {t u : τ}

/-- The steps of the processor are steps of the tasks. -/
theorem Step.machine (h : Step p e p') : ∃ es, Run MutexMachine.Step p.machine es p'.machine := by
  obtain ⟨henabled, rfl⟩ := h
  have hone : ∀ e : MachineEvent τ, p.machine.Enabled e → Run MutexMachine.Step p.machine [e] (p.machine.next e) :=
    fun e he => .single ⟨he, rfl⟩
  cases e with
  | lock => exact ⟨_, hone (.lock p.current) henabled⟩
  | unlock => exact ⟨_, hone (.unlock p.current) henabled⟩
  | access => exact ⟨_, hone (.access p.current) henabled⟩
  | elsewhere t status next => exact ⟨_, hone (.elsewhere t status next) henabled⟩
  | switch next =>
    have hrunning : p.machine.Enabled (.schedule next .running) := ⟨henabled, by decide⟩
    by_cases hcurrent : (setStatus p.machine.task next .running p.current).status ≠ .blocked
    · have hwaiting : (p.machine.next (.schedule next .running)).Enabled (.schedule p.current .waiting) :=
        ⟨hcurrent, by decide⟩
      refine ⟨_, (hone (.schedule next .running) hrunning).append
        (.single (a := .schedule p.current .waiting) ⟨hwaiting, ?_⟩)⟩
      rw [Processor.next, switchStatus]
      dsimp only
      rw [if_pos hcurrent]
      rfl
    · refine ⟨[.schedule next .running], ?_⟩
      have hnext : (p.next (.switch next)).machine = p.machine.next (.schedule next .running) := by
        rw [Processor.next, switchStatus]
        dsimp only
        rw [if_neg hcurrent]
        rfl
      rw [hnext]
      exact hone (.schedule next .running) hrunning

/-- The processor has left the task between the write of its status and the release of the spinlock. -/
structure Lost (p : Processor τ) (t : τ) : Prop where
  pc : p.machine.pc t = .waitFree
  status : (p.machine.task t).status = .blocked
  locker : p.machine.locker ≠ 0
  others : ∀ u, u ≠ t → (p.machine.pc u).critical = false
  current : p.current ≠ t

/-- The task is in front of the spinlock in a call of `lock` or `unlock`. -/
def Spins (p : Processor τ) (u : τ) : Prop := p.machine.pc u = .lockSpin ∨ p.machine.pc u = .unlockSpin

theorem Lost.step (h : p.Lost t) (hstep : Step p e p') : p'.Lost t ∧ ∀ u, p.Spins u → p'.Spins u := by
  obtain ⟨henabled, rfl⟩ := hstep
  have hcurrent : t ≠ p.current := h.current.symm
  -- a task that does not spin yet moves to a place without the spinlock
  have hgoto : ∀ (m : MutexMachine τ) pc, m.pc = p.machine.pc → m.task = p.machine.task →
      m.locker = p.machine.locker →
      pc.critical = false → ¬ p.Spins p.current →
      (⟨m.goto p.current pc, p.current⟩ : Processor τ).Lost t ∧
        ∀ u, p.Spins u → (⟨m.goto p.current pc, p.current⟩ : Processor τ).Spins u := by
    intro m pc hpc htask hlocker hcritical hspins
    have hplace : ∀ u, (m.goto p.current pc).pc u = if u = p.current then pc else p.machine.pc u := by
      intro u
      rw [MutexMachine.goto_pc, hpc]
    refine ⟨⟨?_, ?_, ?_, fun u hut => ?_, h.current⟩, fun u hu => ?_⟩
    · rw [hplace, if_neg hcurrent]
      exact h.pc
    · have hstatus := h.status
      rw [← htask] at hstatus
      exact hstatus
    · have hset := h.locker
      rw [← hlocker] at hset
      exact hset
    · rw [hplace]
      split_ifs
      · exact hcritical
      · exact h.others u hut
    · unfold Spins at hu ⊢
      rw [hplace, if_neg]
      · exact hu
      · rintro rfl
        exact hspins hu
  cases e with
  | lock =>
    have hpc : p.machine.pc p.current = .outside := henabled
    refine hgoto p.machine .lockSpin rfl rfl rfl rfl fun hspins => ?_
    rcases hspins with hc | hc
    · cases hpc.symm.trans hc
    · cases hpc.symm.trans hc
  | unlock =>
    have hpc : p.machine.pc p.current = .outside := henabled.1
    refine hgoto { p.machine with holds := Function.update p.machine.holds p.current false } .unlockSpin rfl
      rfl rfl rfl
      fun hspins => ?_
    rcases hspins with hc | hc
    · cases hpc.symm.trans hc
    · cases hpc.symm.trans hc
  | access =>
    rcases access_aside (h.others p.current h.current) h.locker with hs | ⟨hpc, hs⟩
    · have hnext : p.next .access = p := by
        rw [Processor.next, MutexMachine.next, hs]
      rw [hnext]
      exact ⟨h, fun u hu => hu⟩
    · rw [Processor.next, MutexMachine.next, hs]
      refine hgoto { p.machine with holds := Function.update p.machine.holds p.current true } .outside rfl rfl rfl rfl
        fun hspins => ?_
      rcases hspins with hc | hc
      · cases hpc.symm.trans hc
      · cases hpc.symm.trans hc
  | elsewhere u status next =>
    have hpc : p.machine.pc u = .outside := henabled
    have hut : t ≠ u := by
      rintro rfl
      exact absurd (hpc.symm.trans h.pc) (by simp)
    refine ⟨⟨h.pc, ?_, h.locker, h.others, h.current⟩, fun v hv => hv⟩
    rw [Processor.next, MutexMachine.next]
    dsimp only
    rw [setWaitNext_status, setStatus_status, if_neg hut]
    exact h.status
  | switch next =>
    have hnext : t ≠ next := by
      rintro rfl
      exact henabled h.status
    refine ⟨⟨h.pc, ?_, h.locker, h.others, hnext.symm⟩, fun u hu => hu⟩
    rw [Processor.next, switchStatus]
    dsimp only
    split_ifs
    · rw [setStatus_status, if_neg hcurrent, setStatus_status, if_neg hnext]
      exact h.status
    · rw [setStatus_status, if_neg hnext]
      exact h.status

/-- When the processor leaves a task between its `setStatus` in `enqueue` and the release of the spinlock, it never
comes back to the task, and each call of `lock` or `unlock` that is in front of the spinlock stays there. It is
assumed that `reschedule` does not return to a blocked task, and that no other queue wakes a task inside a call. -/
theorem lost_for_good {p₀ : Processor τ} {es es' : List (ProcessorEvent τ)} (hinit : p₀.machine.Init)
    (hrun : Run Step p₀ es p) (hpc : p.machine.pc t = .waitFree) (hleft : p.current ≠ t) (hrun' : Run Step p es' p') :
    p'.machine.pc t = .waitFree ∧ p'.current ≠ t ∧ p'.machine.locker ≠ 0 ∧ ∀ u, p.Spins u → p'.Spins u := by
  have hasleep : ∀ (m : MutexMachine τ) e m', (Asleep m ∧ ∃ es, Run MutexMachine.Step p₀.machine es m) →
      MutexMachine.Step m e m' → Asleep m' ∧ ∃ es, Run MutexMachine.Step p₀.machine es m' := by
    rintro m e m' ⟨hm, es, hes⟩ hstep
    obtain ⟨-, a, holder, -, hrefines, -⟩ := MutexMachine.refines_run hinit hes
    exact ⟨asleep_step hrefines hm hstep, _, hes.append (.single hstep)⟩
  have hmachine : ∀ p e p', (Asleep p.machine ∧ ∃ es, Run MutexMachine.Step p₀.machine es p.machine) → Step p e p' →
      Asleep p'.machine ∧ ∃ es, Run MutexMachine.Step p₀.machine es p'.machine := by
    rintro p e p' hp hstep
    obtain ⟨es, hes⟩ := hstep.machine
    exact hes.invariant hasleep hp
  have hstart : Asleep p₀.machine := fun u hu => by
    rw [hinit.pc u] at hu
    cases hu
  obtain ⟨hall, es'', hes⟩ := hrun.invariant hmachine ⟨hstart, [], .nil _⟩
  obtain ⟨-, a, holder, -, hrefines, -⟩ := MutexMachine.refines_run hinit hes
  have hheld : holder = some t := (hrefines.held t).mp (by rw [hpc]; rfl)
  have hlost : p.Lost t := by
    refine ⟨hpc, hall t hpc, fun hzero => ?_, fun u hut => eq_false_of_ne_true fun hc => ?_, hleft⟩
    · exact Option.some_ne_none t (hheld.symm.trans (hrefines.locker.mp hzero))
    · exact hut (Option.some.inj (((hrefines.held u).mp hc).symm.trans hheld))
  have hkeep : ∀ q e q', (Lost q t ∧ ∀ u, p.Spins u → q.Spins u) → Step q e q' →
      Lost q' t ∧ ∀ u, p.Spins u → q'.Spins u := by
    rintro q e q' ⟨hq, hspins⟩ hstep
    obtain ⟨hq', hspins'⟩ := hq.step hstep
    exact ⟨hq', fun u hu => hspins' u (hspins u hu)⟩
  obtain ⟨hlost', hspins⟩ := hrun'.invariant hkeep ⟨hlost, fun u hu => hu⟩
  exact ⟨hlost'.pc, hlost'.current, hlost'.locker, hspins⟩

/-- The processor goes back to the task that has the mutex, before the one that waits has released the spinlock. -/
def leftEvents : List (ProcessorEvent ℕ) :=
  .lock :: List.replicate 4 .access ++ .switch 1 :: .lock :: List.replicate 7 .access ++ [.switch 0, .unlock]

def leftProcessor : Processor ℕ := leftEvents.foldl next ⟨MutexMachine.newMachine, 0⟩

/-- The task that has the mutex cannot unlock it. -/
theorem lost_for_good_unlock : ∃ p' : Processor ℕ, Run Step leftProcessor [.access, .access] p' ∧
    p'.machine.pc 1 = .waitFree ∧ p'.Spins 0 := by
  have hok : ∀ (p : Processor ℕ) e, decide (p.Enabled e) = true → Step p e (p.next e) :=
    fun _ _ h => ⟨of_decide_eq_true h, rfl⟩
  have hrun : Run Step ⟨MutexMachine.newMachine, 0⟩ leftEvents leftProcessor :=
    run_of_allowed (fun p e => decide (p.Enabled e)) hok (by decide +kernel)
  have hrun' : Run Step leftProcessor [.access, .access] ([.access, .access].foldl next leftProcessor) :=
    run_of_allowed (fun p e => decide (p.Enabled e)) hok (by decide +kernel)
  have hpc : leftProcessor.machine.pc 1 = .waitFree := by decide +kernel
  have hcurrent : leftProcessor.current ≠ 1 := by decide +kernel
  have hspin : leftProcessor.machine.pc 0 = .unlockSpin := by decide +kernel
  obtain ⟨hwaits, -, -, hspins⟩ := lost_for_good MutexMachine.newMachine_init hrun hpc hcurrent hrun'
  exact ⟨_, hrun', hwaits, hspins 0 (.inr hspin)⟩

end Processor

end CxxKernel.Sched
