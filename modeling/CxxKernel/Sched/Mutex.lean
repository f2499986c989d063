import CxxKernel.Sched.Task
import CxxKernel.Lib.LinkedChain
import CxxKernel.Lib.Runs

/-! `BaseMutex`: a mutex that hands ownership to the first waiter. Any number of tasks call it;
what else moves them is left open. -/
namespace CxxKernel.Sched
open LinkedChain Runs

variable {τ : Type*}

section Waitlist
variable {w : Waitlist τ} {tasks : Tasks τ} {q : List τ} {a c : τ}

/-- The wait queue links exactly the tasks `q`, in this order. -/
def Waitlist.Links (w : Waitlist τ) (tasks : Tasks τ) (q : List τ) : Prop :=
  Queue (fun t => (tasks t).waitNext) w.head w.tail q

theorem Waitlist.Links.congr {tasks' : Tasks τ} (h : w.Links tasks q)
    (hn : ∀ t ∈ q, (tasks' t).waitNext = (tasks t).waitNext) : w.Links tasks' q :=
  Queue.congr h hn

theorem Waitlist.new_links (tasks : Tasks τ) : Waitlist.new.Links tasks [] :=
  ⟨rfl, rfl, List.nodup_nil⟩

variable [DecidableEq τ]

theorem Waitlist.enqueue_links (h : w.Links tasks q) (hc : c ∉ q) :
    (w.enqueue tasks c).1.Links (w.enqueue tasks c).2 (q ++ [c]) := by
  unfold enqueue
  cases htail : w.tail with
  | none =>
    unfold Links at h
    rw [htail] at h
    obtain rfl := h.eq_nil
    exact Queue.single (by simp)
  | some a =>
    have h₁ : w.Links (setWaitNext tasks c none) q :=
      h.congr fun t ht => by simp [show t ≠ c from fun he => hc (he ▸ ht)]
    have hnext : (fun t => (setWaitNext tasks c none t).waitNext) c = none := by simp
    unfold Links at h₁
    rw [htail] at h₁
    have hpush := h₁.push hc hnext
    refine Queue.congr hpush fun t _ => ?_
    by_cases hta : t = a <;> simp [hta]

theorem Waitlist.enqueue_status (w : Waitlist τ) (tasks : Tasks τ) (c u : τ) :
    ((w.enqueue tasks c).2 u).status = if u = c then .blocked else (tasks u).status := by
  unfold enqueue
  split <;> simp

theorem Waitlist.dequeue_links (h : w.Links tasks (a :: q)) :
    (w.dequeue tasks).1.Links (w.dequeue tasks).2.1 q ∧
      (∀ u, ((w.dequeue tasks).2.1 u).status = if u = a then .waiting else (tasks u).status) ∧
      ((tasks a).status = .blocked → (w.dequeue tasks).2.2 = none) := by
  have hhead : w.head = some a := Queue.head_eq h
  unfold dequeue
  rw [hhead]
  refine ⟨?_, fun u => setStatus_status _ _ _ _, fun hst => by simp [hst]⟩
  have hmeet : some a = w.tail ↔ q = [] := hhead ▸ Queue.head_eq_tail_iff h
  by_cases hq : q = []
  · subst hq
    simp only [hmeet.mpr rfl, if_true]
    exact new_links _
  · simp only [mt hmeet.mp hq, if_false]
    exact Queue.congr (Queue.pop h hq) fun t _ => setStatus_waitNext _ _ _ _

end Waitlist

variable [DecidableEq τ]

structure BaseMutex (τ : Type*) where
  value : Word
  queue : Waitlist τ

namespace BaseMutex

/-- `lock` by the task `current`; it returns at once, or goes on to `reschedule`. -/
def lock (m : BaseMutex τ) (tasks : Tasks τ) (current : τ) : BaseMutex τ × Tasks τ × Bool :=
  if m.value = 0 then ({ m with value := 1 }, tasks, true)
  else
    let (queue, tasks) := m.queue.enqueue tasks current
    ({ m with queue }, tasks, false)

def unlock (m : BaseMutex τ) (tasks : Tasks τ) :
    BaseMutex τ × Tasks τ × Option DequeueReport :=
  if m.queue.empty then ({ m with value := 0 }, tasks, none)
  else
    let (queue, tasks, report) := m.queue.dequeue tasks
    ({ m with queue }, tasks, report)

end BaseMutex

/-- The tasks around one mutex. `inside` marks the tasks between their `enqueue` and the return
of their `reschedule`, and `holds` those to which `lock` has returned and which have not unlocked
since. The lists record the tasks in the order in which they were enqueued, were dequeued and
came back from `reschedule`. -/
structure MutexState (τ : Type*) where
  task : Tasks τ
  mutex : BaseMutex τ
  inside : τ → Bool
  holds : τ → Bool
  enqueued : List τ
  woken : List τ
  returned : List τ
  reports : List DequeueReport

/-- `other` is whatever else changes a task: its scheduling, and its waits on other queues. -/
inductive MutexEvent (τ : Type*)
  | lock (t : τ)
  | resume (t : τ)
  | unlock (t : τ)
  | other (t : τ) (status : Status) (waitNext : Option τ)

namespace MutexState

/-- A task in `lock` does nothing else, `reschedule` returns to it only when it is not blocked,
only an owner unlocks, and only this mutex ends a wait on it. -/
def Enabled (s : MutexState τ) : MutexEvent τ → Prop
  | .lock t => s.inside t = false
  | .resume t => s.inside t = true ∧ (s.task t).status ≠ .blocked
  | .unlock t => s.inside t = false ∧ s.holds t = true
  | .other t status _ => s.inside t = true → (s.task t).status ≠ .blocked ∧ status ≠ .blocked

def next (s : MutexState τ) : MutexEvent τ → MutexState τ
  | .lock t =>
    let (mutex, task, done) := s.mutex.lock s.task t
    if done then { s with mutex, task, holds := Function.update s.holds t true }
    else { s with mutex, task, inside := Function.update s.inside t true,
                  enqueued := s.enqueued ++ [t] }
  | .resume t =>
    { s with inside := Function.update s.inside t false, holds := Function.update s.holds t true,
             returned := s.returned ++ [t] }
  | .unlock t =>
    let (mutex, task, report) := s.mutex.unlock s.task
    { s with mutex, task, holds := Function.update s.holds t false,
             woken := s.woken ++ s.mutex.queue.head.toList,
             reports := s.reports ++ report.toList }
  | .other t status waitNext =>
    { s with task := setWaitNext (setStatus s.task t status) t waitNext }

def Step (s : MutexState τ) (e : MutexEvent τ) (s' : MutexState τ) : Prop :=
  s.Enabled e ∧ s' = s.next e

/-- A new mutex that no task has called. -/
structure Init (s : MutexState τ) : Prop where
  mutex : s.mutex = ⟨0, .new⟩
  inside : ∀ t, s.inside t = false
  holds : ∀ t, s.holds t = false
  enqueued : s.enqueued = []
  woken : s.woken = []
  returned : s.returned = []
  reports : s.reports = []

/-- A task whose `lock` has not been answered: it is not the owner through this call. -/
def Pending (s : MutexState τ) (t : τ) : Prop :=
  s.inside t = true ∧ (s.task t).status = .blocked

/-- The mutex has been handed to the task, whose `reschedule` has not returned yet. -/
def Granted (s : MutexState τ) (t : τ) : Prop :=
  s.inside t = true ∧ (s.task t).status ≠ .blocked

def Owner (s : MutexState τ) (t : τ) : Prop := s.holds t = true ∨ s.Granted t

/-- One task at most owns the mutex, and the wait queue links the tasks that wait for it. -/
structure Inv (s : MutexState τ) (q : List τ) : Prop where
  links : s.mutex.queue.Links s.task q
  pending : ∀ t, t ∈ q ↔ s.Pending t
  free : s.mutex.value = 0 → q = [] ∧ ∀ t, ¬ s.Owner t
  owned : s.mutex.value ≠ 0 → ∃ o, ∀ t, s.Owner t ↔ t = o
  enqueued : s.enqueued = s.woken ++ q
  woken : (s.woken = s.returned ∧ ∀ t, ¬ s.Granted t) ∨
    ∃ t, s.Granted t ∧ s.woken = s.returned ++ [t]
  reports : s.reports = []

theorem Init.inv {τ : Type*} {s : MutexState τ} (h : s.Init) : s.Inv [] := by
  have hgranted : ∀ t, ¬ s.Granted t := fun t hg => by
    rw [Granted, h.inside t] at hg
    exact Bool.false_ne_true hg.1
  refine ⟨?_, fun t => ?_, fun _ => ⟨rfl, fun t ho => ?_⟩, fun hv => ?_, ?_, .inl ⟨?_, hgranted⟩,
    h.reports⟩
  · rw [h.mutex]
    exact Waitlist.new_links _
  · simp [Pending, h.inside t]
  · rcases ho with hh | hg
    · rw [h.holds t] at hh
      cases hh
    · exact hgranted t hg
  · rw [h.mutex] at hv
    exact absurd rfl hv
  · rw [h.enqueued, h.woken]
    rfl
  · rw [h.woken, h.returned]

section Steps
variable {s : MutexState τ} {q : List τ} {t : τ}

theorem lock_free_inv (h : s.Inv q) (he : s.inside t = false) (hv : s.mutex.value = 0) :
    (s.next (.lock t)).Inv q := by
  obtain ⟨hq, hno⟩ := h.free hv
  have hnext : s.next (.lock t) = { s with mutex := { s.mutex with value := 1 },
                                           holds := Function.update s.holds t true } := by
    simp [next, BaseMutex.lock, hv]
  rw [hnext]
  refine ⟨h.links, h.pending, fun hc => absurd hc (by decide : (1 : Word) ≠ 0), fun _ => ⟨t, fun u => ?_⟩,
    h.enqueued, h.woken, h.reports⟩
  constructor
  · rintro (hh | hg)
    · by_contra hut
      have hh' : s.holds u = true := by simpa [hut] using hh
      exact hno u (.inl hh')
    · exact absurd (.inr hg) (hno u)
  · rintro rfl
    exact .inl (Function.update_self ..)

theorem lock_wait_inv (h : s.Inv q) (he : s.inside t = false) (hv : s.mutex.value ≠ 0) :
    (s.next (.lock t)).Inv (q ++ [t]) := by
  have htq : t ∉ q := fun hc => by
    have hp := ((h.pending t).mp hc).1
    rw [he] at hp
    cases hp
  let r := s.mutex.queue.enqueue s.task t
  have hnext : s.next (.lock t) =
      { s with mutex := { s.mutex with queue := r.1 }, task := r.2,
               inside := Function.update s.inside t true, enqueued := s.enqueued ++ [t] } := by
    have hlock : s.mutex.lock s.task t = ({ s.mutex with queue := r.1 }, r.2, false) := if_neg hv
    simp only [next, hlock, Bool.false_eq_true, if_false]
  have hstatus : ∀ u, (r.2 u).status = if u = t then .blocked else (s.task u).status :=
    s.mutex.queue.enqueue_status s.task t
  rw [hnext]
  -- the caller is not the owner through the call that waits
  have hgranted : ∀ u, Granted { s with
      mutex := { s.mutex with queue := r.1 }, task := r.2,
      inside := Function.update s.inside t true, enqueued := s.enqueued ++ [t] } u ↔
        s.Granted u := by
    intro u
    by_cases hut : u = t
    · simp [Granted, hstatus, hut, he]
    · simp [Granted, hstatus, hut]
  have howner : ∀ u, Owner { s with
      mutex := { s.mutex with queue := r.1 }, task := r.2,
      inside := Function.update s.inside t true, enqueued := s.enqueued ++ [t] } u ↔
        s.Owner u := fun u => or_congr_right (hgranted u)
  obtain ⟨o, ho⟩ := h.owned hv
  refine ⟨Waitlist.enqueue_links h.links htq, fun u => ?_, fun hc => absurd hc hv,
    fun _ => ⟨o, fun u => (howner u).trans (ho u)⟩, ?_, ?_, h.reports⟩
  · by_cases hut : u = t
    · simp [Pending, hstatus, hut]
    · have hp := h.pending u
      simpa [Pending, hstatus, hut] using hp
  · change s.enqueued ++ [t] = s.woken ++ (q ++ [t])
    rw [h.enqueued, List.append_assoc]
  · simp only [hgranted]
    exact h.woken

theorem resume_inv (h : s.Inv q) (he : s.Granted t) : (s.next (.resume t)).Inv q := by
  have hv : s.mutex.value ≠ 0 := fun hc => (h.free hc).2 t (.inr he)
  obtain ⟨o, ho⟩ := h.owned hv
  obtain rfl : t = o := (ho t).mp (.inr he)
  have hunique : ∀ u, s.Granted u → u = t := fun u hg => (ho u).mp (.inr hg)
  have hgranted : ∀ u, ¬ (s.next (.resume t)).Granted u := by
    rintro u ⟨hin, hst⟩
    by_cases hut : u = t
    · simp [next, hut] at hin
    · have hin' : s.inside u = true := by simpa [next, hut] using hin
      exact hut (hunique u ⟨hin', hst⟩)
  refine ⟨h.links, fun u => ?_, fun hc => absurd hc hv, fun _ => ⟨t, fun u => ?_⟩, h.enqueued,
    .inl ⟨?_, hgranted⟩, h.reports⟩
  · rw [h.pending]
    by_cases hut : u = t
    · simp [Pending, next, hut, he.2]
    · simp [Pending, next, hut]
  · constructor
    · rintro (hh | hg)
      · by_contra hut
        have hh' : s.holds u = true := by simpa [next, hut] using hh
        exact hut ((ho u).mp (.inl hh'))
      · exact absurd hg (hgranted u)
    · rintro rfl
      exact .inl (Function.update_self ..)
  · rcases h.woken with ⟨-, hnone⟩ | ⟨u, hu, hw⟩
    · exact absurd he (hnone t)
    · rw [hunique u hu] at hw
      exact hw

theorem unlock_last_inv (h : s.Inv []) (hin : s.inside t = false) (hh : s.holds t = true) :
    (s.next (.unlock t)).Inv [] := by
  have hhead : s.mutex.queue.head = none := Queue.head_eq h.links
  have hv : s.mutex.value ≠ 0 := fun hc => (h.free hc).2 t (.inl hh)
  obtain ⟨o, ho⟩ := h.owned hv
  obtain rfl : t = o := (ho t).mp (.inl hh)
  have hnext : s.next (.unlock t) = { s with mutex := { s.mutex with value := 0 },
                                             holds := Function.update s.holds t false } := by
    simp [next, BaseMutex.unlock, Waitlist.empty, hhead]
  rw [hnext]
  have hno : ∀ u, ¬ Owner { s with mutex := { s.mutex with value := 0 },
                                   holds := Function.update s.holds t false } u := by
    rintro u (hu | hg)
    · by_cases hut : u = t
      · simp [hut] at hu
      · have hu' : s.holds u = true := by simpa [hut] using hu
        exact hut ((ho u).mp (.inl hu'))
    · obtain rfl := (ho u).mp (.inr hg)
      rw [Granted, hin] at hg
      exact Bool.false_ne_true hg.1
  exact ⟨h.links, h.pending, fun _ => ⟨rfl, hno⟩, fun hc => absurd rfl hc, h.enqueued, h.woken,
    h.reports⟩

theorem unlock_handover_inv {a : τ} (h : s.Inv (a :: q)) (hin : s.inside t = false)
    (hh : s.holds t = true) : (s.next (.unlock t)).Inv q := by
  have hhead : s.mutex.queue.head = some a := Queue.head_eq h.links
  have hv : s.mutex.value ≠ 0 := fun hc => (h.free hc).2 t (.inl hh)
  obtain ⟨o, ho⟩ := h.owned hv
  obtain rfl : t = o := (ho t).mp (.inl hh)
  obtain ⟨hain, hast⟩ := (h.pending a).mp List.mem_cons_self
  have hat : a ≠ t := by
    rintro rfl
    rw [hin] at hain
    cases hain
  obtain ⟨hlinks, hstatus, hreport⟩ := Waitlist.dequeue_links h.links
  let r := s.mutex.queue.dequeue s.task
  have hnext : s.next (.unlock t) =
      { s with mutex := { s.mutex with queue := r.1 }, task := r.2.1,
               holds := Function.update s.holds t false, woken := s.woken ++ [a] } := by
    simp [next, BaseMutex.unlock, Waitlist.empty, hhead, r, hreport hast]
  rw [hnext]
  -- the one task to which the mutex passes is the head of the queue
  have hgranted : ∀ u, Granted { s with
      mutex := { s.mutex with queue := r.1 }, task := r.2.1,
      holds := Function.update s.holds t false, woken := s.woken ++ [a] } u ↔ u = a := by
    intro u
    by_cases hua : u = a
    · simp [Granted, r, hstatus, hua, hain]
    · simp only [Granted, r, hstatus, hua, if_false, iff_false]
      intro hg
      obtain rfl := (ho u).mp (.inr hg)
      exact Bool.false_ne_true (hin ▸ hg.1)
  have hnodup : a ∉ q := (List.nodup_cons.mp (Queue.nodup h.links)).1
  refine ⟨hlinks, fun u => ?_, fun hc => absurd hc hv, fun _ => ⟨a, fun u => ?_⟩, ?_,
    .inr ⟨a, (hgranted a).mpr rfl, ?_⟩, h.reports⟩
  · by_cases hua : u = a
    · simp [Pending, r, hstatus, hua, hnodup]
    · have hp := h.pending u
      simpa [Pending, r, hstatus, hua] using hp
  · constructor
    · rintro (hu | hg)
      · by_cases hut : u = t
        · simp [hut] at hu
        · have hu' : s.holds u = true := by simpa [hut] using hu
          exact absurd ((ho u).mp (.inl hu')) hut
      · exact (hgranted u).mp hg
    · exact fun hu => .inr ((hgranted u).mpr hu)
  · change s.enqueued = s.woken ++ [a] ++ q
    rw [h.enqueued, List.append_assoc]
    rfl
  · rcases h.woken with ⟨hw, -⟩ | ⟨u, hu, -⟩
    · change s.woken ++ [a] = s.returned ++ [a]
      rw [hw]
    · obtain rfl := (ho u).mp (.inr hu)
      exact absurd hu.1 (by simp [hin])

theorem other_inv {status : Status} {waitNext : Option τ} (h : s.Inv q)
    (he : s.inside t = true → (s.task t).status ≠ .blocked ∧ status ≠ .blocked) :
    (s.next (.other t status waitNext)).Inv q := by
  have htq : t ∉ q := fun hc => by
    obtain ⟨hin, hst⟩ := (h.pending t).mp hc
    exact (he hin).1 hst
  have hstatus : ∀ u, ((s.next (.other t status waitNext)).task u).status =
      if u = t then status else (s.task u).status := by simp [next]
  have hblocked : ∀ u, s.inside u = true →
      (((s.next (.other t status waitNext)).task u).status = .blocked ↔
        (s.task u).status = .blocked) := by
    intro u hin
    rw [hstatus]
    by_cases hut : u = t
    · subst hut
      rw [if_pos rfl]
      exact iff_of_false (he hin).2 (he hin).1
    · rw [if_neg hut]
  have hpending : ∀ u, (s.next (.other t status waitNext)).Pending u ↔ s.Pending u :=
    fun u => and_congr_right fun hin => hblocked u hin
  have hgranted : ∀ u, (s.next (.other t status waitNext)).Granted u ↔ s.Granted u :=
    fun u => and_congr_right fun hin => not_congr (hblocked u hin)
  have howner : ∀ u, (s.next (.other t status waitNext)).Owner u ↔ s.Owner u :=
    fun u => or_congr_right (hgranted u)
  refine ⟨h.links.congr fun u hu => ?_, fun u => (h.pending u).trans (hpending u).symm,
    fun hv => ?_, fun hv => ?_, h.enqueued, ?_, h.reports⟩
  · have hut : u ≠ t := fun hc => htq (hc ▸ hu)
    simp [next, hut]
  · simp only [howner]
    exact h.free hv
  · simp only [howner]
    exact h.owned hv
  · simp only [hgranted]
    exact h.woken

theorem step_inv {s' : MutexState τ} {e : MutexEvent τ} (h : s.Inv q) (hstep : Step s e s') :
    ∃ q', s'.Inv q' := by
  obtain ⟨he, rfl⟩ := hstep
  cases e with
  | lock t =>
    by_cases hv : s.mutex.value = 0
    · exact ⟨q, lock_free_inv h he hv⟩
    · exact ⟨q ++ [t], lock_wait_inv h he hv⟩
  | resume t => exact ⟨q, resume_inv h he⟩
  | unlock t =>
    cases q with
    | nil => exact ⟨[], unlock_last_inv h he.1 he.2⟩
    | cons a q => exact ⟨q, unlock_handover_inv h he.1 he.2⟩
  | other t status waitNext => exact ⟨q, other_inv h he⟩

end Steps

section Runs
variable {s : MutexState τ}

/-- Mutual exclusion and the hand-over. Of the tasks that were enqueued, in this order, some have
come back from `lock`, at most one has been given the mutex and is on its way, and the rest is
what the wait queue links. -/
structure Safe (s : MutexState τ) : Prop where
  unique : ∀ t u, s.Owner t → s.Owner u → t = u
  value : s.mutex.value ≠ 0 ↔ ∃ t, s.Owner t
  waiters : ∃ granted q, s.enqueued = s.returned ++ granted ++ q ∧
    s.woken = s.returned ++ granted ∧ granted.length ≤ 1 ∧ (∀ t, t ∈ granted ↔ s.Granted t) ∧
    s.mutex.queue.Links s.task q ∧ ∀ t, t ∈ q ↔ s.inside t = true ∧ ¬ s.Granted t
  reports : s.reports = []

theorem Inv.safe {τ : Type*} {s : MutexState τ} {q : List τ} (h : s.Inv q) : s.Safe := by
  have hunique : ∀ t u, s.Owner t → s.Owner u → t = u := by
    intro t u ht hu
    have hv : s.mutex.value ≠ 0 := fun hc => (h.free hc).2 t ht
    obtain ⟨o, ho⟩ := h.owned hv
    rw [(ho t).mp ht, (ho u).mp hu]
  have hpending : ∀ t, s.Pending t ↔ s.inside t = true ∧ ¬ s.Granted t := by
    intro t
    unfold Pending Granted
    grind
  refine ⟨hunique, ⟨fun hv => ?_, ?_⟩, ?_, h.reports⟩
  · obtain ⟨o, ho⟩ := h.owned hv
    exact ⟨o, (ho o).mpr rfl⟩
  · rintro ⟨t, ht⟩ hc
    exact (h.free hc).2 t ht
  · have hwaits : ∀ t, t ∈ q ↔ s.inside t = true ∧ ¬ s.Granted t :=
      fun t => (h.pending t).trans (hpending t)
    rcases h.woken with ⟨hw, hnone⟩ | ⟨g, hg, hw⟩
    · refine ⟨[], q, ?_, ?_, Nat.zero_le 1, fun t => ?_, h.links, hwaits⟩
      · rw [h.enqueued, hw, List.append_nil]
      · rw [hw, List.append_nil]
      · simp [hnone t]
    · refine ⟨[g], q, ?_, hw, Nat.le_refl 1, fun t => ?_, h.links, hwaits⟩
      · rw [h.enqueued, hw]
      · rw [List.mem_singleton]
        constructor
        · rintro rfl
          exact hg
        · exact fun ht => hunique t g (.inr ht) (.inr hg)

end Runs

end MutexState

end CxxKernel.Sched
