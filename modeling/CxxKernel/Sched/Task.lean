import CxxKernel.Memory
import Mathlib.Tactic.Common

/-! Tasks as the scheduler and the mutexes see them, and the wait queues that link them. -/
namespace CxxKernel.Sched

inductive Status
  | none
  | running
  | waiting
  | blocked
  deriving DecidableEq, Repr

/-- The fields of a `Task` that scheduling reads. `waitNext` is `wait.next`, and `locked` the
value of the task's own mutex `m_m`. -/
structure Task (τ : Type*) where
  waitNext : Option τ
  status : Status
  locked : Bool
  pid : Word
  priority : Word
  nice : Word
  size : Word
  slice : Word

/-- The tasks in memory. A `WaitItem` is identified with the task it is a part of. -/
abbrev Tasks (τ : Type*) := τ → Task τ

namespace Task
variable {τ : Type*}

def setSlice (t : Task τ) (s : Word) : Task τ :=
  if t.size ≠ 0 ∧ t.size < s then { t with slice := t.size } else { t with slice := s }

@[simp] theorem setSlice_status (t : Task τ) (s : Word) : (t.setSlice s).status = t.status := by
  unfold setSlice
  split_ifs <;> rfl

@[simp] theorem setSlice_locked (t : Task τ) (s : Word) : (t.setSlice s).locked = t.locked := by
  unfold setSlice
  split_ifs <;> rfl

end Task

section Updates
variable {τ : Type*} [DecidableEq τ] (tasks : Tasks τ) (t : τ)

def setStatus (st : Status) : Tasks τ := Function.update tasks t { tasks t with status := st }

def setWaitNext (next : Option τ) : Tasks τ :=
  Function.update tasks t { tasks t with waitNext := next }

def setLocked (v : Bool) : Tasks τ := Function.update tasks t { tasks t with locked := v }

@[simp] theorem setStatus_status (st : Status) (u : τ) :
    (setStatus tasks t st u).status = if u = t then st else (tasks u).status := by
  unfold setStatus
  split_ifs with h <;> simp [h]

@[simp] theorem setStatus_waitNext (st : Status) (u : τ) :
    (setStatus tasks t st u).waitNext = (tasks u).waitNext := by
  by_cases h : u = t <;> simp [setStatus, h]

@[simp] theorem setStatus_locked (st : Status) (u : τ) :
    (setStatus tasks t st u).locked = (tasks u).locked := by
  by_cases h : u = t <;> simp [setStatus, h]

@[simp] theorem setWaitNext_status (next : Option τ) (u : τ) :
    (setWaitNext tasks t next u).status = (tasks u).status := by
  by_cases h : u = t <;> simp [setWaitNext, h]

@[simp] theorem setWaitNext_waitNext (next : Option τ) (u : τ) :
    (setWaitNext tasks t next u).waitNext = if u = t then next else (tasks u).waitNext := by
  unfold setWaitNext
  split_ifs with h <;> simp [h]

@[simp] theorem setWaitNext_locked (next : Option τ) (u : τ) :
    (setWaitNext tasks t next u).locked = (tasks u).locked := by
  by_cases h : u = t <;> simp [setWaitNext, h]

@[simp] theorem setLocked_status (v : Bool) (u : τ) :
    (setLocked tasks t v u).status = (tasks u).status := by
  by_cases h : u = t <;> simp [setLocked, h]

@[simp] theorem setLocked_locked (v : Bool) (u : τ) :
    (setLocked tasks t v u).locked = if u = t then v else (tasks u).locked := by
  unfold setLocked
  split_ifs with h <;> simp [h]

end Updates

structure Waitlist (τ : Type*) where
  head : Option τ
  tail : Option τ
  deriving DecidableEq, Repr

/-- What `Waitlist::dequeue` prints: "Dequeue empty!" or "Dequeue invalid status". -/
inductive DequeueReport
  | empty
  | invalidStatus (st : Status)
  deriving DecidableEq, Repr

namespace Waitlist
variable {τ : Type*} [DecidableEq τ]

def new : Waitlist τ := ⟨none, none⟩

def empty (w : Waitlist τ) : Bool := w.head.isNone

/-- `enqueue` by the task `current`. -/
def enqueue (w : Waitlist τ) (tasks : Tasks τ) (current : τ) : Waitlist τ × Tasks τ :=
  let tasks := setWaitNext tasks current none
  match w.tail with
  | none => (⟨some current, some current⟩, setStatus tasks current .blocked)
  | some tail =>
    (⟨w.head, some current⟩, setStatus (setWaitNext tasks tail (some current)) current .blocked)

/-- Every `WaitItem` knows its task, so the branch for a missing one is left out. -/
def dequeue (w : Waitlist τ) (tasks : Tasks τ) :
    Waitlist τ × Tasks τ × Option DequeueReport :=
  match w.head with
  | none => (w, tasks, some .empty)
  | some next =>
    let w := if w.head = w.tail then new else { w with head := (tasks next).waitNext }
    let report := if (tasks next).status ≠ .blocked then
      some (.invalidStatus (tasks next).status) else none
    (w, setStatus tasks next .waiting, report)

theorem enqueue_locked (w : Waitlist τ) (tasks : Tasks τ) (current u : τ) :
    ((w.enqueue tasks current).2 u).locked = (tasks u).locked := by
  unfold enqueue
  split <;> simp

theorem dequeue_locked (w : Waitlist τ) (tasks : Tasks τ) (u : τ) :
    ((w.dequeue tasks).2.1 u).locked = (tasks u).locked := by
  unfold dequeue
  split <;> simp

end Waitlist

end CxxKernel.Sched
