import CxxKernel.Sched.Task
import CxxKernel.Lib.Runs

/-! `ProcessManager`: `addTask` and `schedule` with the list of tasks they rotate. A result `none`
says that the source does not come back: it follows a null pointer, hangs on purpose, or sleeps
on the lock of a task. -/
namespace CxxKernel.Sched

def MAX_PRIORITY : Word := 20
def KERNEL_FREQUENCY : Word := 1000
def SCHEDULING_GRANULARITY : Word := KERNEL_FREQUENCY >>> 1
def SCHEDULING_GRANULARITY_MIN : Word := KERNEL_FREQUENCY / 50

/-- The tasks, any number of wait queues, and the fields of the `ProcessManager`. -/
structure ProcessManager (τ ι : Type*) where
  task : Tasks τ
  waitlist : ι → Waitlist τ
  tasks : List τ
  current : Option τ
  pid : Word
  poolSlice : Word

/-- What the search of `schedule` comes to. -/
inductive Choice (τ : Type*)
  | empty
  | alone
  | switch (next : τ)

/-- `List::rotateFirstLast`. -/
def rotateFirstLast {τ : Type*} : List τ → List τ
  | [] => []
  | a :: l => l ++ [a]

namespace ProcessManager
variable {τ ι : Type*} [DecidableEq τ] [DecidableEq ι] (s : ProcessManager τ ι)

def testLock (t : τ) : Option (ProcessManager τ ι) :=
  if (s.task t).locked then none else some { s with task := setLocked s.task t true }

/-- `Task::unlock`; nobody sleeps on the lock of a task. -/
def unlock (t : τ) : ProcessManager τ ι := { s with task := setLocked s.task t false }

def scheduleLoop : ℕ → τ → List τ → Option (Choice τ × List τ)
  | 0, _, _ => none
  | fuel + 1, next, tasks =>
    if (s.task next).status = .blocked then
      match tasks.head? with
      | none => some (.empty, tasks)
      | some first =>
        if some first = s.current then some (.alone, tasks)
        else scheduleLoop fuel first (rotateFirstLast tasks)
    else some (.switch next, tasks)

/-- The search for the next task, with the rotated list it leaves. -/
def choose : Option (Choice τ × List τ) :=
  match s.tasks.head? with
  | none => some (.empty, s.tasks)
  | some next =>
    if some next = s.current then some (.alone, s.tasks)
    else s.scheduleLoop s.tasks.length next (rotateFirstLast s.tasks)

/-- The slice for `next`. -/
def slice (next : τ) : Word :=
  let approx := MAX_PRIORITY - (s.task next).priority + (s.task next).nice
  let approx := if approx = 0 then approx + 1 else approx
  let size := BitVec.ofNat 32 s.tasks.length
  let slice := if 0 < size then SCHEDULING_GRANULARITY / size / approx
    else SCHEDULING_GRANULARITY / approx
  if slice < SCHEDULING_GRANULARITY_MIN then SCHEDULING_GRANULARITY_MIN else slice

/-- The end of `schedule`: leave `current` for `next`. The call of `schedule` that comes back is
the one `next` left from, and the locks it releases are free by then. -/
def switchTo (current next : τ) : Option (ProcessManager τ ι) :=
  (({ s with current := some next } : ProcessManager τ ι).testLock next).map fun s =>
    let task := setStatus s.task next .running
    let task := if (task current).status ≠ .blocked then setStatus task current .waiting else task
    let s := { s with task }
    let slice := s.slice next
    let task := Function.update s.task next ((s.task next).setSlice slice)
    (({ s with task, poolSlice := slice } : ProcessManager τ ι).unlock next).unlock current

/-- Carry out the choice: stay with `current`, or switch. -/
def carryOut (current : τ) : Choice τ → Option (ProcessManager τ ι × Option τ)
  | .empty => some (s.unlock current, none)
  | .alone => some (s.unlock current, some current)
  | .switch next => (s.switchTo current next).map fun s => (s, some next)

/-- The new state, and the pointer that the call returns to the task that runs on. -/
def schedule : Option (ProcessManager τ ι × Option τ) :=
  match s.current with
  | none => none
  | some current =>
    (s.testLock current).bind fun s =>
      s.choose.bind fun (choice, tasks) => { s with tasks }.carryOut current choice

/-- A task without a process number gets the next one. -/
def givePid (t : τ) : ProcessManager τ ι :=
  if (s.task t).pid = 0 then
    { s with pid := s.pid + 1,
             task := Function.update s.task t { s.task t with pid := s.pid + 1 } }
  else s

/-- The new task runs at once; the old one goes on after its next turn. -/
def addTask (t : τ) : Option (ProcessManager τ ι) :=
  match s.current with
  | none => some { s.givePid t with tasks := s.tasks ++ [t], current := some t }
  | some current => (s.testLock current).map fun s =>
      { (s.givePid t).unlock current with tasks := s.tasks ++ [t], current := some t }

/-- `Waitlist::enqueue` on the queue `i`, by the running task. -/
def enqueue (i : ι) : Option (ProcessManager τ ι) :=
  s.current.map fun current =>
    let (w, task) := (s.waitlist i).enqueue s.task current
    { s with waitlist := Function.update s.waitlist i w, task }

/-- `Waitlist::dequeue` on the queue `i`. -/
def dequeue (i : ι) : ProcessManager τ ι :=
  let (w, task, _) := (s.waitlist i).dequeue s.task
  { s with waitlist := Function.update s.waitlist i w, task }

inductive Op (τ ι : Type*)
  | addTask (t : τ)
  | schedule
  | enqueue (i : ι)
  | dequeue (i : ι)

def exec : Op τ ι → Option (ProcessManager τ ι)
  | .addTask t => s.addTask t
  | .schedule => s.schedule.map Prod.fst
  | .enqueue i => s.enqueue i
  | .dequeue i => some (s.dequeue i)

def Step (s : ProcessManager τ ι) (op : Op τ ι) (s' : ProcessManager τ ι) : Prop :=
  s.exec op = some s'

/-- No task has been added, and every task is as its constructor leaves it. -/
structure Init (s : ProcessManager τ ι) : Prop where
  tasks : s.tasks = []
  current : s.current = none
  waitlist : ∀ i, s.waitlist i = .new
  status : ∀ t, (s.task t).status = .waiting
  locked : ∀ t, (s.task t).locked = false

end ProcessManager

end CxxKernel.Sched
