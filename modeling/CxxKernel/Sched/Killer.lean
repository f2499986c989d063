import CxxKernel.Containers.Edits
import CxxKernel.Lib.Fallible
import CxxKernel.Sched.ProcessManager

/-! The entry points of `ProcessManager` with `__scheduling_lock`, and the end of a task. -/
namespace CxxKernel.Sched
open Fallible Containers LinkedList

variable {τ ι : Type} [DecidableEq τ]

/-- `List::deleteAll` behind its first element. The element behind one that is deleted is not looked at. -/
def deleteRest (val : τ) : List τ → List τ
  | [] => []
  | [t] => if t = val then [] else [t]
  | t :: u :: rest => if t = val then u :: deleteRest val rest else t :: deleteRest val (u :: rest)

/-- `List::deleteAll`, which follows a null pointer when it deletes the first element. -/
def deleteAll (val : τ) : List τ → Option (List τ)
  | [] => some []
  | t :: rest => if t = val then none else some (t :: deleteRest val rest)

section Delete
variable {last : Option Ptr} {r : List (Ptr × Option τ)} {rest : List τ}

theorem sweep_eq (val : τ) (hr : r.map Prod.snd = rest.map some) (hnodup : (r.map Prod.fst).Nodup)
    (hlast : r ≠ [] → last = (r.map Prod.fst).getLast?) :
    (Nodes.sweep (some val) last r).1.map Prod.snd = (deleteRest val rest).map some ∧
      (Nodes.sweep (some val) last r).1.length + (Nodes.sweep (some val) last r).2 = r.length := by
  induction r using Nodes.sweep.induct (some val) last generalizing rest with
  | case1 =>
    obtain rfl : rest = [] := List.map_eq_nil_iff.mp hr.symm
    exact ⟨rfl, rfl⟩
  | case2 z hz =>
    obtain ⟨t, rest, rfl, ht, hrest⟩ := List.map_eq_cons_iff.mp hr.symm
    obtain rfl : rest = [] := List.map_eq_nil_iff.mp hrest
    obtain rfl : t = val := Option.some.inj (ht.trans hz)
    rw [Nodes.sweep, if_pos hz, deleteRest, if_pos rfl]
    exact ⟨rfl, rfl⟩
  | case3 z hz =>
    obtain ⟨t, rest, rfl, ht, hrest⟩ := List.map_eq_cons_iff.mp hr.symm
    obtain rfl : rest = [] := List.map_eq_nil_iff.mp hrest
    have hne : t ≠ val := fun heq => hz (ht.symm.trans (congrArg some heq))
    rw [Nodes.sweep, if_neg hz, deleteRest, if_neg hne]
    exact ⟨hr, rfl⟩
  | case4 z w r hz hzl =>
    -- the last of the pointers is not the first one
    have hmem : z.1 ∈ (w :: r).map Prod.fst := by
      have hend := (hlast (List.cons_ne_nil _ _)).symm.trans hzl
      rw [List.map_cons, List.map_cons, List.getLast?_cons_cons, ← List.map_cons] at hend
      exact List.mem_of_getLast? hend
    exact absurd hmem (List.nodup_cons.mp hnodup).1
  | case5 z w r hz hzl ih =>
    obtain ⟨t, rest, rfl, ht, hrest⟩ := List.map_eq_cons_iff.mp hr.symm
    obtain ⟨u, rest, rfl, hu, hrest⟩ := List.map_eq_cons_iff.mp hrest
    obtain rfl : t = val := Option.some.inj (ht.trans hz)
    have hend : r ≠ [] → last = (r.map Prod.fst).getLast? := by
      intro hne
      obtain ⟨x, r, rfl⟩ := List.exists_cons_of_ne_nil hne
      rw [hlast (List.cons_ne_nil _ _)]
      simp only [List.map_cons, List.getLast?_cons_cons]
    obtain ⟨hvalues, hlength⟩ := ih hrest.symm (List.nodup_cons.mp (List.nodup_cons.mp hnodup).2).2 hend
    rw [Nodes.sweep, if_pos hz, if_neg hzl, deleteRest, if_pos rfl]
    refine ⟨?_, ?_⟩
    · rw [List.map_cons, List.map_cons, hvalues, hu]
    · simp only [List.length_cons]
      omega
  | case6 z w r hz ih =>
    obtain ⟨t, rest, rfl, ht, hrest⟩ := List.map_eq_cons_iff.mp hr.symm
    obtain ⟨u, rest, rfl, hu, hrest'⟩ := List.map_eq_cons_iff.mp hrest
    have hne : t ≠ val := fun heq => hz (ht.symm.trans (congrArg some heq))
    have hend : last = ((w :: r).map Prod.fst).getLast? := by
      rw [hlast (List.cons_ne_nil _ _)]
      simp only [List.map_cons, List.getLast?_cons_cons]
    obtain ⟨hvalues, hlength⟩ := ih hrest.symm (List.nodup_cons.mp hnodup).2 fun _ => hend
    rw [Nodes.sweep, if_neg hz, deleteRest, if_neg hne]
    refine ⟨?_, ?_⟩
    · rw [List.map_cons, List.map_cons, hvalues, ht]
    · simp only [List.length_cons] at hlength ⊢
      omega

theorem deleteAll_holds {m : LinkedList τ} {l : List τ} (h : m.Holds l) (val : τ) :
    match deleteAll val l with
    | none => m.deleteAll ADDRESSES (some val) = none
    | some l' => ∃ m', m.deleteAll ADDRESSES (some val) = some m' ∧ m'.Holds l' := by
  obtain ⟨q, hq, hl⟩ := h
  have hlt := hq.nodes.length_lt
  cases l with
  | nil =>
    obtain rfl : q = [] := List.map_eq_nil_iff.mp hl
    refine ⟨m, ?_, [], hq, rfl⟩
    rw [LinkedList.deleteAll, hq.first_eq]
    rfl
  | cons t rest =>
    obtain ⟨y, r, rfl, hy, hr⟩ := List.map_eq_cons_iff.mp hl
    by_cases ht : t = val
    · rw [deleteAll, if_pos ht]
      exact hq.nodes.deleteAll_front (hy.trans (congrArg some ht)) ADDRESSES
    · rw [deleteAll, if_neg ht]
      have hne : y.2 ≠ some val := fun heq => ht (Option.some.inj (hy.symm.trans heq))
      have hfuel : (y :: r).length < ADDRESSES := hlt
      obtain ⟨m', hdelete, hnodes, hsize, hlast⟩ := hq.nodes.deleteAll hne hfuel
      have hnodup := (List.nodup_append.mp hq.nodup).1
      have hend : r ≠ [] → m.m_last = (r.map Prod.fst).getLast? := by
        intro hne
        obtain ⟨x, r, rfl⟩ := List.exists_cons_of_ne_nil hne
        rw [hq.last, List.map_cons, List.map_cons, List.getLast?_cons_cons]
      obtain ⟨hvalues, hlength⟩ := sweep_eq val hr (List.nodup_cons.mp hnodup).2 hend
      refine ⟨m', hdelete, _, hnodes.represents (hlast hq.last) ?_, ?_⟩
      · rw [hsize, hq.size, List.length_cons, List.length_cons, ← hlength]
        have hcount (a b : ℕ) : BitVec.ofNat 32 (a + b + 1) - BitVec.ofNat 32 b = BitVec.ofNat 32 (a + 1) := by
          rw [Nat.add_right_comm, BitVec.ofNat_add, BitVec.add_sub_cancel]
        exact hcount _ _
      · rw [List.map_cons, List.map_cons, hvalues, hy]

end Delete

/-- The `ProcessManager` and `__scheduling_lock`. `nested` records that the lock has been asked for by a caller
that has it itself. -/
structure KernelState (τ ι : Type) where
  pm : ProcessManager τ ι
  locked : Bool
  nested : Bool

/-- `Task::resetSlice` of the current task. -/
def ProcessManager.resetSlice (s : ProcessManager τ ι) : ProcessManager τ ι :=
  match s.current with
  | none => s
  | some current => { s with task := Function.update s.task current { s.task current with slice := 0 } }

namespace KernelState

def setPm (pm : ProcessManager τ ι) : Prog (KernelState τ ι) Unit := step fun s => ((), { s with pm })

/-- `Spinlock::unlock`. -/
def unlock : Prog (KernelState τ ι) Unit := step fun s => ((), { s with locked := false })

/-- `ProcessManager::yield`, with the `lock` that it calls. -/
def yieldWith (lock : Prog (KernelState τ ι) Unit) : Prog (KernelState τ ι) Unit := do
  lock
  let pm ← look fun s => some s.pm
  setPm pm.resetSlice
  unlock

/-- `Spinlock::lock`, with at most `fuel` calls of itself one in another. Each round that finds the lock taken
calls `yield`. All runs start with the lock free, so that the caller has it itself then. -/
def lock : ℕ → Prog (KernelState τ ι) Unit
  | 0 => failure
  | fuel + 1 => do
    let locked ← look fun s => some s.locked
    if locked then
      step fun s => ((), { s with nested := true })
      yieldWith (lock fuel)
      lock fuel
    else step fun s => ((), { s with locked := true })

/-- What `addTask` and `schedule` do under the lock. When the lock of the current task is taken, they go on to
`schedule`, which asks for the lock again. -/
def critical (fuel : ℕ) (f : ProcessManager τ ι → Option (ProcessManager τ ι)) :
    Prog (KernelState τ ι) Unit := do
  lock fuel
  let pm ← look fun s => some s.pm
  if pm.current.any fun current => (pm.task current).locked then
    lock fuel
    failure
  else
    let pm ← look fun _ => f pm
    setPm pm
    unlock

def addTask (fuel : ℕ) (t : τ) : Prog (KernelState τ ι) Unit := critical fuel fun pm => pm.addTask t

def schedule (fuel : ℕ) : Prog (KernelState τ ι) Unit := critical fuel fun pm => pm.schedule.map Prod.fst

def yield (fuel : ℕ) : Prog (KernelState τ ι) Unit := yieldWith (lock fuel)

def doKill (fuel : ℕ) : Prog (KernelState τ ι) Unit := do
  let pm ← look fun s => some s.pm
  match pm.current with
  | none => pure ()
  | some current =>
    lock fuel
    let pm ← look fun s => some s.pm
    let tasks ← look fun _ => deleteAll current pm.tasks
    setPm { pm with tasks }
    unlock

def killer (fuel : ℕ) : Prog (KernelState τ ι) Unit := do
  lock fuel
  doKill fuel
  unlock

/-- The entry points of `ProcessManager`. -/
inductive Entry (τ : Type)
  | addTask (t : τ)
  | schedule
  | yield
  | killer

def call (fuel : ℕ) : Entry τ → Prog (KernelState τ ι) Unit
  | .addTask t => addTask fuel t
  | .schedule => schedule fuel
  | .yield => yield fuel
  | .killer => killer fuel

/-- `killer` comes back, the current task and no other has left the tasks, and the lock is free. No entry point
asks for the lock while its caller has it. -/
structure KillLaw (s : KernelState τ ι) (current : τ) : Prop where
  ends : ∃ fuel s', Returns (killer fuel) s () s' ∧ s'.locked = false ∧
    s'.pm.tasks = s.pm.tasks.filter (· ≠ current)
  nesting : ∀ fuel (entry : Entry τ), (exec (call fuel entry) s).2.nested = false

section Nested
variable {s s' : KernelState τ ι} {u : Unit} {current : τ}

/-- A caller that has the lock itself does not get it, however often it asks. -/
theorem not_returns_lock (h : s.locked = true) (fuel : ℕ) : ¬ Returns (lock fuel) s u s' := by
  induction fuel generalizing s s' u with
  | zero => exact returns_failure
  | succ fuel ih =>
    intro hr
    rw [lock, returns_bind] at hr
    obtain ⟨locked, t, hlook, hr⟩ := hr
    obtain ⟨hlocked, rfl⟩ := returns_look.mp hlook
    obtain rfl : s.locked = locked := Option.some.inj hlocked
    rw [if_pos h, returns_bind] at hr
    obtain ⟨_, t, hstep, hr⟩ := hr
    obtain ⟨-, rfl⟩ := Prod.mk.inj (returns_step.mp hstep)
    obtain ⟨_, t, hyield, -⟩ := returns_bind.mp hr
    obtain ⟨_, t', hlock, -⟩ := returns_bind.mp hyield
    refine ih ?_ hlock
    exact h

theorem locked_of_lock {fuel : ℕ} (h : s.locked = false) (hr : Returns (lock fuel) s u s') :
    s' = { s with locked := true } := by
  cases fuel with
  | zero => exact absurd hr returns_failure
  | succ fuel =>
    rw [lock, returns_bind] at hr
    obtain ⟨locked, t, hlook, hr⟩ := hr
    obtain ⟨hlocked, rfl⟩ := returns_look.mp hlook
    obtain rfl : s.locked = locked := Option.some.inj hlocked
    rw [h, if_neg Bool.false_ne_true] at hr
    obtain ⟨-, rfl⟩ := Prod.mk.inj (returns_step.mp hr)
    rfl

/-- `killer` takes the lock, and `doKill` asks for it again. -/
theorem not_returns_killer (hcurrent : s.pm.current = some current) (h : s.locked = false) (fuel : ℕ) :
    ¬ Returns (killer fuel) s u s' := by
  intro hr
  obtain ⟨_, t, hlock, hr⟩ := returns_bind.mp hr
  obtain rfl := locked_of_lock h hlock
  obtain ⟨_, t, hkill, -⟩ := returns_bind.mp hr
  obtain ⟨pm, t', hlook, hkill⟩ := returns_bind.mp hkill
  obtain ⟨hpm, rfl⟩ := returns_look.mp hlook
  obtain rfl : s.pm = pm := Option.some.inj hpm
  rw [hcurrent] at hkill
  obtain ⟨_, t', hagain, -⟩ := returns_bind.mp hkill
  exact not_returns_lock rfl fuel hagain

def oneTask : KernelState Unit Unit where
  pm :=
    { task _ := ⟨none, .running, false, 1, 0, 0, 0, 0⟩
      waitlist _ := .new
      tasks := [()]
      current := some ()
      pid := 1
      poolSlice := 0 }
  locked := false
  nested := false

/-- The end of a task is a deadlock, whatever the tasks are. -/
theorem not_killLaw (hcurrent : s.pm.current = some current) (h : s.locked = false) : ¬ KillLaw s current := by
  rintro ⟨⟨fuel, s', hr, -⟩, -⟩
  exact not_returns_killer hcurrent h fuel hr

theorem not_killLaw_oneTask : ¬ KillLaw oneTask () := not_killLaw rfl rfl

/-- The task asks for the lock again while it has it. -/
theorem killLaw_false_oneTask : ¬ KillLaw oneTask () := by
  rintro ⟨-, hnesting⟩
  have hnested : (exec (killer 2) oneTask).2.nested = true := by decide
  have hfalse := hnesting 2 .killer
  rw [call, hnested] at hfalse
  cases hfalse

end Nested

end KernelState

end CxxKernel.Sched
