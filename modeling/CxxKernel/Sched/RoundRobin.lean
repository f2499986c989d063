import CxxKernel.Sched.Progress
import CxxKernel.Containers.Sequence
import Mathlib.Data.List.Rotate

/-! The turns of the tasks when none of them is blocked. -/
namespace CxxKernel.Sched
open Containers LinkedList

theorem rotateFirstLast_eq {τ : Type*} (l : List τ) : rotateFirstLast l = l.rotate 1 := by
  cases l with
  | nil => rfl
  | cons a l =>
    rw [List.rotate_cons_succ, List.rotate_zero]
    rfl

/-- The list of tasks is the sequence of the values in a `LinkedList`. -/
theorem rotateFirstLast_onSequence {τ : Type} (l : List τ) :
    ListOp.rotateFirstLast.onSequence (l.map some) = (.unit, (rotateFirstLast l).map some) := by
  cases l with
  | nil => rfl
  | cons a l =>
    rw [rotateFirstLast, List.map_append]
    rfl

namespace ProcessManager
open Runs

variable {τ ι : Type*} [DecidableEq τ] {s s' : ProcessManager τ ι} {a c : τ} {l : List τ}

/-- No task has been added, and none is locked. -/
structure Start (s : ProcessManager τ ι) : Prop where
  tasks : s.tasks = []
  current : s.current = none
  locked : ∀ t, (s.task t).locked = false

/-- The tasks are added one by one, and each is new and not blocked. `schedule` may run in between. -/
def Adds (s : ProcessManager τ ι) (op : Op τ ι) (_ : ProcessManager τ ι) : Prop :=
  match op with
  | .addTask t => t ∉ s.tasks ∧ (s.task t).status ≠ .blocked
  | .schedule => True
  | _ => False

/-- The tasks are different and not blocked, and the last one runs. -/
structure Rotating (s : ProcessManager τ ι) : Prop where
  unlocked : ∀ t, (s.task t).locked = false
  nodup : s.tasks.Nodup
  current : s.current = s.tasks.getLast?
  status : ∀ t ∈ s.tasks, (s.task t).status ≠ .blocked

theorem Start.rotating {τ ι : Type*} {s : ProcessManager τ ι} (h : Start s) : Rotating s where
  unlocked := h.locked
  nodup := h.tasks ▸ List.nodup_nil
  current := by rw [h.current, h.tasks]; rfl
  status t ht := absurd (h.tasks ▸ ht) List.not_mem_nil

theorem givePid_task (s : ProcessManager τ ι) (t u : τ) :
    ((s.givePid t).task u).locked = (s.task u).locked ∧
      ((s.givePid t).task u).status = (s.task u).status := by
  unfold givePid
  split_ifs
  · by_cases hut : u = t
    · rw [hut]
      simp
    · simp [hut]
  · exact ⟨rfl, rfl⟩

theorem Rotating.addTask (h : Rotating s) (hnew : a ∉ s.tasks) (ha : (s.task a).status ≠ .blocked)
    (hs' : s.addTask a = some s') : Rotating s' := by
  have hnodup : (s.tasks ++ [a]).Nodup := by
    rw [← List.concat_eq_append]
    exact h.nodup.concat hnew
  have hlast : some a = (s.tasks ++ [a]).getLast? := List.getLast?_concat.symm
  have hstatus : ∀ t ∈ s.tasks ++ [a], (s.task t).status ≠ .blocked := by
    intro t ht
    rcases List.mem_append.mp ht with ht | ht
    · exact h.status t ht
    · rw [List.mem_singleton.mp ht]
      exact ha
  unfold ProcessManager.addTask at hs'
  split at hs'
  · obtain rfl := Option.some.inj hs'
    refine ⟨fun t => ?_, hnodup, hlast, fun t ht => ?_⟩
    · exact (givePid_task s a t).1.trans (h.unlocked t)
    · rw [show _ = _ from (givePid_task s a t).2]
      exact hstatus t ht
  · rename_i c _
    rw [testLock_of_unlocked (h.unlocked c), Option.map_some] at hs'
    obtain rfl := Option.some.inj hs'
    refine ⟨fun t => ?_, hnodup, hlast, fun t ht => ?_⟩
    · by_cases htc : t = c
      · simp [unlock, htc]
      · simp [unlock, htc, givePid_task, h.unlocked t]
    · have ht' := hstatus t ht
      simpa [unlock, givePid_task] using ht'

theorem switchTo_status (hs' : s.switchTo c a = some s') {t : τ} (ht : (s.task t).status ≠ .blocked) :
    (s'.task t).status ≠ .blocked := by
  obtain ⟨s₁, hlock, rfl⟩ := Option.map_eq_some_iff.mp hs'
  have hstatus : (s₁.task t).status = (s.task t).status := by
    unfold testLock at hlock
    split_ifs at hlock
    obtain rfl := Option.some.inj hlock
    exact setLocked_status ..
  simp only [unlock, setLocked_status]
  by_cases hta : t = a
  · rw [hta, Function.update_self, Task.setSlice_status]
    split_ifs
    · rw [setStatus_status]
      split_ifs
      · decide
      · rw [setStatus_status, if_pos rfl]
        decide
    · rw [setStatus_status, if_pos rfl]
      decide
  · rw [Function.update_of_ne hta]
    split_ifs
    · rw [setStatus_status]
      split_ifs
      · decide
      · rw [setStatus_status, if_neg hta, hstatus]
        exact ht
    · rw [setStatus_status, if_neg hta, hstatus]
      exact ht

theorem Rotating.schedule (h : Rotating s) (htasks : s.tasks = a :: l) (hl : l ≠ []) :
    ∃ s', s.schedule = some (s', some a) ∧ s'.tasks = l ++ [a] ∧ s'.current = some a ∧ Rotating s' := by
  obtain ⟨c, hc⟩ := Option.ne_none_iff_exists'.mp (List.getLast?_eq_none_iff.not.mpr hl)
  have hcur : s.current = some c := by
    rw [h.current, htasks, List.getLast?_cons_of_ne_nil hl, hc]
  have hac : a ≠ c := by
    rintro rfl
    have hnodup := h.nodup
    rw [htasks] at hnodup
    exact (List.nodup_cons.mp hnodup).1 (List.mem_of_getLast? hc)
  have ha : (s.task a).status ≠ .blocked := h.status a (htasks ▸ List.mem_cons_self)
  let s₁ : ProcessManager τ ι := { s with task := setLocked s.task c true }
  have hchoose : s₁.choose = some (.switch a, l ++ [a]) := by
    have hhead : s₁.tasks.head? = some a := congrArg List.head? htasks
    have hrotate : rotateFirstLast s₁.tasks = l ++ [a] := congrArg rotateFirstLast htasks
    have hne : some a ≠ s₁.current := fun heq => hac (Option.some.inj (heq.trans hcur))
    have hlen : s₁.tasks.length = l.length + 1 := congrArg List.length htasks
    have hstatus : ¬ (s₁.task a).status = .blocked := by
      rw [setLocked_status]
      exact ha
    rw [choose, hhead]
    dsimp only
    rw [if_neg hne, hlen, hrotate, scheduleLoop, if_neg hstatus]
  have hlocked : ∀ t, t ≠ c → (s₁.task t).locked = false := by
    intro t htc
    simp [s₁, htc, h.unlocked t]
  obtain ⟨s', hs', hcur', htasks', hunlocked, -⟩ :=
    switchTo_spec (s := { s₁ with tasks := l ++ [a] }) hlocked hac
  have hperm : (l ++ [a]).Perm s.tasks := htasks ▸ List.perm_append_singleton a l
  refine ⟨s', ?_, htasks', hcur', hunlocked, ?_, ?_, fun t ht => ?_⟩
  · unfold ProcessManager.schedule
    rw [hcur]
    dsimp only
    rw [testLock_of_unlocked (h.unlocked c), Option.bind_some, hchoose, Option.bind_some]
    exact congrArg (Option.map _) hs'
  · rw [htasks']
    exact hperm.nodup_iff.mpr h.nodup
  · rw [hcur', htasks', List.getLast?_concat]
  · rw [htasks'] at ht
    apply switchTo_status hs'
    rw [setLocked_status]
    exact h.status t (hperm.mem_iff.mp ht)

theorem Rotating.schedule_alone (h : Rotating s) (htasks : s.tasks = [c]) :
    ∃ s', s.schedule = some (s', some c) ∧ s'.tasks = [c] ∧ Rotating s' := by
  have hcur : s.current = some c := by
    rw [h.current, htasks]
    rfl
  let s₁ : ProcessManager τ ι := { s with task := setLocked s.task c true }
  have hchoose : s₁.choose = some (.alone, s.tasks) := by
    have hhead : s₁.tasks.head? = some c := congrArg List.head? htasks
    rw [choose, hhead]
    exact if_pos hcur.symm
  refine ⟨s₁.unlock c, ?_, htasks, fun t => ?_, h.nodup, h.current, fun t ht => ?_⟩
  · unfold ProcessManager.schedule
    rw [hcur]
    dsimp only
    rw [testLock_of_unlocked (h.unlocked c), Option.bind_some, hchoose]
    rfl
  · simp [unlock, s₁, h.unlocked t]
  · have hst := h.status t ht
    simpa [unlock, s₁] using hst

section Reachable
variable [DecidableEq ι]

theorem rotating_step {op : Op τ ι} (h : Rotating s) (hstep : Guarded Step Adds s op s') : Rotating s' := by
  obtain ⟨hexec, hadds⟩ := hstep
  cases op with
  | addTask t => exact h.addTask hadds.1 hadds.2 hexec
  | schedule =>
    obtain ⟨⟨s'', r⟩, hs'', rfl⟩ := Option.map_eq_some_iff.mp hexec
    match htasks : s.tasks with
    | [] =>
      have hcur : s.current = none := by
        rw [h.current, htasks]
        rfl
      rw [ProcessManager.schedule, hcur] at hs''
      cases hs''
    | [c] =>
      obtain ⟨s₁, hs₁, -, hrot⟩ := h.schedule_alone htasks
      obtain ⟨rfl, -⟩ := Prod.mk.inj (Option.some.inj (hs₁.symm.trans hs''))
      exact hrot
    | a :: b :: l =>
      obtain ⟨s₁, hs₁, -, -, hrot⟩ := h.schedule htasks (List.cons_ne_nil b l)
      obtain ⟨rfl, -⟩ := Prod.mk.inj (Option.some.inj (hs₁.symm.trans hs''))
      exact hrot
  | enqueue i => exact hadds.elim
  | dequeue i => exact hadds.elim

theorem rotating_of_reachable (h : Reachable (Guarded Step Adds) (@Start τ ι) s) : Rotating s :=
  h.invariant (fun _ hs => hs.rotating) fun _ _ _ hs hstep => rotating_step hs hstep

end Reachable

/-- A call of `schedule` that makes `t` the current task. -/
def Turn (s : ProcessManager τ ι) (t : τ) (s' : ProcessManager τ ι) : Prop :=
  s.schedule.map Prod.fst = some s' ∧ s'.current = some t

theorem Rotating.turn_step {t : τ} (h : Rotating s) (hlen : 2 ≤ s.tasks.length) (hturn : Turn s t s') :
    s'.tasks = s.tasks.rotate 1 ∧ Rotating s' := by
  match htasks : s.tasks with
  | [] =>
    rw [htasks] at hlen
    exact absurd hlen (Nat.not_succ_le_zero 1)
  | [c] =>
    rw [htasks] at hlen
    exact absurd hlen (Nat.not_succ_le_self 1)
  | a :: b :: l =>
    obtain ⟨s₁, hs₁, htasks', -, hrot⟩ := h.schedule htasks (List.cons_ne_nil b l)
    have hs' := hturn.1
    rw [hs₁] at hs'
    obtain rfl := Option.some.inj hs'
    refine ⟨?_, hrot⟩
    rw [htasks', ← rotateFirstLast_eq]
    rfl

theorem Rotating.turn_run {us : List τ} (h : Rotating s) (hlen : 2 ≤ s.tasks.length) (hrun : Run Turn s us s') :
    s'.tasks = s.tasks.rotate us.length ∧ Rotating s' := by
  induction hrun with
  | nil s => exact ⟨(List.rotate_zero _).symm, h⟩
  | cons hturn hrest ih =>
    obtain ⟨htasks, hrot⟩ := h.turn_step hlen hturn
    obtain ⟨htasks', hrot'⟩ := ih hrot (by rw [htasks, List.length_rotate]; exact hlen)
    refine ⟨?_, hrot'⟩
    rw [htasks', htasks, List.rotate_rotate, Nat.add_comm, List.length_cons]

/-- The tasks in front get their turns first, in the order of the list. -/
theorem Rotating.turns {p r : List τ} (h : Rotating s) (htasks : s.tasks = p ++ r) (hlen : 2 ≤ (p ++ r).length) :
    ∃ s', Run Turn s p s' ∧ s'.tasks = r ++ p ∧ Rotating s' := by
  induction p generalizing s r with
  | nil => exact ⟨s, .nil s, by rw [htasks, List.append_nil]; rfl, h⟩
  | cons a p ih =>
    have hl : p ++ r ≠ [] := by
      rintro hnil
      rw [List.cons_append, hnil] at hlen
      exact absurd hlen (by simp)
    obtain ⟨s₁, hs₁, htasks₁, hcur₁, hrot₁⟩ := h.schedule htasks hl
    have htasks₁ : s₁.tasks = p ++ (r ++ [a]) := htasks₁.trans (List.append_assoc ..)
    have hlen₁ : 2 ≤ (p ++ (r ++ [a])).length := by
      rw [← List.append_assoc, List.length_append, List.length_singleton]
      exact hlen
    obtain ⟨s', hrun, htasks', hrot'⟩ := ih hrot₁ htasks₁ hlen₁
    refine ⟨s', .cons ⟨congrArg (Option.map Prod.fst) hs₁, hcur₁⟩ hrun, ?_, hrot'⟩
    rw [htasks', List.append_assoc]
    rfl

/-- Whatever turns have been taken, the list is rotated by their number and the last task runs. As
many calls as there are tasks then give each task of the list its turn, in the order of the list, and
bring the list back. -/
theorem roundRobin [DecidableEq ι] {us : List τ} (h : Reachable (Guarded Step Adds) (@Start τ ι) s)
    (hlen : 2 ≤ s.tasks.length) (hrun : Run Turn s us s') :
    s'.tasks = s.tasks.rotate us.length ∧ s'.tasks.Perm s.tasks ∧ s'.tasks.Nodup ∧
      s'.current = s'.tasks.getLast? ∧ ∃ s'', Run Turn s' s'.tasks s'' ∧ s''.tasks = s'.tasks := by
  obtain ⟨htasks, hrot⟩ := (rotating_of_reachable h).turn_run hlen hrun
  have hperm : s'.tasks.Perm s.tasks := htasks ▸ List.rotate_perm s.tasks us.length
  obtain ⟨s'', hrun', htasks', -⟩ := hrot.turns (List.append_nil s'.tasks).symm
    (by rw [List.append_nil, hperm.length_eq]; exact hlen)
  exact ⟨htasks, hperm, hrot.nodup, hrot.current, s'', hrun', htasks'⟩

theorem roundRobin_two : ∃ s' s'' : ProcessManager Bool Unit, s'.tasks = [true, false] ∧
    Run Turn s' [true, false] s'' := by
  have hstart : Start twoTasks := ⟨rfl, rfl, fun _ => rfl⟩
  have hadds : Run (Guarded Step Adds) twoTasks [.addTask false, .addTask true] _ :=
    .cons ⟨rfl, by decide, by decide⟩ (.cons ⟨rfl, by decide, by decide⟩ (.nil _))
  obtain ⟨htasks, -, -, -, s'', hrun, -⟩ := roundRobin ⟨_, _, hstart, hadds⟩ (Nat.le_refl 2)
    (.cons ⟨rfl, rfl⟩ (.nil _))
  exact ⟨_, s'', rfl, hrun⟩

end ProcessManager

end CxxKernel.Sched
