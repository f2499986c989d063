import CxxKernel.Sched.ProcessManager

/-! When `schedule` finds the task it should run. The search stops at the running task, so what
counts is which tasks stand before it in the list. -/
namespace CxxKernel.Sched.ProcessManager
open Runs

variable {τ ι : Type*} [DecidableEq τ] {s : ProcessManager τ ι}

/-- Between two calls no task is locked, and the running task is in the list. -/
structure Inv (s : ProcessManager τ ι) : Prop where
  unlocked : ∀ t, (s.task t).locked = false
  running : (s.current = none ∧ s.tasks = []) ∨ ∃ c ∈ s.tasks, s.current = some c

theorem Init.inv {τ ι : Type*} {s : ProcessManager τ ι} (h : s.Init) : s.Inv :=
  ⟨h.locked, .inl ⟨h.current, h.tasks⟩⟩

/-- A task before the running one in the list can run. -/
def RunnableBefore (s : ProcessManager τ ι) : Prop :=
  ∃ t ∈ s.tasks.takeWhile (fun t => some t ≠ s.current), (s.task t).status ≠ .blocked

instance (s : ProcessManager τ ι) : Decidable s.RunnableBefore :=
  inferInstanceAs (Decidable (∃ t ∈ s.tasks.takeWhile (fun t => some t ≠ s.current),
    (s.task t).status ≠ .blocked))

section Search
variable {c : τ}

theorem rotateFirstLast_perm {τ : Type*} (l : List τ) : (rotateFirstLast l).Perm l := by
  cases l with
  | nil => exact .nil
  | cons a l => exact List.perm_append_singleton a l

theorem split_current (hc : c ∈ s.tasks) (hcur : s.current = some c) :
    ∃ pre post, s.tasks = pre ++ c :: post ∧ c ∉ pre ∧
      s.tasks.takeWhile (fun t => some t ≠ s.current) = pre := by
  obtain ⟨pre, post, heq, hpre⟩ := List.eq_append_cons_of_mem hc
  refine ⟨pre, post, heq, hpre, ?_⟩
  have hne : ∀ t ∈ pre, decide (some t ≠ s.current) = true := by
    intro t ht
    rw [hcur, decide_eq_true_iff, ne_eq, Option.some.injEq]
    rintro rfl
    exact hpre ht
  rw [heq, List.takeWhile_append_of_pos hne, List.takeWhile_cons_of_neg, List.append_nil]
  rw [hcur, decide_eq_true_iff]
  exact fun h => h rfl

/-- The loop looks at `next` and the tasks before the running one, in this order. -/
theorem scheduleLoop_spec (hcur : s.current = some c) {pre : List τ} (post : List τ) (next : τ)
    {fuel : ℕ} (hpre : c ∉ pre) (hfuel : pre.length < fuel) :
    ∃ choice tasks, s.scheduleLoop fuel next (pre ++ c :: post) = some (choice, tasks) ∧
      tasks.Perm (pre ++ c :: post) ∧
      ((choice = .alone ∧ ∀ t ∈ next :: pre, (s.task t).status = .blocked) ∨
        ∃ n ∈ next :: pre, choice = .switch n ∧ (s.task n).status ≠ .blocked) := by
  induction pre generalizing next post fuel with
  | nil =>
    obtain ⟨fuel, rfl⟩ := Nat.exists_eq_succ_of_ne_zero (Nat.ne_zero_of_lt hfuel)
    unfold scheduleLoop
    by_cases hnext : (s.task next).status = .blocked
    · refine ⟨.alone, [] ++ c :: post, ?_, .refl _, .inl ⟨rfl, ?_⟩⟩
      · simp [hnext, hcur]
      · simpa using hnext
    · exact ⟨.switch next, [] ++ c :: post, if_neg hnext, .refl _, .inr ⟨next, by simp, rfl, hnext⟩⟩
  | cons a pre ih =>
    obtain ⟨fuel, rfl⟩ := Nat.exists_eq_succ_of_ne_zero (Nat.ne_zero_of_lt hfuel)
    rw [List.mem_cons, not_or] at hpre
    by_cases hnext : (s.task next).status = .blocked
    · have hac : some a ≠ s.current := by
        rw [hcur]
        exact fun he => hpre.1 (Option.some.inj he).symm
      have hfuel' : pre.length < fuel := by simpa using hfuel
      obtain ⟨choice, tasks, heq, hperm, hcase⟩ :=
        ih (post ++ [a]) a hpre.2 hfuel'
      refine ⟨choice, tasks, ?_, hperm.trans ?_, ?_⟩
      · rw [scheduleLoop, if_pos hnext]
        simp only [List.cons_append, List.head?_cons, hac, if_false, rotateFirstLast]
        rw [← heq, List.append_assoc, List.cons_append]
      · have hrot := rotateFirstLast_perm (a :: (pre ++ c :: post))
        rwa [rotateFirstLast, List.append_assoc, List.cons_append] at hrot
      · rcases hcase with ⟨halone, hall⟩ | ⟨n, hn, hswitch⟩
        · exact .inl ⟨halone, List.forall_mem_cons.mpr ⟨hnext, hall⟩⟩
        · exact .inr ⟨n, List.mem_cons_of_mem _ hn, hswitch⟩
    · exact ⟨.switch next, _, if_neg hnext, .refl _, .inr ⟨next, by simp, rfl, hnext⟩⟩

/-- What the search finds: a task before the running one that can run, or none. -/
theorem choose_spec (hc : c ∈ s.tasks) (hcur : s.current = some c) :
    ∃ choice tasks, s.choose = some (choice, tasks) ∧ tasks.Perm s.tasks ∧
      ((choice = .alone ∧ ¬ s.RunnableBefore) ∨
        ∃ n ∈ s.tasks, n ≠ c ∧ choice = .switch n ∧ (s.task n).status ≠ .blocked ∧
          s.RunnableBefore) := by
  obtain ⟨pre, post, heq, hpre, hbefore⟩ := split_current hc hcur
  unfold RunnableBefore choose
  rw [hbefore, heq]
  cases pre with
  | nil =>
    refine ⟨.alone, [] ++ c :: post, ?_, .refl _, .inl ⟨rfl, by simp⟩⟩
    simp [hcur]
  | cons a pre =>
    rw [List.mem_cons, not_or] at hpre
    have hac : some a ≠ s.current := by
      rw [hcur]
      exact fun he => hpre.1 (Option.some.inj he).symm
    have hlen : pre.length < (a :: pre ++ c :: post).length := by
      simp only [List.length_append, List.length_cons]
      omega
    obtain ⟨choice, tasks, hloop, hperm, hcase⟩ :=
      scheduleLoop_spec hcur (post ++ [a]) a hpre.2 hlen
    refine ⟨choice, tasks, ?_, hperm.trans ?_, ?_⟩
    · simp only [List.cons_append, List.head?_cons, hac, if_false, rotateFirstLast]
      rw [← hloop, List.append_assoc, List.cons_append, List.cons_append]
    · have hrot := rotateFirstLast_perm (a :: (pre ++ c :: post))
      rwa [rotateFirstLast, List.append_assoc, List.cons_append] at hrot
    · rcases hcase with ⟨halone, hall⟩ | ⟨n, hn, hswitch, hstatus⟩
      · refine .inl ⟨halone, ?_⟩
        rintro ⟨t, ht, hst⟩
        exact hst (hall t ht)
      · have hnc : n ≠ c := by
          rintro rfl
          exact (List.mem_cons.mp hn).elim hpre.1 hpre.2
        exact .inr ⟨n, List.mem_append_left _ hn, hnc, hswitch, hstatus, n, hn, hstatus⟩

end Search

section Schedule
variable {c next : τ}

theorem testLock_of_unlocked (h : (s.task c).locked = false) :
    s.testLock c = some { s with task := setLocked s.task c true } :=
  if_neg (by simp [h])

/-- A switch from the locked task `c` to another. -/
theorem switchTo_spec (hlocked : ∀ t, t ≠ c → (s.task t).locked = false) (hne : next ≠ c) :
    ∃ s', s.switchTo c next = some s' ∧ s'.current = some next ∧ s'.tasks = s.tasks ∧
      (∀ t, (s'.task t).locked = false) ∧ (s'.task next).status = .running := by
  have hlock := testLock_of_unlocked (s := { s with current := some next }) (hlocked next hne)
  unfold switchTo
  rw [hlock, Option.map_some]
  refine ⟨_, rfl, rfl, rfl, fun t => ?_, ?_⟩
  · by_cases htc : t = c
    · simp [unlock, htc]
    · by_cases htn : t = next
      · simp [unlock, htn]
      · have ht := hlocked t htc
        simp only [unlock, setLocked_locked, htc, htn, if_false, Function.update_of_ne, ne_eq,
          not_false_eq_true]
        split_ifs <;> simpa [htn] using ht
  · simp only [unlock, setLocked_status, Function.update_self, Task.setSlice_status]
    split_ifs <;> simp [hne]

/-- `schedule` comes back, and moves to another task exactly when one before the running task can
run. -/
theorem schedule_spec (h : s.Inv) (hcur : s.current = some c) :
    ∃ s' r, s.schedule = some (s', r) ∧ s'.Inv ∧
      ((¬ s.RunnableBefore ∧ s'.current = some c ∧ (s'.task c).status = (s.task c).status) ∨
        s.RunnableBefore ∧ ∃ n, n ≠ c ∧ s'.current = some n ∧ (s.task n).status ≠ .blocked ∧
          (s'.task n).status = .running) := by
  have hc : c ∈ s.tasks := by
    rcases h.running with ⟨hnone, -⟩ | ⟨c', hc', hcur'⟩
    · rw [hnone] at hcur
      cases hcur
    · rw [hcur'] at hcur
      exact Option.some.inj hcur ▸ hc'
  let s₁ : ProcessManager τ ι := { s with task := setLocked s.task c true }
  have hstatus : ∀ t, (s₁.task t).status = (s.task t).status := by simp [s₁]
  have hbefore : s₁.RunnableBefore ↔ s.RunnableBefore := by
    unfold RunnableBefore
    simp only [hstatus]
    exact Iff.rfl
  obtain ⟨choice, tasks, hchoose, hperm, hcase⟩ := choose_spec (s := s₁) hc hcur
  rw [hbefore] at hcase
  have hstart : s.schedule =
      s₁.choose.bind fun x => { s₁ with tasks := x.2 }.carryOut c x.1 := by
    unfold schedule
    split
    case h_1 hnone =>
      rw [hcur] at hnone
      cases hnone
    case h_2 c' hc' =>
      rw [hcur, Option.some.injEq] at hc'
      subst hc'
      rw [testLock_of_unlocked (h.unlocked c), Option.bind_some]
  rw [hstart, hchoose, Option.bind_some]
  rcases hcase with ⟨rfl, hnot⟩ | ⟨n, hn, hnc, rfl, hst, hrun⟩
  · refine ⟨_, _, rfl, ⟨fun t => ?_, .inr ⟨c, hperm.mem_iff.mpr hc, hcur⟩⟩,
      .inl ⟨hnot, hcur, by simp [unlock, s₁]⟩⟩
    have ht := h.unlocked t
    by_cases htc : t = c <;> simp [unlock, s₁, htc, ht]
  · have hlocked : ∀ t, t ≠ c → (s₁.task t).locked = false := by
      intro t htc
      simp [s₁, htc, h.unlocked t]
    obtain ⟨s', hs', hcur', htasks', hlocked', hrunning⟩ :=
      switchTo_spec (s := { s₁ with tasks := tasks }) hlocked hnc
    refine ⟨s', some n, ?_, ⟨hlocked', .inr ⟨n, ?_, hcur'⟩⟩,
      .inr ⟨hrun, n, hnc, hcur', ?_, hrunning⟩⟩
    · simp only [carryOut, hs', Option.map_some]
    · rw [htasks']
      exact hperm.mem_iff.mpr hn
    · rwa [hstatus] at hst

theorem addTask_inv {s' : ProcessManager τ ι} {t : τ} (h : s.Inv) (hs' : s.addTask t = some s') :
    s'.Inv := by
  have hpid : ∀ s : ProcessManager τ ι, ∀ u, ((s.givePid t).task u).locked = (s.task u).locked := by
    intro s u
    unfold givePid
    split_ifs
    · by_cases hut : u = t <;> simp [hut]
    · rfl
  unfold addTask at hs'
  split at hs'
  · rw [Option.some.injEq] at hs'
    subst hs'
    refine ⟨fun u => ?_, .inr ⟨t, by simp, rfl⟩⟩
    rw [hpid]
    exact h.unlocked u
  · rename_i c _
    rw [testLock_of_unlocked (h.unlocked c), Option.map_some, Option.some.injEq] at hs'
    subst hs'
    refine ⟨fun u => ?_, .inr ⟨t, by simp, rfl⟩⟩
    by_cases huc : u = c
    · simp [unlock, huc]
    · simp [unlock, huc, hpid, h.unlocked u]

end Schedule

section Reachable
variable [DecidableEq ι]

theorem enqueue_inv {s' : ProcessManager τ ι} {i : ι} (h : s.Inv) (hs' : s.enqueue i = some s') :
    s'.Inv := by
  obtain ⟨c, hcur, hs'⟩ := Option.map_eq_some_iff.mp hs'
  subst hs'
  refine ⟨fun u => ?_, h.running⟩
  change (((s.waitlist i).enqueue s.task c).2 u).locked = false
  rw [Waitlist.enqueue_locked]
  exact h.unlocked u

theorem dequeue_inv {i : ι} (h : s.Inv) : (s.dequeue i).Inv := by
  refine ⟨fun u => ?_, h.running⟩
  change (((s.waitlist i).dequeue s.task).2.1 u).locked = false
  rw [Waitlist.dequeue_locked]
  exact h.unlocked u

theorem step_inv {s' : ProcessManager τ ι} {op : Op τ ι} (h : s.Inv) (hstep : Step s op s') :
    s'.Inv := by
  cases op with
  | addTask t => exact addTask_inv h hstep
  | schedule =>
    obtain ⟨⟨s'', r⟩, hs'', rfl⟩ := Option.map_eq_some_iff.mp hstep
    cases hcur : s.current with
    | none =>
      rw [schedule, hcur] at hs''
      cases hs''
    | some c =>
      obtain ⟨s₁, r₁, hs₁, hinv, -⟩ := schedule_spec h hcur
      rw [hs₁, Option.some.injEq, Prod.mk.injEq] at hs''
      exact hs''.1 ▸ hinv
  | enqueue i => exact enqueue_inv h hstep
  | dequeue i =>
    rw [Step, exec, Option.some.injEq] at hstep
    exact hstep ▸ dequeue_inv h

theorem inv_of_reachable (h : Reachable Step (@Init τ ι) s) : s.Inv :=
  h.invariant (fun _ hi => hi.inv) fun _ _ _ hi hs => step_inv hi hs

/-- Some task other than the running one can run. -/
def RunnableOther (s : ProcessManager τ ι) : Prop :=
  ∃ t ∈ s.tasks, s.current ≠ some t ∧ (s.task t).status ≠ .blocked

instance (s : ProcessManager τ ι) : Decidable s.RunnableOther :=
  inferInstanceAs (Decidable (∃ t ∈ s.tasks, s.current ≠ some t ∧ (s.task t).status ≠ .blocked))

/-- If another task can run, `schedule` moves to one that can. -/
def Progress (s : ProcessManager τ ι) : Prop :=
  s.RunnableOther → ∃ s' r n, s.schedule = some (s', r) ∧ s'.current = some n ∧
    s.current ≠ some n ∧ (s.task n).status ≠ .blocked ∧ (s'.task n).status ≠ .blocked

/-- `schedule` makes progress exactly when a task that can run stands before the running one. -/
theorem progress_iff (h : Reachable Step (@Init τ ι) s) :
    s.Progress ↔ (s.RunnableOther → s.RunnableBefore) := by
  have hinv := inv_of_reachable h
  refine imp_congr_right fun hother => ?_
  cases hcur : s.current with
  | none =>
    obtain ⟨t, ht, -⟩ := hother
    rcases hinv.running with ⟨-, hnil⟩ | ⟨c, -, hc⟩
    · rw [hnil] at ht
      exact absurd ht (List.not_mem_nil)
    · rw [hcur] at hc
      cases hc
  | some c =>
    obtain ⟨s', r, hs', -, hcase⟩ := schedule_spec hinv hcur
    constructor
    · rintro ⟨s'', r', n, hs'', hn, hne, -⟩
      rw [hs', Option.some.injEq, Prod.mk.injEq] at hs''
      obtain ⟨rfl, rfl⟩ := hs''
      rcases hcase with ⟨-, hstay, -⟩ | ⟨hbefore, -⟩
      · rw [hstay] at hn
        exact absurd hn hne
      · exact hbefore
    · intro hbefore
      rcases hcase with ⟨hnot, -⟩ | ⟨-, n, hnc, hn, hst, hrun⟩
      · exact absurd hbefore hnot
      · refine ⟨s', r, n, hs', hn, fun he => hnc (Option.some.inj he).symm, hst, ?_⟩
        rw [hrun]
        decide

/-- Two tasks before either is added, and one wait queue. -/
def twoTasks : ProcessManager Bool Unit where
  task _ := ⟨none, .waiting, false, 0, 1, 1, 0, 0⟩
  waitlist _ := .new
  tasks := []
  current := none
  pid := 1
  poolSlice := 0

/-- The state of the two tasks after some operations. -/
def after (ops : List (Op Bool Unit)) : ProcessManager Bool Unit :=
  (runAll exec twoTasks ops).getD twoTasks

theorem after_reachable {ops : List (Op Bool Unit)}
    (h : (runAll exec twoTasks ops).isSome = true) : Reachable Step Init (after ops) := by
  obtain ⟨s, hs⟩ := Option.isSome_iff_exists.mp h
  refine ⟨twoTasks, ops, ⟨rfl, rfl, fun _ => rfl, fun _ => rfl, fun _ => rfl⟩, ?_⟩
  rw [after, hs, Option.getD_some]
  exact run_of_runAll hs

theorem progress_two : (after [.addTask false, .addTask true]).Progress :=
  (progress_iff (after_reachable (by decide))).mpr fun _ => by decide

/-- The first task blocks, the second looks for another one once, and the first is woken. -/
def starveOps : List (Op Bool Unit) :=
  [.addTask false, .addTask true, .schedule, .enqueue (), .schedule, .schedule, .dequeue ()]

theorem no_progress : Reachable Step Init (after starveOps) ∧ ¬ (after starveOps).Progress := by
  refine ⟨after_reachable (by decide), fun h => ?_⟩
  obtain ⟨s', r, n, hs', hn, hne, -⟩ := h (by decide)
  have hcur : (after starveOps).current = some true := by decide
  have hstay : (after starveOps).schedule.map (fun x => x.1.current) = some (some true) := by
    decide
  rw [hs', Option.map_some, hn] at hstay
  rw [hcur] at hne
  exact hne (Option.some.inj hstay).symm

/-- `schedule` does not select a blocked task, and does not hand control to one. A task that it selects
is set running, so that its status of before the call counts too. -/
def NeverBlocked (s : ProcessManager τ ι) : Prop :=
  ∀ s' r c, s.schedule = some (s', r) → s'.current = some c →
    (s.task c).status ≠ .blocked ∧ (s'.task c).status ≠ .blocked

/-- `schedule` avoids blocked tasks exactly when the running task is not blocked itself, or a
task before it can run. -/
theorem neverBlocked_iff (h : Reachable Step (@Init τ ι) s) :
    s.NeverBlocked ↔
      ∀ c, s.current = some c → (s.task c).status ≠ .blocked ∨ s.RunnableBefore := by
  have hinv := inv_of_reachable h
  constructor
  · intro hnever c hcur
    obtain ⟨s', r, hs', -, hcase⟩ := schedule_spec hinv hcur
    rcases hcase with ⟨-, hstay, -⟩ | ⟨hbefore, -⟩
    · exact .inl (hnever s' r c hs' hstay).1
    · exact .inr hbefore
  · intro hcond s' r n hs' hn
    cases hcur : s.current with
    | none =>
      rw [schedule, hcur] at hs'
      cases hs'
    | some c =>
      obtain ⟨s'', r', hs'', -, hcase⟩ := schedule_spec hinv hcur
      rw [hs'', Option.some.injEq, Prod.mk.injEq] at hs'
      obtain ⟨rfl, rfl⟩ := hs'
      rcases hcase with ⟨hnot, hstay, hst⟩ | ⟨-, m, -, hm, hold, hrun⟩
      · obtain rfl : c = n := Option.some.inj (hstay.symm.trans hn)
        have hrunnable := (hcond c hcur).resolve_right hnot
        rw [hst]
        exact ⟨hrunnable, hrunnable⟩
      · obtain rfl : m = n := Option.some.inj (hm.symm.trans hn)
        refine ⟨hold, ?_⟩
        rw [hrun]
        decide

theorem neverBlocked_two : (after [.addTask false, .addTask true, .enqueue ()]).NeverBlocked :=
  (neverBlocked_iff (after_reachable (by decide))).mpr fun _ _ => .inr (by decide)

/-- The only task blocks, and `schedule` comes back to it. -/
theorem blocked_runs : Reachable Step Init (after [.addTask false, .enqueue ()]) ∧
    ¬ (after [.addTask false, .enqueue ()]).NeverBlocked := by
  refine ⟨after_reachable (by decide), fun h => ?_⟩
  have hrun : (after [.addTask false, .enqueue ()]).schedule.map
      (fun x => (x.1.current, (x.1.task false).status)) = some (some false, .blocked) := by
    decide
  obtain ⟨⟨s', r⟩, hs', hx⟩ := Option.map_eq_some_iff.mp hrun
  rw [Prod.mk.injEq] at hx
  exact (h s' r false hs' hx.1).2 hx.2

end Reachable

end CxxKernel.Sched.ProcessManager
