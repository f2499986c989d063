import CxxKernel.Sched.RoundRobin
import CxxKernel.Devices.Timer

/-! The timer's interrupt takes the processor from a task when its slice is used up, and each task that
can run gets it again. -/
namespace CxxKernel.Sched
open Runs

def MAX_NICE : Word := 20

namespace Task
variable {τ : Type*} (t : Task τ)

def decSlice : Task τ := if 0 < t.slice then { t with slice := t.slice - 1 } else t

def resetSlice : Task τ := { t with slice := 0 }

def setPriority (p : Word) : Task τ := { t with priority := if MAX_PRIORITY < p then MAX_PRIORITY else p }

def setNice (p : Word) : Task τ := { t with nice := if MAX_NICE < p then MAX_NICE else p }

def setSize (s : Word) : Task τ := { t with size := s }

theorem toNat_decSlice : t.decSlice.slice.toNat = t.slice.toNat - 1 := by
  unfold decSlice
  split_ifs with h
  · have hle : (1 : Word) ≤ t.slice := by
      rw [BitVec.lt_def] at h
      rw [BitVec.le_def]
      exact h
    exact BitVec.toNat_sub_of_le hle
  · have hzero : t.slice.toNat = 0 := by
      rw [BitVec.lt_def] at h
      exact Nat.eq_zero_of_not_pos h
    rw [hzero]

@[simp] theorem decSlice_status : t.decSlice.status = t.status := by
  unfold decSlice
  split_ifs <;> rfl

@[simp] theorem decSlice_locked : t.decSlice.locked = t.locked := by
  unfold decSlice
  split_ifs <;> rfl

theorem toNat_setSlice_le (s : Word) : (t.setSlice s).slice.toNat ≤ s.toNat := by
  unfold setSlice
  split_ifs with h
  · exact le_of_lt (BitVec.lt_def.mp h.2)
  · exact le_rfl

end Task

section Updates
variable {τ : Type*} [DecidableEq τ] (tasks : Tasks τ) (t : τ)

@[simp] theorem setStatus_slice (st : Status) (u : τ) : (setStatus tasks t st u).slice = (tasks u).slice := by
  by_cases h : u = t <;> simp [setStatus, h]

@[simp] theorem setWaitNext_slice (next : Option τ) (u : τ) :
    (setWaitNext tasks t next u).slice = (tasks u).slice := by
  by_cases h : u = t <;> simp [setWaitNext, h]

@[simp] theorem setLocked_slice (v : Bool) (u : τ) : (setLocked tasks t v u).slice = (tasks u).slice := by
  by_cases h : u = t <;> simp [setLocked, h]

end Updates

namespace ProcessManager
variable {τ ι : Type*} [DecidableEq τ]

def hasSlice (s : ProcessManager τ ι) : Bool :=
  match s.current with
  | none => false
  | some current => decide (0 < (s.task current).slice)

/-- A change of one task. -/
def updateTask (s : ProcessManager τ ι) (t : τ) (f : Task τ → Task τ) : ProcessManager τ ι :=
  { s with task := Function.update s.task t (f (s.task t)) }

def decSlice (s : ProcessManager τ ι) : Option (ProcessManager τ ι) :=
  match s.current with
  | none => some s
  | some current => (s.testLock current).map fun s => (s.updateTask current Task.decSlice).unlock current

def yield (s : ProcessManager τ ι) : ProcessManager τ ι :=
  match s.current with
  | none => s
  | some current => s.updateTask current Task.resetSlice

section Exact
variable {s : ProcessManager τ ι} {c n : τ} {pre post bl : List τ}

/-- When every task it looks at is blocked, the search ends at the running one, now in front. -/
theorem scheduleLoop_alone (hcur : s.current = some c) (post : List τ) (next : τ) {fuel : ℕ} (hpre : c ∉ pre)
    (hfuel : pre.length < fuel) (hblocked : ∀ u ∈ next :: pre, (s.task u).status = .blocked) :
    s.scheduleLoop fuel next (pre ++ c :: post) = some (.alone, c :: post ++ pre) := by
  induction pre generalizing next post fuel with
  | nil =>
    obtain ⟨fuel, rfl⟩ := Nat.exists_eq_succ_of_ne_zero (Nat.ne_zero_of_lt hfuel)
    rw [scheduleLoop, if_pos (hblocked next List.mem_cons_self), List.append_nil]
    exact if_pos hcur.symm
  | cons a pre ih =>
    obtain ⟨fuel, rfl⟩ := Nat.exists_eq_succ_of_ne_zero (Nat.ne_zero_of_lt hfuel)
    rw [List.mem_cons, not_or] at hpre
    have hac : some a ≠ s.current := by
      rw [hcur]
      exact fun he => hpre.1 (Option.some.inj he).symm
    have hrest := ih (post ++ [a]) a hpre.2 (Nat.lt_of_succ_lt_succ hfuel)
      (List.forall_mem_cons.mp hblocked).2
    rw [scheduleLoop, if_pos (hblocked next List.mem_cons_self)]
    simp only [List.cons_append, List.head?_cons, hac, if_false, rotateFirstLast]
    rw [List.append_assoc, List.cons_append, hrest]
    simp

/-- The search takes the first task it looks at that is not blocked, and moves the others behind. -/
theorem scheduleLoop_switch (hcur : s.current = some c) (post : List τ) (next : τ) {fuel : ℕ}
    (hpre : c ∉ bl ++ n :: pre)
    (hfuel : (bl ++ n :: pre).length < fuel) (hblocked : ∀ u ∈ next :: bl, (s.task u).status = .blocked)
    (hn : (s.task n).status ≠ .blocked) :
    s.scheduleLoop fuel next (bl ++ n :: pre ++ c :: post) =
      some (.switch n, pre ++ c :: post ++ bl ++ [n]) := by
  induction bl generalizing next post fuel with
  | nil =>
    obtain ⟨fuel, rfl⟩ := Nat.exists_eq_succ_of_ne_zero (Nat.ne_zero_of_lt hfuel)
    obtain ⟨fuel, rfl⟩ := Nat.exists_eq_succ_of_ne_zero
      (Nat.ne_zero_of_lt (Nat.lt_of_succ_lt_succ (List.length_cons ▸ hfuel)))
    have hnc : some n ≠ s.current := by
      rw [hcur]
      rintro he
      exact hpre (Option.some.inj he ▸ List.mem_cons_self)
    rw [scheduleLoop, if_pos (hblocked next List.mem_cons_self)]
    simp only [List.nil_append, List.cons_append, List.head?_cons, hnc, if_false, rotateFirstLast]
    rw [scheduleLoop, if_neg hn, List.append_nil]
  | cons a bl ih =>
    obtain ⟨fuel, rfl⟩ := Nat.exists_eq_succ_of_ne_zero (Nat.ne_zero_of_lt hfuel)
    rw [List.cons_append, List.mem_cons, not_or] at hpre
    have hac : some a ≠ s.current := by
      rw [hcur]
      exact fun he => hpre.1 (Option.some.inj he).symm
    have hrest := ih (post ++ [a]) a hpre.2 (Nat.lt_of_succ_lt_succ hfuel)
      (List.forall_mem_cons.mp hblocked).2
    rw [scheduleLoop, if_pos (hblocked next List.mem_cons_self)]
    simp only [List.cons_append, List.head?_cons, hac, if_false, rotateFirstLast]
    rw [show bl ++ n :: pre ++ c :: post ++ [a] = bl ++ n :: pre ++ c :: (post ++ [a]) by simp, hrest]
    simp

theorem schedule_eq (h : s.Inv) (hcur : s.current = some c) :
    s.schedule = ({ s with task := setLocked s.task c true } : ProcessManager τ ι).choose.bind fun x =>
      { s with task := setLocked s.task c true, tasks := x.2 }.carryOut c x.1 := by
  unfold schedule
  split
  case h_1 hnone =>
    rw [hcur] at hnone
    cases hnone
  case h_2 c' hc' =>
    rw [hcur, Option.some.injEq] at hc'
    subst hc'
    rw [testLock_of_unlocked (h.unlocked c), Option.bind_some]

/-- When every task before the running one is blocked, it runs on, now in front of the list. -/
theorem schedule_stay (h : s.Inv) (hcur : s.current = some c) (htasks : s.tasks = pre ++ c :: post)
    (hpre : c ∉ pre) (hblocked : ∀ u ∈ pre, (s.task u).status = .blocked) :
    ∃ s', s.schedule = some (s', some c) ∧ s'.current = some c ∧ s'.tasks = c :: post ++ pre ∧
      ∀ u, (s'.task u).status = (s.task u).status ∧ (s'.task u).slice = (s.task u).slice := by
  let s₁ : ProcessManager τ ι := { s with task := setLocked s.task c true }
  have hchoose : s₁.choose = some (.alone, c :: post ++ pre) := by
    have htasks₁ : s₁.tasks = pre ++ c :: post := htasks
    have hcur₁ : s₁.current = some c := hcur
    unfold choose
    rw [htasks₁]
    cases pre with
    | nil =>
      rw [List.append_nil]
      exact if_pos hcur₁.symm
    | cons a pre =>
      rw [List.mem_cons, not_or] at hpre
      have hac : some a ≠ s₁.current := by
        rw [hcur₁]
        exact fun he => hpre.1 (Option.some.inj he).symm
      have hlen : pre.length < (a :: pre ++ c :: post).length := by
        simp only [List.length_append, List.length_cons]
        omega
      have hblocked₁ : ∀ u ∈ a :: pre, (s₁.task u).status = .blocked := by
        intro u hu
        rw [setLocked_status]
        exact hblocked u hu
      have hloop := scheduleLoop_alone hcur₁ (post ++ [a]) a hpre.2 hlen hblocked₁
      simp only [List.cons_append, List.head?_cons, hac, if_false, rotateFirstLast]
      rw [List.append_assoc, List.cons_append]
      rw [List.cons_append] at hloop
      rw [hloop]
      simp
  refine ⟨unlock { s₁ with tasks := c :: post ++ pre } c, ?_, hcur, rfl, fun u => ⟨?_, ?_⟩⟩
  · rw [schedule_eq h hcur, hchoose]
    rfl
  · simp [unlock, s₁]
  · simp [unlock, s₁]

/-- The most that `schedule` gives a task when there are `size` of them. -/
def quantum (size : ℕ) : ℕ := max 20 (500 / size)

theorem slice_le {τ ι : Type*} (s : ProcessManager τ ι) (next : τ) (hpos : 0 < s.tasks.length)
    (hlen : s.tasks.length < 2 ^ 32) : (s.slice next).toNat ≤ quantum s.tasks.length := by
  have happrox : ∀ slice approx : Word, (slice / approx).toNat ≤ slice.toNat := by
    intro slice approx
    rw [BitVec.toNat_udiv]
    exact Nat.div_le_self ..
  have hsize : (BitVec.ofNat 32 s.tasks.length).toNat = s.tasks.length := Nat.mod_eq_of_lt hlen
  have hgranularity : (SCHEDULING_GRANULARITY / BitVec.ofNat 32 s.tasks.length).toNat = 500 / s.tasks.length := by
    rw [BitVec.toNat_udiv, hsize]
    rfl
  have hif : (0 : Word) < BitVec.ofNat 32 s.tasks.length := by
    rw [BitVec.lt_def, hsize]
    exact hpos
  unfold ProcessManager.slice quantum
  dsimp only
  rw [if_pos hif]
  split_ifs
  · exact le_max_left 20 (500 / s.tasks.length)
  · exact (happrox ..).trans (hgranularity.le.trans (le_max_right ..))
  · exact le_max_left 20 (500 / s.tasks.length)
  · exact (happrox ..).trans (hgranularity.le.trans (le_max_right ..))

theorem switchTo_slice {s' : ProcessManager τ ι} (hs' : s.switchTo c n = some s') (hpos : 0 < s.tasks.length)
    (hlen : s.tasks.length < 2 ^ 32) :
    (s'.task n).slice.toNat ≤ quantum s.tasks.length ∧ ∀ u, u ≠ n → (s'.task u).slice = (s.task u).slice := by
  obtain ⟨s₁, hlock, rfl⟩ := Option.map_eq_some_iff.mp hs'
  unfold testLock at hlock
  split_ifs at hlock
  obtain rfl := Option.some.inj hlock
  constructor
  · simp only [unlock, setLocked_slice, Function.update_self]
    exact (Task.toNat_setSlice_le ..).trans (slice_le _ n hpos hlen)
  · intro u hu
    simp only [unlock, setLocked_slice, Function.update_of_ne hu]
    split_ifs <;> simp

/-- The first task before the running one that is not blocked runs next, and becomes the last. -/
theorem schedule_switch (h : s.Inv) (hcur : s.current = some c) (htasks : s.tasks = bl ++ n :: pre ++ c :: post)
    (hpre : c ∉ bl ++ n :: pre) (hblocked : ∀ u ∈ bl, (s.task u).status = .blocked)
    (hn : (s.task n).status ≠ .blocked) (hlen : s.tasks.length < 2 ^ 32) :
    ∃ s', s.schedule = some (s', some n) ∧ s'.current = some n ∧ s'.tasks = pre ++ c :: post ++ bl ++ [n] ∧
      (∀ u, (s.task u).status ≠ .blocked → (s'.task u).status ≠ .blocked) ∧
      (s'.task n).slice.toNat ≤ quantum s.tasks.length ∧ ∀ u, u ≠ n → (s'.task u).slice = (s.task u).slice := by
  let s₁ : ProcessManager τ ι := { s with task := setLocked s.task c true }
  have hcur₁ : s₁.current = some c := hcur
  have hn₁ : (s₁.task n).status ≠ .blocked := by
    rw [setLocked_status]
    exact hn
  have hchoose : s₁.choose = some (.switch n, pre ++ c :: post ++ bl ++ [n]) := by
    have htasks₁ : s₁.tasks = bl ++ n :: pre ++ c :: post := htasks
    unfold choose
    rw [htasks₁]
    cases bl with
    | nil =>
      have hnc : some n ≠ s₁.current := by
        rw [hcur₁]
        exact fun he => hpre (Option.some.inj he ▸ List.mem_cons_self)
      simp only [List.nil_append, List.cons_append, List.head?_cons, hnc, if_false, rotateFirstLast]
      rw [List.length_cons, scheduleLoop, if_neg hn₁, List.append_nil]
    | cons a bl =>
      rw [List.cons_append, List.mem_cons, not_or] at hpre
      have hac : some a ≠ s₁.current := by
        rw [hcur₁]
        exact fun he => hpre.1 (Option.some.inj he).symm
      have hfuel : (bl ++ n :: pre).length < (a :: (bl ++ n :: pre) ++ c :: post).length := by
        simp only [List.length_append, List.length_cons]
        omega
      have hblocked₁ : ∀ u ∈ a :: bl, (s₁.task u).status = .blocked := by
        intro u hu
        rw [setLocked_status]
        exact hblocked u hu
      have hloop := scheduleLoop_switch hcur₁ (post ++ [a]) a hpre.2 hfuel hblocked₁ hn₁
      simp only [List.cons_append, List.head?_cons, hac, if_false, rotateFirstLast]
      rw [show bl ++ n :: pre ++ c :: post ++ [a] = bl ++ n :: pre ++ c :: (post ++ [a]) by simp]
      rw [List.cons_append] at hloop
      rw [hloop]
      simp
  have hnc : n ≠ c := by
    rintro rfl
    exact hpre (List.mem_append_right _ List.mem_cons_self)
  have hlocked : ∀ u, u ≠ c → (s₁.task u).locked = false := by
    intro u huc
    simp [s₁, huc, h.unlocked u]
  let s₂ : ProcessManager τ ι := { s₁ with tasks := pre ++ c :: post ++ bl ++ [n] }
  have hlength : s₂.tasks.length = s.tasks.length := by
    rw [htasks]
    simp only [s₂, List.length_append, List.length_cons, List.length_nil]
    omega
  obtain ⟨s', hs', hcur', htasks', -, -⟩ := switchTo_spec (s := s₂) hlocked hnc
  obtain ⟨hquantum, hothers⟩ := switchTo_slice hs' (by simp [s₂]) (by rw [hlength]; exact hlen)
  refine ⟨s', ?_, hcur', htasks', fun u hu => ?_, hlength ▸ hquantum, fun u hu => ?_⟩
  · rw [schedule_eq h hcur, hchoose, Option.bind_some]
    exact congrArg (Option.map _) hs'
  · apply switchTo_status hs'
    simpa [s₂, s₁] using hu
  · rw [hothers u hu]
    simp [s₂, s₁]

theorem first_runnable {τ ι : Type*} (s : ProcessManager τ ι) (l : List τ) : (∀ u ∈ l, (s.task u).status = .blocked) ∨
    ∃ bl n rest, l = bl ++ n :: rest ∧ (∀ u ∈ bl, (s.task u).status = .blocked) ∧ (s.task n).status ≠ .blocked := by
  induction l with
  | nil => exact .inl fun _ hu => absurd hu List.not_mem_nil
  | cons a l ih =>
    by_cases ha : (s.task a).status = .blocked
    · rcases ih with hall | ⟨bl, n, rest, rfl, hbl, hn⟩
      · exact .inl (List.forall_mem_cons.mpr ⟨ha, hall⟩)
      · exact .inr ⟨a :: bl, n, rest, rfl, List.forall_mem_cons.mpr ⟨ha, hbl⟩, hn⟩
    · exact .inr ⟨[], a, l, rfl, fun _ hu => absurd hu List.not_mem_nil, ha⟩

/-- What a call of `schedule` does, with the tasks before the running one in their order. -/
theorem schedule_cases {s' : ProcessManager τ ι} {r : Option τ} (h : s.Inv) (hlen : s.tasks.length < 2 ^ 32)
    (hs' : s.schedule = some (s', r)) : s'.Inv ∧
    ∃ c pre post, s.current = some c ∧ s.tasks = pre ++ c :: post ∧ c ∉ pre ∧
      (((∀ u ∈ pre, (s.task u).status = .blocked) ∧ s'.current = some c ∧ s'.tasks = c :: post ++ pre ∧
        ∀ u, (s'.task u).status = (s.task u).status ∧ (s'.task u).slice = (s.task u).slice) ∨
      ∃ bl n rest, pre = bl ++ n :: rest ∧ (∀ u ∈ bl, (s.task u).status = .blocked) ∧ s'.current = some n ∧
        s'.tasks = rest ++ c :: post ++ bl ++ [n] ∧
        (∀ u, (s.task u).status ≠ .blocked → (s'.task u).status ≠ .blocked) ∧
        (s'.task n).slice.toNat ≤ quantum s.tasks.length ∧
        ∀ u, u ≠ n → (s'.task u).slice = (s.task u).slice) := by
  rcases h.running with ⟨hnone, -⟩ | ⟨c, hc, hcur⟩
  · rw [schedule, hnone] at hs'
    cases hs'
  · obtain ⟨pre, post, htasks, hpre, -⟩ := split_current hc hcur
    obtain ⟨s'', r', hs'', hinv, -⟩ := schedule_spec h hcur
    obtain ⟨rfl, -⟩ := Prod.mk.inj (Option.some.inj (hs''.symm.trans hs'))
    refine ⟨hinv, c, pre, post, hcur, htasks, hpre, ?_⟩
    rcases first_runnable s pre with hall | ⟨bl, n, rest, rfl, hbl, hn⟩
    · obtain ⟨s₁, hs₁, hstay⟩ := schedule_stay h hcur htasks hpre hall
      obtain ⟨rfl, -⟩ := Prod.mk.inj (Option.some.inj (hs₁.symm.trans hs'))
      exact .inl ⟨hall, hstay⟩
    · obtain ⟨s₁, hs₁, hswitch⟩ := schedule_switch h hcur htasks hpre hbl hn hlen
      obtain ⟨rfl, -⟩ := Prod.mk.inj (Option.some.inj (hs₁.symm.trans hs'))
      exact .inr ⟨bl, n, rest, rfl, hbl, hswitch⟩

theorem addTask_spec {s' : ProcessManager τ ι} {t : τ} (h : s.Inv) (hs' : s.addTask t = some s') :
    s'.tasks = s.tasks ++ [t] ∧ s'.current = some t ∧
      ∀ u, (s'.task u).status = (s.task u).status ∧ (s'.task u).slice = (s.task u).slice := by
  have hgive : ∀ (m : ProcessManager τ ι) u, ((m.givePid t).task u).status = (m.task u).status ∧
      ((m.givePid t).task u).slice = (m.task u).slice := by
    intro m u
    unfold givePid
    split_ifs
    · by_cases hut : u = t <;> simp [hut]
    · exact ⟨rfl, rfl⟩
  unfold addTask at hs'
  split at hs'
  · obtain rfl := Option.some.inj hs'
    exact ⟨rfl, rfl, hgive s⟩
  · rename_i c _
    rw [testLock_of_unlocked (h.unlocked c), Option.map_some] at hs'
    obtain rfl := Option.some.inj hs'
    refine ⟨rfl, rfl, fun u => ?_⟩
    simp [unlock, hgive]

end Exact

/-- The same tasks run on with what is left of their slices, and none but the running one gets blocked. -/
structure Quiet (s s' : ProcessManager τ ι) : Prop where
  tasks : s'.tasks = s.tasks
  current : s'.current = s.current
  unlocked : (∀ u, (s.task u).locked = false) → ∀ u, (s'.task u).locked = false
  slice : ∀ u, (s'.task u).slice.toNat ≤ (s.task u).slice.toNat
  status : ∀ u, some u ≠ s.current → (s.task u).status ≠ .blocked → (s'.task u).status ≠ .blocked

theorem Quiet.refl {τ ι : Type*} (s : ProcessManager τ ι) : Quiet s s :=
  ⟨rfl, rfl, fun h => h, fun _ => le_rfl, fun _ _ h => h⟩

section Quiet
variable {s s' : ProcessManager τ ι}

theorem quiet_updateTask (t : τ) {f : Task τ → Task τ} (hlocked : (f (s.task t)).locked = (s.task t).locked)
    (hslice : (f (s.task t)).slice.toNat ≤ (s.task t).slice.toNat)
    (hstatus : (f (s.task t)).status = (s.task t).status) : Quiet s (s.updateTask t f) where
  tasks := rfl
  current := rfl
  unlocked h u := by
    by_cases hut : u = t
    · subst hut
      simp [updateTask, hlocked, h]
    · simp [updateTask, hut, h]
  slice u := by
    by_cases hut : u = t
    · subst hut
      simpa [updateTask] using hslice
    · simp [updateTask, hut]
  status u _ hu := by
    by_cases hut : u = t
    · subst hut
      simpa [updateTask, hstatus] using hu
    · simpa [updateTask, hut] using hu

theorem quiet_yield (s : ProcessManager τ ι) : Quiet s s.yield := by
  unfold yield
  split
  · exact .refl s
  · exact quiet_updateTask _ rfl (Nat.zero_le _) rfl

theorem decSlice_spec {c : τ} (h : s.Inv) (hcur : s.current = some c) :
    ∃ s', s.decSlice = some s' ∧ Quiet s s' ∧ (s'.task c).slice.toNat = (s.task c).slice.toNat - 1 := by
  let s₁ : ProcessManager τ ι := { s with task := setLocked s.task c true }
  have hdec : s.decSlice = some ((s₁.updateTask c Task.decSlice).unlock c) := by
    unfold decSlice
    rw [hcur]
    dsimp only
    rw [testLock_of_unlocked (h.unlocked c)]
    rfl
  have hslice : (((s₁.updateTask c Task.decSlice).unlock c).task c).slice.toNat = (s.task c).slice.toNat - 1 := by
    simp only [unlock, updateTask, setLocked_slice, Function.update_self]
    rw [Task.toNat_decSlice, setLocked_slice]
  refine ⟨_, hdec, ⟨rfl, rfl, fun _ u => ?_, fun u => ?_, fun u _ hu => ?_⟩, hslice⟩
  · by_cases huc : u = c
    · simp [unlock, huc]
    · simp [unlock, updateTask, s₁, huc, h.unlocked u]
  · by_cases huc : u = c
    · rw [huc, hslice]
      exact Nat.sub_le ..
    · simp [unlock, updateTask, s₁, huc]
  · by_cases huc : u = c
    · subst huc
      simpa [unlock, updateTask, s₁] using hu
    · simpa [unlock, updateTask, s₁, huc] using hu

theorem quiet_dequeue [DecidableEq ι] (s : ProcessManager τ ι) (i : ι) : Quiet s (s.dequeue i) where
  tasks := rfl
  current := rfl
  unlocked h u := by
    change (((s.waitlist i).dequeue s.task).2.1 u).locked = false
    rw [Waitlist.dequeue_locked]
    exact h u
  slice u := by
    simp only [dequeue, Waitlist.dequeue]
    split <;> simp
  status u _ hu := by
    simp only [dequeue, Waitlist.dequeue]
    split
    · exact hu
    · rw [setStatus_status]
      split_ifs
      · decide
      · exact hu

theorem quiet_enqueue [DecidableEq ι] {i : ι} (hs' : s.enqueue i = some s') : Quiet s s' := by
  obtain ⟨c, hcur, rfl⟩ := Option.map_eq_some_iff.mp hs'
  refine ⟨rfl, rfl, fun h u => ?_, fun u => ?_, fun u huc hu => ?_⟩
  · change (((s.waitlist i).enqueue s.task c).2 u).locked = false
    rw [Waitlist.enqueue_locked]
    exact h u
  · simp only [Waitlist.enqueue]
    split <;> simp
  · have hne : u ≠ c := by
      rintro rfl
      exact huc hcur.symm
    simp only [Waitlist.enqueue]
    split <;> simpa [hne] using hu

end Quiet

end ProcessManager

/-- The timer with its interrupt, and the `ProcessManager` it drives. -/
structure TimerX86 (τ ι : Type*) where
  timer : Timer
  pm : ProcessManager τ ι
  running : Bool

inductive TimerEvent (τ ι : Type*)
  | tick
  | setRunning
  | op (op : ProcessManager.Op τ ι)
  | yield
  | setPriority (t : τ) (p : Word)
  | setNice (t : τ) (p : Word)
  | setSize (t : τ) (s : Word)

def TimerEvent.isTick {τ ι : Type*} : TimerEvent τ ι → Bool
  | .tick => true
  | _ => false

namespace TimerX86
variable {τ ι : Type*} [DecidableEq τ] [DecidableEq ι]

def run (s : TimerX86 τ ι) : Option (TimerX86 τ ι) :=
  let s := { s with timer := s.timer.run }
  if s.running then
    (if s.pm.hasSlice then s.pm.decSlice else s.pm.schedule.map Prod.fst).map fun pm => { s with pm }
  else some s

def exec (s : TimerX86 τ ι) : TimerEvent τ ι → Option (TimerX86 τ ι)
  | .tick => s.run
  | .setRunning => some { s with running := true }
  | .op op => (s.pm.exec op).map fun pm => { s with pm }
  | .yield => some { s with pm := s.pm.yield }
  | .setPriority t p => some { s with pm := s.pm.updateTask t (·.setPriority p) }
  | .setNice t p => some { s with pm := s.pm.updateTask t (·.setNice p) }
  | .setSize t size => some { s with pm := s.pm.updateTask t (·.setSize size) }

def Step (s : TimerX86 τ ι) (e : TimerEvent τ ι) (s' : TimerX86 τ ι) : Prop := s.exec e = some s'

/-- No task has been added, and every task is as its constructor leaves it. -/
def Start (s : TimerX86 τ ι) : Prop := s.pm.Init ∧ ∀ t, (s.pm.task t).slice = 0

/-- The tasks that are added are new, and the size of the list is a 32 bit number. -/
def Adds (s : TimerX86 τ ι) (e : TimerEvent τ ι) (_ : TimerX86 τ ι) : Prop :=
  match e with
  | .op (.addTask t) => t ∉ s.pm.tasks ∧ s.pm.tasks.length + 1 < 2 ^ 32
  | _ => True

/-- Between two events no task is locked, the running one is in the list, and new tasks have no slice. -/
structure Inv (s : TimerX86 τ ι) : Prop where
  pm : s.pm.Inv
  nodup : s.pm.tasks.Nodup
  fresh : ∀ t, t ∉ s.pm.tasks → (s.pm.task t).slice = 0
  length : s.pm.tasks.length < 2 ^ 32

section Cases
variable {s s' : TimerX86 τ ι} {e : TimerEvent τ ι}

/-- An event leaves the tasks in their places (and a tick then takes from a slice), or schedules, or adds
a task. -/
theorem step_cases (h : s.pm.Inv) (hstep : Step s e s') :
    (s.pm.Quiet s'.pm ∧ (e.isTick = true → s.running = true → ∃ c, s.pm.current = some c ∧
      (s'.pm.task c).slice.toNat + 1 ≤ (s.pm.task c).slice.toNat)) ∨
    (∃ r, s.pm.schedule = some (s'.pm, r)) ∨
    ∃ t, e = .op (.addTask t) ∧ s.pm.addTask t = some s'.pm := by
  have hquiet : ∀ pm', s.pm.Quiet pm' → some { s with pm := pm' } = some s' → s.pm.Quiet s'.pm := by
    intro pm' hq hs'
    exact Option.some.inj hs' ▸ hq
  cases e with
  | tick =>
    unfold Step exec run at hstep
    dsimp only at hstep
    split_ifs at hstep with hrunning hslice
    · obtain ⟨pm', hpm', rfl⟩ := Option.map_eq_some_iff.mp hstep
      unfold ProcessManager.hasSlice at hslice
      split at hslice
      · cases hslice
      · rename_i c hcur
        obtain ⟨pm'', hdec, hq, hsub⟩ := ProcessManager.decSlice_spec h hcur
        obtain rfl := Option.some.inj (hdec.symm.trans hpm')
        have hpos := BitVec.lt_def.mp (of_decide_eq_true hslice)
        refine .inl ⟨hq, fun _ _ => ⟨c, hcur, ?_⟩⟩
        rw [hsub]
        exact (Nat.sub_add_cancel hpos).le
    · obtain ⟨pm', hpm', rfl⟩ := Option.map_eq_some_iff.mp hstep
      obtain ⟨⟨pm'', r⟩, hs'', rfl⟩ := Option.map_eq_some_iff.mp hpm'
      exact .inr (.inl ⟨r, hs''⟩)
    · obtain rfl := Option.some.inj hstep
      exact .inl ⟨.refl _, fun _ hr => absurd hr hrunning⟩
  | setRunning =>
    obtain rfl := Option.some.inj hstep
    exact .inl ⟨.refl _, fun ht => nomatch ht⟩
  | op op =>
    obtain ⟨pm', hpm', rfl⟩ := Option.map_eq_some_iff.mp hstep
    cases op with
    | addTask t => exact .inr (.inr ⟨t, rfl, hpm'⟩)
    | schedule =>
      obtain ⟨⟨pm'', r⟩, hs'', rfl⟩ := Option.map_eq_some_iff.mp hpm'
      exact .inr (.inl ⟨r, hs''⟩)
    | enqueue i => exact .inl ⟨ProcessManager.quiet_enqueue hpm', fun ht => nomatch ht⟩
    | dequeue i =>
      obtain rfl := Option.some.inj hpm'
      exact .inl ⟨ProcessManager.quiet_dequeue _ i, fun ht => nomatch ht⟩
  | yield => exact .inl ⟨hquiet _ (ProcessManager.quiet_yield _) hstep, fun ht => nomatch ht⟩
  | setPriority t p | setNice t p | setSize t p =>
    exact .inl ⟨hquiet _ (ProcessManager.quiet_updateTask t rfl le_rfl rfl) hstep, fun ht => nomatch ht⟩

theorem pm_inv_step (h : s.pm.Inv) (hstep : Step s e s') : s'.pm.Inv := by
  rcases step_cases h hstep with ⟨hq, -⟩ | ⟨r, hs'⟩ | ⟨t, -, hs'⟩
  · refine ⟨hq.unlocked h.unlocked, ?_⟩
    rw [hq.tasks, hq.current]
    exact h.running
  · have hschedule : ProcessManager.Step s.pm .schedule s'.pm := congrArg (Option.map Prod.fst) hs'
    exact ProcessManager.step_inv h hschedule
  · exact ProcessManager.addTask_inv h hs'

theorem inv_of_start {τ ι : Type*} {s : TimerX86 τ ι} (h : Start s) : s.Inv where
  pm := h.1.inv
  nodup := h.1.tasks ▸ List.nodup_nil
  fresh t _ := h.2 t
  length := by
    rw [h.1.tasks]
    exact Nat.two_pow_pos 32

theorem inv_step (h : s.Inv) (hstep : Guarded Step Adds s e s') : s'.Inv := by
  obtain ⟨hstep, hadds⟩ := hstep
  have hinv := pm_inv_step h.pm hstep
  rcases step_cases h.pm hstep with ⟨hq, -⟩ | ⟨r, hs'⟩ | ⟨t, rfl, hs'⟩
  · refine ⟨hinv, hq.tasks ▸ h.nodup, fun t ht => ?_, hq.tasks ▸ h.length⟩
    rw [hq.tasks] at ht
    have hle := hq.slice t
    rw [h.fresh t ht] at hle
    exact BitVec.eq_of_toNat_eq (Nat.le_zero.mp hle)
  · obtain ⟨-, c, pre, post, -, htasks, -, hcase⟩ := ProcessManager.schedule_cases h.pm h.length hs'
    have hperm : s'.pm.tasks.Perm s.pm.tasks := by
      rw [htasks]
      rcases hcase with ⟨-, -, htasks', -⟩ | ⟨bl, n, rest, rfl, -, -, htasks', -⟩
      · rw [htasks']
        exact List.perm_append_comm
      · have hleft : rest ++ c :: post ++ bl ++ [n] = (rest ++ c :: post) ++ (bl ++ [n]) := by simp
        have hright : bl ++ n :: rest ++ c :: post = (bl ++ [n]) ++ (rest ++ c :: post) := by simp
        rw [htasks', hleft, hright]
        exact List.perm_append_comm
    refine ⟨hinv, hperm.nodup_iff.mpr h.nodup, fun t ht => ?_, hperm.length_eq ▸ h.length⟩
    rw [hperm.mem_iff] at ht
    rcases hcase with ⟨-, -, -, hsame⟩ | ⟨bl, n, rest, rfl, -, -, htasks', -, -, hothers⟩
    · rw [(hsame t).2, h.fresh t ht]
    · rw [hothers t ?_, h.fresh t ht]
      rintro rfl
      rw [htasks] at ht
      exact ht (by simp)
  · obtain ⟨htasks, hcur, hsame⟩ := ProcessManager.addTask_spec h.pm hs'
    refine ⟨hinv, ?_, fun u hu => ?_, ?_⟩
    · rw [htasks, ← List.concat_eq_append]
      exact h.nodup.concat hadds.1
    · rw [htasks, List.mem_append, not_or] at hu
      rw [(hsame u).2, h.fresh u hu.1]
    · rw [htasks, List.length_append, List.length_singleton]
      exact hadds.2

theorem inv_of_reachable (h : Reachable (Guarded Step Adds) (@Start τ ι) s) : s.Inv :=
  h.invariant (fun _ hs => inv_of_start hs) fun _ _ _ hs hstep => inv_step hs hstep

end Cases

/-- What is left of the running task's slice. -/
def currentSlice {τ ι : Type*} (s : TimerX86 τ ι) : ℕ := s.pm.current.elim 0 fun c => (s.pm.task c).slice.toNat

/-- The ticks until the tasks before `t` have used up a slice each, when there are `size` tasks. -/
def rank (size : ℕ) (t : τ) (s : TimerX86 τ ι) : ℕ :=
  s.pm.tasks.idxOf t * (ProcessManager.quantum size + 1) + s.currentSlice

section Waiting
variable {s s' : TimerX86 τ ι} {e : TimerEvent τ ι} {t : τ} {size : ℕ}

end Waiting

section Main
variable {s u s' : TimerX86 τ ι} {es : List (TimerEvent τ ι)} {t c : τ} {r : Option τ}

/-- Two tasks before either is added, and the state after some events. -/
def twoTimed : TimerX86 Bool Unit := ⟨⟨1000, 0⟩, ProcessManager.twoTasks, false⟩

def after (es : List (TimerEvent Bool Unit)) : TimerX86 Bool Unit := (runAll exec twoTimed es).getD twoTimed

theorem twoTimed_start : Start twoTimed :=
  ⟨⟨rfl, rfl, fun _ => rfl, fun _ => rfl, fun _ => rfl⟩, fun _ => rfl⟩

theorem after_reachable {es : List (TimerEvent Bool Unit)} (h : (runAll exec twoTimed es).isSome = true) :
    Reachable Step Start (after es) := by
  obtain ⟨s, hs⟩ := Option.isSome_iff_exists.mp h
  refine ⟨twoTimed, es, twoTimed_start, ?_⟩
  rw [after, hs, Option.getD_some]
  exact run_of_runAll hs

def twoRunning : List (TimerEvent Bool Unit) := [.op (.addTask false), .op (.addTask true), .setRunning, .tick]

/-- No task is added. -/
def AddsNone (_ : TimerX86 τ ι) (e : TimerEvent τ ι) (_ : TimerX86 τ ι) : Prop := ∀ t, e ≠ .op (.addTask t)

/-- When a search for a task that can run finds none, the running task keeps the processor until a new task is
added, even when others are woken and it gets blocked itself. -/
theorem captured_for_good (h : Reachable Step (@Start τ ι) s) (hcur : s.pm.current = some c)
    (hnone : ¬ s.pm.RunnableBefore) (hsched : s.pm.schedule = some (u.pm, r))
    (hrun : Run (Guarded Step AddsNone) u es s') : s'.pm.current = some c ∧ s'.pm.tasks = u.pm.tasks := by
  have hkeep : ∀ s e s', s.pm.Inv → Step s e s' → (s' : TimerX86 τ ι).pm.Inv := fun _ _ _ => pm_inv_step
  have hinv : s.pm.Inv := h.invariant (fun _ hs => hs.1.inv) hkeep
  have hc : c ∈ s.pm.tasks := by
    rcases hinv.running with ⟨hcur', -⟩ | ⟨c', hc', hcur'⟩
    · cases hcur'.symm.trans hcur
    · exact Option.some.inj (hcur'.symm.trans hcur) ▸ hc'
  obtain ⟨pre, post, htasks, hpre, hbefore⟩ := ProcessManager.split_current hc hcur
  have hall : ∀ u ∈ pre, (s.pm.task u).status = .blocked := by
    intro u hu
    by_contra hb
    exact hnone ⟨u, hbefore ▸ hu, hb⟩
  obtain ⟨u', hu', hcur', htasks', -⟩ := ProcessManager.schedule_stay hinv hcur htasks hpre hall
  obtain ⟨rfl, -⟩ := Prod.mk.inj (Option.some.inj (hu'.symm.trans hsched))
  have hschedule : ProcessManager.Step s.pm .schedule u.pm := congrArg (Option.map Prod.fst) hsched
  have hinv' := ProcessManager.step_inv hinv hschedule
  have hstay : ∀ v e v', v.pm.Inv ∧ v.pm.current = some c ∧ v.pm.tasks = c :: (post ++ pre) →
      Guarded Step AddsNone v e v' →
      (v' : TimerX86 τ ι).pm.Inv ∧ v'.pm.current = some c ∧ v'.pm.tasks = c :: (post ++ pre) := by
    rintro v e v' ⟨hv, hvcur, hvtasks⟩ ⟨hstep, hadds⟩
    refine ⟨pm_inv_step hv hstep, ?_⟩
    rcases step_cases hv hstep with ⟨hq, -⟩ | ⟨r', hs'⟩ | ⟨t, he, -⟩
    · exact ⟨hq.current.trans hvcur, hq.tasks.trans hvtasks⟩
    · have hfront : v.pm.tasks = [] ++ c :: (post ++ pre) := hvtasks
      obtain ⟨v'', hv'', hcur'', htasks'', -⟩ := ProcessManager.schedule_stay hv hvcur hfront List.not_mem_nil
        fun _ hu => absurd hu List.not_mem_nil
      obtain ⟨rfl, -⟩ := Prod.mk.inj (Option.some.inj (hv''.symm.trans hs'))
      refine ⟨hcur'', htasks''.trans ?_⟩
      rw [List.append_nil]
    · exact absurd he (hadds t)
  obtain ⟨-, hcur'', htasks''⟩ := hrun.invariant hstay ⟨hinv', hcur', htasks'⟩
  exact ⟨hcur'', htasks''.trans htasks'.symm⟩

/-- The first task blocks, and the second runs. -/
def oneBlocked : List (TimerEvent Bool Unit) := twoRunning ++ [.op (.enqueue ()), .op .schedule]

/-- The second task looks for another one, and the first is woken too late. -/
theorem captured_for_good_two : ∃ s', Run (Guarded Step AddsNone) (after (oneBlocked ++ [.op .schedule]))
    [.op (.dequeue ()), .tick, .tick] s' ∧ s'.pm.current = some true ∧ (s'.pm.task false).status = .waiting := by
  obtain ⟨s', hs'⟩ := Option.isSome_iff_exists.mp
    (by decide :
      (runAll exec (after (oneBlocked ++ [.op .schedule])) [.op (.dequeue ()), .tick, .tick]).isSome = true)
  have hrun :
      Run (Guarded Step AddsNone) (after (oneBlocked ++ [.op .schedule])) [.op (.dequeue ()), .tick, .tick] s' := by
    refine (run_of_runAll hs').guard fun e he _ _ _ t => ?_
    rintro rfl
    simp at he
  have hreach : Reachable Step Start (after oneBlocked) := after_reachable (by decide)
  refine ⟨s', hrun, (captured_for_good (c := true) (r := some true) hreach (by decide) (by decide) rfl hrun).1, ?_⟩
  have hstatus : (runAll exec (after (oneBlocked ++ [.op .schedule])) [.op (.dequeue ()), .tick, .tick]).map
      (fun s => (s.pm.task false).status) = some .waiting := by
    decide
  rw [hs'] at hstatus
  exact Option.some.inj hstatus

end Main

end TimerX86

end CxxKernel.Sched
