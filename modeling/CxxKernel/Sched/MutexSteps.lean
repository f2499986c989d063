import CxxKernel.Sched.Mutex

/-! `BaseMutex` access by access: the spinlock around it, and the queue that the spinlock guards. The tasks take
their steps in any order. -/
namespace CxxKernel.Sched
open Runs

/-- Where a task stands in `lock` or `unlock`: in front of an access to what the tasks share. -/
inductive MutexPc (τ : Type*)
  | outside
  | lockSpin
  | lockTest
  | lockStore
  | lockFree
  | enqNext
  | enqTail
  | enqHead
  | enqLink (tail : τ)
  | enqSetTail
  | enqBlock
  | waitFree
  | sleeping
  | unlockSpin
  | unlockTest
  | unlockStore
  | deqTest
  | deqCompare (next : τ)
  | deqClearTail (next : τ)
  | deqClearHead (next : τ)
  | deqAdvance (next : τ)
  | deqCheck (next : τ)
  | deqWake (next : τ)
  | unlockFree
  deriving DecidableEq

namespace MutexPc
variable {τ : Type*}

/-- The task holds the spinlock. -/
def critical : MutexPc τ → Bool
  | outside | lockSpin | sleeping | unlockSpin => false
  | _ => true

/-- The task has been enqueued, and has not come back from `reschedule`. -/
def inside : MutexPc τ → Bool
  | waitFree | sleeping => true
  | _ => false

/-- `unlock` has been called, and has not given the mutex away. -/
def unlocking : MutexPc τ → Bool
  | unlockSpin | unlockTest | unlockStore | deqTest | deqCompare _ | deqClearTail _ | deqClearHead _
  | deqAdvance _ | deqCheck _ | deqWake _ => true
  | _ => false

/-- The next access is one that the atomic mutex does not have. -/
def quiet : MutexPc τ → Bool
  | lockTest | enqNext | enqTail | enqHead | enqLink _ | enqSetTail | unlockTest | deqTest | deqCompare _
  | deqClearTail _ | deqClearHead _ | deqAdvance _ | deqCheck _ => true
  | _ => false

/-- All that is left is to give back the spinlock. -/
def last : MutexPc τ → Bool
  | lockFree | waitFree | unlockFree => true
  | _ => false

/-- The task owns the mutex in the middle of a call. -/
def owns : MutexPc τ → Bool
  | lockFree => true
  | pc => pc.unlocking

end MutexPc

/-- The tasks around one mutex. `locker` is the word of its spinlock, `holds` marks the tasks to which `lock` has
returned and which have not called `unlock` since, and `reports` is what `dequeue` prints. -/
structure MutexMachine (τ : Type*) where
  task : Tasks τ
  mutex : BaseMutex τ
  locker : Word
  pc : τ → MutexPc τ
  holds : τ → Bool
  reports : List DequeueReport

/-- `access` is the next access of a task that is in a call, `schedule` is what `schedule` does to a task, and
`elsewhere` is whatever else happens to a task outside of the mutex. -/
inductive MachineEvent (τ : Type*)
  | lock (t : τ)
  | unlock (t : τ)
  | access (t : τ)
  | schedule (t : τ) (status : Status)
  | elsewhere (t : τ) (status : Status) (waitNext : Option τ)

namespace MutexMachine
variable {τ : Type*} [DecidableEq τ]

def goto (s : MutexMachine τ) (t : τ) (pc : MutexPc τ) : MutexMachine τ :=
  { s with pc := Function.update s.pc t pc }

@[simp] theorem goto_pc (s : MutexMachine τ) (t u : τ) (pc : MutexPc τ) :
    (s.goto t pc).pc u = if u = t then pc else s.pc u := Function.update_apply ..

def setQueue (s : MutexMachine τ) (queue : Waitlist τ) : MutexMachine τ :=
  { s with mutex := { s.mutex with queue } }

/-- `compare_and_swap` on the spinlock, which is tried again after a `yield`. -/
def spin (s : MutexMachine τ) (t : τ) (pc : MutexPc τ) : MutexMachine τ :=
  if s.locker = 0 then { s with locker := 1 }.goto t pc else s

/-- The next access of the task `t`. -/
def access (s : MutexMachine τ) (t : τ) : MutexMachine τ :=
  match s.pc t with
  | .outside => s
  | .lockSpin => s.spin t .lockTest
  | .lockTest => s.goto t (if s.mutex.value = 0 then .lockStore else .enqNext)
  | .lockStore => { s with mutex := { s.mutex with value := 1 } }.goto t .lockFree
  | .lockFree => { s with locker := 0, holds := Function.update s.holds t true }.goto t .outside
  | .enqNext => { s with task := setWaitNext s.task t none }.goto t .enqTail
  | .enqTail =>
    s.goto t <| match s.mutex.queue.tail with
      | none => .enqHead
      | some tail => .enqLink tail
  | .enqHead => (s.setQueue { s.mutex.queue with head := some t }).goto t .enqSetTail
  | .enqLink tail => { s with task := setWaitNext s.task tail (some t) }.goto t .enqSetTail
  | .enqSetTail => (s.setQueue { s.mutex.queue with tail := some t }).goto t .enqBlock
  | .enqBlock => { s with task := setStatus s.task t .blocked }.goto t .waitFree
  | .waitFree => { s with locker := 0 }.goto t .sleeping
  | .sleeping => { s with holds := Function.update s.holds t true }.goto t .outside
  | .unlockSpin => s.spin t .unlockTest
  | .unlockTest => s.goto t (if s.mutex.queue.empty then .unlockStore else .deqTest)
  | .unlockStore => { s with mutex := { s.mutex with value := 0 } }.goto t .unlockFree
  | .deqTest =>
    match s.mutex.queue.head with
    | none => { s with reports := s.reports ++ [DequeueReport.empty] }.goto t .unlockFree
    | some next => s.goto t (.deqCompare next)
  | .deqCompare next =>
    s.goto t (if s.mutex.queue.head = s.mutex.queue.tail then .deqClearTail next else .deqAdvance next)
  | .deqClearTail next => (s.setQueue { s.mutex.queue with tail := none }).goto t (.deqClearHead next)
  | .deqClearHead next => (s.setQueue { s.mutex.queue with head := none }).goto t (.deqCheck next)
  | .deqAdvance next =>
    (s.setQueue { s.mutex.queue with head := (s.task next).waitNext }).goto t (.deqCheck next)
  | .deqCheck next =>
    let reports := if (s.task next).status ≠ .blocked then
      s.reports ++ [DequeueReport.invalidStatus (s.task next).status] else s.reports
    { s with reports }.goto t (.deqWake next)
  | .deqWake next => { s with task := setStatus s.task next .waiting }.goto t .unlockFree
  | .unlockFree => { s with locker := 0 }.goto t .outside

/-- `reschedule` returns to a task only when it is not blocked, only a holder unlocks, `schedule` leaves blocked
tasks alone, and other queues leave alone the tasks inside a call. -/
def Enabled (s : MutexMachine τ) : MachineEvent τ → Prop
  | .lock t => s.pc t = .outside
  | .unlock t => s.pc t = .outside ∧ s.holds t = true
  | .access t => s.pc t ≠ .outside ∧ (s.pc t = .sleeping → (s.task t).status ≠ .blocked)
  | .schedule t status => (s.task t).status ≠ .blocked ∧ status ≠ .blocked
  | .elsewhere t _ _ => s.pc t = .outside

instance (s : MutexMachine τ) : ∀ e, Decidable (s.Enabled e)
  | .lock _ => inferInstanceAs (Decidable (_ = _))
  | .unlock _ => inferInstanceAs (Decidable (_ ∧ _))
  | .access _ => inferInstanceAs (Decidable (_ ∧ _))
  | .schedule .. => inferInstanceAs (Decidable (_ ∧ _))
  | .elsewhere .. => inferInstanceAs (Decidable (_ = _))

def next (s : MutexMachine τ) : MachineEvent τ → MutexMachine τ
  | .lock t => s.goto t .lockSpin
  | .unlock t => { s with holds := Function.update s.holds t false }.goto t .unlockSpin
  | .access t => s.access t
  | .schedule t status => { s with task := setStatus s.task t status }
  | .elsewhere t status waitNext => { s with task := setWaitNext (setStatus s.task t status) t waitNext }

def Step (s : MutexMachine τ) (e : MachineEvent τ) (s' : MutexMachine τ) : Prop :=
  s.Enabled e ∧ s' = s.next e

/-- A new mutex that no task has called. -/
structure Init (s : MutexMachine τ) : Prop where
  mutex : s.mutex = ⟨0, .new⟩
  locker : s.locker = 0
  pc : ∀ t, s.pc t = .outside
  holds : ∀ t, s.holds t = false
  reports : s.reports = []

end MutexMachine

section Places
variable {τ : Type*} [DecidableEq τ]

/-- The queue as the writes of the task `t` have left it, from the queue and the links before the call. -/
def MutexPc.queueAt (t : τ) (queue : Waitlist τ) (waitNext : τ → Option τ) : MutexPc τ → Waitlist τ
  | enqSetTail => { queue with head := queue.head.or (some t) }
  | enqBlock => ⟨queue.head.or (some t), some t⟩
  | deqClearHead _ => { queue with tail := none }
  | deqCheck next | deqWake next =>
    if queue.head = queue.tail then .new else { queue with head := waitNext next }
  | _ => queue

/-- The links as the writes of the task `t` have left them. -/
def MutexPc.linksAt (t : τ) (queue : Waitlist τ) (waitNext : τ → Option τ) : MutexPc τ → τ → Option τ
  | enqTail | enqHead | enqLink _ => Function.update waitNext t none
  | enqSetTail | enqBlock =>
    match queue.tail with
    | none => Function.update waitNext t none
    | some tail => Function.update (Function.update waitNext t none) tail (some t)
  | _ => waitNext

/-- What the task `t` has found out on its way. -/
def MutexState.Knows (a : MutexState τ) : MutexPc τ → Prop
  | .lockStore => a.mutex.value = 0
  | .enqNext | .enqTail | .enqSetTail | .enqBlock => a.mutex.value ≠ 0
  | .enqHead => a.mutex.value ≠ 0 ∧ a.mutex.queue.tail = none
  | .enqLink tail => a.mutex.value ≠ 0 ∧ a.mutex.queue.tail = some tail
  | .unlockStore => a.mutex.queue.head = none
  | .deqTest => a.mutex.queue.head ≠ none
  | .deqCompare next => a.mutex.queue.head = some next
  | .deqClearTail next | .deqClearHead next =>
    a.mutex.queue.head = some next ∧ a.mutex.queue.head = a.mutex.queue.tail
  | .deqAdvance next => a.mutex.queue.head = some next ∧ a.mutex.queue.head ≠ a.mutex.queue.tail
  | .deqCheck next | .deqWake next => a.mutex.queue.head = some next
  | _ => True

/-- A task that does not hold the spinlock knows nothing that could change. -/
theorem MutexState.knows_of_not_critical {τ : Type*} {a : MutexState τ} {pc : MutexPc τ}
    (h : pc.critical = false) : a.Knows pc := by
  cases pc <;> trivial

theorem MutexState.Knows.congr {τ : Type*} {a a' : MutexState τ} {pc : MutexPc τ} (h : a.Knows pc)
    (hmutex : a'.mutex = a.mutex) : a'.Knows pc := by
  have hsame : a'.Knows pc = a.Knows pc := by
    cases pc <;> simp only [Knows, hmutex]
  rw [hsame]
  exact h

/-- The task is where the atomic mutex has it. -/
structure MutexMachine.Fits (s : MutexMachine τ) (a : MutexState τ) (t : τ) : Prop where
  inside : a.inside t = (s.pc t).inside
  holds : a.holds t = (s.holds t || (s.pc t).owns)
  gone : (s.pc t).unlocking = true → s.holds t = false
  knows : a.Knows (s.pc t)

/-- The state of the atomic mutex, with the task `holder` in the middle of a call. A call counts as done from
the write on that the other tasks see: `value` where nobody waits, and the status of the task that goes to sleep
or is woken. -/
structure MutexMachine.Refines (s : MutexMachine τ) (a : MutexState τ) (holder : Option τ) : Prop where
  locker : s.locker = 0 ↔ holder = none
  held : ∀ t, (s.pc t).critical = true ↔ holder = some t
  fits : ∀ t, s.Fits a t
  value : s.mutex.value = a.mutex.value
  status : ∀ t, (s.task t).status = (a.task t).status
  queue : s.mutex.queue = holder.elim a.mutex.queue
    fun t => (s.pc t).queueAt t a.mutex.queue fun u => (a.task u).waitNext
  links : (fun u => (s.task u).waitNext) = holder.elim (fun u => (a.task u).waitNext)
    fun t => (s.pc t).linksAt t a.mutex.queue fun u => (a.task u).waitNext
  reports : s.reports = []

end Places

namespace MutexMachine
variable {τ : Type*} [DecidableEq τ] {s s' : MutexMachine τ} {a a' : MutexState τ} {t u : τ} {holder : Option τ}
  {pc : MutexPc τ} {q : List τ}

omit [DecidableEq τ] in
theorem Fits.congr (h : s.Fits a u) (hknows : a'.Knows (s.pc u)) (hpc : s'.pc u = s.pc u)
    (hholds : s'.holds u = s.holds u) (hinside : a'.inside u = a.inside u) (hholds' : a'.holds u = a.holds u) :
    s'.Fits a' u := by
  refine ⟨?_, ?_, ?_, ?_⟩
  · rw [hinside, hpc, h.inside]
  · rw [hholds', hholds, hpc, h.holds]
  · rw [hpc, hholds]
    exact h.gone
  · rw [hpc]
    exact hknows

namespace Refines

theorem not_critical (h : s.Refines a (some t)) (hut : u ≠ t) : (s.pc u).critical = false := by
  refine eq_false_of_ne_true fun hc => hut ?_
  exact (Option.some.inj ((h.held u).mp hc)).symm

theorem links_setWaitNext (task : Tasks τ) (t : τ) (next : Option τ) :
    (fun u => (setWaitNext task t next u).waitNext) = Function.update (fun u => (task u).waitNext) t next := by
  funext u
  rw [setWaitNext_waitNext, Function.update_apply]

theorem go (h : s.Refines a (some t)) {pc₀ : MutexPc τ} (hpc : s.pc t = pc₀) (queue : Waitlist τ) (task : Tasks τ)
    (hcritical : pc.critical = true) (hinside : pc.inside = pc₀.inside) (howns : pc.owns = pc₀.owns)
    (hgone : pc.unlocking = true → pc₀.unlocking = true) (hknows : a.Knows pc)
    (hstatus : ∀ u, (task u).status = (s.task u).status)
    (hqueue : queue = pc.queueAt t a.mutex.queue fun u => (a.task u).waitNext)
    (hlinks : (fun u => (task u).waitNext) = pc.linksAt t a.mutex.queue fun u => (a.task u).waitNext) :
    ({ s.setQueue queue with task }.goto t pc).Refines a (some t) := by
  have hself : ({ s.setQueue queue with task }.goto t pc).pc t = pc := by rw [goto_pc, if_pos rfl]
  refine ⟨h.locker, fun u => ?_, fun u => ?_, h.value, fun u => (hstatus u).trans (h.status u), ?_, ?_, h.reports⟩
  · rw [goto_pc]
    by_cases hut : u = t
    · rw [if_pos hut, hut]
      exact iff_of_true hcritical rfl
    · rw [if_neg hut]
      exact h.held u
  · by_cases hut : u = t
    · rw [hut]
      have hfits := h.fits t
      refine ⟨?_, ?_, ?_, ?_⟩
      · rw [hself, hinside, ← hpc, hfits.inside]
      · rw [hself, howns, ← hpc]
        exact hfits.holds
      · rw [hself]
        exact fun hu => hfits.gone (hpc ▸ hgone hu)
      · rw [hself]
        exact hknows
    · exact (h.fits u).congr (h.fits u).knows (by rw [goto_pc, if_neg hut]; rfl) rfl rfl rfl
  · rw [Option.elim_some, hself]
    exact hqueue
  · rw [Option.elim_some, hself]
    exact hlinks

theorem queue_at (h : s.Refines a (some t)) (hpc : s.pc t = pc) :
    s.mutex.queue = pc.queueAt t a.mutex.queue fun u => (a.task u).waitNext := by
  rw [← hpc]
  exact h.queue

theorem links_at (h : s.Refines a (some t)) (hpc : s.pc t = pc) :
    (fun u => (s.task u).waitNext) = pc.linksAt t a.mutex.queue fun u => (a.task u).waitNext := by
  rw [← hpc]
  exact h.links

theorem knows_at (h : s.Refines a (some t)) (hpc : s.pc t = pc) : a.Knows pc := by
  rw [← hpc]
  exact (h.fits t).knows

theorem look (h : s.Refines a (some t)) {pc₀ : MutexPc τ} (hpc : s.pc t = pc₀)
    (hcritical : pc.critical = true) (hinside : pc.inside = pc₀.inside) (howns : pc.owns = pc₀.owns)
    (hgone : pc.unlocking = true → pc₀.unlocking = true) (hknows : a.Knows pc)
    (hqueue : pc₀.queueAt t a.mutex.queue (fun u => (a.task u).waitNext) =
      pc.queueAt t a.mutex.queue fun u => (a.task u).waitNext)
    (hlinks : pc₀.linksAt t a.mutex.queue (fun u => (a.task u).waitNext) =
      pc.linksAt t a.mutex.queue fun u => (a.task u).waitNext) : (s.goto t pc).Refines a (some t) :=
  h.go hpc s.mutex.queue s.task hcritical hinside howns hgone hknows (fun _ => rfl)
    ((h.queue_at hpc).trans hqueue) ((h.links_at hpc).trans hlinks)

omit [DecidableEq τ] in
theorem ends (ha : a.Inv q) : a.mutex.queue.tail = none ↔ a.mutex.queue.head = none := by
  have hlinks := ha.links
  unfold Waitlist.Links at hlinks
  constructor
  · intro htail
    rw [htail] at hlinks
    obtain rfl := hlinks.eq_nil
    exact hlinks.head_eq
  · intro hhead
    cases q with
    | nil => exact hlinks.tail_eq
    | cons x q =>
      rw [hhead] at hlinks
      cases hlinks.head_eq

theorem step_quiet (h : s.Refines a (some t)) (ha : a.Inv q)
    (hquiet : (s.pc t).quiet = true) : (s.access t).Refines a (some t) := by
  unfold access
  cases hpc : s.pc t with
  | outside | lockSpin | lockStore | lockFree | enqBlock | waitFree | sleeping | unlockSpin | unlockStore
  | deqWake | unlockFree =>
    rw [hpc] at hquiet
    cases hquiet
  | lockTest =>
    dsimp only
    by_cases hvalue : s.mutex.value = 0
    · rw [if_pos hvalue]
      exact h.look hpc rfl rfl rfl id (h.value.symm.trans hvalue) rfl rfl
    · rw [if_neg hvalue]
      exact h.look hpc rfl rfl rfl id (fun hzero => hvalue (h.value.trans hzero)) rfl rfl
  | enqNext =>
    have hvalue : a.mutex.value ≠ 0 := h.knows_at hpc
    have hqueue : s.mutex.queue = a.mutex.queue := h.queue_at hpc
    have hlinks : (fun u => (s.task u).waitNext) = fun u => (a.task u).waitNext := h.links_at hpc
    refine h.go hpc s.mutex.queue (setWaitNext s.task t none) rfl rfl rfl id hvalue (fun u => setWaitNext_status ..)
      hqueue ?_
    rw [links_setWaitNext, hlinks]
    rfl
  | enqTail =>
    have hqueue : s.mutex.queue = a.mutex.queue := h.queue_at hpc
    have hvalue : a.mutex.value ≠ 0 := h.knows_at hpc
    dsimp only
    cases htail : s.mutex.queue.tail with
    | none => exact h.look hpc rfl rfl rfl id ⟨hvalue, hqueue ▸ htail⟩ rfl rfl
    | some x => exact h.look hpc rfl rfl rfl id ⟨hvalue, hqueue ▸ htail⟩ rfl rfl
  | enqHead =>
    obtain ⟨hvalue, htail⟩ : a.mutex.value ≠ 0 ∧ a.mutex.queue.tail = none := h.knows_at hpc
    have hqueue : s.mutex.queue = a.mutex.queue := h.queue_at hpc
    refine h.go hpc { s.mutex.queue with head := some t } s.task rfl rfl rfl id hvalue (fun u => rfl) ?_ ?_
    · rw [hqueue, MutexPc.queueAt, (ends ha).mp htail]
      rfl
    · rw [h.links_at hpc]
      simp only [MutexPc.linksAt, htail]
  | enqLink x =>
    obtain ⟨hvalue, htail⟩ : a.mutex.value ≠ 0 ∧ a.mutex.queue.tail = some x := h.knows_at hpc
    have hqueue : s.mutex.queue = a.mutex.queue := h.queue_at hpc
    refine h.go hpc s.mutex.queue (setWaitNext s.task x (some t)) rfl rfl rfl id hvalue
      (fun u => setWaitNext_status ..) ?_ ?_
    · have hhead : a.mutex.queue.head ≠ none := fun hnone =>
        Option.some_ne_none x (htail.symm.trans ((ends ha).mpr hnone))
      obtain ⟨y, hy⟩ := Option.ne_none_iff_exists'.mp hhead
      rw [hqueue, MutexPc.queueAt, hy, Option.some_or, ← hy]
    · rw [links_setWaitNext, h.links_at hpc]
      simp only [MutexPc.linksAt, htail]
  | enqSetTail =>
    have hvalue : a.mutex.value ≠ 0 := h.knows_at hpc
    have hlinks := h.links_at hpc
    refine h.go hpc { s.mutex.queue with tail := some t } s.task rfl rfl rfl id hvalue (fun u => rfl) ?_ hlinks
    rw [h.queue_at hpc]
    rfl
  | unlockTest =>
    have hqueue : s.mutex.queue = a.mutex.queue := h.queue_at hpc
    dsimp only
    rw [hqueue, Waitlist.empty]
    cases hhead : a.mutex.queue.head with
    | none => exact h.look hpc rfl rfl rfl id hhead rfl rfl
    | some x =>
      have hne : a.mutex.queue.head ≠ none := by
        rw [hhead]
        exact Option.some_ne_none x
      exact h.look hpc rfl rfl rfl id hne rfl rfl
  | deqTest =>
    have hqueue : s.mutex.queue = a.mutex.queue := h.queue_at hpc
    have hne : a.mutex.queue.head ≠ none := h.knows_at hpc
    obtain ⟨x, hx⟩ := Option.ne_none_iff_exists'.mp hne
    dsimp only
    rw [hqueue, hx]
    exact h.look hpc rfl rfl rfl id hx rfl rfl
  | deqCompare x =>
    have hqueue : s.mutex.queue = a.mutex.queue := h.queue_at hpc
    have hx : a.mutex.queue.head = some x := h.knows_at hpc
    dsimp only
    rw [hqueue]
    by_cases hends : a.mutex.queue.head = a.mutex.queue.tail
    · rw [if_pos hends]
      exact h.look hpc rfl rfl rfl id ⟨hx, hends⟩ rfl rfl
    · rw [if_neg hends]
      exact h.look hpc rfl rfl rfl id ⟨hx, hends⟩ rfl rfl
  | deqClearTail x =>
    have hknows : a.mutex.queue.head = some x ∧ a.mutex.queue.head = a.mutex.queue.tail := h.knows_at hpc
    have hqueue : s.mutex.queue = a.mutex.queue := h.queue_at hpc
    have hlinks : (fun u => (s.task u).waitNext) = fun u => (a.task u).waitNext := h.links_at hpc
    refine h.go hpc { s.mutex.queue with tail := none } s.task rfl rfl rfl id hknows (fun u => rfl) ?_ hlinks
    rw [hqueue]
    rfl
  | deqClearHead x =>
    obtain ⟨hx, hends⟩ : a.mutex.queue.head = some x ∧ a.mutex.queue.head = a.mutex.queue.tail := h.knows_at hpc
    have hlinks : (fun u => (s.task u).waitNext) = fun u => (a.task u).waitNext := h.links_at hpc
    refine h.go hpc { s.mutex.queue with head := none } s.task rfl rfl rfl id hx (fun u => rfl) ?_ hlinks
    have hcleared : MutexPc.queueAt t a.mutex.queue (fun u => (a.task u).waitNext) (.deqCheck x) = .new :=
      if_pos hends
    rw [h.queue_at hpc, hcleared]
    rfl
  | deqAdvance x =>
    obtain ⟨hx, hends⟩ : a.mutex.queue.head = some x ∧ a.mutex.queue.head ≠ a.mutex.queue.tail := h.knows_at hpc
    have hqueue : s.mutex.queue = a.mutex.queue := h.queue_at hpc
    have hlinks : (fun u => (s.task u).waitNext) = fun u => (a.task u).waitNext := h.links_at hpc
    refine h.go hpc { s.mutex.queue with head := (s.task x).waitNext } s.task rfl rfl rfl id hx
      (fun u => rfl) ?_ hlinks
    rw [hqueue, MutexPc.queueAt, if_neg hends, congrFun hlinks x]
  | deqCheck x =>
    have hx : a.mutex.queue.head = some x := h.knows_at hpc
    have hblocked : (s.task x).status = .blocked := by
      have hhead := LinkedChain.Queue.head_eq ha.links
      rw [hx] at hhead
      rw [h.status]
      exact ((ha.pending x).mp (List.mem_of_mem_head? hhead.symm)).2
    have hreports : (if (s.task x).status ≠ .blocked then
        s.reports ++ [DequeueReport.invalidStatus (s.task x).status] else s.reports) = s.reports :=
      if_neg (not_not.mpr hblocked)
    dsimp only
    rw [hreports]
    exact h.look hpc rfl rfl rfl id hx rfl rfl

theorem moved (h : s.Refines a holder) (s' : MutexMachine τ) (holder' : Option τ)
    (hpc : s'.pc = Function.update s.pc t pc)
    (hheld : pc.critical = true ↔ holder' = some t) (hother : ∀ u, u ≠ t → (holder' = some u ↔ holder = some u))
    (hknows : ∀ u, u ≠ t → a'.Knows (s.pc u)) (hholds : ∀ u, u ≠ t → s'.holds u = s.holds u)
    (hinside : ∀ u, u ≠ t → a'.inside u = a.inside u) (hholds' : ∀ u, u ≠ t → a'.holds u = a.holds u)
    (hself : s'.Fits a' t) : (∀ u, (s'.pc u).critical = true ↔ holder' = some u) ∧ ∀ u, s'.Fits a' u := by
  have hself' : s'.pc t = pc := by rw [hpc, Function.update_self]
  have hothers : ∀ u, u ≠ t → s'.pc u = s.pc u := fun u hut => by rw [hpc, Function.update_of_ne hut]
  refine ⟨fun u => ?_, fun u => ?_⟩
  · by_cases hut : u = t
    · rw [hut, hself']
      exact hheld
    · rw [hothers u hut, h.held u, hother u hut]
  · by_cases hut : u = t
    · rw [hut]
      exact hself
    · exact (h.fits u).congr (hknows u hut) (hothers u hut) (hholds u hut) (hinside u hut) (hholds' u hut)

theorem spin (h : s.Refines a holder) {pc₀ : MutexPc τ} (hpc : s.pc t = pc₀) (pc : MutexPc τ)
    (hcritical : pc.critical = true)
    (hinside : pc.inside = pc₀.inside) (howns : pc.owns = pc₀.owns)
    (hgone : pc.unlocking = true → pc₀.unlocking = true) (hknows : a.Knows pc)
    (hqueue : pc.queueAt t a.mutex.queue (fun u => (a.task u).waitNext) = a.mutex.queue)
    (hlinks : pc.linksAt t a.mutex.queue (fun u => (a.task u).waitNext) = fun u => (a.task u).waitNext) :
    ∃ holder', (s.spin t pc).Refines a holder' := by
  unfold MutexMachine.spin
  by_cases hfree : s.locker = 0
  · obtain rfl := h.locker.mp hfree
    rw [if_pos hfree]
    have hself : ({ s with locker := 1 }.goto t pc).pc t = pc := by rw [goto_pc, if_pos rfl]
    have hfits := h.fits t
    have hfit : ({ s with locker := 1 }.goto t pc).Fits a t := by
      refine ⟨?_, ?_, ?_, ?_⟩
      · rw [hself, hinside, ← hpc, hfits.inside]
      · rw [hself, howns, ← hpc]
        exact hfits.holds
      · rw [hself]
        exact fun hu => hfits.gone (hpc ▸ hgone hu)
      · rw [hself]
        exact hknows
    obtain ⟨hheld, hall⟩ := h.moved ({ s with locker := 1 }.goto t pc) (some t) rfl
      (iff_of_true hcritical rfl) (fun u hut => iff_of_false (fun he => hut (Option.some.inj he).symm) (by simp))
      (fun u _ => (h.fits u).knows) (fun _ _ => rfl) (fun _ _ => rfl) (fun _ _ => rfl) hfit
    refine ⟨some t, iff_of_false (by decide : (1 : Word) ≠ 0) (Option.some_ne_none t), hheld, hall, h.value,
      h.status, ?_,
      ?_, h.reports⟩
    · rw [Option.elim_some, hself, hqueue]
      exact h.queue
    · rw [Option.elim_some, hself, hlinks]
      exact h.links
  · rw [if_neg hfree]
    exact ⟨holder, h⟩

theorem release (h : s.Refines a (some t)) (holds : τ → Bool) (hholds : ∀ u, u ≠ t → holds u = s.holds u)
    (hcritical : pc.critical = false) (hinside : a.inside t = pc.inside) (howns : a.holds t = (holds t || pc.owns))
    (hgone : pc.unlocking = false) (hqueue : s.mutex.queue = a.mutex.queue)
    (hlinks : (fun u => (s.task u).waitNext) = fun u => (a.task u).waitNext) :
    ({ s with locker := 0, holds }.goto t pc).Refines a none := by
  have hself : ({ s with locker := 0, holds }.goto t pc).pc t = pc := by rw [goto_pc, if_pos rfl]
  have hfits : ({ s with locker := 0, holds }.goto t pc).Fits a t := by
    refine ⟨?_, ?_, ?_, ?_⟩
    · rw [hself, hinside]
    · rw [hself, howns]
      rfl
    · rw [hself, hgone]
      exact fun hc => absurd hc Bool.false_ne_true
    · rw [hself]
      exact MutexState.knows_of_not_critical hcritical
  obtain ⟨hheld, hall⟩ := h.moved ({ s with locker := 0, holds }.goto t pc) none rfl
    (iff_of_false (ne_true_of_eq_false hcritical) (by simp))
    (fun u hut => iff_of_false (by simp) fun he => hut (Option.some.inj he).symm) (fun u _ => (h.fits u).knows) hholds
    (fun _ _ => rfl) (fun _ _ => rfl) hfits
  exact ⟨iff_of_true rfl rfl, hheld, hall, h.value, h.status, hqueue, hlinks, h.reports⟩

theorem commit (h : s.Refines a (some t)) (s' : MutexMachine τ) (a' : MutexState τ)
    (hpc : s'.pc = Function.update s.pc t pc) (hlast : pc.last = true) (hlocker : s'.locker = s.locker)
    (hholds : s'.holds = s.holds) (hreports : s'.reports = s.reports)
    (hinside : ∀ u, u ≠ t → a'.inside u = a.inside u) (hholds' : ∀ u, u ≠ t → a'.holds u = a.holds u)
    (hself : a'.inside t = pc.inside) (howns : a'.holds t = (s.holds t || pc.owns))
    (hvalue : s'.mutex.value = a'.mutex.value) (hstatus : ∀ u, (s'.task u).status = (a'.task u).status)
    (hqueue : s'.mutex.queue = a'.mutex.queue)
    (hlinks : (fun u => (s'.task u).waitNext) = fun u => (a'.task u).waitNext) : s'.Refines a' (some t) := by
  have hpc' : s'.pc t = pc := by rw [hpc, Function.update_self]
  have hplace : pc.critical = true ∧ pc.unlocking = false ∧ a'.Knows pc ∧
      (∀ queue (next : τ → Option τ), pc.queueAt t queue next = queue) ∧
      ∀ queue (next : τ → Option τ), pc.linksAt t queue next = next := by
    cases pc <;> first
      | exact absurd hlast Bool.false_ne_true
      | exact ⟨rfl, rfl, trivial, fun _ _ => rfl, fun _ _ => rfl⟩
  obtain ⟨hcritical, hgone, hknows, hqueueAt, hlinksAt⟩ := hplace
  have hfits : s'.Fits a' t := by
    refine ⟨?_, ?_, ?_, ?_⟩
    · rw [hpc', hself]
    · rw [hpc', hholds, howns]
    · rw [hpc', hgone]
      exact fun hc => absurd hc Bool.false_ne_true
    · rw [hpc']
      exact hknows
  obtain ⟨hheld, hall⟩ := h.moved s' (some t) hpc (iff_of_true hcritical rfl) (fun _ _ => Iff.rfl)
    (fun u hut => MutexState.knows_of_not_critical (h.not_critical hut))
    (fun u _ => congrFun hholds u) hinside hholds'
    hfits
  refine ⟨hlocker ▸ h.locker, hheld, hall, hvalue, hstatus, ?_, ?_, hreports.trans h.reports⟩
  · rw [Option.elim_some, hpc', hqueueAt, hqueue]
  · rw [Option.elim_some, hpc', hlinksAt, hlinks]

theorem lockStore (h : s.Refines a (some t)) (hpc : s.pc t = .lockStore) :
    MutexState.Step a (.lock t) (a.next (.lock t)) ∧ (s.access t).Refines (a.next (.lock t)) (some t) := by
  have hvalue : a.mutex.value = 0 := h.knows_at hpc
  have hqueue : s.mutex.queue = a.mutex.queue := h.queue_at hpc
  have hlinks : (fun u => (s.task u).waitNext) = fun u => (a.task u).waitNext := h.links_at hpc
  have hin : a.inside t = false := by
    rw [(h.fits t).inside, hpc]
    rfl
  have hnext : a.next (.lock t) = { a with mutex := { a.mutex with value := 1 },
                                           holds := Function.update a.holds t true } := by
    simp [MutexState.next, BaseMutex.lock, hvalue]
  refine ⟨⟨hin, rfl⟩, ?_⟩
  rw [access, hpc, hnext]
  refine h.commit _ _ rfl rfl rfl rfl rfl (fun _ _ => rfl)
    (fun u hut => Function.update_of_ne hut ..) hin ?_ rfl h.status
    hqueue hlinks
  dsimp only
  rw [Function.update_self]
  exact (Bool.or_true _).symm

theorem links_setStatus (task : Tasks τ) (t : τ) (status : Status) :
    (fun u => (setStatus task t status u).waitNext) = fun u => (task u).waitNext :=
  funext fun _ => setStatus_waitNext ..

/-- In front of the write of the status, the queue and the links are those behind `enqueue`. -/
theorem enqueue_at (ha : a.Inv q) (t : τ) : (a.mutex.queue.enqueue a.task t).1 =
      (MutexPc.enqBlock).queueAt t a.mutex.queue (fun u => (a.task u).waitNext) ∧
    (fun u => ((a.mutex.queue.enqueue a.task t).2 u).waitNext) =
      (MutexPc.enqBlock).linksAt t a.mutex.queue fun u => (a.task u).waitNext := by
  unfold Waitlist.enqueue MutexPc.queueAt MutexPc.linksAt
  cases htail : a.mutex.queue.tail with
  | none =>
    refine ⟨?_, ?_⟩
    · rw [(ends ha).mp htail]
      rfl
    · rw [links_setStatus, links_setWaitNext]
  | some x =>
    have hhead : a.mutex.queue.head ≠ none := fun hnone =>
      Option.some_ne_none x (htail.symm.trans ((ends ha).mpr hnone))
    obtain ⟨y, hy⟩ := Option.ne_none_iff_exists'.mp hhead
    refine ⟨?_, ?_⟩
    · rw [hy]
      rfl
    · rw [links_setStatus, links_setWaitNext, links_setWaitNext]

/-- `lock` of a mutex that is taken is done with the write of the status. -/
theorem enqBlock (h : s.Refines a (some t)) (ha : a.Inv q) (hpc : s.pc t = .enqBlock) :
    MutexState.Step a (.lock t) (a.next (.lock t)) ∧ (s.access t).Refines (a.next (.lock t)) (some t) := by
  have hvalue : a.mutex.value ≠ 0 := h.knows_at hpc
  have hfits := h.fits t
  have hin : a.inside t = false := by
    rw [hfits.inside, hpc]
    rfl
  generalize hr : a.mutex.queue.enqueue a.task t = r
  obtain ⟨hqueue, hlinks⟩ : r.1 = (MutexPc.enqBlock).queueAt t a.mutex.queue (fun u => (a.task u).waitNext) ∧
      (fun u => (r.2 u).waitNext) =
        (MutexPc.enqBlock).linksAt t a.mutex.queue fun u => (a.task u).waitNext := by
    rw [← hr]
    exact enqueue_at ha t
  have hstatus : ∀ u, (r.2 u).status = if u = t then .blocked else (a.task u).status := by
    rw [← hr]
    exact a.mutex.queue.enqueue_status a.task t
  have hnext : a.next (.lock t) = { a with mutex := { a.mutex with queue := r.1 }, task := r.2,
                                           inside := Function.update a.inside t true,
                                           enqueued := a.enqueued ++ [t] } := by
    have hlock : a.mutex.lock a.task t = ({ a.mutex with queue := r.1 }, r.2, false) := by
      rw [← hr]
      exact if_neg hvalue
    simp only [MutexState.next, hlock, Bool.false_eq_true, if_false]
  refine ⟨⟨hin, rfl⟩, ?_⟩
  rw [access, hpc, hnext]
  refine h.commit _ _ rfl rfl rfl rfl rfl (fun u hut => Function.update_of_ne hut ..) (fun _ _ => rfl)
    (Function.update_self ..) ?_ h.value (fun u => ?_) ?_ ?_
  · have hholds := hfits.holds
    rw [hpc] at hholds
    exact hholds
  · have hs : ((setStatus s.task t .blocked) u).status = (r.2 u).status := by
      rw [setStatus_status, hstatus, h.status]
    exact hs
  · exact (h.queue_at hpc).trans hqueue.symm
  · exact (links_setStatus ..).trans ((h.links_at hpc).trans hlinks.symm)

/-- `unlock` that nobody waits for is done with the write of `value`. -/
theorem unlockStore (h : s.Refines a (some t)) (hpc : s.pc t = .unlockStore) :
    MutexState.Step a (.unlock t) (a.next (.unlock t)) ∧ (s.access t).Refines (a.next (.unlock t)) (some t) := by
  have hhead : a.mutex.queue.head = none := h.knows_at hpc
  have hqueue : s.mutex.queue = a.mutex.queue := h.queue_at hpc
  have hlinks : (fun u => (s.task u).waitNext) = fun u => (a.task u).waitNext := h.links_at hpc
  have hfits := h.fits t
  have hin : a.inside t = false := by
    rw [hfits.inside, hpc]
    rfl
  have hgone : s.holds t = false := hfits.gone (by rw [hpc]; rfl)
  have hholds : a.holds t = true := by
    rw [hfits.holds, hpc]
    exact Bool.or_true _
  have hnext : a.next (.unlock t) = { a with mutex := { a.mutex with value := 0 },
                                             holds := Function.update a.holds t false } := by
    simp [MutexState.next, BaseMutex.unlock, Waitlist.empty, hhead]
  refine ⟨⟨⟨hin, hholds⟩, rfl⟩, ?_⟩
  rw [access, hpc, hnext]
  refine h.commit _ _ rfl rfl rfl rfl rfl (fun _ _ => rfl)
    (fun u hut => Function.update_of_ne hut ..) hin ?_ rfl h.status
    hqueue hlinks
  dsimp only
  rw [Function.update_self, hgone]
  rfl

/-- `unlock` that hands the mutex over is done with the write of the status. -/
theorem deqWake (h : s.Refines a (some t)) {x : τ} (hpc : s.pc t = .deqWake x)
    (hblocked : (a.task x).status = .blocked) :
    MutexState.Step a (.unlock t) (a.next (.unlock t)) ∧ (s.access t).Refines (a.next (.unlock t)) (some t) := by
  have hhead : a.mutex.queue.head = some x := h.knows_at hpc
  have hlinks : (fun u => (s.task u).waitNext) = fun u => (a.task u).waitNext := h.links_at hpc
  have hfits := h.fits t
  have hin : a.inside t = false := by
    rw [hfits.inside, hpc]
    rfl
  have hgone : s.holds t = false := hfits.gone (by rw [hpc]; rfl)
  have hholds : a.holds t = true := by
    rw [hfits.holds, hpc]
    exact Bool.or_true _
  have hqueue : s.mutex.queue =
      if a.mutex.queue.head = a.mutex.queue.tail then .new else { a.mutex.queue with head := (a.task x).waitNext } :=
    h.queue_at hpc
  have hnext : a.next (.unlock t) = { a with
      mutex := { a.mutex with queue := if a.mutex.queue.head = a.mutex.queue.tail then .new
                                       else { a.mutex.queue with head := (a.task x).waitNext } },
      task := setStatus a.task x .waiting, holds := Function.update a.holds t false, woken := a.woken ++ [x] } := by
    simp [MutexState.next, BaseMutex.unlock, Waitlist.empty, Waitlist.dequeue, hhead, hblocked]
  refine ⟨⟨⟨hin, hholds⟩, rfl⟩, ?_⟩
  rw [access, hpc, hnext]
  refine h.commit _ _ rfl rfl rfl rfl rfl (fun _ _ => rfl) (fun u hut => Function.update_of_ne hut ..) hin ?_ h.value
    (fun u => ?_) hqueue ?_
  · dsimp only
    rw [Function.update_self, hgone]
    rfl
  · have hs : ((setStatus s.task x .waiting) u).status = ((setStatus a.task x .waiting) u).status := by
      rw [setStatus_status, setStatus_status, h.status]
    exact hs
  · exact (links_setStatus ..).trans (hlinks.trans (links_setStatus ..).symm)

theorem aside (h : s.Refines a holder) (hnot : holder ≠ some t) (s' : MutexMachine τ) (a' : MutexState τ)
    (hpc : s'.pc = Function.update s.pc t pc) (hcritical : pc.critical = false) (hlocker : s'.locker = s.locker)
    (hmutex : s'.mutex = s.mutex) (htask : s'.task = s.task) (hreports : s'.reports = s.reports)
    (hmutex' : a'.mutex = a.mutex) (htask' : a'.task = a.task) (hholds : ∀ u, u ≠ t → s'.holds u = s.holds u)
    (hinside : ∀ u, u ≠ t → a'.inside u = a.inside u) (hholds' : ∀ u, u ≠ t → a'.holds u = a.holds u)
    (hself : a'.inside t = pc.inside) (howns : a'.holds t = (s'.holds t || pc.owns))
    (hgone : pc.unlocking = true → s'.holds t = false) : s'.Refines a' holder := by
  have hpc' : s'.pc t = pc := by rw [hpc, Function.update_self]
  have hfits : s'.Fits a' t := by
    refine ⟨?_, ?_, ?_, ?_⟩
    · rw [hpc', hself]
    · rw [hpc', howns]
    · rw [hpc']
      exact hgone
    · rw [hpc']
      exact MutexState.knows_of_not_critical hcritical
  obtain ⟨hheld, hall⟩ := h.moved s' holder hpc (iff_of_false (ne_true_of_eq_false hcritical) hnot)
    (fun _ _ => Iff.rfl) (fun u _ => (h.fits u).knows.congr hmutex') hholds hinside hholds' hfits
  have hother : ∀ v, holder = some v → s'.pc v = s.pc v := by
    rintro v rfl
    rw [hpc, Function.update_of_ne]
    rintro rfl
    exact hnot rfl
  refine ⟨hlocker ▸ h.locker, hheld, hall, ?_, ?_, ?_, ?_, hreports.trans h.reports⟩
  · rw [hmutex, hmutex']
    exact h.value
  · rw [htask, htask']
    exact h.status
  · rw [hmutex, hmutex', htask', h.queue]
    cases holder with
    | none => rfl
    | some v => rw [Option.elim_some, Option.elim_some, hother v rfl]
  · rw [htask, hmutex', htask', h.links]
    cases holder with
    | none => rfl
    | some v => rw [Option.elim_some, Option.elim_some, hother v rfl]

theorem ne_of_outside (h : s.Refines a holder) (hcritical : (s.pc t).critical = false) : holder ≠ some t := fun he =>
  Bool.false_ne_true (hcritical.symm.trans ((h.held t).mpr he))

theorem other (h : s.Refines a holder) (t : τ) (status : Status) (next next' : Option τ)
    (hlinks : ∀ v, holder = some v →
      Function.update (fun u => (s.task u).waitNext) t next = (s.pc v).linksAt v a.mutex.queue
        (Function.update (fun u => (a.task u).waitNext) t next') ∧
      (s.pc v).queueAt v a.mutex.queue (Function.update (fun u => (a.task u).waitNext) t next') =
        (s.pc v).queueAt v a.mutex.queue fun u => (a.task u).waitNext)
    (hnone : holder = none → next = next') :
    ({ s with task := setWaitNext (setStatus s.task t status) t next }).Refines
      (a.next (.other t status next')) holder := by
  refine ⟨h.locker, h.held, fun u => (h.fits u).congr ((h.fits u).knows.congr rfl) rfl rfl rfl rfl, h.value,
    fun u => ?_,
    ?_, ?_, h.reports⟩
  · dsimp only [MutexState.next]
    rw [setWaitNext_status, setStatus_status, setWaitNext_status, setStatus_status, h.status]
  · dsimp only [MutexState.next]
    rw [links_setWaitNext, links_setStatus, h.queue]
    cases holder with
    | none => rfl
    | some v => rw [Option.elim_some, Option.elim_some, (hlinks v rfl).2]
  · dsimp only [MutexState.next]
    rw [links_setWaitNext, links_setStatus, links_setWaitNext, links_setStatus]
    cases holder with
    | none =>
      rw [hnone rfl, h.links]
      rfl
    | some v =>
      rw [Option.elim_some]
      exact (hlinks v rfl).1

theorem schedule (h : s.Refines a holder) (t : τ) (status : Status) :
    ({ s with task := setStatus s.task t status }).Refines (a.next (.other t status (a.task t).waitNext)) holder := by
  have hself : ∀ task : Tasks τ, setWaitNext (setStatus task t status) t (task t).waitNext =
      setStatus task t status := by
    intro task
    funext u
    by_cases hut : u = t
    · simp [setWaitNext, setStatus, hut]
    · simp [setWaitNext, setStatus, hut]
  have hother := h.other t status (s.task t).waitNext (a.task t).waitNext (fun v hv => ?_) (fun hv => ?_)
  · rw [hself] at hother
    exact hother
  · have hupdate : ∀ task : Tasks τ, Function.update (fun u => (task u).waitNext) t (task t).waitNext =
        fun u => (task u).waitNext := fun task => Function.update_eq_self t fun u => (task u).waitNext
    rw [hupdate, hupdate, h.links, hv]
    exact ⟨rfl, rfl⟩
  · have hlinks := congrFun h.links t
    rw [hv] at hlinks
    exact hlinks

theorem ne_of_waits (h : s.Refines a holder) (ha : a.Inv q) {x : τ} (hx : x ∈ q) (hpc : s.pc t = .outside) :
    t ≠ x := by
  rintro rfl
  have hin := ((ha.pending t).mp hx).1
  rw [(h.fits t).inside, hpc] at hin
  cases hin

theorem elsewhere (h : s.Refines a holder) (ha : a.Inv q) (hpc : s.pc t = .outside) (status : Status)
    (next : Option τ) :
    ({ s with task := setWaitNext (setStatus s.task t status) t next }).Refines
      (a.next (.other t status next)) holder := by
  refine h.other t status next next (fun v hv => ?_) fun _ => rfl
  subst hv
  have hvt : v ≠ t := by
    rintro rfl
    exact h.ne_of_outside (by rw [hpc]; rfl) rfl
  have hcomm : ∀ (links : τ → Option τ) x n, t ≠ x → Function.update (Function.update links x n) t next =
      Function.update (Function.update links t next) x n :=
    fun links x n htx => (Function.update_comm htx next n links).symm
  have htail : ∀ x, a.mutex.queue.tail = some x → t ≠ x := by
    intro x hx
    have hlast := ha.links.tail_eq
    rw [hx] at hlast
    exact h.ne_of_waits ha (List.mem_of_getLast? hlast.symm) hpc
  have hhead : ∀ x, a.mutex.queue.head = some x → t ≠ x := by
    intro x hx
    have hfirst := LinkedChain.Queue.head_eq ha.links
    rw [hx] at hfirst
    exact h.ne_of_waits ha (List.mem_of_mem_head? hfirst.symm) hpc
  have hknows := (h.fits v).knows
  have hlinks := h.links
  rw [Option.elim_some] at hlinks
  rw [hlinks]
  generalize s.pc v = pc at hknows ⊢
  cases pc with
  | enqTail | enqHead | enqLink => exact ⟨hcomm _ v none hvt.symm, rfl⟩
  | enqSetTail | enqBlock =>
    refine ⟨?_, rfl⟩
    unfold MutexPc.linksAt
    cases hx : a.mutex.queue.tail with
    | none => exact hcomm _ v none hvt.symm
    | some x =>
      dsimp only
      rw [hcomm _ x _ (htail x hx), hcomm _ v _ hvt.symm]
  | deqCheck x | deqWake x =>
    have hx : a.mutex.queue.head = some x := hknows
    refine ⟨rfl, ?_⟩
    unfold MutexPc.queueAt
    dsimp only
    rw [Function.update_of_ne (hhead x hx).symm]
  | outside | lockSpin | lockTest | lockStore | lockFree | enqNext | waitFree | sleeping | unlockSpin | unlockTest
  | unlockStore | deqTest | deqCompare | deqClearTail | deqClearHead | deqAdvance | unlockFree => exact ⟨rfl, rfl⟩

/-- An access of a task in a call. -/
theorem access (h : s.Refines a holder) (ha : a.Inv q) (henabled : s.Enabled (.access t)) :
    ∃ es a' holder', Run MutexState.Step a es a' ∧ (s.access t).Refines a' holder' := by
  have hholder : (s.pc t).critical = true → s.Refines a (some t) := fun hc => (h.held t).mp hc ▸ h
  obtain ⟨houtside, hwake⟩ := henabled
  have hfits := h.fits t
  by_cases hquiet : (s.pc t).quiet = true
  · have hcritical : (s.pc t).critical = true := by
      generalize s.pc t = pc at hquiet
      cases pc <;> first | rfl | exact absurd hquiet Bool.false_ne_true
    exact ⟨[], a, some t, .nil a, (hholder hcritical).step_quiet ha hquiet⟩
  cases hpc : s.pc t with
  | outside => exact absurd hpc houtside
  | lockTest | enqNext | enqTail | enqHead | enqLink | enqSetTail | unlockTest | deqTest | deqCompare | deqClearTail
  | deqClearHead | deqAdvance | deqCheck => exact absurd (by rw [hpc]; rfl) hquiet
  | lockSpin =>
    obtain ⟨holder', hspin⟩ := h.spin hpc .lockTest rfl rfl rfl id trivial rfl rfl
    refine ⟨[], a, holder', .nil a, ?_⟩
    rw [MutexMachine.access, hpc]
    exact hspin
  | unlockSpin =>
    obtain ⟨holder', hspin⟩ := h.spin hpc .unlockTest rfl rfl rfl id trivial rfl rfl
    refine ⟨[], a, holder', .nil a, ?_⟩
    rw [MutexMachine.access, hpc]
    exact hspin
  | lockStore =>
    obtain ⟨hstep, hs'⟩ := (hholder (by rw [hpc]; rfl)).lockStore hpc
    exact ⟨_, _, some t, .single hstep, hs'⟩
  | enqBlock =>
    obtain ⟨hstep, hs'⟩ := (hholder (by rw [hpc]; rfl)).enqBlock ha hpc
    exact ⟨_, _, some t, .single hstep, hs'⟩
  | unlockStore =>
    obtain ⟨hstep, hs'⟩ := (hholder (by rw [hpc]; rfl)).unlockStore hpc
    exact ⟨_, _, some t, .single hstep, hs'⟩
  | deqWake x =>
    have hs := hholder (by rw [hpc]; rfl)
    have hhead : a.mutex.queue.head = some x := hs.knows_at hpc
    have hfirst := LinkedChain.Queue.head_eq ha.links
    rw [hhead] at hfirst
    have hblocked := ((ha.pending x).mp (List.mem_of_mem_head? hfirst.symm)).2
    obtain ⟨hstep, hs'⟩ := hs.deqWake hpc hblocked
    exact ⟨_, _, some t, .single hstep, hs'⟩
  | lockFree =>
    have hs := hholder (by rw [hpc]; rfl)
    have hin : a.inside t = false := by
      rw [hfits.inside, hpc]
      rfl
    have hholds : a.holds t = true := by
      rw [hfits.holds, hpc]
      exact Bool.or_true _
    refine ⟨[], a, none, .nil a, ?_⟩
    rw [MutexMachine.access, hpc]
    refine hs.release _ (fun u hut => Function.update_of_ne hut ..) rfl hin ?_ rfl (hs.queue_at hpc) (hs.links_at hpc)
    rw [hholds, Function.update_self]
    rfl
  | waitFree =>
    have hs := hholder (by rw [hpc]; rfl)
    have hin : a.inside t = true := by
      rw [hfits.inside, hpc]
      rfl
    have hholds : a.holds t = (s.holds t || false) := by
      rw [hfits.holds, hpc]
      rfl
    refine ⟨[], a, none, .nil a, ?_⟩
    rw [MutexMachine.access, hpc]
    exact hs.release s.holds (fun _ _ => rfl) rfl hin hholds rfl (hs.queue_at hpc) (hs.links_at hpc)
  | unlockFree =>
    have hs := hholder (by rw [hpc]; rfl)
    have hin : a.inside t = false := by
      rw [hfits.inside, hpc]
      rfl
    have hholds : a.holds t = (s.holds t || false) := by
      rw [hfits.holds, hpc]
      rfl
    refine ⟨[], a, none, .nil a, ?_⟩
    rw [MutexMachine.access, hpc]
    exact hs.release s.holds (fun _ _ => rfl) rfl hin hholds rfl (hs.queue_at hpc) (hs.links_at hpc)
  | sleeping =>
    have hnot := h.ne_of_outside (t := t) (by rw [hpc]; rfl)
    have hin : a.inside t = true := by
      rw [hfits.inside, hpc]
      rfl
    have hstatus := hwake hpc
    rw [h.status] at hstatus
    refine ⟨[.resume t], _, holder, .single ⟨⟨hin, hstatus⟩, rfl⟩, ?_⟩
    rw [MutexMachine.access, hpc]
    refine h.aside hnot _ _ rfl rfl rfl rfl rfl rfl rfl rfl (fun u hut => Function.update_of_ne hut ..)
      (fun u hut => Function.update_of_ne hut ..) (fun u hut => Function.update_of_ne hut ..)
      (Function.update_self ..) ?_ fun hc => by cases hc
    dsimp only [MutexState.next, MutexMachine.goto]
    rw [Function.update_self, Function.update_self]
    rfl

/-- Each step is none or one of the atomic mutex. -/
theorem step {e : MachineEvent τ} (h : s.Refines a holder) (ha : a.Inv q) (hstep : Step s e s') :
    ∃ es a' holder', Run MutexState.Step a es a' ∧ s'.Refines a' holder' := by
  obtain ⟨henabled, rfl⟩ := hstep
  cases e with
  | lock t =>
    have hpc : s.pc t = .outside := henabled
    have hfits := h.fits t
    rw [MutexMachine.next]
    refine ⟨[], a, holder, .nil a, h.aside (h.ne_of_outside (by rw [hpc]; rfl)) _ a rfl rfl rfl rfl rfl rfl rfl rfl
      (fun _ _ => rfl) (fun _ _ => rfl) (fun _ _ => rfl) ?_ ?_ fun hc => by cases hc⟩
    · rw [hfits.inside, hpc]
      rfl
    · rw [hfits.holds, hpc]
      rfl
  | unlock t =>
    obtain ⟨hpc, hholds⟩ : s.pc t = .outside ∧ s.holds t = true := henabled
    have hfits := h.fits t
    rw [MutexMachine.next]
    refine ⟨[], a, holder, .nil a, h.aside (h.ne_of_outside (by rw [hpc]; rfl)) _ a rfl rfl rfl rfl rfl rfl rfl rfl
      (fun u hut => Function.update_of_ne hut ..) (fun _ _ => rfl) (fun _ _ => rfl) ?_ ?_
      fun _ => Function.update_self ..⟩
    · rw [hfits.inside, hpc]
      rfl
    · rw [hfits.holds, hholds]
      exact (Bool.or_true _).symm
  | access t => exact h.access ha henabled
  | schedule t status =>
    obtain ⟨hawake, hstatus⟩ : (s.task t).status ≠ .blocked ∧ status ≠ .blocked := henabled
    rw [h.status] at hawake
    have henabled' : a.Enabled (.other t status (a.task t).waitNext) := fun _ => ⟨hawake, hstatus⟩
    exact ⟨_, _, holder, .single ⟨henabled', rfl⟩, h.schedule t status⟩
  | elsewhere t status next =>
    have hpc : s.pc t = .outside := henabled
    have hin : a.inside t = false := by
      rw [(h.fits t).inside, hpc]
      rfl
    have henabled' : a.Enabled (.other t status next) := fun hc => absurd (hin.symm.trans hc) Bool.false_ne_true
    exact ⟨_, _, holder, .single ⟨henabled', rfl⟩, h.elsewhere ha hpc status next⟩

end Refines

/-- The atomic mutex at the start. -/
def atomic (s : MutexMachine τ) : MutexState τ := ⟨s.task, s.mutex, fun _ => false, fun _ => false, [], [], [], []⟩

theorem Init.refines (h : s.Init) : s.Refines s.atomic none := by
  refine ⟨iff_of_true h.locker rfl, fun t => ?_, fun t => ⟨?_, ?_, ?_, ?_⟩, rfl, fun _ => rfl, rfl, rfl, h.reports⟩
  · rw [h.pc t]
    exact iff_of_false Bool.false_ne_true (by simp)
  · rw [h.pc t]
    rfl
  · rw [h.pc t, h.holds t]
    rfl
  · rw [h.pc t]
    exact fun hc => absurd hc Bool.false_ne_true
  · rw [h.pc t]
    trivial

/-- In every run the accesses do what the atomic mutex does. -/
theorem refines_run {es : List (MachineEvent τ)} (hinit : s.Init) (hrun : Run Step s es s') :
    ∃ es' a holder, Run MutexState.Step s.atomic es' a ∧ s'.Refines a holder ∧ ∃ q, a.Inv q := by
  have hstart : s.atomic.Init := ⟨hinit.mutex, fun _ => rfl, fun _ => rfl, rfl, rfl, rfl, rfl⟩
  have hkeep : ∀ (a : MutexState τ) e a', (∃ q, a.Inv q) → MutexState.Step a e a' → ∃ q, a'.Inv q :=
    fun _ _ _ ⟨_, hinv⟩ he => MutexState.step_inv hinv he
  have hsim : ∀ (s : MutexMachine τ) e s' a, ((∃ holder, Refines s a holder) ∧ ∃ q, a.Inv q) → Step s e s' →
      ∃ es a', Run MutexState.Step a es a' ∧ (∃ holder, Refines s' a' holder) ∧ ∃ q, a'.Inv q := by
    rintro s e s' a ⟨⟨holder, hs⟩, q, ha⟩ hstep
    obtain ⟨es, a', holder', hrun, hs'⟩ := hs.step ha hstep
    exact ⟨es, a', hrun, ⟨holder', hs'⟩, hrun.invariant hkeep ⟨q, ha⟩⟩
  obtain ⟨es', a, hrun', ⟨holder, hs'⟩, ha⟩ := hrun.simulate_many hsim ⟨⟨none, hinit.refines⟩, [], hstart.inv⟩
  exact ⟨es', a, holder, hrun', hs', ha⟩

/-- The accesses of a run are a run of the atomic mutex. No two tasks are between `lock` and `unlock`, `value` is
set while one is, so that a `MutexLocker` unlocks what it has locked, and `dequeue` has nothing to print. It is
assumed that `reschedule` does not return to a blocked task, which `schedule` itself does, and that nothing outside
of the mutex changes a task inside a call. -/
theorem accesses_refine {es : List (MachineEvent τ)} (hinit : s.Init) (hrun : Run Step s es s') :
    (∃ es' a holder, Run MutexState.Step s.atomic es' a ∧ s'.Refines a holder) ∧
      (∀ t u, s'.holds t = true → s'.holds u = true → t = u) ∧
      (∀ t, s'.holds t = true → s'.mutex.value ≠ 0) ∧ s'.reports = [] := by
  obtain ⟨es', a, holder, hrun', hs', q, ha⟩ := refines_run hinit hrun
  have howner : ∀ t, s'.holds t = true → a.Owner t := by
    intro t ht
    refine .inl ?_
    rw [(hs'.fits t).holds, ht]
    rfl
  refine ⟨⟨es', a, holder, hrun', hs'⟩, fun t u ht hu => ?_, fun t ht => ?_, hs'.reports⟩
  · exact ha.safe.unique t u (howner t ht) (howner u hu)
  · rw [hs'.value]
    exact ha.safe.value.mpr ⟨t, howner t ht⟩

/-- A new mutex that no task has called. -/
def newMachine : MutexMachine ℕ where
  task _ := ⟨none, .running, false, 0, 1, 1, 0, 0⟩
  mutex := ⟨0, .new⟩
  locker := 0
  pc _ := .outside
  holds _ := false
  reports := []

theorem newMachine_init : newMachine.Init := ⟨rfl, rfl, fun _ => rfl, fun _ => rfl, rfl⟩

/-- One task calls `lock` while another one has the mutex, and gets it from `unlock`. -/
def handoverEvents : List (MachineEvent ℕ) :=
  .lock 0 :: List.replicate 4 (.access 0) ++ .lock 1 :: List.replicate 8 (.access 1) ++
    .unlock 0 :: List.replicate 8 (.access 0) ++ [.access 1]

theorem handover_run : Run Step newMachine handoverEvents (handoverEvents.foldl next newMachine) :=
  run_of_allowed (fun s e => decide (s.Enabled e)) (fun _ _ h => ⟨of_decide_eq_true h, rfl⟩) (by decide +kernel)

theorem accesses_refine_handover :
    (handoverEvents.foldl next newMachine).holds 1 = true ∧
      (handoverEvents.foldl next newMachine).mutex.value ≠ 0 := by
  have hholds : (handoverEvents.foldl next newMachine).holds 1 = true := by decide +kernel
  exact ⟨hholds, (accesses_refine newMachine_init handover_run).2.2.1 1 hholds⟩

end MutexMachine

end CxxKernel.Sched
