import CxxKernel.Paging.PagingX86
import CxxKernel.Sched.Mutex
import CxxKernel.Words

/-! `pthread_mutex_init`, and the mutex that the other functions of `pthread_mutex_t` find in its storage. -/
namespace CxxKernel.Sched
open Mem Paging

/-- The memory, and the allocator of the static pages. -/
structure LibcState where
  memory : Bytes
  paging : PagingPrivate

/-- `sizeof(Mutex)`: the value, the spinlock, and the two ends of the queue. -/
def sizeofMutex : Word := 16

/-- The address of an object, stored at an address unless that is the null pointer. -/
def addressed (mem : Bytes) (addr this : Word) : Bytes := if addr ≠ 0 then setWord mem addr this else mem

/-- `operator new(operator_size_t, ptr_t)`, whose second argument is where the address is stored. -/
def operatorNew (size addr : Word) (s : LibcState) : Word × LibcState :=
  let (tmp, paging) := s.paging.allocStatic size
  (tmp, ⟨addressed s.memory addr tmp, paging⟩)

def constructMutex (this : Word) (mem : Bytes) : Bytes :=
  setWord (setWord (setWord (setWord mem this 0) (this + 4) 0) (this + 8) 0) (this + 12) 0

def pthread_mutex_init (m _attr : Word) (s : LibcState) : Word × LibcState :=
  let (this, s) := operatorNew sizeofMutex m s
  (0, { s with memory := constructMutex this s.memory })

def pointer (mem : Bytes) (p : Word) : Option Word := if word mem p = 0 then none else some (word mem p)

/-- `Mutex` with the spinlock that its functions take first. -/
structure LockedMutex where
  locker : Word
  mutex : BaseMutex Word

namespace LockedMutex

/-- The object that `__from_libc` finds at the address. -/
def fromLibc (mem : Bytes) (m : Word) : LockedMutex :=
  ⟨word mem (m + 4), word mem m, pointer mem (m + 8), pointer mem (m + 12)⟩

variable (x : LockedMutex) (tasks : Tasks Word) (current : Word)

/-- `lock` by the task `current`, or `none` where it has to wait: for the spinlock, or in the queue. -/
def lock : Option (LockedMutex × Tasks Word) :=
  if x.locker ≠ 0 then none
  else
    let (mutex, tasks, done) := x.mutex.lock tasks current
    if done then some (⟨0, mutex⟩, tasks) else none

def unlock : Option (LockedMutex × Tasks Word) :=
  if x.locker ≠ 0 then none
  else
    let (mutex, tasks, _) := x.mutex.unlock tasks
    some (⟨0, mutex⟩, tasks)

/-- The task locks the mutex and unlocks it `n` times. -/
def pairs : ℕ → LockedMutex × Tasks Word → Option (LockedMutex × Tasks Word)
  | 0, s => some s
  | n + 1, (x, tasks) => ((x.lock tasks current).bind fun (x, tasks) => x.unlock tasks).bind (pairs n)

end LockedMutex

/-- The mutex is unlocked, and no task waits for it. The first `lock` succeeds and leaves the tasks alone, and
a task that locks and unlocks it never has to wait. -/
structure InitLaw (x : LockedMutex) : Prop where
  unlocked : x.locker = 0 ∧ x.mutex.value = 0
  queue : x.mutex.queue = .new
  first : ∀ tasks current, ∃ x', x.lock tasks current = some (x', tasks)
  pairs : ∀ tasks current n, (LockedMutex.pairs current n (x, tasks)).isSome

section Init
variable {mem : Bytes} {m this : Word} {s : LibcState} {x : LockedMutex}

/-- The unlocked mutex behaves as one. -/
theorem initLaw_iff_eq : InitLaw x ↔ x = ⟨0, 0, .new⟩ := by
  constructor
  · rintro ⟨⟨hlocker, hvalue⟩, hqueue, -, -⟩
    obtain ⟨locker, value, queue⟩ := x
    obtain rfl : locker = 0 := hlocker
    obtain rfl : value = 0 := hvalue
    obtain rfl : queue = .new := hqueue
    rfl
  · rintro rfl
    have hpair : ∀ (tasks : Tasks Word) (current : Word),
        ((LockedMutex.mk 0 ⟨0, .new⟩).lock tasks current).bind (fun (x, tasks) => x.unlock tasks) =
          some (⟨0, 0, .new⟩, tasks) := fun _ _ => rfl
    refine ⟨⟨rfl, rfl⟩, rfl, fun tasks current => ⟨_, rfl⟩, fun tasks current n => ?_⟩
    induction n with
    | zero => rfl
    | succ n ih =>
      rw [LockedMutex.pairs, hpair]
      exact ih

theorem pointer_eq_none {p : Word} : pointer mem p = none ↔ word mem p = 0 := by
  unfold pointer
  split_ifs with h
  · exact iff_of_true rfl h
  · exact iff_of_false not_false h

theorem fromLibc_eq : LockedMutex.fromLibc mem m = ⟨0, 0, .new⟩ ↔
    word mem m = 0 ∧ word mem (m + 4) = 0 ∧ word mem (m + 8) = 0 ∧ word mem (m + 12) = 0 := by
  rw [← pointer_eq_none (p := m + 8), ← pointer_eq_none (p := m + 12)]
  constructor
  · intro h
    obtain ⟨hlocker, hmutex⟩ := LockedMutex.mk.inj h
    obtain ⟨hvalue, hqueue⟩ := BaseMutex.mk.inj hmutex
    obtain ⟨hhead, htail⟩ := Waitlist.mk.inj hqueue
    exact ⟨hvalue, hlocker, hhead, htail⟩
  · rintro ⟨hvalue, hlocker, hhead, htail⟩
    unfold LockedMutex.fromLibc
    rw [hvalue, hlocker, hhead, htail]
    rfl

theorem storage_eq_zero : (word mem m = 0 ∧ word mem (m + 4) = 0 ∧ word mem (m + 8) = 0 ∧ word mem (m + 12) = 0) ↔
    ∀ i < 16, mem (cells m i) = 0 := by
  have hword : ∀ k, word mem (m + BitVec.ofNat 32 k) = 0 ↔ ∀ i < 4, mem (cells m (k + i)) = 0 := by
    intro k
    rw [word_eq_zero]
    simp only [cells_add]
  have hword4 : word mem (m + 4) = 0 ↔ _ := hword 4
  have hword8 : word mem (m + 8) = 0 ↔ _ := hword 8
  have hword12 : word mem (m + 12) = 0 ↔ _ := hword 12
  rw [word_eq_zero, hword4, hword8, hword12]
  constructor
  · rintro ⟨h0, h4, h8, h12⟩ i hi
    obtain ⟨j, hj, hcases⟩ : ∃ j < 4, i = j ∨ i = 4 + j ∨ i = 8 + j ∨ i = 12 + j :=
      ⟨i % 4, Nat.mod_lt _ (by decide), by omega⟩
    obtain rfl | rfl | rfl | rfl := hcases
    exacts [h0 _ hj, h4 _ hj, h8 _ hj, h12 _ hj]
  · intro h
    exact ⟨fun i hi => h i (by omega), fun i hi => h _ (by omega), fun i hi => h _ (by omega),
      fun i hi => h _ (by omega)⟩

theorem constructMutex_apply (x : Word) : constructMutex this mem x = if (x - this).toNat < 16 then 0 else mem x := by
  unfold constructMutex
  simp only [setWord_zero]
  split_ifs
  all_goals first | rfl | bv_omega

theorem fromLibc_init (attr : Word) : LockedMutex.fromLibc (pthread_mutex_init m attr s).2.memory m = ⟨0, 0, .new⟩ ↔
    ∀ i < 16, (cells m i - (s.paging.allocStatic sizeofMutex).1).toNat < 16 ∨
      addressed s.memory m (s.paging.allocStatic sizeofMutex).1 (cells m i) = 0 := by
  have hinit : (pthread_mutex_init m attr s).2.memory = constructMutex (s.paging.allocStatic sizeofMutex).1
      (addressed s.memory m (s.paging.allocStatic sizeofMutex).1) := rfl
  rw [fromLibc_eq, storage_eq_zero, hinit]
  refine forall₂_congr fun i _ => ?_
  rw [constructMutex_apply, ite_eq_left_iff, Decidable.or_iff_not_imp_left]

/-- Where the new object is outside of the storage, its address has to be zero. -/
theorem fromLibc_init_of_clear (attr : Word) (hm : m ≠ 0)
    (hclear : ClearOf (s.paging.allocStatic sizeofMutex).1 16 m 16) :
    LockedMutex.fromLibc (pthread_mutex_init m attr s).2.memory m = ⟨0, 0, .new⟩ ↔
      (s.paging.allocStatic sizeofMutex).1 = 0 ∧ word s.memory (m + 4) = 0 ∧ word s.memory (m + 8) = 0 ∧
        word s.memory (m + 12) = 0 := by
  rw [fromLibc_init]
  generalize (s.paging.allocStatic sizeofMutex).1 = this at *
  have hother : ∀ i : Word, Apart 0 i → word (setWord s.memory m this) (m + i) = word s.memory (m + i) := by
    intro i hi
    have hzero : m + 0 = m := BitVec.add_zero m
    have hoffset : word (setWord s.memory (m + 0) this) (m + i) = word s.memory (m + i) := word_setWord_offset hi
    rwa [hzero] at hoffset
  have houtside : ∀ i < 16, ¬ (cells m i - this).toNat < 16 := by
    obtain ⟨hthis, hm'⟩ := hclear
    intro i hi
    rw [cells]
    bv_omega
  calc
    _ ↔ ∀ i < 16, setWord s.memory m this (cells m i) = 0 := by
      refine forall₂_congr fun i hi => ?_
      rw [addressed, if_pos hm, or_iff_right (houtside i hi)]
    _ ↔ _ := by
      rw [← storage_eq_zero, word_setWord, hother 4 (by decide), hother 8 (by decide), hother 12 (by decide)]

/-- Memory that is zero, and static pages from 1 MiB on. -/
def zeroed : LibcState where
  memory _ := 0
  paging :=
    { bits := .new 1
      directory := ⟨fun _ => none⟩
      free_page_address := 0x100000
      heap_address := 0x30000000
      user_heap_address := 0xD0000000 }

theorem allocStatic_zeroed : (zeroed.paging.allocStatic sizeofMutex).1 = 0x100000 := by decide +kernel

/-- The mutex is constructed in a new page. The storage is an unlocked mutex when the page happens to cover it,
or its bytes are zero with the address of the page in front. -/
theorem initLaw_iff (m attr : Word) (s : LibcState) : InitLaw (.fromLibc (pthread_mutex_init m attr s).2.memory m) ↔
    ∀ i < 16, (cells m i - (s.paging.allocStatic sizeofMutex).1).toNat < 16 ∨
      addressed s.memory m (s.paging.allocStatic sizeofMutex).1 (cells m i) = 0 := by
  rw [initLaw_iff_eq, fromLibc_init]

/-- The storage at 0x2000 was zero, and is a locked mutex after the call. -/
theorem not_initLaw_zeroed : ¬ InitLaw (.fromLibc (pthread_mutex_init 0x2000 0 zeroed).2.memory 0x2000) := by
  have hclear : ClearOf (zeroed.paging.allocStatic sizeofMutex).1 16 0x2000 16 := by
    rw [allocStatic_zeroed]
    decide
  rw [initLaw_iff_eq, fromLibc_init_of_clear 0 (by decide) hclear, allocStatic_zeroed]
  intro h
  exact absurd h.1 (by decide)

end Init

end CxxKernel.Sched
