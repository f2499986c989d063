import CxxKernel.Setjmp
import CxxKernel.Lib.Runs

/-! The switch between tasks on x86: `saveProcess`, `restoreProcess` and `changeProcess`, and what the
tasks see of it. -/
namespace CxxKernel.Sched
open Mem Runs

/-- The processor with its control register and what it has written to its ports. -/
structure CpuX86 extends Cpu where
  cr0 : Word
  out : List (Word × Word)

/-- What a task has of the processor when it comes back from `saveProcess`. The task uses the floating
point unit if the bit `TS` is clear. -/
structure Context where
  edi : Word
  esi : Word
  ebx : Word
  ebp : Word
  esp : Word
  eip : Word
  eax : Word
  fpu : Bool
  deriving DecidableEq

namespace CpuX86

def store (s : CpuX86) (p val : Word) : CpuX86 := { s with mem := setWord s.mem p val }

def storeByte (s : CpuX86) (p : Word) (val : UInt8) : CpuX86 := { s with mem := Function.update s.mem p val }

def push (s : CpuX86) (val : Word) : CpuX86 := { s.store (s.esp - 4) val with esp := s.esp - 4 }

def ret (s : CpuX86) : CpuX86 := { s with eip := s.load s.esp, esp := s.esp + 4 }

/-- The lock at `ecx` is freed, if there is one. -/
def unlock (s : CpuX86) : CpuX86 := if s.ecx = 0 then s else s.store s.ecx 0

/-- The acknowledgement for the interrupt controller: `mov al, 0x20` and `out 0x20, al`. -/
def acknowledge (s : CpuX86) : CpuX86 :=
  { s with eax := s.eax &&& 0xffffff00 ||| 0x20, out := (0x20, 0x20) :: s.out }

/-- The flags behind `xor eax,eax` and `inc eax`. -/
def incFlags (eflags : Word) : Word := eflags &&& ~~~0x8d5

def sti (s : CpuX86) : CpuX86 := { s with eflags := s.eflags ||| 0x200 }

/-- The flags of the instructions before `xor` are gone behind it. -/
def saveProcess (af : Bool) (s : CpuX86) : CpuX86 :=
  let s := { s with eax := s.load (s.esp + 4) }
  let s := { s with ecx := s.esp }
  let s := { s with ecx := s.ecx + 4 }
  let s := { s with edx := s.load s.esp }
  let s := s.store (s.eax + 0) s.edi
  let s := s.store (s.eax + 4) s.esi
  let s := s.store (s.eax + 8) s.ebx
  let s := s.store (s.eax + 12) s.ebp
  let s := s.store (s.eax + 16) s.ecx
  let s := s.store (s.eax + 20) s.edx
  let s := s.storeByte (s.eax + 24) 0
  let s := { s with edx := s.cr0 }
  let s := { s with edx := s.edx &&& 0x8 }
  let s := if s.edx = 0x8 then s else s.storeByte (s.eax + 24) 1
  let s := { s with eax := 0, eflags := Cpu.xorFlags af s.eflags }
  s.ret

/-- The lock is freed when `esp` is the one of the other task already. -/
def restoreProcess (s : CpuX86) : CpuX86 :=
  let s := { s with ecx := s.load (s.esp + 4) }
  let s := { s with eax := s.load (s.esp + 8) }
  let s := { s with edx := s.cr0 }
  let s := { s with edx := if s.mem (s.eax + 24) = 1 then s.edx &&& 0xfffffff7 else s.edx ||| 0x8 }
  let s := { s with cr0 := s.edx }
  let s := { s with edi := s.load (s.eax + 0) }
  let s := { s with esi := s.load (s.eax + 4) }
  let s := { s with ebx := s.load (s.eax + 8) }
  let s := { s with ebp := s.load (s.eax + 12) }
  let s := { s with esp := s.load (s.eax + 16) }
  let s := { s with edx := s.load (s.eax + 20) }
  let s := s.unlock
  let s := s.acknowledge
  let s := { s with eax := 1, eflags := incFlags s.eflags }
  let s := s.push s.edx
  let s := s.sti
  s.ret

/-- The word that is pushed for `killer` is read two bytes behind `eip`. -/
def changeProcess (af : Bool) (s : CpuX86) : CpuX86 :=
  let s := { s with ecx := s.load (s.esp + 4) }
  let s := { s with ebx := s.load (s.esp + 12) }
  let s := { s with esi := s.load (s.esp + 10) }
  let s := { s with edx := s.esp }
  let s := { s with esp := if s.ebx = 0 then s.esp else s.ebx }
  let s := s.unlock
  let s := s.acknowledge
  let s := { s with eax := s.load (s.edx + 8) }
  let s := s.push s.esi
  let s := { s with edx := 0, eflags := Cpu.xorFlags af s.eflags }
  { s.sti with eip := s.eax }

def context (s : CpuX86) : Context :=
  ⟨s.edi, s.esi, s.ebx, s.ebp, s.esp, s.eip, s.eax, decide (s.cr0 &&& 0x8 ≠ 0x8)⟩

end CpuX86

/-- The context in a save area, as `restoreProcess` goes on with it. -/
def savedContext (mem : Bytes) (p : Word) : Context where
  edi := word mem (p + 0)
  esi := word mem (p + 4)
  ebx := word mem (p + 8)
  ebp := word mem (p + 12)
  esp := word mem (p + 16)
  eip := word mem (p + 20)
  eax := 1
  fpu := mem (p + 24) == 1

/-- The bytes of a save area that `saveProcess` writes. -/
def SAVED : ℕ := 25

namespace CpuX86
variable {s : CpuX86} {af : Bool} {mem mem' : Bytes} {p q val x : Word} {b : UInt8}

theorem word_update_of_lt {j : Word} (hj : j.toNat + 4 ≤ 24) :
    word (Function.update mem (p + 24) b) (p + j) = word mem (p + j) := by
  refine word_congr fun i hi => Function.update_of_ne ?_ _ _
  rw [cells]
  bv_omega

theorem savedContext_congr (h : ∀ i < SAVED, mem' (cells p i) = mem (cells p i)) :
    savedContext mem' p = savedContext mem p := by
  have hword : ∀ k, k + 4 ≤ 25 → word mem' (p + BitVec.ofNat 32 k) = word mem (p + BitVec.ofNat 32 k) := by
    intro k hk
    refine word_congr fun i hi => ?_
    rw [cells_add]
    exact h (k + i) (Nat.lt_of_lt_of_le (Nat.add_lt_add_left hi k) hk)
  have hbyte : mem' (p + 24) = mem (p + 24) := h 24 (by decide)
  have h0 : word mem' (p + 0) = word mem (p + 0) := hword 0 (by decide)
  have h4 : word mem' (p + 4) = word mem (p + 4) := hword 4 (by decide)
  have h8 : word mem' (p + 8) = word mem (p + 8) := hword 8 (by decide)
  have h12 : word mem' (p + 12) = word mem (p + 12) := hword 12 (by decide)
  have h16 : word mem' (p + 16) = word mem (p + 16) := hword 16 (by decide)
  have h20 : word mem' (p + 20) = word mem (p + 20) := hword 20 (by decide)
  unfold savedContext
  rw [hbyte, h0, h4, h8, h12, h16, h20]

/-- The save area that is the argument of `saveProcess`. -/
def area (s : CpuX86) : Word := s.load (s.esp + 4)

/-- The memory with the six words in the area. -/
def wordsMem (s : CpuX86) : Bytes :=
  let mem := setWord s.mem (s.area + 0) s.edi
  let mem := setWord mem (s.area + 4) s.esi
  let mem := setWord mem (s.area + 8) s.ebx
  let mem := setWord mem (s.area + 12) s.ebp
  let mem := setWord mem (s.area + 16) (s.esp + 4)
  setWord mem (s.area + 20) (s.load s.esp)

/-- The memory behind `saveProcess`. -/
def savedMem (s : CpuX86) : Bytes :=
  Function.update s.wordsMem (s.area + 24) (if s.cr0 &&& 0x8 = 0x8 then 0 else 1)

theorem savedMem_of_ne (h : ∀ i < SAVED, x ≠ cells s.area i) : s.savedMem x = s.mem x := by
  have hfar : ∀ k : Word, k.toNat + 4 ≤ 25 → ∀ mem val, setWord mem (s.area + k) val x = mem x := by
    intro k hk mem val
    refine setWord_of_le (Nat.le_of_not_lt fun hlt => ?_)
    refine h (k.toNat + (x - (s.area + k)).toNat) (Nat.lt_of_lt_of_le (Nat.add_lt_add_left hlt _) hk) ?_
    rw [← cells_add, BitVec.ofNat_toNat, BitVec.setWidth_eq, cells_sub]
  have hbyte : x ≠ s.area + 24 := h 24 (by decide)
  rw [savedMem, Function.update_of_ne hbyte]
  unfold wordsMem
  simp (disch := decide) only [hfar]

theorem word_savedMem (h : ClearOf s.area SAVED q 4) : word s.savedMem q = word s.mem q := by
  obtain ⟨hsaved, hfour⟩ := h
  refine word_congr fun i hi => savedMem_of_ne fun j hj heq => ?_
  unfold SAVED at hsaved hj
  rw [cells, cells] at heq
  bv_omega

/-- Behind `saveProcess` the area has the context, with the value that tells a task that it has come back. -/
theorem savedContext_savedMem (s : CpuX86) : savedContext s.savedMem s.area =
    ⟨s.edi, s.esi, s.ebx, s.ebp, s.esp + 4, s.load s.esp, 1, decide (s.cr0 &&& 0x8 ≠ 0x8)⟩ := by
  have hbyte : s.savedMem (s.area + 24) = if s.cr0 &&& 0x8 = 0x8 then 0 else 1 := Function.update_self ..
  have hfpu : (s.savedMem (s.area + 24) == 1) = decide (s.cr0 &&& 0x8 ≠ 0x8) := by
    rw [hbyte]
    by_cases hts : s.cr0 &&& 0x8 = 0x8
    · rw [if_pos hts, decide_eq_false (not_not.mpr hts)]
      decide
    · rw [if_neg hts, decide_eq_true hts]
      decide
  unfold savedContext
  rw [hfpu]
  unfold savedMem wordsMem
  simp (disch := decide) only [word_update_of_lt, word_setWord, word_setWord_offset]

theorem saveProcess_eq (h : ClearOf s.area SAVED s.esp 4) : s.saveProcess af =
    { s with
      ecx := s.esp + 4
      edx := s.cr0 &&& 0x8
      eax := 0
      esp := s.esp + 4
      eip := s.load s.esp
      eflags := Cpu.xorFlags af s.eflags
      mem := s.savedMem } := by
  have hret : word s.savedMem s.esp = s.load s.esp := word_savedMem h
  unfold Cpu.load at hret
  by_cases hts : s.cr0 &&& 0x8 = 0x8
  · have hmem : s.savedMem = Function.update s.wordsMem (s.area + 24) 0 := by
      unfold savedMem
      rw [if_pos hts]
    unfold wordsMem area Cpu.load at hmem
    unfold saveProcess ret store storeByte Cpu.load
    dsimp only
    rw [if_pos hts, ← hmem]
    dsimp only
    rw [hret]
  · have hmem : s.savedMem = Function.update (Function.update s.wordsMem (s.area + 24) 0) (s.area + 24) 1 := by
      unfold savedMem
      rw [if_neg hts, Function.update_idem]
    unfold wordsMem area Cpu.load at hmem
    unfold saveProcess ret store storeByte Cpu.load
    dsimp only
    rw [if_neg hts, ← hmem]
    dsimp only
    rw [hret]

/-- The memory with the word of a lock cleared, if there is one. -/
def unlocked (mem : Bytes) (lock : Word) : Bytes := if lock = 0 then mem else setWord mem lock 0

theorem unlock_eq (s : CpuX86) : s.unlock = { s with mem := unlocked s.mem s.ecx } := by
  unfold unlock unlocked
  split_ifs
  · rfl
  · rfl

theorem fpu_restored (cr0 : Word) (used : Prop) [Decidable used] :
    decide ((if used then cr0 &&& 0xfffffff7 else cr0 ||| 0x8) &&& 0x8 ≠ 0x8) = decide used := by
  by_cases hused : used
  · rw [if_pos hused, BitVec.and_assoc, decide_eq_true hused]
    have hzero : cr0 &&& (0xfffffff7 &&& 0x8) = 0 := BitVec.and_zero
    rw [hzero]
    rfl
  · have hset : (cr0 ||| 0x8) &&& 0x8 = 0x8 := by
      apply BitVec.eq_of_getLsbD_eq
      intro i hi
      rw [BitVec.getLsbD_and, BitVec.getLsbD_or]
      cases (0x8 : Word).getLsbD i
      · rw [Bool.and_false]
      · rw [Bool.or_true, Bool.and_true]
    rw [if_neg hused, hset, decide_eq_false hused]
    rfl

/-- `restoreProcess` goes on with the context in the area of its second argument. -/
theorem restoreProcess_spec (s : CpuX86) :
    s.restoreProcess.context = savedContext s.mem (s.load (s.esp + 8)) ∧
      s.restoreProcess.mem = setWord (unlocked s.mem (s.load (s.esp + 4)))
        ((savedContext s.mem (s.load (s.esp + 8))).esp - 4) (savedContext s.mem (s.load (s.esp + 8))).eip := by
  have hesp : ∀ x : Word, x - 4 + 4 = x := fun x => by bv_omega
  have hfpu := fpu_restored s.cr0 (s.mem (s.load (s.esp + 8) + 24) = 1)
  unfold restoreProcess ret sti push store acknowledge context
  simp only [unlock_eq]
  dsimp only [Cpu.load]
  rw [word_setWord, hesp]
  constructor
  · exact congrArg (Context.mk _ _ _ _ _ _ 1) hfpu
  · rfl

/-- `changeProcess` starts at its second argument, on a stack with the misread word on top. -/
theorem changeProcess_spec (s : CpuX86) (af : Bool) :
    (s.changeProcess af).context = ⟨s.edi, s.load (s.esp + 10), s.load (s.esp + 12), s.ebp,
      (if s.load (s.esp + 12) = 0 then s.esp else s.load (s.esp + 12)) - 4,
      word (unlocked s.mem (s.load (s.esp + 4))) (s.esp + 8), word (unlocked s.mem (s.load (s.esp + 4))) (s.esp + 8),
      s.context.fpu⟩ ∧
    (s.changeProcess af).mem = setWord (unlocked s.mem (s.load (s.esp + 4)))
      ((if s.load (s.esp + 12) = 0 then s.esp else s.load (s.esp + 12)) - 4) (s.load (s.esp + 10)) := by
  unfold changeProcess sti push store acknowledge context
  simp only [unlock_eq]
  dsimp only [Cpu.load]
  constructor
  · rfl
  · rfl

theorem word_between (mem : Bytes) (p : Word) : word mem (p + 2) = word mem (p + 4) <<< 16 ||| word mem p >>> 16 := by
  have h2 : p + 2 + 2 = p + 4 := by bv_omega
  have h1 : p + 2 + 1 = p + 3 := by bv_omega
  have h3 : p + 2 + 3 = p + 4 + 1 := by bv_omega
  unfold word
  rw [h1, h2, h3]
  apply BitVec.eq_of_getLsbD_eq
  intro i hi
  simp only [BitVec.getLsbD_or, BitVec.getLsbD_shiftLeft, BitVec.getLsbD_ushiftRight, BitVec.getLsbD_append]
  grind

end CpuX86

section Machine

/-- A word all of whose bytes are in the set. -/
def HasWord (region : Set Word) (p : Word) : Prop := ∀ i < 4, cells p i ∈ region

/-- Where the tasks have their save areas, and the memory that only they write, with their stacks. -/
structure TaskLayout (τ : Type*) where
  area : τ → Word
  own : τ → Set Word
  areas_apart : ∀ t u, t ≠ u → ClearOf (area t) SAVED (area u) SAVED
  own_apart : ∀ t u a, a ∈ own t → a ∈ own u → t = u
  area_own : ∀ t u, ∀ i < SAVED, cells (area t) i ∉ own u

namespace TaskLayout
variable {τ : Type*}

/-- The memory that every task may write. -/
def shared (l : TaskLayout τ) : Set Word :=
  {a | (∀ t, a ∉ l.own t) ∧ ∀ t, ∀ i < SAVED, a ≠ cells (l.area t) i}

end TaskLayout

/-- The tasks on one processor. A task is `saved` from its first `saveProcess` on. -/
structure TaskMachine (τ : Type*) where
  cpu : CpuX86
  current : τ
  saved : τ → Bool

/-- The task that runs goes on to another state of the processor, saves its context, restores the
context of another task, or starts another task. -/
inductive TaskEvent (τ : Type*)
  | run (after : CpuX86)
  | save (af : Bool)
  | restore (next : τ)
  | start (next : τ) (af : Bool)

namespace TaskMachine
variable {τ : Type*} [DecidableEq τ]

def begin {τ : Type*} (cpu : CpuX86) (current : τ) : TaskMachine τ := ⟨cpu, current, fun _ => false⟩

def next (s : TaskMachine τ) : TaskEvent τ → TaskMachine τ
  | .run after => { s with cpu := after }
  | .save af => { s with cpu := s.cpu.saveProcess af, saved := Function.update s.saved s.current true }
  | .restore next => { s with cpu := s.cpu.restoreProcess, current := next }
  | .start next af => { s with cpu := s.cpu.changeProcess af, current := next }

/-- The argument of a call, `k` bytes from the stack pointer. -/
def arg (s : TaskMachine τ) (k : Word) : Word := s.cpu.load (s.cpu.esp + k)

/-- A task leaves the save areas and the memory of the others alone, and calls with its arguments on its
own stack. -/
def Allowed (l : TaskLayout τ) (s : TaskMachine τ) : TaskEvent τ → Prop
  | .run after => (∀ t, ∀ i < SAVED, after.mem (cells (l.area t) i) = s.cpu.mem (cells (l.area t) i)) ∧
      ∀ t, t ≠ s.current → ∀ a ∈ l.own t, after.mem a = s.cpu.mem a
  | .save _ => HasWord (l.own s.current) s.cpu.esp ∧ s.arg 4 = l.area s.current
  | .restore next => s.saved next = true ∧ HasWord (l.own s.current) (s.cpu.esp + 4) ∧
      (s.arg 4 = 0 ∨ HasWord l.shared (s.arg 4)) ∧ s.arg 8 = l.area next
  | .start next _ => HasWord (l.own s.current) (s.cpu.esp + 4) ∧ HasWord (l.own s.current) (s.cpu.esp + 8) ∧
      HasWord (l.own s.current) (s.cpu.esp + 12) ∧ (s.arg 4 = 0 ∨ HasWord l.shared (s.arg 4)) ∧
      s.arg 12 ≠ 0 ∧ HasWord (l.own next) (s.arg 12 - 4)

def Step (l : TaskLayout τ) (s : TaskMachine τ) (e : TaskEvent τ) (s' : TaskMachine τ) : Prop :=
  s.Allowed l e ∧ s' = s.next e

end TaskMachine

/-- A processor and a memory for each task, and a memory for all of them. No task has access to the memory of
another one, nor to its registers, but that a task starts with `edi`, `ebp` and the floating point mode of the one
that starts it. -/
structure Processors (τ : Type*) where
  live : Context
  parked : τ → Option Context
  own : τ → Bytes
  shared : Bytes
  current : τ

namespace Processors
variable {τ : Type*} [DecidableEq τ]

def begin {τ : Type*} (cpu : CpuX86) (current : τ) : Processors τ :=
  ⟨cpu.context, fun _ => none, fun _ => cpu.mem, cpu.mem, current⟩

/-- The argument of a call, in the memory of the task that runs. -/
def arg (b : Processors τ) (k : Word) : Word := word (b.own b.current) (b.live.esp + k)

/-- The task that runs stops and frees the lock, and the other one goes on with a word stored. -/
def switch (b : Processors τ) (next : τ) (context : Context) (p val : Word) : Processors τ :=
  { b with
    live := context
    own := Function.update b.own next (setWord (b.own next) p val)
    shared := CpuX86.unlocked b.shared (b.arg 4)
    current := next }

/-- Where a call of `saveProcess` comes back, for the first time. -/
def back (b : Processors τ) : Context := { b.live with esp := b.live.esp + 4, eip := b.arg 0, eax := 0 }

/-- Where a new task starts: the word for `killer` is made of the halves of the two arguments before it. -/
def entry (b : Processors τ) : Context :=
  { b.live with
    esi := b.arg 12 <<< 16 ||| b.arg 8 >>> 16
    ebx := b.arg 12
    esp := b.arg 12 - 4
    eip := b.arg 8
    eax := b.arg 8 }

def next (b : Processors τ) : TaskEvent τ → Processors τ
  | .run after =>
    { b with live := after.context, own := Function.update b.own b.current after.mem, shared := after.mem }
  | .save _ =>
    { b with live := b.back, parked := Function.update b.parked b.current (some { b.back with eax := 1 }) }
  | .restore next =>
    match b.parked next with
    | none => b
    | some context => b.switch next context (context.esp - 4) context.eip
  | .start next _ => b.switch next b.entry b.entry.esp b.entry.esi

end Processors

/-- The processors are what the tasks see of the machine. -/
structure Shows {τ : Type*} (l : TaskLayout τ) (s : TaskMachine τ) (b : Processors τ) : Prop where
  current : b.current = s.current
  live : b.live = s.cpu.context
  parked : ∀ t, b.parked t = if s.saved t then some (savedContext s.cpu.mem (l.area t)) else none
  stack : ∀ t context, b.parked t = some context → HasWord (l.own t) (context.esp - 4)
  own : ∀ t, ∀ a ∈ l.own t, b.own t a = s.cpu.mem a
  shared : ∀ a ∈ l.shared, b.shared a = s.cpu.mem a

theorem HasWord.setWord_of_notMem {region : Set Word} {mem : Bytes} {p val x : Word} (h : HasWord region p)
    (hx : x ∉ region) : setWord mem p val x = mem x := by
  refine setWord_of_le (Nat.le_of_not_lt fun hlt => hx ?_)
  have hmem := h _ hlt
  rwa [cells_sub] at hmem

theorem cells_ne_of_clear {p q : Word} {i j : ℕ} (h : ClearOf p SAVED q SAVED) (hi : i < SAVED) (hj : j < SAVED) :
    cells p i ≠ cells q j := by
  obtain ⟨hpq, hqp⟩ := h
  unfold SAVED at *
  rw [cells, cells]
  bv_omega

theorem setWord_congr {mem mem' : Bytes} {p val x : Word} (h : mem x = mem' x) :
    setWord mem p val x = setWord mem' p val x := by
  unfold setWord
  rw [h]

theorem clearOf_of_ne {p q : Word} {m n : ℕ} (hm : 0 < m) (hn : 0 < n) (h : ∀ i < m, ∀ j < n, cells p i ≠ cells q j) :
    ClearOf p m q n := by
  constructor
  · refine Nat.le_of_not_lt fun hlt => h _ hlt 0 hn ?_
    rw [cells_sub, cells_zero]
  · refine Nat.le_of_not_lt fun hlt => h 0 hm _ hlt ?_
    rw [cells_sub, cells_zero]

namespace Shows
variable {τ : Type*} {l : TaskLayout τ} {s : TaskMachine τ} {b : Processors τ} {t u : τ} {p lock x : Word}

theorem word_own (h : Shows l s b) (hp : HasWord (l.own t) p) : word (b.own t) p = word s.cpu.mem p :=
  word_congr fun i hi => h.own t _ (hp i hi)

theorem arg_eq (h : Shows l s b) {k : Word} (hk : HasWord (l.own s.current) (s.cpu.esp + k)) : b.arg k = s.arg k := by
  have hesp : b.live.esp = s.cpu.esp := congrArg Context.esp h.live
  rw [Processors.arg, h.current, hesp]
  exact h.word_own hk

theorem unlocked_of_notMem {mem : Bytes} (hlock : lock = 0 ∨ HasWord l.shared lock) (hx : x ∉ l.shared) :
    CpuX86.unlocked mem lock x = mem x := by
  unfold CpuX86.unlocked
  split_ifs with hzero
  · rfl
  · exact (hlock.resolve_left hzero).setWord_of_notMem hx

theorem unlocked_congr {mem mem' : Bytes} (h : mem x = mem' x) :
    CpuX86.unlocked mem lock x = CpuX86.unlocked mem' lock x := by
  unfold CpuX86.unlocked
  split_ifs
  · exact h
  · exact setWord_congr h

theorem own_notMem_shared (hx : x ∈ l.own t) : x ∉ l.shared := fun hs => hs.1 t hx

theorem area_notMem_shared (t : τ) {i : ℕ} (hi : i < SAVED) : cells (l.area t) i ∉ l.shared := fun hs =>
  hs.2 t i hi rfl

/-- A switch frees the lock, and stores in the memory of the task that goes on. -/
theorem switch [DecidableEq τ] {cpu : CpuX86} {next : τ} {context : Context} {val : Word} (h : Shows l s b)
    (hlock : s.arg 4 = 0 ∨ HasWord l.shared (s.arg 4)) (hp : HasWord (l.own next) p) (harg : b.arg 4 = s.arg 4)
    (hcontext : cpu.context = context) (hmem : cpu.mem = setWord (CpuX86.unlocked s.cpu.mem (s.arg 4)) p val) :
    Shows l { s with cpu := cpu, current := next } (b.switch next context p val) := by
  have hsaved : ∀ t, savedContext cpu.mem (l.area t) = savedContext s.cpu.mem (l.area t) := by
    intro t
    refine CpuX86.savedContext_congr fun i hi => ?_
    rw [hmem, hp.setWord_of_notMem (l.area_own t next i hi)]
    exact unlocked_of_notMem hlock (area_notMem_shared t hi)
  refine ⟨rfl, hcontext.symm, fun t => ?_, h.stack, fun t a ha => ?_, fun a ha => ?_⟩
  · rw [hsaved]
    exact h.parked t
  · have hown : CpuX86.unlocked s.cpu.mem (s.arg 4) a = s.cpu.mem a :=
      unlocked_of_notMem hlock (own_notMem_shared ha)
    change Function.update b.own next (setWord (b.own next) p val) t a = cpu.mem a
    by_cases ht : t = next
    · subst ht
      rw [Function.update_self, hmem]
      exact setWord_congr ((h.own t a ha).trans hown.symm)
    · rw [Function.update_of_ne ht, hmem, hp.setWord_of_notMem fun hnext => ht (l.own_apart _ _ a ha hnext), hown]
      exact h.own t a ha
  · change CpuX86.unlocked b.shared (b.arg 4) a = cpu.mem a
    rw [harg, hmem, hp.setWord_of_notMem (ha.1 next)]
    exact unlocked_congr (h.shared a ha)

/-- `saveProcess` leaves everything but the area of the task as it was. -/
theorem save [DecidableEq τ] {af : Bool} (h : Shows l s b) (hallowed : s.Allowed l (.save af)) :
    Shows l (s.next (.save af)) (b.next (.save af)) := by
  obtain ⟨hesp, harea⟩ := hallowed
  have harea' : s.cpu.area = l.area s.current := harea
  have hclear : ClearOf s.cpu.area SAVED s.cpu.esp 4 := by
    refine clearOf_of_ne (by decide) (by decide) fun i hi j hj heq => ?_
    rw [harea'] at heq
    exact l.area_own _ _ i hi (heq ▸ hesp j hj)
  have hcpu : s.cpu.saveProcess af = _ := CpuX86.saveProcess_eq hclear
  have hmem : (s.cpu.saveProcess af).mem = s.cpu.savedMem := by rw [hcpu]
  have hret : b.arg 0 = s.cpu.load s.cpu.esp := by
    have hzero : s.cpu.esp + 0 = s.cpu.esp := BitVec.add_zero _
    have hesp' : HasWord (l.own s.current) (s.cpu.esp + 0) := by rwa [hzero]
    rw [h.arg_eq hesp', TaskMachine.arg, hzero]
  have hback : b.back = (s.cpu.saveProcess af).context := by
    rw [hcpu, Processors.back, hret, h.live]
    rfl
  refine ⟨h.current, hback, fun t => ?_, fun t context hparked => ?_, fun t a ha => ?_, fun a ha => ?_⟩
  · change Function.update b.parked b.current (some { b.back with eax := 1 }) t =
      if Function.update s.saved s.current true t then
        some (savedContext (s.cpu.saveProcess af).mem (l.area t)) else none
    rw [h.current, hmem]
    by_cases ht : t = s.current
    · subst ht
      have hsaved := CpuX86.savedContext_savedMem s.cpu
      rw [harea'] at hsaved
      rw [Function.update_self, Function.update_self, if_pos rfl, hsaved, Processors.back, hret, h.live]
      rfl
    · have hsaved : savedContext s.cpu.savedMem (l.area t) = savedContext s.cpu.mem (l.area t) := by
        refine CpuX86.savedContext_congr fun i hi => CpuX86.savedMem_of_ne fun j hj => ?_
        rw [harea']
        exact cells_ne_of_clear (l.areas_apart t s.current ht) hi hj
      rw [Function.update_of_ne ht, Function.update_of_ne ht, h.parked t, hsaved]
  · change Function.update b.parked b.current (some { b.back with eax := 1 }) t = some context at hparked
    by_cases ht : t = b.current
    · subst ht
      rw [Function.update_self] at hparked
      obtain rfl := Option.some.inj hparked
      have hslot : b.live.esp + 4 - 4 = s.cpu.esp := by
        rw [h.live]
        exact BitVec.add_sub_cancel _ _
      rw [h.current]
      exact hslot ▸ hesp
    · rw [Function.update_of_ne ht] at hparked
      exact h.stack t context hparked
  · have hkept : s.cpu.savedMem a = s.cpu.mem a := by
      refine CpuX86.savedMem_of_ne fun i hi heq => ?_
      rw [harea'] at heq
      exact l.area_own _ _ i hi (heq ▸ ha)
    exact (h.own t a ha).trans (hkept.symm.trans (congrFun hmem.symm a))
  · have hkept : s.cpu.savedMem a = s.cpu.mem a := by
      refine CpuX86.savedMem_of_ne fun i hi => ?_
      rw [harea']
      exact ha.2 _ i hi
    exact (h.shared a ha).trans (hkept.symm.trans (congrFun hmem.symm a))

theorem begin (l : TaskLayout τ) (cpu : CpuX86) (current : τ) :
    Shows l (.begin cpu current) (.begin cpu current) where
  current := rfl
  live := rfl
  parked _ := rfl
  stack _ _ h := nomatch h
  own _ _ _ := rfl
  shared _ _ := rfl

variable [DecidableEq τ]

theorem run {after : CpuX86} (h : Shows l s b) (hallowed : s.Allowed l (.run after)) :
    Shows l (s.next (.run after)) (b.next (.run after)) := by
  obtain ⟨hareas, hothers⟩ := hallowed
  refine ⟨h.current, rfl, fun t => ?_, h.stack, fun t a ha => ?_, fun _ _ => rfl⟩
  · change b.parked t = if s.saved t then some (savedContext after.mem (l.area t)) else none
    rw [CpuX86.savedContext_congr (hareas t)]
    exact h.parked t
  · change Function.update b.own b.current after.mem t a = after.mem a
    by_cases ht : t = s.current
    · rw [ht, h.current, Function.update_self]
    · rw [h.current, Function.update_of_ne ht, hothers t ht a ha]
      exact h.own t a ha

theorem restore {next : τ} (h : Shows l s b) (hallowed : s.Allowed l (.restore next)) :
    Shows l (s.next (.restore next)) (b.next (.restore next)) := by
  obtain ⟨hsaved, hfour, hlock, harea⟩ := hallowed
  obtain ⟨hcontext, hmem⟩ := CpuX86.restoreProcess_spec s.cpu
  have harea' : s.cpu.load (s.cpu.esp + 8) = l.area next := harea
  rw [harea'] at hcontext hmem
  have hparked : b.parked next = some (savedContext s.cpu.mem (l.area next)) := by rw [h.parked, if_pos hsaved]
  have hnext : b.next (.restore next) = b.switch next (savedContext s.cpu.mem (l.area next))
      ((savedContext s.cpu.mem (l.area next)).esp - 4) (savedContext s.cpu.mem (l.area next)).eip := by
    unfold Processors.next
    dsimp only
    rw [hparked]
  rw [hnext]
  exact h.switch hlock (h.stack next _ hparked) (h.arg_eq hfour) hcontext hmem

theorem start {next : τ} {af : Bool} (h : Shows l s b) (hallowed : s.Allowed l (.start next af)) :
    Shows l (s.next (.start next af)) (b.next (.start next af)) := by
  obtain ⟨hfour, height, htwelve, hlock, hstack, htop⟩ := hallowed
  obtain ⟨hcontext, hmem⟩ := CpuX86.changeProcess_spec s.cpu af
  have hkeep : word (CpuX86.unlocked s.cpu.mem (s.cpu.load (s.cpu.esp + 4))) (s.cpu.esp + 8) = b.arg 8 := by
    rw [h.arg_eq height]
    exact word_congr fun i hi => unlocked_of_notMem hlock (own_notMem_shared (height i hi))
  have hmisread : s.cpu.load (s.cpu.esp + 10) = b.arg 12 <<< 16 ||| b.arg 8 >>> 16 := by
    have hten : s.cpu.esp + 10 = s.cpu.esp + 8 + 2 := by bv_omega
    have htwelve' : s.cpu.esp + 8 + 4 = s.cpu.esp + 12 := by bv_omega
    rw [h.arg_eq height, h.arg_eq htwelve, hten]
    refine (CpuX86.word_between _ _).trans ?_
    rw [htwelve']
    rfl
  have hstack' : s.cpu.load (s.cpu.esp + 12) ≠ 0 := hstack
  have hlast : s.cpu.load (s.cpu.esp + 12) = b.arg 12 := (h.arg_eq htwelve).symm
  rw [hkeep, hmisread, if_neg hstack', hlast] at hcontext
  rw [hmisread, if_neg hstack', hlast] at hmem
  have hentry : (s.cpu.changeProcess af).context = b.entry := by
    rw [hcontext, Processors.entry, h.live]
    rfl
  have htop' : HasWord (l.own next) b.entry.esp := by
    have hesp : b.entry.esp = s.arg 12 - 4 := congrArg (· - 4) hlast.symm
    rwa [hesp]
  exact h.switch hlock htop' (h.arg_eq hfour) hentry hmem

theorem step {s' : TaskMachine τ} {e : TaskEvent τ} (h : Shows l s b) (hstep : TaskMachine.Step l s e s') :
    Shows l s' (b.next e) := by
  obtain ⟨hallowed, rfl⟩ := hstep
  cases e with
  | run after => exact h.run hallowed
  | save af => exact h.save hallowed
  | restore next => exact h.restore hallowed
  | start next af => exact h.start hallowed

end Shows

section Run
variable {τ : Type*} [DecidableEq τ] {l : TaskLayout τ} {cpu : CpuX86} {t : τ} {es : List (TaskEvent τ)}
  {s : TaskMachine τ}

/-- One processor shows the tasks what a processor for each of them would show, in every run. -/
theorem switches_refine (h : Run (TaskMachine.Step l) (.begin cpu t) es s) :
    Shows l s (es.foldl Processors.next (.begin cpu t)) := by
  exact h.simulate_fold (fun _ _ _ _ hs hstep => hs.step hstep) (.begin l cpu t)

theorem parked_next {b : Processors τ} {e : TaskEvent τ} (h : ∀ af, e = .save af → b.current ≠ t) :
    (b.next e).parked t = b.parked t := by
  cases e with
  | run after => rfl
  | save af => exact Function.update_of_ne (h af rfl).symm _ _
  | restore next =>
    unfold Processors.next
    dsimp only
    cases b.parked next with
    | none => rfl
    | some context => rfl
  | start next af => rfl

theorem own_next {b : Processors τ} {e : TaskEvent τ} (h : (b.next e).current ≠ t) : (b.next e).own t = b.own t := by
  cases e with
  | run after => exact Function.update_of_ne (Ne.symm h) _ _
  | save af => rfl
  | restore next =>
    unfold Processors.next at *
    dsimp only at *
    cases hparked : b.parked next with
    | none => rfl
    | some context =>
      rw [hparked] at h
      exact Function.update_of_ne (Ne.symm h) _ _
  | start next af => exact Function.update_of_ne (Ne.symm h) _ _

theorem Step.save_current {s' : TaskMachine τ} {af : Bool} (h : TaskMachine.Step l s (.save af) s') :
    s'.current = s.current := by
  rw [h.2]
  rfl

variable {s₀ s₁ s₂ s₃ s₄ : TaskMachine τ} {af : Bool} {fs gs : List (TaskEvent τ)}

/-- A task that has called `saveProcess` and later waits comes back from it once more, with all of its
registers, and finds its memory as it has left it, but for the word under its stack. -/
theorem resumes (hbefore : Run (TaskMachine.Step l) (.begin cpu t) es s₀)
    (hsave : TaskMachine.Step l s₀ (.save af) s₁)
    (hruns : Run (Guarded (TaskMachine.Step l) fun s e _ => ∀ af, e = .save af → s.current ≠ s₀.current) s₁ fs s₂)
    (hwaits : Run (Guarded (TaskMachine.Step l) fun _ _ s' => s'.current ≠ s₀.current) s₂ gs s₃)
    (hrestore : TaskMachine.Step l s₃ (.restore s₀.current) s₄) :
    s₁.cpu.context.eax = 0 ∧ s₄.cpu.context = { s₁.cpu.context with eax := 1 } ∧
      ∀ a ∈ l.own s₀.current, (∀ i < 4, a ≠ cells (s₄.cpu.esp - 4) i) → s₄.cpu.mem a = s₂.cpu.mem a := by
  have hshows := switches_refine hbefore
  generalize es.foldl Processors.next (.begin cpu t) = b₀ at hshows
  have hshows₁ := hshows.step hsave
  have hback : s₁.cpu.context = b₀.back := hshows₁.live.symm
  have hparked₁ : (b₀.next (.save af)).parked s₀.current = some { s₁.cpu.context with eax := 1 } := by
    rw [hback, ← hshows.current]
    exact Function.update_self ..
  -- The task goes on, to where it leaves the processor.
  have hgoesOn : ∀ s e s', (∃ b, Shows l s b ∧ b.parked s₀.current = some { s₁.cpu.context with eax := 1 }) →
      Guarded (TaskMachine.Step l) (fun s e _ => ∀ af, e = .save af → s.current ≠ s₀.current) s e s' →
      ∃ b, Shows l s' b ∧ b.parked s₀.current = some { s₁.cpu.context with eax := 1 } := by
    rintro s e s' ⟨b, hs, hparked⟩ ⟨hstep, hno⟩
    exact ⟨_, hs.step hstep, (parked_next fun af he => hs.current ▸ hno af he).trans hparked⟩
  obtain ⟨b₂, hshows₂, hparked₂⟩ := hruns.invariant hgoesOn ⟨_, hshows₁, hparked₁⟩
  -- Others run.
  have hothers : ∀ s e s', (∃ b, Shows l s b ∧ b.parked s₀.current = some { s₁.cpu.context with eax := 1 } ∧
      b.own s₀.current = b₂.own s₀.current) →
      Guarded (TaskMachine.Step l) (fun _ _ s' => s'.current ≠ s₀.current) s e s' →
      ∃ b, Shows l s' b ∧ b.parked s₀.current = some { s₁.cpu.context with eax := 1 } ∧
        b.own s₀.current = b₂.own s₀.current := by
    rintro s e s' ⟨b, hs, hparked, hown⟩ ⟨hstep, hleft⟩
    have hs' := hs.step hstep
    refine ⟨_, hs', (parked_next fun af he => ?_).trans hparked, (own_next (hs'.current ▸ hleft)).trans hown⟩
    subst he
    rwa [hs.current, ← Step.save_current hstep]
  obtain ⟨b₃, hshows₃, hparked₃, hown₃⟩ := hwaits.invariant hothers ⟨b₂, hshows₂, hparked₂, rfl⟩
  have hshows₄ := hshows₃.step hrestore
  have hnext : b₃.next (.restore s₀.current) = b₃.switch s₀.current { s₁.cpu.context with eax := 1 }
      (s₁.cpu.context.esp - 4) s₁.cpu.context.eip := by
    unfold Processors.next
    dsimp only
    rw [hparked₃]
  rw [hnext] at hshows₄
  have hcontext : s₄.cpu.context = { s₁.cpu.context with eax := 1 } := hshows₄.live.symm
  refine ⟨?_, hcontext, fun a ha hfar => ?_⟩
  · rw [hback]
    rfl
  · have hesp : s₄.cpu.esp = s₁.cpu.context.esp := congrArg Context.esp hcontext
    rw [hesp] at hfar
    have hstored : HasWord {x | ∃ i < 4, x = cells (s₁.cpu.context.esp - 4) i} (s₁.cpu.context.esp - 4) :=
      fun i hi => ⟨i, hi, rfl⟩
    have hown : (b₃.switch s₀.current { s₁.cpu.context with eax := 1 } (s₁.cpu.context.esp - 4)
        s₁.cpu.context.eip).own s₀.current a = b₃.own s₀.current a := by
      refine (congrFun (Function.update_self ..) a).trans (hstored.setWord_of_notMem ?_)
      rintro ⟨i, hi, heq⟩
      exact hfar i hi heq
    rw [← hshows₄.own _ a ha, hown, hown₃]
    exact hshows₂.own _ a ha

end Run

section TwoTasks

def twoTasks : TaskLayout Bool where
  area t := if t then 0x2000 else 0x1000
  own t := {a | a.toNat / 0x1000 = if t then 0xA else 0x8}
  areas_apart := by decide
  own_apart t u a ht hu := by
    have heq : (if t then 0xA else 0x8) = if u then 0xA else (0x8 : ℕ) := ht.symm.trans hu
    revert heq
    cases t <;> cases u <;> decide
  area_own t u := by
    change ∀ i < 25, (cells (if t then 0x2000 else 0x1000) i).toNat / 0x1000 ≠ if u then 0xA else 0x8
    cases t <;> cases u <;> decide

/-- The memory with the arguments of `saveProcess`, `changeProcess` and `restoreProcess` on the stacks. -/
def twoTasksCpu : CpuX86 where
  edi := 1
  esi := 2
  ebp := 0x8FF0
  esp := 0x8000
  ebx := 3
  edx := 0
  ecx := 0
  eax := 0
  eip := 0x100
  eflags := 0x246
  cs := 8
  mem := setWord (setWord (setWord (setWord (setWord (fun _ => 0) 0x8000 0x104) 0x8004 0x1000) 0x8108 0x500) 0x810C
    0xA800) 0xA008 0x1000
  cr0 := 0x8
  out := []

def twoTasksStart : TaskMachine Bool := .begin twoTasksCpu false

/-- The first task saves its context, and goes on to the call of `changeProcess`. -/
def firstSaved : TaskMachine Bool := twoTasksStart.next (.save false)

def firstCalls : TaskMachine Bool := firstSaved.next (.run { firstSaved.cpu with esp := 0x8100 })

/-- The second task runs, and goes on to the call of `restoreProcess`. -/
def secondRuns : TaskMachine Bool := firstCalls.next (.start true false)

def secondCalls : TaskMachine Bool := secondRuns.next (.run { secondRuns.cpu with esp := 0xA000, edi := 7 })

def firstResumed : TaskMachine Bool := secondCalls.next (.restore false)

theorem runs_twoTasks : TaskMachine.Step twoTasks twoTasksStart (.save false) firstSaved ∧
    TaskMachine.Step twoTasks firstSaved (.run { firstSaved.cpu with esp := 0x8100 }) firstCalls ∧
    TaskMachine.Step twoTasks firstCalls (.start true false) secondRuns ∧
    TaskMachine.Step twoTasks secondRuns (.run { secondRuns.cpu with esp := 0xA000, edi := 7 }) secondCalls ∧
    TaskMachine.Step twoTasks secondCalls (.restore false) firstResumed := by
  have hpage : ∀ t p, (∀ i < 4, (cells p i).toNat / 0x1000 = if t then 0xA else 0x8) → HasWord (twoTasks.own t) p :=
    fun t p h => h
  refine ⟨⟨⟨hpage false _ ?_, ?_⟩, rfl⟩, ⟨⟨fun _ _ _ => rfl, fun _ _ _ _ => rfl⟩, rfl⟩,
    ⟨⟨hpage false _ ?_, hpage false _ ?_, hpage false _ ?_, .inl ?_, ?_, hpage true _ ?_⟩, rfl⟩,
    ⟨⟨fun _ _ _ => rfl, fun _ _ _ _ => rfl⟩, rfl⟩, ⟨rfl, hpage true _ ?_, .inl ?_, ?_⟩, rfl⟩
  all_goals decide +kernel

theorem switches_refine_twoTasks : Shows twoTasks firstResumed
    ([.save false, .run { firstSaved.cpu with esp := 0x8100 }, .start true false,
      .run { secondRuns.cpu with esp := 0xA000, edi := 7 }, .restore false].foldl Processors.next
      (.begin twoTasksCpu false)) := by
  obtain ⟨hsave, hcall, hstart, hrun, hrestore⟩ := runs_twoTasks
  exact switches_refine (.cons hsave (.cons hcall (.cons hstart (.cons hrun (.cons hrestore (.nil _))))))

/-- The first task comes back behind its call, with its own `edi`. -/
theorem resumes_twoTasks : firstResumed.cpu.context = { firstSaved.cpu.context with eax := 1 } ∧
    firstSaved.cpu.context = ⟨1, 2, 3, 0x8FF0, 0x8004, 0x104, 0, false⟩ := by
  obtain ⟨hsave, hcall, hstart, hrun, hrestore⟩ := runs_twoTasks
  have hresumes := resumes (.nil _) hsave (.cons ⟨hcall, fun af h => nomatch h⟩ (.nil _))
    (.cons ⟨hstart, by decide⟩ (.cons ⟨hrun, by decide⟩ (.nil _))) hrestore
  exact ⟨hresumes.2.1, by decide +kernel⟩

end TwoTasks

end Machine
end CxxKernel.Sched
