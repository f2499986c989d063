import CxxKernel.Words

/-! `setjmp` and `longjmp`, with the registers that they save and restore. -/
namespace CxxKernel
open Mem

/-- The registers and the memory of the processor. -/
structure Cpu where
  edi : Word
  esi : Word
  ebp : Word
  esp : Word
  ebx : Word
  edx : Word
  ecx : Word
  eax : Word
  eip : Word
  eflags : Word
  cs : BitVec 16
  mem : Bytes

namespace Cpu

def load (s : Cpu) (p : Word) : Word := word s.mem p

def store (s : Cpu) (p val : Word) : Cpu := { s with mem := setWord s.mem p val }

/-- A segment register is stored in two bytes. -/
def storeSegment (s : Cpu) (p : Word) (val : BitVec 16) : Cpu := { s with mem := setHalf s.mem p val }

def push (s : Cpu) (val : Word) : Cpu := { s.store (s.esp - 4) val with esp := s.esp - 4 }

/-- What `pushf` stores: the bits `VM` and `RF` are cleared. -/
def pushedFlags (eflags : Word) : Word := eflags &&& 0x00fcffff

/-- The flags behind `xor eax,eax`. The processor leaves the auxiliary carry undefined: `af` is what becomes of
it. -/
def xorFlags (af : Bool) (eflags : Word) : Word :=
  (eflags &&& ~~~0x8d5) ||| 0x44 ||| (if af then 0x10 else 0)

/-- `popa`, which skips the stack pointer among the words it pops. -/
def popa (s : Cpu) : Cpu :=
  { s with
    edi := s.load (s.esp + 0)
    esi := s.load (s.esp + 4)
    ebp := s.load (s.esp + 8)
    ebx := s.load (s.esp + 16)
    edx := s.load (s.esp + 20)
    ecx := s.load (s.esp + 24)
    eax := s.load (s.esp + 28)
    esp := s.esp + 32 }

/-- `iret` to the same privilege level, outside of a nested task. -/
def iret (s : Cpu) : Cpu :=
  { s with
    eip := s.load s.esp
    cs := (s.load (s.esp + 4)).setWidth 16
    eflags := s.load (s.esp + 8)
    esp := s.esp + 12 }

def longjmp (buf ret_val : Word) (s : Cpu) : Cpu :=
  let ret_val := if ret_val = 0 then ret_val + 1 else ret_val
  let s := s.store (buf + 28) ret_val
  let esp := s.load (buf + 12)
  let esp := esp - 4
  let s := s.store esp (s.load (buf + 36))
  let esp := esp - 4
  let s := s.storeSegment esp s.cs
  let esp := esp - 4
  let s := s.store esp (s.load (buf + 32))
  let s := s.store (buf + 12) esp
  -- The buffer is the stack until its own stack pointer is loaded.
  let s := { s with esp := buf }
  let s := s.popa
  let s := { s with esp := s.load (s.esp - 20) }
  s.iret

/-- The argument of `setjmp`. -/
def buffer (s : Cpu) : Word := s.load (s.esp + 4)

/-- `longjmp` with each of the values, every time from a state that still has the buffer as it was left. -/
inductive Jumps (buf : Word) : Cpu → List (Word × Cpu) → Prop
  | done (s : Cpu) : Jumps buf s []
  | jump {s before : Cpu} {v : Word} {l : List (Word × Cpu)}
      (hbuf : ∀ i < 40, before.mem (cells buf i) = s.mem (cells buf i))
      (hrest : Jumps buf (before.longjmp buf v) l) : Jumps buf s ((v, before.longjmp buf v) :: l)

/-- The buffer has no byte in common with the words that `setjmp` pushes, its return address and its
argument. -/
def Clear (s : Cpu) : Prop := ClearOf s.buffer 40 (s.esp - 8) 16

instance (s : Cpu) : Decidable s.Clear := inferInstanceAs (Decidable (ClearOf _ _ _ _))

section Setjmp
variable {s : Cpu} {af : Bool}

/-- The memory behind `setjmp`. -/
def savedMem (s : Cpu) : Bytes :=
  let mem := setWord s.mem (s.esp - 8 + 4) s.ebx
  let mem := setWord mem (s.buffer + 0) s.edi
  let mem := setWord mem (s.buffer + 4) s.esi
  let mem := setWord mem (s.buffer + 8) s.ebp
  let mem := setWord mem (s.buffer + 20) s.edx
  let mem := setWord mem (s.buffer + 24) s.ecx
  let mem := setWord mem (s.buffer + 28) s.eax
  let mem := setWord mem (s.buffer + 16) s.ebx
  let mem := setWord mem (s.buffer + 12) (s.esp + 4)
  let mem := setWord mem (s.buffer + 32) (s.load s.esp)
  let mem := setWord mem (s.esp - 8 + 0) (pushedFlags s.eflags)
  setWord mem (s.buffer + 36) (pushedFlags s.eflags)

/-- The buffer holds the registers that `setjmp` found. -/
structure Saved (s : Cpu) (mem : Bytes) : Prop where
  edi : word mem (s.buffer + 0) = s.edi
  esi : word mem (s.buffer + 4) = s.esi
  ebp : word mem (s.buffer + 8) = s.ebp
  esp : word mem (s.buffer + 12) = s.esp + 4
  ebx : word mem (s.buffer + 16) = s.ebx
  eip : word mem (s.buffer + 32) = s.load s.esp
  eflags : word mem (s.buffer + 36) = pushedFlags s.eflags

end Setjmp

section Longjmp
variable {s before prev : Cpu} {buf v : Word} {mem mem' : Bytes} {af : Bool} {l : List (Word × Cpu)}

theorem word_buffer (h : ∀ i < 40, mem' (cells buf i) = mem (cells buf i)) {k : ℕ} (hk : k ≤ 36) :
    word mem' (buf + BitVec.ofNat 32 k) = word mem (buf + BitVec.ofNat 32 k) := by
  refine word_congr fun i hi => ?_
  rw [cells_add]
  exact h (k + i) (by omega)

theorem Saved.keep (h : s.Saved mem) (hbuf : ∀ i < 40, mem' (cells s.buffer i) = mem (cells s.buffer i)) :
    s.Saved mem' where
  edi := (word_buffer (k := 0) hbuf (by decide)).trans h.edi
  esi := (word_buffer (k := 4) hbuf (by decide)).trans h.esi
  ebp := (word_buffer (k := 8) hbuf (by decide)).trans h.ebp
  esp := (word_buffer (k := 12) hbuf (by decide)).trans h.esp
  ebx := (word_buffer (k := 16) hbuf (by decide)).trans h.ebx
  eip := (word_buffer (k := 32) hbuf (by decide)).trans h.eip
  eflags := (word_buffer (k := 36) hbuf (by decide)).trans h.eflags

/-- A jump takes the stack pointer from the buffer, and leaves one there that is three words lower. -/
theorem longjmp_esp (before : Cpu) (buf v : Word) :
    (before.longjmp buf v).esp = before.load (buf + 12) ∧
      (before.longjmp buf v).load (buf + 12) = before.load (buf + 12) - 12 := by
  have hslot : buf + 32 - 20 = buf + 12 := by bv_omega
  have hret : ∀ val, word (setWord before.mem (buf + 28) val) (buf + 12) = word before.mem (buf + 12) :=
    fun val => word_setWord_offset (by decide)
  unfold longjmp iret popa store storeSegment load
  dsimp only
  rw [hslot, word_setWord, hret]
  constructor <;> bv_omega

/-- Every jump finds the stack pointer three words lower than the one before. -/
theorem Jumps.esp (h : Jumps buf prev l) (k : ℕ) (hk : k < l.length) :
    l[k].2.esp = prev.load (buf + 12) - BitVec.ofNat 32 (12 * k) := by
  induction h generalizing k with
  | done => exact absurd hk (Nat.not_lt_zero k)
  | @jump prev before v l hbuf hrest ih =>
    have hesp : before.load (buf + 12) = prev.load (buf + 12) := word_buffer (k := 12) hbuf (by decide)
    obtain ⟨hfirst, hnext⟩ := longjmp_esp before buf v
    cases k with
    | zero =>
      rw [List.getElem_cons_zero, hfirst, hesp]
      exact (BitVec.sub_zero _).symm
    | succ k =>
      rw [List.getElem_cons_succ, ih k (Nat.lt_of_succ_lt_succ hk), hnext, hesp]
      rw [Nat.mul_succ, BitVec.ofNat_add]
      bv_omega

/-- A `setjmp` that was called with 0x5000 on the stack for its buffer. -/
def caller : Cpu where
  edi := 1
  esi := 2
  ebp := 0x9000
  esp := 0x8000
  ebx := 3
  edx := 0
  ecx := 0
  eax := 0
  eip := 0x1000
  eflags := 0x246
  cs := 8
  mem := setWord (setWord (fun _ => 0) 0x8000 0x2000) 0x8004 0x5000

end Longjmp

end Cpu
end CxxKernel
