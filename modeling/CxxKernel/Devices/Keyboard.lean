import CxxKernel.Lib.RingBuffer
import CxxKernel.Lib.Runs
import CxxKernel.Memory
import Mathlib.Data.Nat.Bitwise

/-! `KBX86`: the keys that the interrupt handler maps go through a ring of 32 slots. The handler and `getKey`
hold a lock while they touch the ring, so that each is one step. The echo on the screen is left out. -/
namespace CxxKernel.Devices
open Runs

namespace KBX86

def KEY_CTRL : Byte := 0x1D
def KEY_LSHIFT : Byte := 0x2A
def KEY_RSHIFT : Byte := 0x36
def KEY_ALT : Byte := 0x38
def KEY_RIGHT_MODIFIER : Byte := 0x60
def KEY_RELEASE : Byte := 0x80

def MOD_SHIFT : Byte := 0x02
def MOD_CTRL : Byte := 0x04
def MOD_ALT : Byte := 0x08
def MOD_ALTGR : Byte := 0x10
def MOD_RIGHT : Byte := 0x20

def KEY_BUFFER_SIZE : Word := 32
def KEY_BUFFER_MASK : Word := KEY_BUFFER_SIZE - 1

/-- The two tables of a layout; a null pointer stands for a key that gives no text. -/
structure Layout (Key : Type) where
  plain : Byte → Option Key
  upcase : Byte → Option Key

/-- The static variables of the driver. -/
structure State (Key : Type) where
  mods : Byte
  keybuffer : ℕ → Option Key
  keybuffer_write : Word
  keybuffer_read : Word

variable {Key : Type}

def hasKey (k : State Key) : Bool := k.keybuffer_write ≠ k.keybuffer_read

def getKey (k : State Key) : Option Key × State Key :=
  if k.keybuffer_write = k.keybuffer_read then (none, k)
  else (k.keybuffer k.keybuffer_read.toNat,
    { k with keybuffer_read := (k.keybuffer_read + 1) &&& KEY_BUFFER_MASK })

def releaseMods (mods bcode : Byte) : Byte :=
  let mods := if bcode = KEY_LSHIFT then mods &&& ~~~MOD_SHIFT else mods
  let mods := if bcode = KEY_RSHIFT then mods &&& ~~~MOD_SHIFT else mods
  let mods := if bcode = KEY_CTRL then mods &&& ~~~MOD_CTRL else mods
  let mods :=
    if bcode = KEY_ALT then
      if mods &&& MOD_RIGHT ≠ 0 then mods &&& ~~~MOD_ALTGR else mods &&& ~~~MOD_ALT
    else mods
  if bcode &&& KEY_RIGHT_MODIFIER ≠ 0 then mods &&& ~~~MOD_RIGHT else mods

def pressMods (mods bcode : Byte) : Byte :=
  let mods := if bcode &&& KEY_RIGHT_MODIFIER ≠ 0 then mods ||| MOD_RIGHT else mods
  if bcode = KEY_LSHIFT then mods ||| MOD_SHIFT
  else if bcode = KEY_RSHIFT then mods ||| MOD_SHIFT
  else if bcode = KEY_CTRL then mods ||| MOD_CTRL
  else if bcode = KEY_ALT then
    if mods &&& MOD_RIGHT ≠ 0 then mods ||| MOD_ALTGR else mods ||| MOD_ALT
  else mods

/-- The text of a key, from the table that the modifiers choose. -/
def mapped (layout : Layout Key) (mods bcode : Byte) : Option Key :=
  if bcode < 0x60 then if mods &&& MOD_SHIFT ≠ 0 then layout.upcase bcode else layout.plain bcode else none

/-- The critical section of `run`. -/
def post (k : State Key) (key : Key) : State Key :=
  { k with keybuffer := Function.update k.keybuffer k.keybuffer_write.toNat (some key)
           keybuffer_write := (k.keybuffer_write + 1) &&& KEY_BUFFER_MASK }

/-- The key that a scan code gives, if it is one that `run` posts. -/
def posted (layout : Layout Key) (k : State Key) (code : Byte) : Option Key :=
  if code &&& KEY_RELEASE ≠ 0 then none else mapped layout (pressMods k.mods code) code

def run (layout : Layout Key) (k : State Key) (code : Byte) : State Key :=
  if code &&& KEY_RELEASE ≠ 0 then { k with mods := releaseMods k.mods (code &&& ~~~KEY_RELEASE) }
  else
    let mods := pressMods k.mods code
    match mapped layout mods code with
    | none => { k with mods }
    | some key => post { k with mods } key

def ring (k : State Key) : RingBuffer Key := ⟨k.keybuffer, k.keybuffer_write.toNat, k.keybuffer_read.toNat⟩

section Ring
variable {layout : Layout Key} {k : State Key} {key : Key} {code : Byte}

theorem toNat_next (w : Word) : ((w + 1) &&& KEY_BUFFER_MASK).toNat = (w.toNat + 1) % 32 := by
  have hmask : KEY_BUFFER_MASK.toNat = 2 ^ 5 - 1 := rfl
  have hone : (1 : Word).toNat = 1 := rfl
  rw [BitVec.toNat_and, hmask, Nat.and_two_pow_sub_one_eq_mod, BitVec.toNat_add, hone]
  omega

theorem ring_post (k : State Key) (key : Key) : ring (post k key) = (ring k).push 32 key := by
  unfold ring post RingBuffer.push
  rw [toNat_next]

theorem ring_getKey (k : State Key) : (getKey k).1 = ((ring k).pop 32).1 ∧
    ring (getKey k).2 = ((ring k).pop 32).2 := by
  have hiff : k.keybuffer_write = k.keybuffer_read ↔ (ring k).write = (ring k).read :=
    ⟨fun he => congrArg BitVec.toNat he, fun he => BitVec.eq_of_toNat_eq he⟩
  unfold getKey RingBuffer.pop
  by_cases hempty : k.keybuffer_write = k.keybuffer_read
  · rw [if_pos hempty, if_pos (hiff.mp hempty)]
    exact ⟨rfl, rfl⟩
  · rw [if_neg hempty, if_neg (mt hiff.mpr hempty)]
    refine ⟨rfl, ?_⟩
    unfold ring
    rw [toNat_next]

theorem hasKey_iff : hasKey k = true ↔ (ring k).write ≠ (ring k).read := by
  rw [hasKey, decide_eq_true_iff]
  exact not_congr ⟨fun he => congrArg BitVec.toNat he, fun he => BitVec.eq_of_toNat_eq he⟩

/-- A scan code that gives a key posts it, and any other leaves the ring alone. -/
theorem ring_run : ring (run layout k code) =
    match posted layout k code with
    | none => ring k
    | some key => (ring k).push 32 key := by
  unfold run posted
  by_cases hrelease : code &&& KEY_RELEASE ≠ 0
  · rw [if_pos hrelease, if_pos hrelease]
    rfl
  · rw [if_neg hrelease, if_neg hrelease]
    dsimp only
    cases mapped layout (pressMods k.mods code) code with
    | none => rfl
    | some key => exact ring_post _ key

end Ring

inductive Op
  | run (code : Byte)
  | getKey

/-- The driver with a record of its keys: all that were pressed, all that `getKey` returned, and those
pressed since the queue was last empty and not returned yet. -/
structure Trace (Key : Type) where
  kb : State Key
  pressed : List Key
  returned : List Key
  pending : List Key

/-- The answer null says that the queue is empty. -/
def exec (layout : Layout Key) (t : Trace Key) : Op → Trace Key
  | .run code =>
    let key := (posted layout t.kb code).toList
    ⟨run layout t.kb code, t.pressed ++ key, t.returned, t.pending ++ key⟩
  | .getKey =>
    match getKey t.kb with
    | (none, kb) => ⟨kb, t.pressed, t.returned, []⟩
    | (some key, kb) => ⟨kb, t.pressed, t.returned ++ [key], t.pending.tail⟩

def Step (layout : Layout Key) (t : Trace Key) (op : Op) (t' : Trace Key) : Prop := t' = exec layout t op

def start (mods : Byte) (keybuffer : ℕ → Option Key) : Trace Key := ⟨⟨mods, keybuffer, 0, 0⟩, [], [], []⟩

/-- The keys that the next `n` calls of `getKey` return. -/
def nextKeys : ℕ → State Key → List Key
  | 0, _ => []
  | n + 1, k => (getKey k).1.toList ++ nextKeys n (getKey k).2

/-- With keys pending the queue does not look empty, and enough of them are still returned. -/
def QueueLaw (t : Trace Key) : Prop :=
  t.pending ≠ [] → hasKey t.kb = true ∧
    ∃ n, (nextKeys n t.kb).Sublist t.pending ∧
      min t.pending.length (KEY_BUFFER_SIZE.toNat - 1) ≤ (nextKeys n t.kb).length

/-- No key is posted while 31 are pending. -/
def NotFull (layout : Layout Key) (t : Trace Key) : Op → Prop
  | .run code => (posted layout t.kb code).isSome = true → t.pending.length < KEY_BUFFER_SIZE.toNat - 1
  | .getKey => True

section Laws
variable {layout : Layout Key} {t t' : Trace Key} {op : Op} {ops : List Op} {mods : Byte}
  {keybuffer : ℕ → Option Key}

theorem nextKeys_eq (n : ℕ) (k : State Key) : nextKeys n k = (ring k).drain 32 n := by
  induction n generalizing k with
  | zero => rfl
  | succ n ih =>
    obtain ⟨hkey, hring⟩ := ring_getKey k
    rw [nextKeys, RingBuffer.drain, ih, hkey, hring]

theorem exec_getKey_none (h : (getKey t.kb).1 = none) :
    exec layout t .getKey = ⟨(getKey t.kb).2, t.pressed, t.returned, []⟩ := by
  rw [exec]
  generalize getKey t.kb = r at *
  obtain ⟨_ | _, kb⟩ := r <;> cases h
  rfl

theorem exec_getKey_some {key : Key} (h : (getKey t.kb).1 = some key) :
    exec layout t .getKey = ⟨(getKey t.kb).2, t.pressed, t.returned ++ [key], t.pending.tail⟩ := by
  rw [exec]
  generalize getKey t.kb = r at *
  obtain ⟨_ | _, kb⟩ := r <;> cases h
  rfl

/-- As long as the ring has not overflowed it holds the pending keys. -/
def Held (t : Trace Key) : Prop := (ring t.kb).Queue 32 t.pending

theorem Held.law (h : Held t) : QueueLaw t := by
  intro hne
  constructor
  · exact hasKey_iff.mpr (mt h.empty_iff.mp hne)
  · refine ⟨t.pending.length, ?_, ?_⟩
    · rw [nextKeys_eq, h.drain]
    · rw [nextKeys_eq, h.drain]
      exact min_le_left _ _

theorem Held.exec (h : Held t) (hcond : NotFull layout t op) : Held (exec layout t op) := by
  cases op with
  | run code =>
    change (ring (run layout t.kb code)).Queue 32 (t.pending ++ (posted layout t.kb code).toList)
    rw [ring_run]
    cases hkey : posted layout t.kb code with
    | none =>
      rw [Option.toList_none, List.append_nil]
      exact h
    | some key =>
      have hroom : t.pending.length < 31 := hcond (by rw [hkey]; rfl)
      exact h.push (by omega)
  | getKey =>
    obtain ⟨hkey, hring⟩ := ring_getKey t.kb
    cases hpending : t.pending with
    | nil =>
      rw [Held, hpending] at h
      have hpop := h.pop_nil
      rw [hpop] at hkey hring
      rw [exec_getKey_none hkey]
      change (ring (getKey t.kb).2).Queue 32 []
      rw [hring]
      exact h
    | cons key pending =>
      rw [Held, hpending] at h
      obtain ⟨hpop, hrest⟩ := h.pop_cons
      rw [exec_getKey_some (hkey.trans hpop), hpending]
      change (ring (getKey t.kb).2).Queue 32 pending
      rw [hring]
      exact hrest

/-- Also where keys are lost, what has been returned is in the order of the presses. -/
def Ordered (t : Trace Key) : Prop := (ring t.kb).InOrder 32 t.pressed t.returned

theorem Ordered.exec (h : Ordered t) : Ordered (KBX86.exec layout t op) := by
  cases op with
  | run code =>
    change (ring (run layout t.kb code)).InOrder 32 (t.pressed ++ (posted layout t.kb code).toList) t.returned
    rw [ring_run]
    cases posted layout t.kb code with
    | none =>
      rw [Option.toList_none, List.append_nil]
      exact h
    | some key => exact h.push
  | getKey =>
    obtain ⟨hkey, hring⟩ := ring_getKey t.kb
    have hpop := h.pop (by decide)
    rw [← hkey, ← hring] at hpop
    cases hget : (getKey t.kb).1 with
    | none =>
      rw [hget, Option.toList_none, List.append_nil] at hpop
      rw [exec_getKey_none hget]
      exact hpop
    | some key =>
      rw [hget] at hpop
      rw [exec_getKey_some hget]
      exact hpop

theorem run_foldl (t : Trace Key) (ops : List Op) : Run (Step layout) t ops (ops.foldl (exec layout) t) := by
  induction ops generalizing t with
  | nil => exact .nil t
  | cons op ops ih => exact .cons rfl (ih _)

end Laws

/-- A layout on which each key gives its own scan code. -/
def codes : Layout Byte := ⟨some, some⟩

def fresh : Trace Byte := start 0 fun _ => none

end KBX86

end CxxKernel.Devices
