import CxxKernel.Lib.Runs
import CxxKernel.Memory
import Mathlib.Data.List.Nodup

/-! `FB`: where the two buffers of the framebuffer come from and where they go. Pixels are left out. -/
namespace CxxKernel.Devices
open Runs

/-- Where a pointer of the framebuffer comes from: `mm n` is the buffer of the `n`-th `alloc` that
succeeded. -/
inductive Ptr
  | null
  | device (base : Word)
  | mm (n : ℕ)
  deriving DecidableEq

structure ModeConfig where
  width : Word
  height : Word
  bytes_per_line : BitVec 16
  depth : BitVec 8
  base : Word

def ModeConfig.basePtr (mode : ModeConfig) : Ptr := if mode.base = 0 then .null else .device mode.base

/-- The code does not read the last two fields: `obtained` counts the buffers that `alloc` gave, and
`freed` records the pointers that were passed to `free`. -/
structure FB where
  m_buffer : Ptr
  m_backbuffer : Ptr
  m_double_buffer : Bool
  m_current : Option ModeConfig
  m_size : Word
  m_direct : Bool
  m_configured : Bool
  obtained : ℕ
  freed : List Ptr

namespace FB

/-- `MM::free` behind a test for null, as at every place where a buffer may be null. -/
def free (fb : FB) (p : Ptr) : FB := if p = .null then fb else { fb with freed := fb.freed ++ [p] }

/-- `MM::alloc`, which succeeds or not. -/
def alloc (fb : FB) (succeeds : Bool) : FB × Ptr :=
  if succeeds then ({ fb with obtained := fb.obtained + 1 }, .mm fb.obtained) else (fb, .null)

/-- Whether a new buffer reads back the bytes written to its start, its middle and its end. -/
def readsBack (size : Word) (first middle last : UInt8) : Bool :=
  let buffer : Word → UInt8 := Function.update (fun _ => 0) 0 first
  let buffer := Function.update buffer (size / 2) middle
  let buffer := Function.update buffer (size - 1) last
  buffer 0 = first ∧ buffer (size / 2) = middle ∧ buffer (size - 1) = last

def setSingleBuffer (fb : FB) : FB :=
  let fb := { fb with m_double_buffer := false }
  let fb := fb.free fb.m_buffer
  { fb with m_buffer := .null }

/-- There is no answer when the object was never configured, where the source follows a null pointer. -/
def setDirect (fb : FB) : Option FB := do
  let mode ← fb.m_current
  let fb := { fb with m_direct := true }
  let fb := fb.free fb.m_backbuffer
  let fb := fb.free fb.m_buffer
  some { fb with m_backbuffer := mode.basePtr, m_buffer := mode.basePtr }

/-- The part of `allocBuffers` for the second buffer. -/
def allocFront (fb : FB) (second : Bool) : FB :=
  let (fb, p) := fb.alloc second
  let fb := { fb with m_buffer := p }
  if fb.m_buffer = .null then { fb with m_double_buffer := false, m_buffer := .null }
  else if readsBack fb.m_size 0xef 0xde 0xec then fb
  else
    let fb := { fb with m_double_buffer := false }
    let fb := fb.free fb.m_buffer
    { fb with m_buffer := .null }

/-- The two flags say which calls of `alloc` succeed. -/
def allocBuffers (fb : FB) (mode : ModeConfig) (first second : Bool) : FB :=
  if fb.m_direct then fb
  else
    let fb := { fb with m_size := mode.bytes_per_line.setWidth 32 * mode.height }
    let (fb, p) := fb.alloc first
    let fb := { fb with m_backbuffer := p }
    if fb.m_backbuffer = .null then { fb with m_direct := true, m_backbuffer := mode.basePtr }
    else if readsBack fb.m_size 0xfe 0xed 0xdc then fb.allocFront second
    else
      let fb := { fb with m_direct := true }
      let fb := fb.free fb.m_backbuffer
      { fb with m_backbuffer := mode.basePtr }

def freeBuffers (fb : FB) : FB :=
  let fb := fb.free fb.m_buffer
  let fb := { fb with m_buffer := .null }
  let fb := fb.free fb.m_backbuffer
  { fb with m_backbuffer := .null }

def configure (fb : FB) (mode : Option ModeConfig) (first second : Bool) : FB :=
  match mode with
  | none => fb
  | some mode => { ({ fb with m_current := some mode }.allocBuffers mode first second) with m_configured := true }

def swap (fb : FB) : FB :=
  if fb.m_buffer = .null then fb
  else if fb.m_backbuffer = .null then fb
  else if fb.m_direct then fb
  else if fb.m_double_buffer then fb
  else { fb with m_buffer := fb.m_backbuffer }

inductive Op
  | configure (mode : Option ModeConfig) (first second : Bool)
  | swap
  | setSingleBuffer
  | setDirect
  | freeBuffers

def exec (fb : FB) : Op → Option FB
  | .configure mode first second => some (configure fb mode first second)
  | .swap => some fb.swap
  | .setSingleBuffer => some fb.setSingleBuffer
  | .setDirect => fb.setDirect
  | .freeBuffers => some fb.freeBuffers

/-- The constructor, which leaves `m_size` as it finds it. -/
def new (m_size : Word) : FB := ⟨.null, .null, false, none, m_size, false, false, 0, []⟩

def Step (fb : FB) (op : Op) (fb' : FB) : Prop := exec fb op = some fb'

/-- What is passed to `free`, in order. -/
def released (p : Ptr) : List Ptr := if p = .null then [] else [p]

/-- Only buffers that were obtained have been freed, each once. -/
structure Paid (obtained : ℕ) (freed : List Ptr) : Prop where
  fromMM : ∀ p ∈ freed, ∃ n < obtained, p = .mm n
  once : freed.Nodup

/-- Nothing was freed twice, nothing that is not from `MM`, and nothing that a pointer still names. -/
structure Owned (fb : FB) : Prop where
  paid : Paid fb.obtained fb.freed
  buffer : fb.m_buffer ∉ fb.freed
  backbuffer : fb.m_backbuffer ∉ fb.freed

/-- The law of a step; `freeBuffers` also has to leave nothing behind. -/
def Law (_ : FB) (op : Op) (fb' : FB) : Prop :=
  Owned fb' ∧ (op = .freeBuffers → ∀ n < fb'.obtained, .mm n ∈ fb'.freed)

def IsDevice : Ptr → Prop
  | .device _ => True
  | _ => False

/-- Neither pointer names device memory, and they do not name the same buffer. -/
structure Releasable (fb : FB) : Prop where
  buffer : ¬ IsDevice fb.m_buffer
  backbuffer : ¬ IsDevice fb.m_backbuffer
  distinct : fb.m_buffer = fb.m_backbuffer → fb.m_buffer = .null

/-- Every buffer that was not freed is still named by one of the pointers. -/
def NoneLost (fb : FB) : Prop :=
  ∀ n < fb.obtained, .mm n ∈ fb.freed ∨ fb.m_buffer = .mm n ∨ fb.m_backbuffer = .mm n

/-- The condition on a step: what it frees is there to be freed. -/
def Safe (fb : FB) (op : Op) (_ : FB) : Prop :=
  match op with
  | .configure _ _ _ => True
  | .swap => True
  | .setSingleBuffer => fb.m_buffer = .null ∨ ¬ IsDevice fb.m_buffer ∧ fb.m_buffer ≠ fb.m_backbuffer
  | .setDirect => Releasable fb
  | .freeBuffers => Releasable fb ∧ NoneLost fb

section Laws
variable {fb fb' : FB} {p q : Ptr} {n : ℕ} {freed ps : List Ptr}

theorem free_eq (fb : FB) (p : Ptr) : fb.free p = { fb with freed := fb.freed ++ released p } := by
  unfold free released
  split
  · rw [List.append_nil]
  · rfl

theorem freeBuffers_eq (fb : FB) : fb.freeBuffers = { fb with
    m_buffer := .null, m_backbuffer := .null,
    freed := fb.freed ++ released fb.m_buffer ++ released fb.m_backbuffer } := by
  rw [freeBuffers, free_eq, free_eq]

theorem setSingleBuffer_eq (fb : FB) : fb.setSingleBuffer = { fb with
    m_buffer := .null, m_double_buffer := false, freed := fb.freed ++ released fb.m_buffer } := by
  rw [setSingleBuffer, free_eq]

theorem mem_released : q ∈ released p ↔ p ≠ .null ∧ q = p := by
  unfold released
  split
  · simp [*]
  · simp [*]

theorem Paid.before (h : Paid n (freed ++ ps)) : Paid n freed where
  fromMM p hp := h.fromMM p (List.mem_append_left _ hp)
  once := (List.nodup_append.mp h.once).1

theorem Paid.mono {m : ℕ} (h : Paid n freed) (hle : n ≤ m) : Paid m freed where
  fromMM p hp := by
    obtain ⟨k, hk, rfl⟩ := h.fromMM p hp
    exact ⟨k, by omega, rfl⟩
  once := h.once

theorem Paid.fresh (h : Paid n freed) : .mm n ∉ freed := by
  intro hmem
  obtain ⟨k, hk, he⟩ := h.fromMM _ hmem
  cases he
  omega

theorem Paid.one_iff (h : Paid n freed) (hknown : ∀ k, p = .mm k → k < n) :
    Paid n (freed ++ released p) ↔ ¬ IsDevice p ∧ p ∉ freed := by
  cases p with
  | null =>
    rw [released, if_pos rfl, List.append_nil]
    have hnull : Ptr.null ∉ freed := by
      intro hmem
      obtain ⟨k, -, hk⟩ := h.fromMM _ hmem
      cases hk
    exact ⟨fun _ => ⟨id, hnull⟩, fun _ => h⟩
  | device base =>
    constructor
    · intro hall
      obtain ⟨k, -, hk⟩ := hall.fromMM (.device base) (List.mem_append_right _
        (mem_released.mpr ⟨Ptr.noConfusion, rfl⟩))
      cases hk
    · rintro ⟨hdevice, -⟩
      exact absurd trivial hdevice
  | mm k =>
    have hreleased : released (.mm k) = [.mm k] := if_neg Ptr.noConfusion
    rw [hreleased]
    constructor
    · intro hall
      refine ⟨id, ?_⟩
      intro hfreed
      exact (List.nodup_append.mp hall.once).2.2 _ hfreed _ (List.mem_singleton_self _) rfl
    · rintro ⟨-, hfreed⟩
      constructor
      · intro p hp
        rcases List.mem_append.mp hp with hp | hp
        · exact h.fromMM p hp
        · exact ⟨k, hknown k rfl, List.mem_singleton.mp hp⟩
      · rw [← List.concat_eq_append]
        exact h.once.concat hfreed

/-- A pointer that may be named: no buffer that was freed, and none that was never obtained. -/
structure Nameable (n : ℕ) (freed : List Ptr) (p : Ptr) : Prop where
  unfreed : p ∉ freed
  known : ∀ k, p = .mm k → k < n

theorem Paid.nameable (h : Paid n freed) (hp : ∀ k, p ≠ .mm k) : Nameable n freed p where
  unfreed hmem := by
    obtain ⟨k, -, hk⟩ := h.fromMM p hmem
    exact hp k hk
  known k hk := absurd hk (hp k)

theorem Paid.null (h : Paid n freed) : Nameable n freed .null := h.nameable fun _ => Ptr.noConfusion

theorem Paid.basePtr (h : Paid n freed) (mode : ModeConfig) : Nameable n freed mode.basePtr := by
  apply h.nameable
  intro k
  unfold ModeConfig.basePtr
  split
  · exact Ptr.noConfusion
  · exact Ptr.noConfusion

theorem Paid.obtained (h : Paid n freed) : Nameable (n + 1) freed (.mm n) where
  unfreed := h.fresh
  known k hk := by
    cases hk
    exact Nat.lt_succ_self n

theorem Paid.tried (h : Paid n freed) : Paid (n + 1) (freed ++ released (.mm n)) :=
  ((h.mono (Nat.le_succ n)).one_iff h.obtained.known).mpr ⟨id, h.fresh⟩

theorem Nameable.mono (h : Nameable n freed p) : Nameable (n + 1) freed p where
  unfreed := h.unfreed
  known k hk := Nat.lt_succ_of_lt (h.known k hk)

theorem Nameable.tried (h : Nameable n freed p) : Nameable (n + 1) (freed ++ released (.mm n)) p where
  unfreed hmem := by
    rw [List.mem_append, mem_released] at hmem
    rcases hmem with hmem | ⟨-, he⟩
    · exact h.unfreed hmem
    · exact absurd (h.known n he) (Nat.lt_irrefl n)
  known := h.mono.known

theorem Paid.both_iff (h : Paid n freed) (hp : Nameable n freed p) (hq : Nameable n freed q) :
    Paid n (freed ++ released p ++ released q) ↔ ¬ IsDevice p ∧ ¬ IsDevice q ∧ (p = q → p = .null) := by
  have hdistinct : q ∉ freed ++ released p ↔ (p = q → p = .null) := by
    rw [List.mem_append, mem_released, not_or]
    constructor
    · rintro ⟨-, hne⟩ hpq
      by_contra hnull
      exact hne ⟨hnull, hpq.symm⟩
    · intro hnull
      exact ⟨hq.unfreed, fun hmem => hmem.1 (hnull hmem.2.symm)⟩
  constructor
  · intro hall
    have hfirst := (h.one_iff hp.known).mp hall.before
    have hsecond := (hall.before.one_iff hq.known).mp hall
    exact ⟨hfirst.1, hsecond.1, hdistinct.mp hsecond.2⟩
  · rintro ⟨hdevice, hdevice', hnull⟩
    have hfirst := (h.one_iff hp.known).mpr ⟨hdevice, hp.unfreed⟩
    exact (hfirst.one_iff hq.known).mpr ⟨hdevice', hdistinct.mpr hnull⟩

/-- The state before every step of a run that has kept the law. -/
structure Inv (fb : FB) : Prop where
  paid : Paid fb.obtained fb.freed
  buffer : Nameable fb.obtained fb.freed fb.m_buffer
  backbuffer : Nameable fb.obtained fb.freed fb.m_backbuffer

namespace Inv

theorem owned (h : Inv fb) : Owned fb := ⟨h.paid, h.buffer.unfreed, h.backbuffer.unfreed⟩

theorem new (size : Word) : Inv (new size) := by
  have hpaid : Paid 0 [] := ⟨fun _ hp => absurd hp List.not_mem_nil, List.nodup_nil⟩
  exact ⟨hpaid, hpaid.null, hpaid.null⟩

theorem owned_freeBuffers_iff (h : Inv fb) : Owned fb.freeBuffers ↔ Releasable fb := by
  have hboth := h.paid.both_iff h.buffer h.backbuffer
  rw [freeBuffers_eq]
  constructor
  · intro howned
    obtain ⟨hb, hbb, hdistinct⟩ := hboth.mp howned.paid
    exact ⟨hb, hbb, hdistinct⟩
  · intro hrel
    have hpaid := hboth.mpr ⟨hrel.buffer, hrel.backbuffer, hrel.distinct⟩
    exact ⟨hpaid, hpaid.null.unfreed, hpaid.null.unfreed⟩

theorem owned_setDirect_iff (h : Inv fb) (hset : fb.setDirect = some fb') : Owned fb' ↔ Releasable fb := by
  obtain ⟨mode, -, hmode⟩ := Option.bind_eq_some_iff.mp hset
  obtain rfl := Option.some.inj hmode
  have hboth := h.paid.both_iff h.backbuffer h.buffer
  rw [free_eq, free_eq]
  constructor
  · intro howned
    obtain ⟨hbb, hb, hdistinct⟩ := hboth.mp howned.paid
    exact ⟨hb, hbb, fun he => he.trans (hdistinct he.symm)⟩
  · intro hrel
    have hpaid := hboth.mpr ⟨hrel.backbuffer, hrel.buffer, fun he => he.trans (hrel.distinct he.symm)⟩
    exact ⟨hpaid, (hpaid.basePtr mode).unfreed, (hpaid.basePtr mode).unfreed⟩

/-- After `freeBuffers` everything obtained is freed exactly if nothing was lost before. -/
theorem freeBuffers_all_iff (fb : FB) :
    (∀ n < fb.freeBuffers.obtained, .mm n ∈ fb.freeBuffers.freed) ↔ NoneLost fb := by
  have hreleased : ∀ n p, Ptr.mm n ∈ released p ↔ p = .mm n := by
    intro n p
    rw [mem_released]
    constructor
    · intro hmem
      exact hmem.2.symm
    · intro he
      exact ⟨he ▸ Ptr.noConfusion, he.symm⟩
  rw [freeBuffers_eq]
  apply forall₂_congr
  intro n _
  rw [List.mem_append, List.mem_append, hreleased, hreleased, or_assoc]

theorem owned_setSingleBuffer_iff (h : Inv fb) : Owned fb.setSingleBuffer ↔
    fb.m_buffer = .null ∨ ¬ IsDevice fb.m_buffer ∧ fb.m_buffer ≠ fb.m_backbuffer := by
  have hone := h.paid.one_iff h.buffer.known
  have hmem : fb.m_backbuffer ∈ fb.freed ++ released fb.m_buffer ↔
      fb.m_buffer ≠ .null ∧ fb.m_backbuffer = fb.m_buffer := by
    rw [List.mem_append, mem_released, or_iff_right h.backbuffer.unfreed]
  rw [setSingleBuffer_eq]
  constructor
  · intro howned
    by_cases hnull : fb.m_buffer = .null
    · exact .inl hnull
    · refine .inr ⟨(hone.mp howned.paid).1, ?_⟩
      intro hsame
      exact howned.backbuffer (hmem.mpr ⟨hnull, hsame.symm⟩)
  · intro hcond
    have hdevice : ¬ IsDevice fb.m_buffer := by
      rcases hcond with hnull | hcond
      · rw [hnull]
        exact id
      · exact hcond.1
    have hpaid := hone.mpr ⟨hdevice, h.buffer.unfreed⟩
    refine ⟨hpaid, hpaid.null.unfreed, ?_⟩
    intro hfreed
    obtain ⟨hne, hsame⟩ := hmem.mp hfreed
    rcases hcond with hnull | hcond
    · exact hne hnull
    · exact hcond.2 hsame.symm

theorem allocFront (h : Inv fb) (second : Bool) : Inv (fb.allocFront second) := by
  cases second with
  | false => exact ⟨h.paid, h.paid.null, h.backbuffer⟩
  | true =>
    change Inv (if readsBack fb.m_size 0xef 0xde 0xec = true then _ else _)
    split
    · exact ⟨h.paid.mono (Nat.le_succ _), h.paid.obtained, h.backbuffer.mono⟩
    · rw [free_eq]
      exact ⟨h.paid.tried, h.paid.tried.null, h.backbuffer.tried⟩

theorem allocBuffers (h : Inv fb) (mode : ModeConfig) (first second : Bool) :
    Inv (fb.allocBuffers mode first second) := by
  rw [FB.allocBuffers]
  split
  · exact h
  · cases first with
    | false => exact ⟨h.paid, h.buffer, h.paid.basePtr mode⟩
    | true =>
      change Inv (if readsBack (mode.bytes_per_line.setWidth 32 * mode.height) 0xfe 0xed 0xdc = true then _ else _)
      split
      · apply Inv.allocFront
        exact ⟨h.paid.mono (Nat.le_succ _), h.buffer.mono, h.paid.obtained⟩
      · rw [free_eq]
        exact ⟨h.paid.tried, h.buffer.tried, h.paid.tried.basePtr mode⟩

theorem configure (h : Inv fb) (mode : Option ModeConfig) (first second : Bool) :
    Inv (fb.configure mode first second) := by
  cases mode with
  | none => exact h
  | some mode =>
    have hcurrent : Inv { fb with m_current := some mode } := ⟨h.paid, h.buffer, h.backbuffer⟩
    have halloc := hcurrent.allocBuffers mode first second
    exact ⟨halloc.paid, halloc.buffer, halloc.backbuffer⟩

theorem swap (h : Inv fb) : Inv fb.swap := by
  rw [FB.swap]
  split_ifs
  · exact h
  · exact h
  · exact h
  · exact h
  · exact ⟨h.paid, h.backbuffer, h.backbuffer⟩

/-- What a step leaves in the two pointers has been obtained. -/
theorem step {op : Op} (h : Inv fb) (hstep : Step fb op fb') (howned : Owned fb') : Inv fb' := by
  have hpaid := howned.paid
  cases op with
  | configure mode first second =>
    cases hstep
    exact h.configure mode first second
  | swap =>
    cases hstep
    exact h.swap
  | setSingleBuffer =>
    cases hstep
    have hback := howned.backbuffer
    rw [setSingleBuffer_eq] at hpaid hback ⊢
    exact ⟨hpaid, hpaid.null, hback, h.backbuffer.known⟩
  | setDirect =>
    obtain ⟨mode, -, hmode⟩ := Option.bind_eq_some_iff.mp hstep
    cases hmode
    exact ⟨hpaid, hpaid.basePtr mode, hpaid.basePtr mode⟩
  | freeBuffers =>
    cases hstep
    rw [freeBuffers_eq] at hpaid ⊢
    exact ⟨hpaid, hpaid.null, hpaid.null⟩

/-- A step obeys the law exactly if it is safe. -/
theorem law_iff {op : Op} (h : Inv fb) (hstep : Step fb op fb') : Law fb op fb' ↔ Safe fb op fb' := by
  have honly : op ≠ .freeBuffers → (Law fb op fb' ↔ Owned fb') := by
    intro hop
    exact ⟨And.left, fun howned => ⟨howned, fun he => absurd he hop⟩⟩
  cases op with
  | configure mode first second =>
    cases hstep
    rw [honly Op.noConfusion]
    exact iff_of_true (h.configure mode first second).owned trivial
  | swap =>
    cases hstep
    rw [honly Op.noConfusion]
    exact iff_of_true h.swap.owned trivial
  | setSingleBuffer =>
    cases hstep
    rw [honly Op.noConfusion]
    exact h.owned_setSingleBuffer_iff
  | setDirect =>
    rw [honly Op.noConfusion]
    exact h.owned_setDirect_iff hstep
  | freeBuffers =>
    cases hstep
    have hall : Law fb .freeBuffers fb.freeBuffers ↔
        Owned fb.freeBuffers ∧ ∀ n < fb.freeBuffers.obtained, .mm n ∈ fb.freeBuffers.freed :=
      and_congr_right fun _ => forall_prop_of_true rfl
    rw [hall, freeBuffers_all_iff, h.owned_freeBuffers_iff]
    rfl

end Inv

/-- In every run the buffers obey the law at each step exactly if each step is safe. -/
theorem ownership_iff {size : Word} {ops : List Op} :
    Run (Guarded Step Law) (new size) ops fb ↔ Run (Guarded Step Safe) (new size) ops fb := by
  have hkeep : ∀ fb op fb', Inv fb → Step fb op fb' → Safe fb op fb' → Inv fb' := by
    intro fb op fb' h hstep hsafe
    exact h.step hstep ((h.law_iff hstep).mpr hsafe).1
  exact guarded_iff (fun _ _ _ h hstep => h.law_iff hstep) hkeep (Inv.new size)

end Laws

def vga : ModeConfig := ⟨640, 480, 2560, 32, 0xE0000000⟩

/-- The kernel configures the framebuffer and swaps; to give the buffers back then frees one of them twice
and the other one never. -/
theorem swap_freesTwice : ∃ fb fb', Run Step (new 0) [.configure (some vga) true true, .swap] fb ∧
    Step fb .freeBuffers fb' ∧ fb'.freed = [.mm 0, .mm 0] ∧ fb'.obtained = 2 ∧ ¬ Law fb .freeBuffers fb' := by
  have hrun : Run Step (new 0) [.configure (some vga) true true, .swap] _ := run_of_runAll rfl
  have hfreed : ((new 0).configure (some vga) true true).swap.freeBuffers.freed = [.mm 0, .mm 0] := by
    decide +kernel
  refine ⟨_, _, hrun, rfl, hfreed, by decide +kernel, ?_⟩
  rintro ⟨howned, -⟩
  have honce := howned.paid.once
  rw [hfreed] at honce
  exact absurd honce (by decide)

end FB

end CxxKernel.Devices
