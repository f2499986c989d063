import CxxKernel.Paging.Mapping

/-! `PagingPrivate::init`: the walk over the memory map, the static memory of the paging itself, and
the frames that are marked used before the first call. -/
namespace CxxKernel.Paging

def KERNEL_PRE_POS : Word := 0x20000000
def KERNEL_INIT_SIZE : Word := 0x000FFFFF
def HEAP_START : Word := 0x30000000
def USER_HEAP_START : Word := 0xD0000000

def SIZEOF_BITS : Word := 16

/-- Two arrays of 1024 words, and a pointer. -/
def SIZEOF_PAGE_DIR : Word := 8196

def MultibootMemoryAvailable : Word := 1
def MultibootMemoryReserved : Word := 2
def MultibootMemoryAcpiReclaimable : Word := 3

/-- An entry of the memory map. Its size only leads to the next entry. -/
structure MemoryMap where
  base_addr_low : Word
  base_addr_high : Word
  length_low : Word
  length_high : Word
  type : Word
  deriving DecidableEq

/-- The walk over the entries. It also counts pages up to 0x120, with no effect. -/
def memSizeLoop : List MemoryMap → Word → Word
  | [], size => size
  | mmap :: rest, size =>
    let size :=
      if mmap.base_addr_low + mmap.length_low > size then mmap.base_addr_low + mmap.length_low else size
    if mmap.type = MultibootMemoryAvailable then memSizeLoop rest size
    else if mmap.type = MultibootMemoryReserved ∨ mmap.type = MultibootMemoryAcpiReclaimable then
      memSizeLoop rest size
    else size

/-- `__mem_size` after the walk. -/
def memSize (mmap : List MemoryMap) : Word := memSizeLoop mmap 0

/-- The number of bits of the bitmap. -/
def pageCnt (mmap : List MemoryMap) : ℕ := (memSize mmap).toNat / PAGE_SIZE

/-- Where the linker has put the kernel: from 1 MiB on, with the stack inside, and far below the
kernel heap. Static memory follows. -/
structure KernelImage where
  stack_bottom : Word
  stack_top : Word
  free_page_address : Word
  bottom_le : 0x100000 ≤ stack_bottom.toNat
  stack_le : stack_bottom.toNat ≤ stack_top.toNat
  top_le : stack_top.toNat ≤ free_page_address.toNat
  free_le : free_page_address.toNat ≤ KERNEL_PRE_POS.toNat

namespace PagingPrivate

def identityMap (addr : Word) (type : MapType) (perms : MapPermissions) (s : PagingPrivate) :
    PagingPrivate :=
  let (p, s) := s.dirGetPage addr .doReserve
  (s.identityMapFrame p addr type perms).2

/-- The loops of `init`: the body runs for one page after the other. There is no result if they do
not end. -/
def forPages (stop : PagingPrivate → Word) (body : Word → PagingPrivate → PagingPrivate) :
    ℕ → Word → PagingPrivate → Option PagingPrivate
  | 0, _, _ => none
  | fuel + 1, i, s =>
    if i < stop s then forPages stop body fuel (i + BitVec.ofNat 32 PAGE_SIZE) (body i s) else some s

/-- More rounds than there are pages. -/
@[irreducible] def ROUNDS : ℕ := 2 ^ 20 + 1

def reservePages (start stop : Word) (s : PagingPrivate) : Option PagingPrivate :=
  forPages (fun _ => stop) (fun i s => (s.dirGetPage i .doReserve).2) ROUNDS start s

def identityMapPages (start : Word) (stop : PagingPrivate → Word) (s : PagingPrivate) :
    Option PagingPrivate :=
  forPages stop (identityMap · .kernel .rw) ROUNDS start s

/-- The state when `init` is called. Until the bitmap is there, marks are lost. -/
def boot (image : KernelImage) : PagingPrivate where
  bits := .new 0
  directory := ⟨fun _ => none⟩
  free_page_address := image.free_page_address
  heap_address := HEAP_START
  user_heap_address := USER_HEAP_START

/-- The bitmap and the directory. -/
def initStatic (image : KernelImage) (mmap : List MemoryMap) : Word × PagingPrivate :=
  let bits := Bits.new (pageCnt mmap)
  let (_, s) := (boot image).allocStatic SIZEOF_BITS
  let (_, s) := s.allocStatic (BitVec.ofNat 32 (4 * bits.len))
  { s with bits }.allocStatic SIZEOF_PAGE_DIR

/-- Page 0 is mapped too, as address 1 is in it. -/
def init (image : KernelImage) (mmap : List MemoryMap) : Option PagingPrivate := do
  let (directory, s) := initStatic image mmap
  if directory = 0 then none
  else
    let s ← reservePages HEAP_START (HEAP_START + KERNEL_INIT_SIZE) s
    let s ← reservePages USER_HEAP_START (USER_HEAP_START + KERNEL_INIT_SIZE) s
    let s ← identityMapPages 1 (fun _ => 0x10000) s
    let s ← identityMapPages 0xA0000 (fun _ => 0xBFFFF) s
    let s ← identityMapPages 0xC0000 (fun _ => 0xC7FFF) s
    let s ← identityMapPages 0xC8000 (fun _ => 0xEFFFF) s
    let s ← identityMapPages 0xF0000 (fun _ => 0xFFFFF) s
    let s ← identityMapPages 0x100000 free_page_address s
    let s ← identityMapPages image.stack_bottom (fun _ => image.stack_top) s
    let start := s.free_page_address
    identityMapPages start (fun _ => start + KERNEL_INIT_SIZE) s

end PagingPrivate

namespace Bits
variable {b b₁ b₂ b₃ : Bits} {P Q : ℕ → Prop}

/-- From one bitmap to the other, the frames of `P` are marked. -/
structure Marks (b b' : Bits) (P : ℕ → Prop) : Prop where
  cnt : b'.cnt = b.cnt
  ok : b.Ok → b'.Ok
  marked : ∀ f, b'.marked f = true ↔ b.marked f = true ∨ f < b.cnt ∧ P f

theorem marks_refl (h : ∀ f, ¬ P f) : Marks b b P :=
  ⟨rfl, id, fun f => by simp [h f]⟩

theorem Marks.trans (h : Marks b₁ b₂ P) (h' : Marks b₂ b₃ Q) : Marks b₁ b₃ fun f => P f ∨ Q f := by
  refine ⟨h'.cnt.trans h.cnt, fun hok => h'.ok (h.ok hok), fun f => ?_⟩
  rw [h'.marked, h.marked, h.cnt, or_assoc, and_or_left]

theorem Marks.congr (h : Marks b₁ b₂ P) (hPQ : ∀ f, P f ↔ Q f) : Marks b₁ b₂ Q :=
  ⟨h.cnt, h.ok, fun f => by rw [h.marked, hPQ]⟩

theorem marks_set (b : Bits) (i : ℕ) : Marks b (b.set i) (· = i) := by
  refine ⟨set_cnt b i, fun hok => hok.set i, fun f => ?_⟩
  rw [marked_set, Bool.or_eq_true, decide_eq_true_eq]
  constructor
  · rintro (h | ⟨rfl, h⟩)
    · exact .inl h
    · exact .inr ⟨h, rfl⟩
  · rintro (h | ⟨h, rfl⟩)
    · exact .inl h
    · exact .inr ⟨rfl, h⟩

theorem marks_ite (b : Bits) (i : ℕ) : Marks b (if b.isSet i then b else b.set i) (· = i) := by
  split_ifs with hset
  · rw [isSet_eq, Bool.and_eq_true] at hset
    refine ⟨rfl, id, fun f => ⟨.inl, ?_⟩⟩
    rintro (h | ⟨-, rfl⟩)
    · exact h
    · exact hset.2
  · exact marks_set b i

theorem marks_markPages (fuel i : ℕ) (b : Bits) :
    Marks b (PagingPrivate.markPages fuel i b) fun f => i ≤ f ∧ f < i + fuel := by
  induction fuel generalizing i b with
  | zero => exact marks_refl fun f => by omega
  | succ fuel ih =>
    rw [PagingPrivate.markPages]
    exact ((marks_ite b i).trans (ih (i + 1) _)).congr fun f => by omega

end Bits

namespace PagingPrivate
variable {s s' : PagingPrivate}
open Bits

/-- The start of the next page, if the address is not one. -/
def pageUp (a : ℕ) : ℕ := (a + 4095) / 4096 * 4096

theorem pageUp_succ {a : ℕ} (h : a % 4096 ≠ 0) : pageUp (a + 1) = pageUp a := by
  unfold pageUp
  omega

theorem pageUp_of_mod {a : ℕ} (h : a % 4096 = 0) : pageUp a = a := by
  unfold pageUp
  omega

theorem pageUp_of_le {a : ℕ} (h : pageUp a ≤ a) : a % 4096 = 0 := by
  unfold pageUp at h
  omega

theorem lt_pageUp {a : ℕ} (h : a % 4096 ≠ 0) : a < pageUp a := by
  unfold pageUp
  omega

theorem pageAlignLoop_spec {fuel : ℕ} (hfit : pageUp s.free_page_address.toNat < 2 ^ 32)
    (hfuel : pageUp s.free_page_address.toNat ≤ s.free_page_address.toNat + fuel) :
    (pageAlignLoop fuel s).free_page_address.toNat = pageUp s.free_page_address.toNat ∧
      Marks s.bits (pageAlignLoop fuel s).bits fun f =>
        s.free_page_address.toNat % 4096 ≠ 0 ∧ f = s.free_page_address.toNat / 4096 := by
  induction fuel generalizing s with
  | zero =>
    have hmod := pageUp_of_le hfuel
    rw [pageAlignLoop]
    exact ⟨(pageUp_of_mod hmod).symm, marks_refl fun f hf => hf.1 hmod⟩
  | succ fuel ih =>
    rw [pageAlignLoop]
    split_ifs with hmod
    · have hmod' : s.free_page_address.toNat % 4096 ≠ 0 := hmod
      have hset := marks_set s.bits (s.free_page_address.toNat / 4096)
      have hlt := lt_pageUp hmod'
      have hup := pageUp_succ hmod'
      generalize hs₁ : ({ s with
        bits := s.bits.set (s.free_page_address.toNat / PAGE_SIZE)
        free_page_address := s.free_page_address + 1 } : PagingPrivate) = s₁
      have hbits : s.bits.set (s.free_page_address.toNat / 4096) = s₁.bits := by rw [← hs₁]; rfl
      have haddr : s₁.free_page_address.toNat = s.free_page_address.toNat + 1 := by
        have hone : (1 : Word).toNat = 1 := rfl
        rw [← hs₁, BitVec.toNat_add, hone]
        omega
      rw [hbits] at hset
      generalize s.free_page_address.toNat = a at *
      obtain ⟨hfree, hmarks⟩ := @ih s₁ (by rw [haddr, hup]; exact hfit) (by rw [haddr, hup]; omega)
      rw [haddr] at hfree hmarks
      exact ⟨hfree.trans hup, (hset.trans hmarks).congr fun f => by omega⟩
    · have hmod' : s.free_page_address.toNat % 4096 = 0 := not_not.mp hmod
      exact ⟨(pageUp_of_mod hmod').symm, marks_refl fun f hf => hf.1 hmod'⟩

/-- The frames of static memory, with the one where the next call goes on, and the one where the
call before has stopped. -/
theorem allocStatic_spec {size : Word}
    (hfit : pageUp s.free_page_address.toNat + size.toNat < 2 ^ 32) :
    (s.allocStatic size).1.toNat = pageUp s.free_page_address.toNat ∧
      (s.allocStatic size).2.free_page_address.toNat =
        pageUp s.free_page_address.toNat + size.toNat ∧
      Marks s.bits (s.allocStatic size).2.bits fun f => s.free_page_address.toNat / 4096 ≤ f ∧
        f ≤ (pageUp s.free_page_address.toNat + size.toNat) / 4096 := by
  have hpage : PAGE_SIZE = 4096 := rfl
  have hup : pageUp s.free_page_address.toNat ≤ s.free_page_address.toNat + PAGE_SIZE := by
    unfold pageUp
    omega
  obtain ⟨hfree, hmarks⟩ := pageAlignLoop_spec (by omega) hup
  rw [allocStatic, pageAlign]
  generalize pageAlignLoop PAGE_SIZE s = s₁ at hfree hmarks
  have hsum : (s₁.free_page_address + size).toNat = pageUp s.free_page_address.toNat + size.toNat := by
    rw [BitVec.toNat_add, hfree]
    omega
  have hone := marks_ite s₁.bits (s₁.free_page_address.toNat / PAGE_SIZE)
  have hstate : s₁.freePageAddress.2 = { s₁ with
      bits := if s₁.bits.isSet (s₁.free_page_address.toNat / PAGE_SIZE) then s₁.bits
        else s₁.bits.set (s₁.free_page_address.toNat / PAGE_SIZE) } := by
    unfold freePageAddress
    dsimp only
    split_ifs <;> rfl
  dsimp only
  rw [hstate, incFreePageAddress]
  dsimp only
  refine ⟨hfree, hsum, ?_⟩
  have hrest := marks_markPages ((s₁.free_page_address + size).toNat / PAGE_SIZE + 1 -
    s₁.free_page_address.toNat / PAGE_SIZE) (s₁.free_page_address.toNat / PAGE_SIZE)
    (if s₁.bits.isSet (s₁.free_page_address.toNat / PAGE_SIZE) then s₁.bits
      else s₁.bits.set (s₁.free_page_address.toNat / PAGE_SIZE))
  refine (hmarks.trans (hone.trans hrest)).congr fun f => ?_
  rw [hsum, hfree, hpage]
  unfold pageUp
  omega

/-- Where static memory goes on after the directory, which starts page `p`, and `n` tables. -/
def staticAddress (p n : ℕ) : ℕ := if n = 0 then 4096 * p + 8196 else 4096 * (p + 3 + n)

theorem pageUp_staticAddress (p n : ℕ) : pageUp (staticAddress p n) = 4096 * (p + 3 + n) := by
  unfold staticAddress pageUp
  split_ifs <;> omega

/-- The state inside `init`: the tables that are there, the last one first, and the frames that are
mapped. Static memory is marked from frame `b` on. -/
structure Walked (cnt b p : ℕ) (tabs : List ℕ) (mapped : ℕ → Prop) (s : PagingPrivate) : Prop where
  ok : s.bits.Ok
  size : s.bits.cnt = cnt
  free : s.free_page_address.toNat = staticAddress p tabs.length
  marked : ∀ f, s.bits.marked f = true ↔
    f < cnt ∧ (mapped f ∨ b ≤ f ∧ f ≤ staticAddress p tabs.length / 4096)
  tables : ∀ k, s.directory.tables k ≠ none ↔ k ∈ tabs

section Walk
variable {cnt b p k j rounds : ℕ} {tabs : List ℕ} {mapped mapped' : ℕ → Prop} {addr : Word}

theorem Walked.congr (h : Walked cnt b p tabs mapped s) (hm : ∀ f, mapped f ↔ mapped' f) :
    Walked cnt b p tabs mapped' s :=
  ⟨h.ok, h.size, h.free, fun f => by rw [h.marked, hm], h.tables⟩

theorem Walked.dirGetPage (h : Walked cnt b p tabs mapped s) (hb : b ≤ p + 2)
    (hk : addr.toNat / 4096 / 1024 = k) (hroom : 4096 * (p + 4 + tabs.length) < 2 ^ 32) :
    ∃ q s', s.dirGetPage addr .doReserve = (some q, s') ∧ Walked cnt b p (tabs.insert k) mapped s' := by
  have hindex : addr.toNat / PAGE_SIZE / PAGES_PER_TABLE = k := hk
  unfold PagingPrivate.dirGetPage
  dsimp only
  rw [hindex]
  split
  · rename_i table htable
    have hmem : k ∈ tabs := (h.tables k).mp (by rw [htable]; simp)
    rw [List.insert_of_mem hmem]
    exact ⟨_, _, rfl, h⟩
  · rename_i hnone
    have hmem : k ∉ tabs := fun hmem => (h.tables k).mpr hmem hnone
    have hsize : (BitVec.ofNat 32 (4 * PAGES_PER_TABLE)).toNat = 4096 := rfl
    have hup : pageUp s.free_page_address.toNat = 4096 * (p + 3 + tabs.length) := by
      rw [h.free, pageUp_staticAddress]
    obtain ⟨haddr, hfree, hmarks⟩ := @allocStatic_spec s (BitVec.ofNat 32 (4 * PAGES_PER_TABLE))
      (by rw [hsize, hup]; omega)
    have hdir := allocStatic_directory s (BitVec.ofNat 32 (4 * PAGES_PER_TABLE))
    rw [hsize, hup] at hfree
    rw [hsize, hup, h.free] at hmarks
    rw [hup] at haddr
    generalize s.allocStatic (BitVec.ofNat 32 (4 * PAGES_PER_TABLE)) = r at *
    obtain ⟨phys, s₁⟩ := r
    dsimp only at *
    have hphys : phys ≠ 0 := by
      rintro rfl
      have hzero : (0 : Word).toNat = 0 := rfl
      omega
    rw [if_neg hphys, List.insert_of_not_mem hmem]
    have hnext : staticAddress p (k :: tabs).length = 4096 * (p + 4 + tabs.length) := by
      unfold staticAddress
      rw [List.length_cons, if_neg (by omega)]
      omega
    refine ⟨_, _, rfl, hmarks.ok h.ok, hmarks.cnt.trans h.size, ?_, fun f => ?_, fun i => ?_⟩
    · rw [hnext]
      dsimp only
      omega
    · rw [hnext]
      dsimp only
      rw [hmarks.marked, h.marked, h.size]
      have hle : b ≤ staticAddress p tabs.length / 4096 := by
        unfold staticAddress
        split_ifs <;> omega
      have hmono : staticAddress p tabs.length / 4096 ≤ p + 3 + tabs.length := by
        unfold staticAddress
        split_ifs <;> omega
      have hrange : b ≤ f ∧ f ≤ 4096 * (p + 4 + tabs.length) / 4096 ↔
          (b ≤ f ∧ f ≤ staticAddress p tabs.length / 4096) ∨
            staticAddress p tabs.length / 4096 ≤ f ∧
              f ≤ (4096 * (p + 3 + tabs.length) + 4096) / 4096 := by omega
      rw [hrange, ← and_or_left, or_assoc]
    · dsimp only
      rw [hdir, List.mem_cons]
      by_cases hi : i = k
      · rw [hi, Function.update_self]
        simp
      · rw [Function.update_of_ne hi, h.tables]
        simp [hi]

theorem store_tables (d : PageDir) (q : PagePtr) (page : Page) (k : ℕ) :
    (d.store q page).tables k ≠ none ↔ d.tables k ≠ none := by
  unfold PageDir.store
  split
  · rename_i table htable
    dsimp only
    by_cases hk : k = q.1
    · rw [hk, Function.update_self, htable]
      simp
    · rw [Function.update_of_ne hk]
  · rfl

theorem Walked.identityMap (h : Walked cnt b p tabs mapped s) (hb : b ≤ p + 2)
    (hk : addr.toNat / 4096 / 1024 = k) (hroom : 4096 * (p + 4 + tabs.length) < 2 ^ 32) :
    Walked cnt b p (tabs.insert k) (fun f => mapped f ∨ f = addr.toNat / 4096)
      (identityMap addr .kernel .rw s) := by
  obtain ⟨q, s₁, hget, h₁⟩ := h.dirGetPage hb hk hroom
  have hmarks := marks_set s₁.bits (addr.toNat / 4096)
  rw [PagingPrivate.identityMap, hget]
  refine ⟨hmarks.ok h₁.ok, hmarks.cnt.trans h₁.size, h₁.free, fun f => ?_, fun i => ?_⟩
  · have hiff := hmarks.marked f
    rw [h₁.marked, h₁.size] at hiff
    rw [← and_or_left, or_right_comm] at hiff
    exact hiff
  · exact (store_tables _ _ _ i).trans (h₁.tables i)

/-- A loop ends after the number of rounds that an invariant counts. -/
theorem forPages_rule {P : ℕ → PagingPrivate → Prop} {stop : PagingPrivate → Word}
    {body : Word → PagingPrivate → PagingPrivate} {fuel a : ℕ} {start : Word}
    (hstart : start.toNat = a) (hfuel : rounds < fuel) (hfit : a + 4096 * rounds < 2 ^ 32)
    (hstep : ∀ n < rounds, ∀ s (i : Word), i.toNat = a + 4096 * n → P n s →
      i.toNat < (stop s).toNat ∧ P (n + 1) (body i s))
    (hend : ∀ s, P rounds s → (stop s).toNat ≤ a + 4096 * rounds) (h : P 0 s) :
    ∃ s', forPages stop body fuel start s = some s' ∧ P rounds s' := by
  induction rounds generalizing fuel a start s P with
  | zero =>
    obtain ⟨fuel, rfl⟩ := Nat.exists_eq_succ_of_ne_zero (Nat.ne_of_gt hfuel)
    have hstop : ¬ start < stop s := by
      have hle := hend s h
      rw [BitVec.lt_def]
      omega
    rw [forPages, if_neg hstop]
    exact ⟨s, rfl, h⟩
  | succ rounds ih =>
    obtain ⟨fuel, rfl⟩ := Nat.exists_eq_succ_of_ne_zero (Nat.ne_of_gt (Nat.zero_lt_of_lt hfuel))
    obtain ⟨hlt, hnext⟩ := hstep 0 (Nat.zero_lt_succ _) s start hstart h
    have haddr : (start + BitVec.ofNat 32 PAGE_SIZE).toNat = a + 4096 := by
      have hpage : (BitVec.ofNat 32 PAGE_SIZE).toNat = 4096 := rfl
      rw [BitVec.toNat_add, hpage]
      omega
    rw [forPages, if_pos (BitVec.lt_def.mpr hlt)]
    apply ih (P := fun n => P (n + 1)) haddr (by omega) (by omega) ?_ ?_ hnext
    · intro n hn s i hi
      exact hstep (n + 1) (by omega) s i (by omega)
    · intro s hs
      have hle := hend s hs
      omega

theorem Walked.identityMapPages {T : ℕ → List ℕ} {stop : PagingPrivate → Word} {start : Word} {a : ℕ}
    (h : Walked cnt b p (T 0) mapped s) (hb : b ≤ p + 2) (hstart : start.toNat = a)
    (hfit : a + 4096 * rounds < 2 ^ 32)
    (hT : ∀ n < rounds, (T n).insert ((a + 4096 * n) / 4096 / 1024) = T (n + 1))
    (hroom : ∀ n < rounds, 4096 * (p + 4 + (T n).length) < 2 ^ 32)
    (hlt : ∀ n < rounds, ∀ s, s.free_page_address.toNat = staticAddress p (T n).length →
      a + 4096 * n < (stop s).toNat)
    (hend : ∀ s, s.free_page_address.toNat = staticAddress p (T rounds).length →
      (stop s).toNat ≤ a + 4096 * rounds) :
    ∃ s', identityMapPages start stop s = some s' ∧ Walked cnt b p (T rounds)
      (fun f => mapped f ∨ a / 4096 ≤ f ∧ f < a / 4096 + rounds) s' := by
  apply @forPages_rule s rounds
    (fun n s => Walked cnt b p (T n) (fun f => mapped f ∨ a / 4096 ≤ f ∧ f < a / 4096 + n) s) stop
    (PagingPrivate.identityMap · .kernel .rw) ROUNDS a start hstart (by unfold ROUNDS; omega) hfit
  · intro n hn s i hi hs
    have hindex : i.toNat / 4096 / 1024 = (a + 4096 * n) / 4096 / 1024 := by rw [hi]
    have hnext := hs.identityMap hb hindex (hroom n hn)
    rw [hT n hn] at hnext
    constructor
    · rw [hi]
      exact hlt n hn s hs.free
    · apply hnext.congr
      intro f
      rw [hi, or_assoc]
      apply or_congr_right
      omega
  · exact fun s hs => hend s hs.free
  · exact h.congr fun f => ⟨.inl, fun hf => hf.resolve_right (by omega)⟩

theorem Walked.reservePages {start stop : Word} {a : ℕ} (h : Walked cnt b p tabs mapped s)
    (hb : b ≤ p + 2) (hstart : start.toNat = a) (hstop : stop.toNat ≤ a + 4096 * rounds)
    (hlast : a + 4096 * rounds < stop.toNat + 4096) (hfit : a + 4096 * rounds < 2 ^ 32)
    (hrounds : 0 < rounds) (hk : ∀ n < rounds, (a + 4096 * n) / 4096 / 1024 = k) (hmem : k ∉ tabs)
    (hroom : 4096 * (p + 5 + tabs.length) < 2 ^ 32) :
    ∃ s', reservePages start stop s = some s' ∧ Walked cnt b p (k :: tabs) mapped s' := by
  have hstep : ∀ n < rounds, ∀ s (i : Word), i.toNat = a + 4096 * n →
      Walked cnt b p (if n = 0 then tabs else k :: tabs) mapped s →
      i.toNat < stop.toNat ∧ Walked cnt b p (if n + 1 = 0 then tabs else k :: tabs) mapped
        (s.dirGetPage i .doReserve).2 := by
    intro n hn s i hi hs
    have hindex := hk n hn
    rw [← hi] at hindex
    rw [if_neg (Nat.succ_ne_zero n)]
    refine ⟨by omega, ?_⟩
    by_cases hzero : n = 0
    · rw [if_pos hzero] at hs
      obtain ⟨q, s₁, hget, h₁⟩ := hs.dirGetPage hb hindex (by omega)
      rwa [hget, ← List.insert_of_not_mem hmem]
    · rw [if_neg hzero] at hs
      obtain ⟨q, s₁, hget, h₁⟩ := hs.dirGetPage hb hindex (by rw [List.length_cons]; omega)
      rw [List.insert_of_mem List.mem_cons_self] at h₁
      rwa [hget]
  have hfuel : rounds < ROUNDS := by
    unfold ROUNDS
    omega
  obtain ⟨s', hloop, hend⟩ := forPages_rule hstart hfuel hfit hstep (fun _ _ => hstop) h
  rw [if_neg (Nat.ne_of_gt hrounds)] at hend
  exact ⟨s', hloop, hend⟩

end Walk

/-- The page where the directory starts: behind the kernel, the object of the bitmap and its words. -/
def directoryPage (image : KernelImage) (cnt : ℕ) : ℕ :=
  (image.free_page_address.toNat + 4095) / 4096 + 1 + (4 * ((cnt + 31) / 32) + 4095) / 4096

/-- The page where static memory ends: the directory takes three pages, and a table one more. There
are tables for both heaps, and one for each 1024 pages up to the end of static memory itself. -/
def staticEnd (image : KernelImage) (cnt : ℕ) : ℕ :=
  directoryPage image cnt + 6 + (directoryPage image cnt + 4) / 1023

/-- The tables when the pages below `j` are mapped. -/
def tabsAt (j : ℕ) : List ℕ := (List.range ((j - 1) / 1024 + 1)).reverse ++ [832, 192]

theorem length_tabsAt (j : ℕ) : (tabsAt j).length = (j - 1) / 1024 + 3 := by
  unfold tabsAt
  rw [List.length_append, List.length_reverse, List.length_range]
  rfl

theorem mem_tabsAt {j k : ℕ} : k ∈ tabsAt j ↔ k ≤ (j - 1) / 1024 ∨ k = 832 ∨ k = 192 := by
  unfold tabsAt
  simp only [List.mem_append, List.mem_reverse, List.mem_range, List.mem_cons, List.not_mem_nil, or_false]
  omega

theorem tabsAt_insert {j : ℕ} (hpos : 0 < j) (hj : j / 1024 < 192) :
    (tabsAt j).insert (j / 1024) = tabsAt (j + 1) := by
  by_cases hsame : j / 1024 = (j - 1) / 1024
  · rw [List.insert_of_mem (mem_tabsAt.mpr (.inl (Nat.le_of_eq hsame)))]
    unfold tabsAt
    rw [Nat.add_sub_cancel, hsame]
  · have hnext : j / 1024 = (j - 1) / 1024 + 1 := by omega
    have hmem : j / 1024 ∉ tabsAt j := by
      rw [mem_tabsAt]
      omega
    rw [List.insert_of_not_mem hmem]
    unfold tabsAt
    rw [Nat.add_sub_cancel, hnext, List.range_succ (n := (j - 1) / 1024 + 1), List.reverse_append]
    rfl

section Init
variable (image : KernelImage) (mmap : List MemoryMap)

theorem pageCnt_le : pageCnt mmap < 2 ^ 20 := by
  have hlt := (memSize mmap).isLt
  unfold pageCnt PAGE_SIZE
  omega

theorem directoryPage_le : directoryPage image (pageCnt mmap) ≤ 0x20100 := by
  have hfree := image.free_le
  have hpos : KERNEL_PRE_POS.toNat = 0x20000000 := rfl
  have hcnt := pageCnt_le mmap
  unfold directoryPage
  omega

theorem le_directoryPage : image.free_page_address.toNat ≤ 4096 * directoryPage image (pageCnt mmap) ∧
    0x100 ≤ directoryPage image (pageCnt mmap) := by
  have hbottom := image.bottom_le
  have hstack := image.stack_le
  have htop := image.top_le
  unfold directoryPage
  omega

theorem initStatic_walked : (initStatic image mmap).1 ≠ 0 ∧
    ∃ b, 0x100 ≤ b ∧ b ≤ directoryPage image (pageCnt mmap) ∧
      Walked (pageCnt mmap) b (directoryPage image (pageCnt mmap)) [] (fun _ => False)
        (initStatic image mmap).2 := by
  have hfree := image.free_le
  have hpos : KERNEL_PRE_POS.toNat = 0x20000000 := rfl
  have hcnt := pageCnt_le mmap
  obtain ⟨hle, hge⟩ := le_directoryPage image mmap
  have hnew : (Bits.new (pageCnt mmap)).len = (pageCnt mmap + 31) / 32 := (ok_new _).len
  have hbits : SIZEOF_BITS.toNat = 16 := rfl
  have hdir : SIZEOF_PAGE_DIR.toNat = 8196 := rfl
  unfold initStatic
  dsimp only
  -- the object of the bitmap
  have hboot : (boot image).free_page_address = image.free_page_address := rfl
  obtain ⟨-, hfree₁, -⟩ := @allocStatic_spec (boot image) SIZEOF_BITS
    (by rw [hboot]; unfold pageUp; omega)
  have hdir₁ := allocStatic_directory (boot image) SIZEOF_BITS
  rw [hboot] at hfree₁
  generalize ((boot image).allocStatic SIZEOF_BITS).2 = s₁ at *
  -- its words
  have hwords : (BitVec.ofNat 32 (4 * (Bits.new (pageCnt mmap)).len)).toNat =
      4 * ((pageCnt mmap + 31) / 32) := by
    rw [BitVec.toNat_ofNat, hnew]
    omega
  obtain ⟨-, hfree₂, -⟩ := @allocStatic_spec s₁ (BitVec.ofNat 32 (4 * (Bits.new (pageCnt mmap)).len))
    (by rw [hwords, hfree₁, hbits]; unfold pageUp; omega)
  have hdir₂ := allocStatic_directory s₁ (BitVec.ofNat 32 (4 * (Bits.new (pageCnt mmap)).len))
  rw [hwords, hfree₁, hbits] at hfree₂
  rw [hdir₁] at hdir₂
  generalize (s₁.allocStatic (BitVec.ofNat 32 (4 * (Bits.new (pageCnt mmap)).len))).2 = s₂ at *
  -- the directory
  have hpage : pageUp s₂.free_page_address.toNat = 4096 * directoryPage image (pageCnt mmap) := by
    rw [hfree₂]
    unfold pageUp directoryPage
    omega
  have hbound := directoryPage_le image mmap
  obtain ⟨haddr, hfree₃, hmarks⟩ := @allocStatic_spec { s₂ with bits := Bits.new (pageCnt mmap) }
    SIZEOF_PAGE_DIR (by dsimp only; rw [hpage, hdir]; omega)
  have hdir₃ : (allocStatic { s₂ with bits := Bits.new (pageCnt mmap) } SIZEOF_PAGE_DIR).2.directory =
      (boot image).directory := (allocStatic_directory _ _).trans hdir₂
  dsimp only at haddr hfree₃ hmarks
  rw [hpage] at haddr hfree₃ hmarks
  rw [hdir] at hfree₃ hmarks
  generalize allocStatic { s₂ with bits := Bits.new (pageCnt mmap) } SIZEOF_PAGE_DIR = r at *
  have hstart : 0x100 ≤ s₂.free_page_address.toNat / 4096 ∧
      s₂.free_page_address.toNat / 4096 ≤ directoryPage image (pageCnt mmap) := by
    have hbottom := image.bottom_le
    have hstack := image.stack_le
    have htop := image.top_le
    rw [hfree₂]
    unfold pageUp directoryPage
    omega
  refine ⟨fun hzero => ?_, s₂.free_page_address.toNat / 4096, hstart.1, hstart.2, ?_⟩
  · rw [hzero] at haddr
    have hnull : (0 : Word).toNat = 0 := rfl
    omega
  · have hzero : staticAddress (directoryPage image (pageCnt mmap)) ([] : List ℕ).length =
        4096 * directoryPage image (pageCnt mmap) + 8196 := rfl
    refine ⟨hmarks.ok (ok_new _), hmarks.cnt, ?_, fun f => ?_, fun k => ?_⟩
    · rw [hzero, hfree₃]
    · have hunmarked : (Bits.new (pageCnt mmap)).marked f = false := by simp [Bits.new, Bits.marked]
      rw [hmarks.marked, hunmarked, hzero]
      simp [Bits.new]
    · rw [hdir₃]
      simp [boot]

/-- The frames below 1 MiB that are mapped. -/
def LowMapped (f : ℕ) : Prop := f < 0x10 ∨ 0xA0 ≤ f ∧ f < 0x100

end Init

section Loops
variable {cnt b p : ℕ} {mapped : ℕ → Prop}

theorem Walked.identityMapPages_low (h : Walked cnt b p (tabsAt 0x100) mapped s) (hb : b ≤ p + 2)
    (hp : p ≤ 0x20100) {start stop : Word} {a rounds : ℕ} (hstart : start.toNat = a)
    (hle : a + 4096 * rounds ≤ 0x100000) (hstop : stop.toNat ≤ a + 4096 * rounds)
    (hlast : a + 4096 * rounds < stop.toNat + 4096) :
    ∃ s', PagingPrivate.identityMapPages start (fun _ => stop) s = some s' ∧
      Walked cnt b p (tabsAt 0x100) (fun f => mapped f ∨ a / 4096 ≤ f ∧ f < a / 4096 + rounds) s' := by
  have hlen : (tabsAt 0x100).length = 3 := length_tabsAt 0x100
  have hT : ∀ n < rounds, (tabsAt 0x100).insert ((a + 4096 * n) / 4096 / 1024) = tabsAt 0x100 := by
    intro n hn
    have hzero : (a + 4096 * n) / 4096 / 1024 = 0 := by omega
    rw [hzero]
    exact List.insert_of_mem (mem_tabsAt.mpr (.inl (Nat.zero_le _)))
  apply Walked.identityMapPages (T := fun _ => tabsAt 0x100) h hb hstart (by omega) hT
  · intro n _
    rw [hlen]
    omega
  · intro n hn _ _
    omega
  · exact fun _ _ => hstop

/-- The loops over fixed addresses, with the tables of the heaps first. -/
theorem Walked.fixed (h : Walked cnt b p [] (fun _ => False) s) (hb : b ≤ p + 2) (hp : p ≤ 0x20100) :
    ∃ s₁ s₂ s₃ s₄ s₅ s₆ s₇,
      PagingPrivate.reservePages HEAP_START (HEAP_START + KERNEL_INIT_SIZE) s = some s₁ ∧
      PagingPrivate.reservePages USER_HEAP_START (USER_HEAP_START + KERNEL_INIT_SIZE) s₁ = some s₂ ∧
      PagingPrivate.identityMapPages 1 (fun _ => 0x10000) s₂ = some s₃ ∧
      PagingPrivate.identityMapPages 0xA0000 (fun _ => 0xBFFFF) s₃ = some s₄ ∧
      PagingPrivate.identityMapPages 0xC0000 (fun _ => 0xC7FFF) s₄ = some s₅ ∧
      PagingPrivate.identityMapPages 0xC8000 (fun _ => 0xEFFFF) s₅ = some s₆ ∧
      PagingPrivate.identityMapPages 0xF0000 (fun _ => 0xFFFFF) s₆ = some s₇ ∧
      Walked cnt b p (tabsAt 0x100) LowMapped s₇ := by
  have hstop : (HEAP_START + KERNEL_INIT_SIZE).toNat = 0x300FFFFF := rfl
  have hustop : (USER_HEAP_START + KERNEL_INIT_SIZE).toNat = 0xD00FFFFF := rfl
  obtain ⟨s₁, h₁, hw₁⟩ := @Walked.reservePages s cnt b p 192 256 [] _ HEAP_START
    (HEAP_START + KERNEL_INIT_SIZE) 0x30000000 h hb rfl (by omega) (by omega) (by omega) (by omega)
    (by omega) (by decide) (by rw [List.length_nil]; omega)
  obtain ⟨s₂, h₂, hw₂⟩ := @Walked.reservePages s₁ cnt b p 832 256 [192] _ USER_HEAP_START
    (USER_HEAP_START + KERNEL_INIT_SIZE) 0xD0000000 hw₁ hb rfl (by omega) (by omega) (by omega)
    (by omega) (by omega) (by decide) (by rw [List.length_singleton]; omega)
  -- the first page brings the table of all pages below 4 MiB
  have hT : ∀ n < 16, (if n = 0 then [832, 192] else [0, 832, 192]).insert ((1 + 4096 * n) / 4096 / 1024) =
      if n + 1 = 0 then [832, 192] else [0, 832, 192] := by decide
  have hroom : ∀ n < 16, 4096 * (p + 4 + (if n = 0 then [832, 192] else [0, 832, 192]).length) < 2 ^ 32 := by
    intro n _
    have hlen : (if n = 0 then [832, 192] else [0, 832, 192]).length ≤ 3 := by split_ifs <;> decide
    omega
  have hend : (0x10000 : Word).toNat = 0x10000 := rfl
  obtain ⟨s₃, h₃, hw₃⟩ := @Walked.identityMapPages s₂ cnt b p 16 _
    (fun n => if n = 0 then [832, 192] else [0, 832, 192]) (fun _ => 0x10000) 1 1 hw₂ hb rfl (by omega) hT
    hroom (fun n hn _ _ => by omega) (fun _ _ => by omega)
  obtain ⟨s₄, h₄, hw₄⟩ := @Walked.identityMapPages_low s₃ cnt b p _ hw₃ hb hp 0xA0000 0xBFFFF 0xA0000 32
    rfl (by omega) (by decide) (by decide)
  obtain ⟨s₅, h₅, hw₅⟩ := @Walked.identityMapPages_low s₄ cnt b p _ hw₄ hb hp 0xC0000 0xC7FFF 0xC0000 8
    rfl (by omega) (by decide) (by decide)
  obtain ⟨s₆, h₆, hw₆⟩ := @Walked.identityMapPages_low s₅ cnt b p _ hw₅ hb hp 0xC8000 0xEFFFF 0xC8000 40
    rfl (by omega) (by decide) (by decide)
  obtain ⟨s₇, h₇, hw₇⟩ := @Walked.identityMapPages_low s₆ cnt b p _ hw₆ hb hp 0xF0000 0xFFFFF 0xF0000 16
    rfl (by omega) (by decide) (by decide)
  refine ⟨s₁, s₂, s₃, s₄, s₅, s₆, s₇, h₁, h₂, h₃, h₄, h₅, h₆, h₇, hw₇.congr fun f => ?_⟩
  unfold LowMapped
  simp only [false_or]
  omega

/-- The tables that a page needs are there when the pages up to it are mapped. -/
theorem Walked.identityMapPages_static {j : ℕ} (h : Walked cnt b p (tabsAt j) mapped s) (hb : b ≤ p + 2)
    (hp : p ≤ 0x20100) {stop : PagingPrivate → Word} {start : Word} {rounds : ℕ} (hpos : 0 < j)
    (hstart : start.toNat = 4096 * j) (hle : j + rounds ≤ 192 * 1024)
    (hlt : ∀ n < rounds, ∀ s, s.free_page_address.toNat = 4096 * (p + 6 + (j + n - 1) / 1024) →
      4096 * (j + n) < (stop s).toNat)
    (hend : ∀ s, s.free_page_address.toNat = 4096 * (p + 6 + (j + rounds - 1) / 1024) →
      (stop s).toNat ≤ 4096 * (j + rounds)) :
    ∃ s', PagingPrivate.identityMapPages start stop s = some s' ∧
      Walked cnt b p (tabsAt (j + rounds)) (fun f => mapped f ∨ j ≤ f ∧ f < j + rounds) s' := by
  have haddr : ∀ n, staticAddress p (tabsAt (j + n)).length = 4096 * (p + 6 + (j + n - 1) / 1024) := by
    intro n
    rw [length_tabsAt]
    unfold staticAddress
    rw [if_neg (by omega)]
    omega
  have hT : ∀ n < rounds, (tabsAt (j + n)).insert ((4096 * j + 4096 * n) / 4096 / 1024) =
      tabsAt (j + (n + 1)) := by
    intro n hn
    have hindex : (4096 * j + 4096 * n) / 4096 / 1024 = (j + n) / 1024 := by omega
    rw [hindex]
    exact tabsAt_insert (by omega) (by omega)
  have hdiv : 4096 * j / 4096 = j := by omega
  have hroom : ∀ n < rounds, 4096 * (p + 4 + (tabsAt (j + n)).length) < 2 ^ 32 := by
    intro n hn
    rw [length_tabsAt]
    omega
  obtain ⟨s', hloop, hw⟩ := @Walked.identityMapPages s cnt b p rounds mapped (fun n => tabsAt (j + n))
    stop start (4096 * j) h hb hstart (by omega) hT hroom
    (fun n hn s hs => by
      rw [haddr] at hs
      have hstop := hlt n hn s hs
      omega)
    (fun s hs => by
      rw [haddr] at hs
      have hstop := hend s hs
      omega)
  rw [hdiv] at hw
  exact ⟨s', hloop, hw⟩

/-- The loop over static memory, which grows while tables are added for it: its end is the first page
where no table is added for the pages below. -/
theorem Walked.static {e : ℕ} (h : Walked cnt b p (tabsAt 0x100) mapped s) (hb : b ≤ p + 2)
    (hp : p ≤ 0x20100) (hge : 0x100 ≤ p) (he : e = p + 6 + (p + 4) / 1023) :
    ∃ s', PagingPrivate.identityMapPages 0x100000 free_page_address s = some s' ∧
      Walked cnt b p (tabsAt e) (fun f => mapped f ∨ 0x100 ≤ f ∧ f < e) s' := by
  have hlow : ∀ j < e, j < p + 6 + (j - 1) / 1024 := by
    intro j hj
    omega
  have hend : p + 6 + (e - 1) / 1024 = e := by omega
  have hsum : 0x100 + (e - 0x100) = e := by omega
  obtain ⟨s', hloop, hw⟩ := @Walked.identityMapPages_static s cnt b p mapped 0x100 h hb hp
    free_page_address 0x100000 (e - 0x100) (by omega) rfl (by omega)
    (fun n hn s hs => by
      have hlt := hlow (0x100 + n) (by omega)
      omega)
    (fun s hs => by
      rw [hsum] at hs ⊢
      omega)
  rw [hsum] at hw
  exact ⟨s', hloop, hw⟩

theorem Walked.stack {e : ℕ} (image : KernelImage) (h : Walked cnt b p (tabsAt e) mapped s)
    (hb : b ≤ p + 2) (hp : p ≤ 0x20100) (he : e = p + 6 + (p + 4) / 1023)
    (htop : image.stack_top.toNat ≤ 4096 * p) :
    ∃ s', PagingPrivate.identityMapPages image.stack_bottom (fun _ => image.stack_top) s = some s' ∧
      Walked cnt b p (tabsAt e) (fun f => mapped f ∨ image.stack_bottom.toNat / 4096 ≤ f ∧
        f < image.stack_bottom.toNat / 4096 +
          (image.stack_top.toNat - image.stack_bottom.toNat + 4095) / 4096) s' := by
  have hstack := image.stack_le
  have hlen := length_tabsAt e
  have hT : ∀ n < (image.stack_top.toNat - image.stack_bottom.toNat + 4095) / 4096,
      (tabsAt e).insert ((image.stack_bottom.toNat + 4096 * n) / 4096 / 1024) = tabsAt e := by
    intro n hn
    exact List.insert_of_mem (mem_tabsAt.mpr (.inl (by omega)))
  exact @Walked.identityMapPages s cnt b p _ mapped (fun _ => tabsAt e)
    (fun _ => image.stack_top) image.stack_bottom image.stack_bottom.toNat h hb rfl
    (by omega) hT (fun _ _ => by omega) (fun n hn _ _ => by omega) (fun _ _ => by omega)

theorem Walked.behind {e : ℕ} (h : Walked cnt b p (tabsAt e) mapped s) (hb : b ≤ p + 2) (hp : p ≤ 0x20100)
    (he : e = p + 6 + (p + 4) / 1023) :
    ∃ s', PagingPrivate.identityMapPages s.free_page_address
        (fun _ => s.free_page_address + KERNEL_INIT_SIZE) s = some s' ∧
      Walked cnt b p (tabsAt (e + 256)) (fun f => mapped f ∨ e ≤ f ∧ f < e + 256) s' := by
  have hstart : s.free_page_address.toNat = 4096 * e := by
    rw [h.free, length_tabsAt]
    unfold staticAddress
    rw [if_neg (by omega)]
    omega
  have hstop : (s.free_page_address + KERNEL_INIT_SIZE).toNat = 4096 * e + 0xFFFFF := by
    have hsize : KERNEL_INIT_SIZE.toNat = 0xFFFFF := rfl
    rw [BitVec.toNat_add, hstart, hsize]
    omega
  exact h.identityMapPages_static hb hp (by omega) hstart (by omega) (fun n hn _ _ => by omega)
    (fun _ _ => by omega)

end Loops

/-- The state when `init` returns. -/
theorem init_walked (image : KernelImage) (mmap : List MemoryMap) :
    ∃ s b, init image mmap = some s ∧ 0x100 ≤ b ∧
      Walked (pageCnt mmap) b (directoryPage image (pageCnt mmap)) (tabsAt (staticEnd image (pageCnt mmap) + 0x100))
        (fun f => LowMapped f ∨ 0x100 ≤ f ∧ f < staticEnd image (pageCnt mmap) + 0x100) s := by
  obtain ⟨hdirectory, b, hb, hbp, hstatic⟩ := initStatic_walked image mmap
  obtain ⟨hfree, hge⟩ := le_directoryPage image mmap
  have hp := directoryPage_le image mmap
  have hbottom := image.bottom_le
  have hstack := image.stack_le
  have htop := image.top_le
  have hE : staticEnd image (pageCnt mmap) = directoryPage image (pageCnt mmap) + 6 +
    (directoryPage image (pageCnt mmap) + 4) / 1023 := rfl
  generalize directoryPage image (pageCnt mmap) = p at *
  generalize staticEnd image (pageCnt mmap) = e at *
  have hbase : b ≤ p + 2 := by omega
  obtain ⟨s₁, s₂, s₃, s₄, s₅, s₆, s₇, h₁, h₂, h₃, h₄, h₅, h₆, h₇, hw₇⟩ := hstatic.fixed hbase hp
  obtain ⟨s₈, h₈, hw₈⟩ := hw₇.static hbase hp hge hE
  obtain ⟨s₉, h₉, hw₉⟩ := hw₈.stack image hbase hp hE (by omega)
  obtain ⟨s₁₀, h₁₀, hw₁₀⟩ := hw₉.behind hbase hp hE
  refine ⟨s₁₀, b, ?_, hb, hw₁₀.congr fun f => ?_⟩
  · unfold init
    generalize initStatic image mmap = r at *
    obtain ⟨directory, s₀⟩ := r
    dsimp only at hdirectory h₁ ⊢
    rw [if_neg hdirectory]
    refine Option.bind_eq_some_iff.mpr ⟨s₁, h₁, ?_⟩
    refine Option.bind_eq_some_iff.mpr ⟨s₂, h₂, ?_⟩
    refine Option.bind_eq_some_iff.mpr ⟨s₃, h₃, ?_⟩
    refine Option.bind_eq_some_iff.mpr ⟨s₄, h₄, ?_⟩
    refine Option.bind_eq_some_iff.mpr ⟨s₅, h₅, ?_⟩
    refine Option.bind_eq_some_iff.mpr ⟨s₆, h₆, ?_⟩
    refine Option.bind_eq_some_iff.mpr ⟨s₇, h₇, ?_⟩
    refine Option.bind_eq_some_iff.mpr ⟨s₈, h₈, ?_⟩
    exact Option.bind_eq_some_iff.mpr ⟨s₉, h₉, h₁₀⟩
  · -- the stack is inside the kernel
    rw [or_assoc, or_assoc]
    apply or_congr_right
    omega

/-- The frames that `init` marks: those below 0x10, and those from the display memory to the end of
the megabyte that follows static memory. -/
theorem init_spec (image : KernelImage) (mmap : List MemoryMap) :
    ∃ s, init image mmap = some s ∧ s.bits.Ok ∧ s.bits.cnt = pageCnt mmap ∧
      ∀ f, s.bits.marked f = true ↔ f < pageCnt mmap ∧
        (f < 0x10 ∨ 0xA0 ≤ f ∧ f < staticEnd image (pageCnt mmap) + 0x100) := by
  obtain ⟨s, b, hinit, hb, hw⟩ := init_walked image mmap
  refine ⟨s, hinit, hw.ok, hw.size, fun f => ?_⟩
  have haddr : staticAddress (directoryPage image (pageCnt mmap))
      (tabsAt (staticEnd image (pageCnt mmap) + 0x100)).length / 4096 < staticEnd image (pageCnt mmap) + 0x100 := by
    rw [length_tabsAt]
    unfold staticAddress staticEnd
    rw [if_neg (by omega)]
    omega
  rw [hw.marked]
  apply and_congr_right
  intro hf
  unfold LowMapped
  omega

end PagingPrivate

end CxxKernel.Paging
