import CxxKernel.Heap.AllocMem
import CxxKernel.Lib.Runs

/-! Runs of the allocator together with its callers. The answers of `allocPage` are part of the
operations, and so are the stores of a caller into a block of its own. -/
namespace CxxKernel.Heap
open BinaryTree SearchTree LinkedTree Runs

inductive Op
  | alloc (size : Word) (t : AllocType) (page : Word)
  | free (p : Word)
  | realloc (p size page : Word)
  | write (p : Word) (info : Word → PtrInfo) (byte : Bytes)

/-- The heap with two records of the answers so far: the blocks in use with the sizes asked for,
and all of them. Pages got with `AllocPage` are no blocks and stay out of both. -/
structure State where
  mm : MM
  live : List (Word × Word)
  issued : List Word

namespace State

def start (info : Word → PtrInfo) (byte : Bytes) : State := ⟨.start info byte, [], []⟩

def livePtrs (s : State) : List Word := s.live.map Prod.fst

def hand (s : State) (m : MM) (q size : Word) : State :=
  if q = 0 then { s with mm := m }
  else { mm := m, live := (q, size) :: s.live, issued := q :: s.issued }

def drop (s : State) (m : MM) (p : Word) : State :=
  { s with mm := m, live := s.live.filter (·.1 ≠ p) }

/-- `realloc` leaves the caller its block when it answers with that block or fails. -/
def move (s : State) (m : MM) (p size q : Word) : State :=
  if q = p ∨ q = 0 ∧ size ≠ 0 then { s with mm := m } else (s.hand m q size).drop m p

def exec (s : State) : Op → Option State
  | .alloc size t page => (s.mm.alloc size t page).map fun (m, q) =>
      if t = .page then { s with mm := m } else s.hand m q size
  | .free p => (s.mm.free p).map fun (m, _) => s.drop m p
  | .realloc p size page => (s.mm.realloc p size page).map fun (m, q) => s.move m p size q
  | .write _ info byte => some { s with mm := { s.mm with info, byte } }

end State

/-- The header at `a` has a byte in common with the `size` bytes at `p`. -/
def Overlaps (a p size : Word) : Prop :=
  ∃ i < 20, ∃ j < size.toNat, a + BitVec.ofNat 32 i = p + BitVec.ofNat 32 j

/-- A caller stores inside the block with the payload `p` only. -/
structure StoresInside (m : MM) (p : Word) (info : Word → PtrInfo) (byte : Bytes) : Prop where
  info : ∀ a, ¬ Overlaps a p (m.info (ptrToPtrinfo p)).size → info a = m.info a
  byte : ∀ x, (∀ j < (m.info (ptrToPtrinfo p)).size.toNat, x ≠ p + BitVec.ofNat 32 j) →
    byte x = m.byte x

/-- What the allocator may rely on: `allocPage` answers with null or fresh pages, callers free
what they got, reallocate what is in use and store inside their blocks. -/
def Allowed (s : State) : Op → Prop
  | .alloc size t page =>
      PageAnswer s.mm (if t = .page then size else MM.pagesFor (size + sizeofPtrInfo)) page
  | .free p => p = 0 ∨ p ∈ s.issued
  | .realloc p size page =>
      (p = 0 ∨ p ∈ s.livePtrs) ∧ PageAnswer s.mm (MM.pagesFor (size + sizeofPtrInfo)) page
  | .write p info byte => p ∈ s.livePtrs ∧ StoresInside s.mm p info byte

def Step (s : State) (op : Op) (s' : State) : Prop := Allowed s op ∧ s.exec op = some s'

/-- The type `alloc` passes on to `allocMem`. -/
def memType (t : AllocType) : AllocType := if t = .fast then .fast else .normal

/-- The call of `allocMem` an operation makes, if any: its size and its type. -/
def allocMemCall (s : State) : Op → Option (Word × AllocType)
  | .alloc size t _ =>
      if SIZEMASK - sizeofPtrInfo < size ∨ t = .page then none
      else some (size, memType t)
  | .realloc p size _ =>
      if SIZEMASK - sizeofPtrInfo < size then none
      else if p ≠ 0 ∧ (size = 0 ∨ (s.mm.info (ptrToPtrinfo p)).size = size) then none
      else some (size, .normal)
  | _ => none

/-- The answer of `allocPage` an operation would use. -/
def pageOf : Op → Word
  | .alloc _ _ page => page
  | .realloc _ _ page => page
  | _ => 0

/-- The bump test of an operation, if it comes to it, is sound. -/
def BumpSafe (s : State) (op : Op) : Prop :=
  ∀ call ∈ allocMemCall s op, call.2 ≠ .normal ∨ s.mm.searchAvail call.1 = some none →
    BumpSound s.mm call.1 (pageOf op)

instance (s : State) (op : Op) : Decidable (BumpSafe s op) :=
  inferInstanceAs (Decidable (∀ call ∈ allocMemCall s op,
    call.2 ≠ .normal ∨ s.mm.searchAvail call.1 = some none →
      BumpSound s.mm call.1 (pageOf op)))

/-- The block an operation takes out of the tree, if any, takes no other with it. -/
def TakeSafe (s : State) (op : Op) : Prop :=
  ∀ call ∈ allocMemCall s op, call.2 = .normal → ReleaseSound s.mm call.1

instance (s : State) (op : Op) : Decidable (TakeSafe s op) :=
  inferInstanceAs (Decidable (∀ call ∈ allocMemCall s op,
    call.2 = .normal → ReleaseSound s.mm call.1))

/-- The heap as its callers see it: a block is in use exactly as long as it is live. -/
structure Inv (s : State) (blocks : Set Word) (t : BinaryTree Word) : Prop
    extends HeapInv s.mm blocks t where
  live : ∀ p ∈ s.livePtrs, ptrToPtrinfo p ∈ blocks ∧
    (s.mm.info (ptrToPtrinfo p)).state = .used ∧ (s.mm.info (ptrToPtrinfo p)).used = true
  sizes : ∀ e ∈ s.live, (s.mm.info (ptrToPtrinfo e.1)).size = e.2
  dead : ∀ a ∈ blocks, ptrinfoToPtr a ∉ s.livePtrs → (s.mm.info a).used = false
  issued : ∀ p ∈ s.issued, ptrToPtrinfo p ∈ blocks
  live_issued : ∀ p ∈ s.livePtrs, p ∈ s.issued
  nodup : s.livePtrs.Nodup

/-- Every block that is not live is in the tree. -/
def Kept (s : State) (blocks : Set Word) (t : BinaryTree Word) : Prop :=
  ∀ a ∈ blocks, ptrinfoToPtr a ∉ s.livePtrs → a ∈ nodes t

namespace State
variable {s : State} {m : MM} {p q size : Word}

theorem mem_livePtrs {e : Word × Word} (h : e ∈ s.live) : e.1 ∈ s.livePtrs :=
  List.mem_map_of_mem h

theorem livePtrs_hand (hq : q ≠ 0) : (s.hand m q size).livePtrs = q :: s.livePtrs := by
  rw [hand, if_neg hq]
  rfl

theorem livePtrs_drop : (s.drop m p).livePtrs = s.livePtrs.filter (· ≠ p) := by
  unfold livePtrs
  rw [List.filter_map]
  rfl

theorem mem_livePtrs_drop : q ∈ (s.drop m p).livePtrs ↔ q ∈ s.livePtrs ∧ q ≠ p := by
  rw [livePtrs_drop, List.mem_filter, decide_eq_true_iff]

theorem drop_of_notMem (hp : p ∉ s.livePtrs) : s.drop m p = { s with mm := m } := by
  have hfilter : s.live.filter (·.1 ≠ p) = s.live := by
    apply List.filter_eq_self.mpr
    intro e he
    rw [decide_eq_true_iff]
    rintro rfl
    exact hp (mem_livePtrs he)
  rw [drop, hfilter]

end State

section Effects
variable {s : State} {m m' : MM} {blocks blocks' : Set Word} {t t' : BinaryTree Word}
  {size p q page : Word}

theorem start_inv (info : Word → PtrInfo) (byte : Bytes) :
    Inv (State.start info byte) ∅ .nil ∧ Kept (State.start info byte) ∅ .nil := by
  have hready : ¬ (MM.start info byte).BumpReady := fun h => h.1 rfl
  have htree : FreeTree (MM.start info byte) .nil :=
    ⟨link_zero, List.nodup_nil, by simp, trivial⟩
  have hregions : Regions (MM.start info byte) ∅ := by
    constructor <;> simp [MM.start]
  have hbump : BumpOk (MM.start info byte) ∅ :=
    ⟨fun hc => absurd hc hready, fun hc => absurd hc hready⟩
  constructor
  · exact ⟨⟨⟨htree, by simp, by simp, hregions⟩, hbump⟩, by simp [State.start, State.livePtrs],
      by simp [State.start], by simp, by simp [State.start],
      by simp [State.start, State.livePtrs], List.nodup_nil⟩
  · exact fun a ha => absurd ha (Set.notMem_empty a)

theorem Inv.live_ne_zero (h : Inv s blocks t) (hp : p ∈ s.livePtrs) : p ≠ 0 := by
  have hne := h.regions.ptr_ne_zero (h.live p hp).1
  rwa [ptrinfoToPtr_ptrToPtrinfo] at hne

theorem Inv.notMem_live (h : Inv s blocks t) {a : Word} (ha : a ∈ nodes t) :
    ptrinfoToPtr a ∉ s.livePtrs := by
  intro hc
  have hu := (h.live _ hc).2.2
  rw [ptrToPtrinfo_ptrinfoToPtr, (h.nodes_freed a ha).2] at hu
  cases hu

/-- What `allocMem` hands out was not live, and with it the records stay true. -/
theorem Inv.hand (h : Inv s blocks t) (hinv : HeapInv m blocks' t')
    (heff : AllocEffect s.mm m blocks blocks' t' size q) : Inv (s.hand m q size) blocks' t' := by
  have hlive : ∀ p ∈ s.livePtrs, p ≠ q := by
    rintro p hp rfl
    have hunused := heff.unused (h.live_ne_zero hp) (h.live p hp).1
    rw [(h.live p hp).2.2] at hunused
    cases hunused
  have hdata : ∀ p ∈ s.livePtrs, (m.info (ptrToPtrinfo p)).unlinked =
      (s.mm.info (ptrToPtrinfo p)).unlinked := by
    intro p hp
    apply heff.data _ (h.live p hp).1
    rw [ptrinfoToPtr_ptrToPtrinfo]
    exact hlive p hp
  have hold : ∀ p ∈ s.livePtrs, ptrToPtrinfo p ∈ blocks' ∧
      (m.info (ptrToPtrinfo p)).state = .used ∧ (m.info (ptrToPtrinfo p)).used = true := by
    intro p hp
    obtain ⟨hb, hstate, hused⟩ := h.live p hp
    have hs := congrArg PtrInfo.state (hdata p hp)
    have hu := congrArg PtrInfo.used (hdata p hp)
    exact ⟨heff.sub _ hb, hs.trans hstate, hu.trans hused⟩
  have hsizes : ∀ e ∈ s.live, (m.info (ptrToPtrinfo e.1)).size = e.2 := by
    intro e he
    have hsize := congrArg PtrInfo.size (hdata e.1 (State.mem_livePtrs he))
    exact hsize.trans (h.sizes e he)
  have hdead : ∀ a ∈ blocks', ptrinfoToPtr a ∉ s.livePtrs → ptrinfoToPtr a ≠ q →
      (m.info a).used = false := by
    intro a ha hl hq
    rcases heff.fresh a ha hq with hb | hn
    · have hu := congrArg PtrInfo.used (heff.data a hb hq)
      exact hu.trans (h.dead a hb hl)
    · exact (hinv.nodes_freed a hn).2
  by_cases hq : q = 0
  · rw [State.hand, if_pos hq]
    have hne : ∀ a ∈ blocks', ptrinfoToPtr a ≠ q := fun a ha => by
      rw [hq]
      exact hinv.regions.ptr_ne_zero ha
    exact ⟨hinv, hold, hsizes, fun a ha hl => hdead a ha hl (hne a ha),
      fun p hp => heff.sub _ (h.issued p hp), h.live_issued, h.nodup⟩
  · obtain ⟨hb, hi⟩ := heff.handed hq
    rw [State.hand, if_neg hq]
    refine ⟨hinv, ?_, ?_, fun a ha hl => ?_, ?_, ?_, ?_⟩
    · refine List.forall_mem_cons.mpr ⟨?_, hold⟩
      change _ ∧ (m.info _).state = _ ∧ (m.info _).used = _
      rw [hi]
      exact ⟨hb, rfl, rfl⟩
    · refine List.forall_mem_cons.mpr ⟨?_, hsizes⟩
      change (m.info _).size = size
      rw [hi]
      exact and_SIZEMASK size
    · change ptrinfoToPtr a ∉ q :: s.livePtrs at hl
      rw [List.mem_cons, not_or] at hl
      exact hdead a ha hl.2 hl.1
    · exact List.forall_mem_cons.mpr ⟨hb, fun p hp => heff.sub _ (h.issued p hp)⟩
    · exact List.forall_mem_cons.mpr
        ⟨List.mem_cons_self, fun p hp => List.mem_cons_of_mem _ (h.live_issued p hp)⟩
    · exact List.nodup_cons.mpr ⟨fun hc => hlive q hc rfl, h.nodup⟩

theorem Kept.hand (h : Kept s blocks t) (hinv : HeapInv m blocks' t')
    (heff : AllocEffect s.mm m blocks blocks' t' size q)
    (hkept : ∀ b ∈ nodes t, ptrinfoToPtr b ≠ q → b ∈ nodes t') :
    Kept (s.hand m q size) blocks' t' := by
  intro a ha hl
  have hboth : ptrinfoToPtr a ≠ q ∧ ptrinfoToPtr a ∉ s.livePtrs := by
    by_cases hq : q = 0
    · rw [State.hand, if_pos hq] at hl
      rw [hq]
      exact ⟨hinv.regions.ptr_ne_zero ha, hl⟩
    · rwa [State.livePtrs_hand hq, List.mem_cons, not_or] at hl
  rcases heff.fresh a ha hboth.1 with hb | hn
  · exact hkept a (h a hb hboth.2) hboth.1
  · exact hn

theorem Inv.free (h : Inv s blocks t) (hp : p ∈ s.livePtrs) :
    ∃ m' t', s.mm.free p = some (m', true) ∧ Inv (s.drop m' p) blocks t' ∧
      (Kept s blocks t → Kept (s.drop m' p) blocks t') := by
  obtain ⟨hb, hstate, hused⟩ := h.live p hp
  obtain ⟨m', heq, hok, hdata⟩ := h.toHeapOk.free hb hstate hused
  rw [ptrinfoToPtr_ptrToPtrinfo] at heq
  have hinfo : ∀ a, a ≠ ptrToPtrinfo p → (m'.info a).unlinked = (s.mm.info a).unlinked :=
    fun a ha => by rw [hdata.info, MM.setInfo_of_ne _ _ ha]
  have hptr : ∀ q, q ≠ p → ptrToPtrinfo q ≠ ptrToPtrinfo p := by
    intro q hq he
    rw [← ptrinfoToPtr_ptrToPtrinfo q, he, ptrinfoToPtr_ptrToPtrinfo] at hq
    exact hq rfl
  have hsize : ∀ a ∈ blocks, (m'.info a).size = (s.mm.info a).size := by
    intro a _
    rw [hdata.size]
    by_cases ha : a = ptrToPtrinfo p
    · rw [ha, MM.setInfo_self]
      rfl
    · rw [MM.setInfo_of_ne _ _ ha]
  have hbump : BumpOk m' blocks :=
    h.bump.congr hdata.runs hdata.lastPage hdata.freeTop hdata.freeMax hsize
  refine ⟨m', _, heq, ⟨⟨hok, hbump⟩, fun q hq => ?_, fun e he => ?_, fun a ha hl => ?_, h.issued,
    fun q hq => h.live_issued q (State.mem_livePtrs_drop.mp hq).1, ?_⟩, fun hkept a ha hl => ?_⟩
  · obtain ⟨hql, hqp⟩ := State.mem_livePtrs_drop.mp hq
    obtain ⟨hqb, hqs, hqu⟩ := h.live q hql
    have hs := congrArg PtrInfo.state (hinfo _ (hptr q hqp))
    have hu := congrArg PtrInfo.used (hinfo _ (hptr q hqp))
    exact ⟨hqb, hs.trans hqs, hu.trans hqu⟩
  · have he' := (State.mem_livePtrs_drop.mp (State.mem_livePtrs he)).2
    have hsz := congrArg PtrInfo.size (hinfo _ (hptr e.1 he'))
    exact hsz.trans (h.sizes e (List.mem_filter.mp he).1)
  · by_cases hap : a = ptrToPtrinfo p
    · exact (hok.nodes_freed a ((mem_insertLeaf _).mpr (.inl hap))).2
    · have hne : ptrinfoToPtr a ≠ p := fun he => hap (by rw [← he, ptrToPtrinfo_ptrinfoToPtr])
      have hu := congrArg PtrInfo.used (hinfo a hap)
      exact hu.trans (h.dead a ha fun hc => hl (State.mem_livePtrs_drop.mpr ⟨hc, hne⟩))
  · rw [State.livePtrs_drop]
    exact h.nodup.filter _
  · by_cases hap : a = ptrToPtrinfo p
    · exact (mem_insertLeaf _).mpr (.inl hap)
    · have hne : ptrinfoToPtr a ≠ p := fun he => hap (by rw [← he, ptrToPtrinfo_ptrinfoToPtr])
      have hmem := hkept a ha fun hc => hl (State.mem_livePtrs_drop.mpr ⟨hc, hne⟩)
      exact (mem_insertLeaf _).mpr (.inr hmem)

theorem HeapInv.setByte (h : HeapInv m blocks t) (byte : Bytes) :
    HeapInv { m with byte := byte } blocks t :=
  ⟨h.toHeapOk.congr (fun _ _ => rfl) rfl (h.regions.congr rfl fun _ _ => rfl),
    h.bump.congr rfl rfl rfl rfl fun _ _ => rfl⟩

theorem AllocEffect.setByte (h : AllocEffect m m' blocks blocks' t' size q) (byte : Bytes) :
    AllocEffect m { m' with byte := byte } blocks blocks' t' size q :=
  ⟨h.sub, h.data, h.fresh, h.handed, h.unused⟩

theorem AllocEffect.refused (m : MM) (blocks : Set Word) (t : BinaryTree Word) (size : Word) :
    AllocEffect m m blocks blocks t size 0 :=
  ⟨fun _ hb => hb, fun _ _ _ => rfl, fun _ hb _ => .inl hb, fun hc => absurd rfl hc,
    fun hc => absurd rfl hc⟩

theorem not_guard_iff : ¬ SIZEMASK - sizeofPtrInfo < size ↔ size.toNat + 20 < 2 ^ 32 := by
  unfold SIZEMASK sizeofPtrInfo
  constructor <;> bv_omega

theorem alloc_spec {ty : AllocType} (h : HeapInv m blocks t) (hty : ty ≠ .page)
    (hpage : PageAnswer m (MM.pagesFor (size + sizeofPtrInfo)) page)
    (hsound : ¬ SIZEMASK - sizeofPtrInfo < size →
      memType ty ≠ .normal ∨ m.searchAvail size = some none → BumpSound m size page) :
    ∃ m' q blocks' t', m.alloc size ty page = some (m', q) ∧ HeapInv m' blocks' t' ∧
      AllocEffect m m' blocks blocks' t' size q ∧
      ((¬ SIZEMASK - sizeofPtrInfo < size → memType ty = .normal → ReleaseSound m size) →
        ∀ b ∈ nodes t, ptrinfoToPtr b ≠ q → b ∈ nodes t') := by
  by_cases hguard : SIZEMASK - sizeofPtrInfo < size
  · exact ⟨m, 0, blocks, t, if_pos hguard, h, .refused m blocks t size, fun _ _ hb _ => hb⟩
  · obtain ⟨m', q, blocks', t', heq, hinv, heff, hkept⟩ :=
      allocMem_spec h (not_guard_iff.mp hguard) hpage (hsound hguard)
    have hkept' : (¬ SIZEMASK - sizeofPtrInfo < size → memType ty = .normal →
        ReleaseSound m size) → ∀ b ∈ nodes t, ptrinfoToPtr b ≠ q → b ∈ nodes t' :=
      fun hc => hkept (hc hguard)
    unfold MM.alloc
    rw [if_neg hguard]
    cases ty with
    | normal => exact ⟨m', q, blocks', t', heq, hinv, heff, hkept'⟩
    | fast => exact ⟨m', q, blocks', t', heq, hinv, heff, hkept'⟩
    | page => exact absurd rfl hty
    | clear =>
      change m.allocMem size .normal page = some (m', q) at heq
      by_cases hq : q = 0
      · refine ⟨m', q, blocks', t', ?_, hinv, heff, hkept'⟩
        simp only [MM.allocMemClear, heq, Option.map_some, hq, if_true]
      · let byte := MM.clearLoop q size.toNat m'.byte
        refine ⟨{ m' with byte := byte }, q, blocks', t', ?_, hinv.setByte byte,
          heff.setByte byte, hkept'⟩
        simp only [MM.allocMemClear, heq, Option.map_some, hq, if_false, byte]

end Effects

section Write
variable {s : State} {m : MM} {blocks : Set Word} {t : BinaryTree Word} {p : Word}

theorem Regions.not_overlaps (h : Regions m blocks) {a b : Word} (ha : a ∈ blocks)
    (hb : b ∈ blocks) : ¬ Overlaps a (ptrinfoToPtr b) (m.info b).size := by
  rintro ⟨i, hi, j, hj, he⟩
  have hb20 := h.ptr_lt b hb
  have ha20 := h.ptr_lt a ha
  obtain ⟨run, hrun, -, hend⟩ := h.inRun b hb
  have hin := h.runs_inside run hrun
  have hbend : blockEnd m b = b.toNat + 20 + (m.info b).size.toNat := rfl
  have haend : a.toNat + 20 ≤ blockEnd m a := Nat.le_add_right _ _
  have hl : (a + BitVec.ofNat 32 i).toNat = a.toNat + i := by
    rw [BitVec.toNat_add, BitVec.toNat_ofNat]
    omega
  have hr : (ptrinfoToPtr b + BitVec.ofNat 32 j).toNat = b.toNat + 20 + j := by
    unfold ptrinfoToPtr sizeofPtrInfo
    rw [BitVec.toNat_add, BitVec.toNat_add, BitVec.toNat_ofNat]
    change ((b.toNat + 20) % 2 ^ 32 + j % 2 ^ 32) % 2 ^ 32 = _
    omega
  rw [he, hr] at hl
  by_cases hab : a = b
  · rw [hab] at hl
    omega
  · have hap := h.apart a ha b hb hab
    omega

theorem Inv.write (h : Inv s blocks t) (hp : p ∈ s.livePtrs) {info : Word → PtrInfo} {byte : Bytes}
    (hin : StoresInside s.mm p info byte) :
    Inv { s with mm := { s.mm with info := info, byte := byte } } blocks t := by
  have hinfo : ∀ a ∈ blocks, info a = s.mm.info a := by
    intro a ha
    have hno := h.regions.not_overlaps ha (h.live p hp).1
    rw [ptrinfoToPtr_ptrToPtrinfo] at hno
    exact hin.info a hno
  have hsize : ∀ a ∈ blocks, (info a).size = (s.mm.info a).size := fun a ha => by
    rw [hinfo a ha]
  refine ⟨⟨h.toHeapOk.congr hinfo rfl (h.regions.congr rfl hsize),
    h.bump.congr rfl rfl rfl rfl hsize⟩, fun q hq => ?_, fun e he => ?_, fun a ha hl => ?_, h.issued,
    h.live_issued, h.nodup⟩
  · have hq' := h.live q hq
    rwa [← hinfo _ hq'.1] at hq'
  · have hb := (h.live e.1 (State.mem_livePtrs he)).1
    exact (hsize _ hb).trans (h.sizes e he)
  · have hd := h.dead a ha hl
    rwa [← hinfo a ha] at hd

end Write

section Exec
variable {s : State} {m : MM} {blocks : Set Word} {t : BinaryTree Word} {p size page : Word}

/-- A heap that is sound after the step, and complete when it was and nothing got lost. -/
def Sound (s : State) (blocks : Set Word) (t : BinaryTree Word) (op : Op) (s' : State) : Prop :=
  ∃ blocks' t', Inv s' blocks' t' ∧ (TakeSafe s op → Kept s blocks t → Kept s' blocks' t')

theorem exec_alloc_spec {ty : AllocType} (h : Inv s blocks t)
    (hallow : Allowed s (.alloc size ty page)) (hbump : BumpSafe s (.alloc size ty page)) :
    ∃ s', s.exec (.alloc size ty page) = some s' ∧
      Sound s blocks t (.alloc size ty page) s' := by
  by_cases hty : ty = .page
  · subst hty
    change PageAnswer s.mm size page at hallow
    have hexec : ∀ m q, s.mm.alloc size .page page = some (m, q) →
        s.exec (.alloc size .page page) = some { s with mm := m } := fun m q heq => by
      simp only [State.exec, heq, Option.map_some, if_true]
    have hsame : Sound s blocks t (.alloc size .page page) s := ⟨blocks, t, h, fun _ hk => hk⟩
    by_cases hguard : SIZEMASK - sizeofPtrInfo < size
    · exact ⟨s, hexec s.mm 0 (if_pos hguard), hsame⟩
    · have hpages : s.mm.alloc size .page page = some (s.mm.allocPage size page) := if_neg hguard
      rcases hallow with hnull | hfresh
      · have hnone : s.mm.allocPage size page = (s.mm, 0) := if_pos hnull
        rw [hnone] at hpages
        exact ⟨s, hexec s.mm 0 hpages, hsame⟩
      · have hsome : s.mm.allocPage size page =
            ({ s.mm with runs := (page, size) :: s.mm.runs }, page) := if_neg hfresh.nonnull
        rw [hsome] at hpages
        refine ⟨_, hexec _ page hpages, blocks, t, ⟨⟨h.toHeapOk.congr (fun _ _ => rfl) rfl
          (h.regions.addRun hfresh rfl rfl), fun hr => ?_, h.bump.free⟩, h.live, h.sizes, h.dead, h.issued,
          h.live_issued, h.nodup⟩, fun _ hk => hk⟩
        obtain ⟨run, hrun, hb⟩ := h.bump.inRun hr
        exact ⟨run, List.mem_cons_of_mem _ hrun, hb⟩
  · have hpage : PageAnswer s.mm (MM.pagesFor (size + sizeofPtrInfo)) page := by
      simpa only [Allowed, if_neg hty] using hallow
    have hcall : ¬ SIZEMASK - sizeofPtrInfo < size →
        allocMemCall s (.alloc size ty page) = some (size, memType ty) := fun hguard =>
      if_neg (not_or.mpr ⟨hguard, hty⟩)
    obtain ⟨m', q, blocks', t', heq, hinv, heff, hkept⟩ := alloc_spec h.toHeapInv hty hpage
      fun hguard => hbump (size, memType ty) (hcall hguard)
    refine ⟨s.hand m' q size, ?_, blocks', t', h.hand hinv heff, fun htake hk => ?_⟩
    · simp only [State.exec, heq, Option.map_some, hty, if_false]
    · exact hk.hand hinv heff (hkept fun hguard htype => htake (size, memType ty) (hcall hguard) htype)

theorem exec_free_spec (h : Inv s blocks t) (hallow : Allowed s (.free p)) :
    ∃ s', s.exec (.free p) = some s' ∧ Sound s blocks t (.free p) s' := by
  by_cases hp : p ∈ s.livePtrs
  · obtain ⟨m', t', heq, hinv, hkept⟩ := h.free hp
    refine ⟨s.drop m' p, ?_, blocks, t', hinv, fun _ => hkept⟩
    simp only [State.exec, heq, Option.map_some]
  · have heq : s.mm.free p = some (s.mm, false) := by
      rcases hallow with rfl | hissued
      · rfl
      · apply freeNoLock_of_unused
        apply h.dead _ (h.issued p hissued)
        rwa [ptrinfoToPtr_ptrToPtrinfo]
    refine ⟨s, ?_, blocks, t, h, fun _ hk => hk⟩
    simp only [State.exec, heq, Option.map_some, State.drop_of_notMem hp]

theorem exec_of_realloc {q : Word} (h : s.mm.realloc p size page = some (m, q)) :
    s.exec (.realloc p size page) = some (s.move m p size q) := by
  simp only [State.exec, h, Option.map_some]

/-- The call of `alloc` that `realloc` makes when it neither frees nor keeps the block. -/
theorem allocMemCall_realloc (hzero : ¬ (size = 0 ∧ p ≠ 0))
    (hsame : ¬ (p ≠ 0 ∧ (s.mm.info (ptrToPtrinfo p)).size = size))
    (hguard : ¬ SIZEMASK - sizeofPtrInfo < size) :
    allocMemCall s (.realloc p size page) = some (size, .normal) := by
  have hno : ¬ (p ≠ 0 ∧ (size = 0 ∨ (s.mm.info (ptrToPtrinfo p)).size = size)) := by
    rintro ⟨hp0, hz | hs⟩
    · exact hzero ⟨hz, hp0⟩
    · exact hsame ⟨hp0, hs⟩
  rw [allocMemCall, if_neg hguard, if_neg hno]

theorem realloc_of_alloc {m' : MM} {q : Word} (hzero : ¬ (size = 0 ∧ p ≠ 0))
    (hsame : ¬ (p ≠ 0 ∧ (m.info (ptrToPtrinfo p)).size = size))
    (halloc : m.alloc size .normal page = some (m', q)) :
    m.realloc p size page = if q = 0 then some (m', 0) else
      if p = 0 ∨ (m.info (ptrToPtrinfo p)).state = .freed then some (m', q)
      else m'.reallocMove p q size := by
  rw [MM.realloc, if_neg hzero, if_neg hsame, halloc]
  dsimp only [Option.bind_some]
  by_cases hq : q = 0
  · rw [if_pos hq, if_pos hq]
  · rw [if_neg hq, if_neg hq]
    by_cases hdead : p = 0 ∨ (m.info (ptrToPtrinfo p)).state = .freed
    · have hptr : (if p ≠ 0 ∧ (m.info (ptrToPtrinfo p)).state = .freed then 0 else p) = 0 := by
        rw [ite_eq_left_iff]
        exact fun hc => by_contra fun hp => hc ⟨hp, hdead.resolve_left hp⟩
      rw [hptr, if_pos rfl, if_pos hdead]
    · obtain ⟨hp, hf⟩ := not_or.mp hdead
      have hptr : (if p ≠ 0 ∧ (m.info (ptrToPtrinfo p)).state = .freed then 0 else p) = p :=
        if_neg fun hc => hf hc.2
      rw [hptr, if_neg hp, if_neg hdead]

/-- The path of `realloc` that takes a new block and moves the old one there. -/
theorem exec_realloc_move (h : Inv s blocks t) (hp : p = 0 ∨ p ∈ s.livePtrs)
    (hpage : PageAnswer s.mm (MM.pagesFor (size + sizeofPtrInfo)) page)
    (hbump : BumpSafe s (.realloc p size page)) (hzero : ¬ (size = 0 ∧ p ≠ 0))
    (hsame : ¬ (p ≠ 0 ∧ (s.mm.info (ptrToPtrinfo p)).size = size)) :
    ∃ s', s.exec (.realloc p size page) = some s' ∧
      Sound s blocks t (.realloc p size page) s' := by
  have hcall : ¬ SIZEMASK - sizeofPtrInfo < size →
      allocMemCall s (.realloc p size page) = some (size, .normal) := allocMemCall_realloc hzero hsame
  have hlive : p ≠ 0 → p ∈ s.livePtrs := fun hp0 => hp.resolve_left hp0
  obtain ⟨m', q, blocks', t', heq, hinv, heff, hkept⟩ := alloc_spec h.toHeapInv
    (by decide : AllocType.normal ≠ .page) hpage fun hguard => hbump (size, .normal) (hcall hguard)
  have hkept' : TakeSafe s (.realloc p size page) →
      ∀ b ∈ nodes t, ptrinfoToPtr b ≠ q → b ∈ nodes t' :=
    fun htake => hkept fun hguard _ => htake (size, .normal) (hcall hguard) rfl
  have hreal : s.mm.realloc p size page = if q = 0 then some (m', 0) else
      if p = 0 then some (m', q) else m'.reallocMove p q size := by
    rw [realloc_of_alloc hzero hsame heq]
    by_cases hp0 : p = 0
    · rw [if_pos (Or.inl hp0), if_pos hp0]
    · have hused := (h.live p (hlive hp0)).2.1
      have hnot : ¬ (p = 0 ∨ (s.mm.info (ptrToPtrinfo p)).state = .freed) := by
        rw [hused]
        exact not_or.mpr ⟨hp0, by decide⟩
      rw [if_neg hnot, if_neg hp0]
  by_cases hq : q = 0
  · have hstay : 0 = p ∨ (0 : Word) = 0 ∧ size ≠ 0 := by
      by_cases hp0 : p = 0
      · exact .inl hp0.symm
      · exact .inr ⟨rfl, fun hs => hzero ⟨hs, hp0⟩⟩
    have hhand := h.hand hinv heff
    refine ⟨s.hand m' q size, ?_, blocks', t', hhand, fun htake hk => hk.hand hinv heff (hkept' htake)⟩
    rw [if_pos hq] at hreal
    rw [exec_of_realloc hreal, State.move, if_pos hstay, State.hand, if_pos hq]
  · by_cases hp0 : p = 0
    · have hne : ¬ (q = p ∨ q = 0 ∧ size ≠ 0) :=
        not_or.mpr ⟨fun hc => hq (hc.trans hp0), fun hc => hq hc.1⟩
      have hnot : p ∉ (s.hand m' q size).livePtrs := fun hc => (h.hand hinv heff).live_ne_zero hc hp0
      refine ⟨s.hand m' q size, ?_, blocks', t', h.hand hinv heff,
        fun htake hk => hk.hand hinv heff (hkept' htake)⟩
      rw [if_neg hq, if_pos hp0] at hreal
      rw [exec_of_realloc hreal, State.move, if_neg hne, State.drop_of_notMem hnot, State.hand, if_neg hq]
    · have hpl := hlive hp0
      have hqp : q ≠ p := by
        rintro rfl
        have hunused := heff.unused hq (h.live q hpl).1
        rw [(h.live q hpl).2.2] at hunused
        cases hunused
      have hne : ¬ (q = p ∨ q = 0 ∧ size ≠ 0) := not_or.mpr ⟨hqp, fun hc => hq hc.1⟩
      -- the bytes of the old block are copied before it is freed
      have hold : ptrToPtrinfo p ≠ 0 := h.regions.ne_zero (h.live p hpl).1
      let min := if size < (m'.info (ptrToPtrinfo p)).size then size
        else (m'.info (ptrToPtrinfo p)).size
      let byte := Mem.move m'.byte q p min
      let m₁ : MM := { m' with byte := byte }
      have hinv₁ := hinv.setByte byte
      have heff₁ := heff.setByte byte
      have hhand : s.hand m₁ q size = ⟨m₁, (q, size) :: s.live, q :: s.issued⟩ := if_neg hq
      have hpl₁ : p ∈ (s.hand m₁ q size).livePtrs := by
        rw [State.livePtrs_hand hq]
        exact List.mem_cons_of_mem _ hpl
      obtain ⟨m₂, t₂, hfree, hinv₂, hkept₂⟩ := (h.hand hinv₁ heff₁).free hpl₁
      have hmove : m'.reallocMove p q size = some (m₂, q) := by
        rw [hhand] at hfree
        change m₁.freeNoLock p = some (m₂, true) at hfree
        simp only [MM.reallocMove, if_pos hold]
        change (m₁.freeNoLock p).map (fun x => (x.1, q)) = some (m₂, q)
        rw [hfree, Option.map_some]
      refine ⟨(s.hand m₁ q size).drop m₂ p, ?_, blocks', t₂, hinv₂,
        fun htake hk => hkept₂ (hk.hand hinv₁ heff₁ (hkept' htake))⟩
      rw [if_neg hq, if_neg hp0, hmove] at hreal
      rw [exec_of_realloc hreal, State.move, if_neg hne, hhand, State.hand, if_neg hq]
      rfl

theorem exec_realloc_spec (h : Inv s blocks t) (hallow : Allowed s (.realloc p size page))
    (hbump : BumpSafe s (.realloc p size page)) :
    ∃ s', s.exec (.realloc p size page) = some s' ∧
      Sound s blocks t (.realloc p size page) s' := by
  obtain ⟨hp, hpage⟩ := hallow
  by_cases hzero : size = 0 ∧ p ≠ 0
  · obtain ⟨m', t', heq, hinv, hkept⟩ := h.free (hp.resolve_left hzero.2)
    have hne : ¬ (0 = p ∨ (0 : Word) = 0 ∧ size ≠ 0) := by
      rintro (hc | hc)
      · exact hzero.2 hc.symm
      · exact hc.2 hzero.1
    refine ⟨s.drop m' p, ?_, blocks, t', hinv, fun _ => hkept⟩
    have hreal : s.mm.realloc p size page = some (m', 0) := by
      simp only [MM.realloc, if_pos hzero, heq, Option.map_some]
    rw [exec_of_realloc hreal, State.move, if_neg hne]
    rfl
  · by_cases hsame : p ≠ 0 ∧ (s.mm.info (ptrToPtrinfo p)).size = size
    · refine ⟨s, ?_, blocks, t, h, fun _ hk => hk⟩
      have hreal : s.mm.realloc p size page = some (s.mm, p) := by
        simp only [MM.realloc, if_neg hzero, if_pos hsame]
      rw [exec_of_realloc hreal, State.move, if_pos (.inl rfl)]
    · exact exec_realloc_move h hp hpage hbump hzero hsame

/-- Every operation comes back and leaves a sound heap. -/
theorem exec_spec {op : Op} (h : Inv s blocks t) (hallow : Allowed s op)
    (hbump : BumpSafe s op) : ∃ s', s.exec op = some s' ∧ Sound s blocks t op s' := by
  cases op with
  | alloc size ty page => exact exec_alloc_spec h hallow hbump
  | free p => exact exec_free_spec h hallow
  | realloc p size page => exact exec_realloc_spec h hallow hbump
  | write p info byte =>
    exact ⟨_, rfl, blocks, t, h.write hallow.1 hallow.2, fun _ hk => hk⟩

theorem Step.sound {op : Op} {s' : State} (h : Inv s blocks t) (hstep : Step s op s')
    (hbump : BumpSafe s op) : Sound s blocks t op s' := by
  obtain ⟨s'', heq, hsound⟩ := exec_spec h hstep.1 hbump
  rw [hstep.2, Option.some.injEq] at heq
  rwa [heq]

end Exec

section Runs
variable {info : Word → PtrInfo} {byte : Bytes} {ops : List Op} {s : State}

theorem run_inv (h : Run (Guarded Step fun s op _ => BumpSafe s op) (State.start info byte) ops s) :
    ∃ blocks t, Inv s blocks t := by
  have hstep : ∀ s op s', (∃ blocks t, Inv s blocks t) →
      Guarded Step (fun s op _ => BumpSafe s op) s op s' → ∃ blocks t, Inv s' blocks t := by
    rintro s op s' ⟨blocks, t, hinv⟩ ⟨hs, hbump⟩
    obtain ⟨blocks', t', hinv', -⟩ := hs.sound hinv hbump
    exact ⟨blocks', t', hinv'⟩
  exact h.invariant hstep ⟨_, _, (start_inv info byte).1⟩

theorem run_kept (h : Run (Guarded Step fun s op _ => BumpSafe s op ∧ TakeSafe s op)
    (State.start info byte) ops s) : ∃ blocks t, Inv s blocks t ∧ Kept s blocks t := by
  have hstep : ∀ s op s', (∃ blocks t, Inv s blocks t ∧ Kept s blocks t) →
      Guarded Step (fun s op _ => BumpSafe s op ∧ TakeSafe s op) s op s' →
      ∃ blocks t, Inv s' blocks t ∧ Kept s' blocks t := by
    rintro s op s' ⟨blocks, t, hinv, hkept⟩ ⟨hs, hbump, htake⟩
    obtain ⟨blocks', t', hinv', hk⟩ := hs.sound hinv hbump
    exact ⟨blocks', t', hinv', hk htake hkept⟩
  exact h.invariant hstep ⟨_, _, start_inv info byte⟩

end Runs

end CxxKernel.Heap
