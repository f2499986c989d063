import CxxKernel.Heap.PageRuns
import CxxKernel.Paging.Ownership

/-! The heap of the kernel over the pages of x86: `allocPage` asks `Paging::alloc`, and others map
pages as well. -/
namespace CxxKernel.Heap
open Runs Paging

/-- The heap and the paging. -/
structure KernelHeap where
  heap : State
  paging : PagingPrivate

/-- An operation of the heap, with any page in it, or a call of the paging from elsewhere. -/
inductive KernelOp
  | heap (op : Op)
  | map (flags cnt : Word)
  | mapPhys (phys flags : Word)

namespace KernelHeap

/-- What `allocPage` answers, when it is called, and the paging after it. -/
def answer (s : KernelHeap) (op : Op) : Option (Word × PagingPrivate) :=
  match s.heap.pagesAsked op with
  | none => some (0, s.paging)
  | some cnt => s.paging.alloc cnt

def exec (s : KernelHeap) : KernelOp → Option KernelHeap
  | .heap op => (s.answer op).bind fun (page, paging) =>
      (s.heap.exec (op.withPage page)).map fun heap => { heap, paging }
  | .map flags cnt => (s.paging.map flags cnt).map fun (_, _, paging) => { s with paging }
  | .mapPhys phys flags => some { s with paging := (s.paging.mapPhys phys flags).2.2 }

/-- A page of a run that the heap has got. -/
def HeapPage (s : KernelHeap) (v : ℕ) : Prop :=
  ∃ run ∈ s.heap.mm.runs, run.1.toNat ≤ v * 4096 ∧ v * 4096 < runEnd run

/-- Callers free what they got, reallocate what is in use, store inside their blocks, and map no frame
of the heap. -/
def Callers (s : KernelHeap) : KernelOp → Prop
  | .heap (.alloc _ _ _) => True
  | .heap (.free p) => p = 0 ∨ p ∈ s.heap.issued
  | .heap (.realloc p _ _) => p = 0 ∨ p ∈ s.heap.livePtrs
  | .heap (.write p info byte) => p ∈ s.heap.livePtrs ∧ StoresInside s.heap.mm p info byte
  | .map _ _ => True
  | .mapPhys phys _ => ∀ v, s.HeapPage v → s.paging.frameOf v ≠ phys.toNat / Paging.PAGE_SIZE

def Step (s : KernelHeap) (op : KernelOp) (s' : KernelHeap) : Prop := s.Callers op ∧ s.exec op = some s'

/-- The bump test of an operation of the heap, if it comes to it, is sound. -/
def Bumps (s : KernelHeap) (op : KernelOp) (_ : KernelHeap) : Prop :=
  ∀ heapOp, op = .heap heapOp → ∀ page paging, s.answer heapOp = some (page, paging) →
    BumpSafe s.heap (heapOp.withPage page)

section Paging
variable {paging paging' : PagingPrivate} {base page cnt : Word} {v : ℕ}

theorem mem_pagesFrom_iff (hmod : base.toNat % 4096 = 0) {n : ℕ} (hfit : base.toNat + n * 4096 ≤ 2 ^ 32) :
    v ∈ PagingPrivate.pagesFrom base n ↔ base.toNat ≤ v * 4096 ∧ v * 4096 < base.toNat + n * 4096 := by
  have haddr : ∀ k < n, (base + BitVec.ofNat 32 (k * Paging.PAGE_SIZE)).toNat / Paging.PAGE_SIZE =
      base.toNat / 4096 + k := by
    intro k hk
    have hpage : Paging.PAGE_SIZE = 4096 := rfl
    rw [hpage, BitVec.toNat_add, BitVec.toNat_ofNat]
    omega
  unfold PagingPrivate.pagesFrom
  rw [List.mem_map]
  constructor
  · rintro ⟨k, hk, rfl⟩
    rw [List.mem_range] at hk
    rw [haddr k hk]
    omega
  · rintro ⟨hle, hlt⟩
    refine ⟨v - base.toNat / 4096, List.mem_range.mpr (by omega), ?_⟩
    rw [haddr _ (by omega)]
    omega

theorem zero_mem_pagesFrom (hmod : base.toNat % 4096 = 0) {n : ℕ} (hwrap : 2 ^ 32 < base.toNat + n * 4096) :
    0 ∈ PagingPrivate.pagesFrom base n := by
  have hlt := base.isLt
  refine List.mem_map.mpr ⟨(2 ^ 32 - base.toNat) / 4096, List.mem_range.mpr (by omega), ?_⟩
  have hpage : Paging.PAGE_SIZE = 4096 := rfl
  rw [hpage, BitVec.toNat_add, BitVec.toNat_ofNat]
  omega

/-- What the heap needs of the paging: page 0 is taken, frames are in order, and each page of the heap has
a frame of its own. -/
structure Pages (s : KernelHeap) : Prop where
  order : s.paging.InOrder
  zero : s.paging.present 0 = true
  owned : ∀ v, s.HeapPage v → s.paging.Owned v

theorem alloc_map {s : PagingPrivate} (h : s.alloc cnt = some (page, paging')) :
    ∃ ok base, s.map PAGING_MAP_R0 cnt = some (ok, base, paging') ∧ (page = 0 ∨ ok = true ∧ base = some page) := by
  unfold PagingPrivate.alloc at h
  split at h
  · cases h
  · rename_i hmap
    obtain ⟨rfl, rfl⟩ := Prod.mk.inj (Option.some.inj h)
    exact ⟨_, _, hmap, .inr ⟨rfl, rfl⟩⟩
  · rename_i hmap
    obtain ⟨rfl, rfl⟩ := Prod.mk.inj (Option.some.inj h)
    exact ⟨_, _, hmap, .inl rfl⟩

/-- The answer of `Paging::alloc` is one that the heap may rely on, and its pages have frames of their own. -/
theorem alloc_answer {s : KernelHeap} (h : s.Pages) (haligned : ∀ run ∈ s.heap.mm.runs, run.1.toNat % 4096 = 0)
    (hcall : s.paging.alloc cnt = some (page, paging')) :
    PageAnswer s.heap.mm cnt page ∧ paging'.InOrder ∧ paging'.present 0 = true ∧
      (∀ v, s.paging.Owned v → paging'.Owned v) ∧
      (page ≠ 0 → ∀ v, page.toNat ≤ v * 4096 → v * 4096 < runEnd (page, cnt) → paging'.Owned v) := by
  obtain ⟨ok, base, hmap, hpage⟩ := alloc_map hcall
  obtain ⟨horder, hkeep, hnew⟩ := PagingPrivate.map_owned h.order hmap
  obtain ⟨hkeeps, hfresh⟩ := PagingPrivate.map_fresh hmap
  have hzero : paging'.present 0 = true := (PagingPrivate.present_congr (hkeeps 0 h.zero)).trans h.zero
  by_cases hnull : page = 0
  · exact ⟨.inl hnull, horder, hzero, hkeep, fun hne => absurd hnull hne⟩
  obtain ⟨rfl, rfl⟩ := hpage.resolve_left hnull
  obtain ⟨b, hb, hmod, -, hall⟩ := hfresh rfl
  obtain rfl := Option.some.inj hb
  -- a page of the run was not mapped, and page 0 was
  have habsent : ∀ v ∈ PagingPrivate.pagesFrom page cnt.toNat, s.paging.present v = false := fun v hv =>
    (hall v hv).before
  have hinside : runEnd (page, cnt) ≤ 2 ^ 32 := by
    by_contra hwrap
    have hmem := zero_mem_pagesFrom hmod (Nat.lt_of_not_le hwrap)
    cases (habsent 0 hmem).symm.trans h.zero
  have hiff : ∀ v, v ∈ PagingPrivate.pagesFrom page cnt.toNat ↔
      page.toNat ≤ v * 4096 ∧ v * 4096 < runEnd (page, cnt) := fun v => mem_pagesFrom_iff hmod hinside
  refine ⟨.inr ⟨hnull, hmod, hinside, fun run hrun x hx hxend hpagex => ?_⟩, horder, hzero, hkeep,
    fun _ v hle hlt => hnew page rfl v ((hiff v).mpr ⟨hle, hlt⟩)⟩
  by_contra hlt
  have hrunmod := haligned run hrun
  have hpagemod : page.toNat % 4096 = 0 := hmod
  have hmem : x / 4096 ∈ PagingPrivate.pagesFrom page cnt.toNat := (hiff _).mpr ⟨by omega, by omega⟩
  have howned := h.owned (x / 4096) ⟨run, hrun, by omega, by omega⟩
  cases (habsent _ hmem).symm.trans howned.present

end Paging

/-- The heap is sound, and its pages are its own. -/
structure Inv (s : KernelHeap) : Prop extends Pages s where
  heap : ∃ blocks t, Heap.Inv s.heap blocks t

section Step
variable {s s' : KernelHeap} {op : Op} {page : Word} {paging' : PagingPrivate}

theorem allowed_withPage (hcallers : s.Callers (.heap op))
    (hpage : ∀ cnt, s.heap.pagesAsked op = some cnt → PageAnswer s.heap.mm cnt page)
    (hnone : s.heap.pagesAsked op = none → page = 0) : Allowed s.heap (op.withPage page) := by
  have hanswer : ∀ size t, (s.heap.mm.pagesAsked size t = s.heap.pagesAsked op ∨ s.heap.pagesAsked op = none) →
      PageAnswer s.heap.mm (if t = .page then size else MM.pagesFor (size + sizeofPtrInfo)) page := by
    intro size t hasked
    rcases hasked with hasked | hasked
    · unfold MM.pagesAsked at hasked
      split_ifs at hasked with _ ht _
      · exact .inl (hnone hasked.symm)
      · rw [if_pos ht]
        exact hpage _ hasked.symm
      · rw [if_neg ht]
        exact hpage _ hasked.symm
      · exact .inl (hnone hasked.symm)
    · exact .inl (hnone hasked)
  cases op with
  | alloc size t _ => exact hanswer size t (.inl rfl)
  | free p => exact hcallers
  | realloc p size _ =>
    refine ⟨hcallers, hanswer size .normal ?_⟩
    change _ = s.heap.mm.reallocAsked p size ∨ s.heap.mm.reallocAsked p size = none
    unfold MM.reallocAsked
    split_ifs
    · exact .inr rfl
    · exact .inl rfl
  | write p info byte => exact hcallers

/-- An operation of the heap with the answer it gets comes back, and its pages are its own. -/
theorem heap_spec (h : s.Inv) (hcallers : s.Callers (.heap op)) (hanswer : s.answer op = some (page, paging'))
    (hbump : BumpSafe s.heap (op.withPage page)) :
    ∃ heap', s.heap.exec (op.withPage page) = some heap' ∧ Inv ⟨heap', paging'⟩ := by
  obtain ⟨blocks, t, hheap⟩ := h.heap
  have hpages : (∀ cnt, s.heap.pagesAsked op = some cnt → PageAnswer s.heap.mm cnt page) ∧
      (s.heap.pagesAsked op = none → page = 0) ∧ paging'.InOrder ∧ paging'.present 0 = true ∧
      (∀ v, s.paging.Owned v → paging'.Owned v) ∧ ∀ cnt, s.heap.pagesAsked op = some cnt → page ≠ 0 →
        ∀ v, page.toNat ≤ v * 4096 → v * 4096 < runEnd (page, cnt) → paging'.Owned v := by
    unfold answer at hanswer
    cases hasked : s.heap.pagesAsked op with
    | none =>
      rw [hasked] at hanswer
      obtain ⟨rfl, rfl⟩ := Prod.mk.inj (Option.some.inj hanswer)
      exact ⟨fun _ hc => (nomatch hc), fun _ => rfl, h.order, h.zero, fun _ => id, fun _ hc => (nomatch hc)⟩
    | some cnt =>
      rw [hasked] at hanswer
      obtain ⟨hfresh, horder, hzero, hkeep, hnew⟩ := alloc_answer h.toPages hheap.regions.runs_aligned hanswer
      refine ⟨fun c hc => Option.some.inj hc ▸ hfresh, fun hc => (nomatch hc), horder, hzero, hkeep, fun c hc => ?_⟩
      exact Option.some.inj hc ▸ hnew
  obtain ⟨hfresh, hnone, horder, hzero, hkeep, hnew⟩ := hpages
  obtain ⟨heap', hexec, blocks', t', hinv', -⟩ := exec_spec hheap (allowed_withPage hcallers hfresh hnone) hbump
  refine ⟨heap', hexec, ⟨horder, hzero, ?_⟩, blocks', t', hinv'⟩
  rintro v ⟨run, hrun, hle, hlt⟩
  rcases exec_effect hexec with ⟨cnt, hasked, hruns | ⟨hne, hruns⟩⟩ | ⟨-, hruns, -⟩
  · exact hkeep v (h.owned v ⟨run, hruns ▸ hrun, hle, hlt⟩)
  · have hrun' : run ∈ (page, cnt) :: s.heap.mm.runs := hruns ▸ hrun
    rcases List.mem_cons.mp hrun' with rfl | hrun'
    · exact hnew cnt hasked hne v hle hlt
    · exact hkeep v (h.owned v ⟨run, hrun', hle, hlt⟩)
  · exact hkeep v (h.owned v ⟨run, hruns ▸ hrun, hle, hlt⟩)

theorem inv_step {op : KernelOp} (h : s.Inv) (hstep : Guarded Step Bumps s op s') : s'.Inv := by
  obtain ⟨⟨hcallers, hexec⟩, hbump⟩ := hstep
  cases op with
  | heap op =>
    obtain ⟨⟨page, paging'⟩, hanswer, hexec⟩ := Option.bind_eq_some_iff.mp hexec
    obtain ⟨heap', hheap, rfl⟩ := Option.map_eq_some_iff.mp hexec
    obtain ⟨heap'', hheap', hinv⟩ := heap_spec h hcallers hanswer (hbump op rfl page paging' hanswer)
    exact Option.some.inj (hheap'.symm.trans hheap) ▸ hinv
  | map flags cnt =>
    obtain ⟨⟨ok, base, paging'⟩, hmap, rfl⟩ := Option.map_eq_some_iff.mp hexec
    obtain ⟨horder, hkeep, -⟩ := PagingPrivate.map_owned h.order hmap
    have hzero := PagingPrivate.present_congr ((PagingPrivate.map_fresh hmap).1 0 h.zero)
    exact ⟨⟨horder, hzero.trans h.zero, fun v hv => hkeep v (h.owned v hv)⟩, h.heap⟩
  | mapPhys phys flags =>
    obtain rfl := Option.some.inj hexec
    have hmap : s.paging.mapPhys phys flags = ((s.paging.mapPhys phys flags).1, (s.paging.mapPhys phys flags).2.1,
      (s.paging.mapPhys phys flags).2.2) := rfl
    obtain ⟨horder, hkeep⟩ := PagingPrivate.mapPhys_owned h.order hmap
    have hzero := PagingPrivate.present_congr ((PagingPrivate.mapPhys_fresh hmap).1 0 h.zero)
    exact ⟨⟨horder, hzero.trans h.zero, fun v hv => hkeep v (h.owned v hv) (hcallers v hv)⟩, h.heap⟩

end Step

section Bytes
variable {s : KernelHeap} {e e' : Word × Word} {j j' : ℕ}

/-- Each byte of a live block has a byte of memory to itself: no other address leads there. -/
structure BytesApart (s : KernelHeap) : Prop where
  own : ∀ e ∈ s.heap.live, ∀ j < e.2.toNat, ∃ phys < s.paging.bits.cnt * Paging.PAGE_SIZE,
    s.paging.translate (e.1 + BitVec.ofNat 32 j) = some phys ∧
      ∀ b, s.paging.translate b = some phys → b = e.1 + BitVec.ofNat 32 j
  apart : ∀ e ∈ s.heap.live, ∀ e' ∈ s.heap.live, ∀ j < e.2.toNat, ∀ j' < e'.2.toNat,
    s.paging.translate (e.1 + BitVec.ofNat 32 j) = s.paging.translate (e'.1 + BitVec.ofNat 32 j') → e = e' ∧ j = j'

theorem live_byte {blocks : Set Word} {t : BinaryTree Word} (h : Heap.Inv s.heap blocks t) (he : e ∈ s.heap.live)
    (hj : j < e.2.toNat) :
    ptrToPtrinfo e.1 ∈ blocks ∧ blockEnd s.heap.mm (ptrToPtrinfo e.1) = (ptrToPtrinfo e.1).toNat + 20 + e.2.toNat ∧
      (e.1 + BitVec.ofNat 32 j).toNat = (ptrToPtrinfo e.1).toNat + 20 + j ∧
      s.HeapPage ((e.1 + BitVec.ofNat 32 j).toNat / Paging.PAGE_SIZE) := by
  have hregion : Region s.heap (ptrToPtrinfo e.1, e.2) := by
    refine .inl ?_
    rw [ptrinfoToPtr_ptrToPtrinfo]
    exact he
  obtain ⟨hmem, hend, -⟩ := h.region hregion
  obtain ⟨run, hrun, hle, hrunEnd⟩ := h.regions.inRun _ hmem
  dsimp only at hle hrunEnd
  have hmod := h.regions.runs_aligned run hrun
  have hinside := h.regions.runs_inside run hrun
  have hblock : blockEnd s.heap.mm (ptrToPtrinfo e.1) = (ptrToPtrinfo e.1).toNat + 20 + e.2.toNat := hend.symm
  have haddr : (e.1 + BitVec.ofNat 32 j).toNat = (ptrToPtrinfo e.1).toNat + 20 + j := by
    have hptr : e.1 = ptrToPtrinfo e.1 + 20 := (ptrinfoToPtr_ptrToPtrinfo e.1).symm
    have hsize := e.2.isLt
    generalize ptrToPtrinfo e.1 = a at *
    rw [hptr]
    bv_omega
  refine ⟨hmem, hblock, haddr, run, hrun, ?_, ?_⟩
  · rw [show Paging.PAGE_SIZE = 4096 from rfl]
    omega
  · rw [show Paging.PAGE_SIZE = 4096 from rfl]
    omega

theorem Inv.bytesApart (h : s.Inv) : s.BytesApart := by
  obtain ⟨blocks, t, hheap⟩ := h.heap
  have hown : ∀ e ∈ s.heap.live, ∀ j < e.2.toNat, ∃ phys, s.paging.translate (e.1 + BitVec.ofNat 32 j) = some phys ∧
      phys < s.paging.bits.cnt * Paging.PAGE_SIZE ∧
      ∀ b, s.paging.translate b = some phys → b = e.1 + BitVec.ofNat 32 j := by
    intro e he j hj
    obtain ⟨-, -, -, hpage⟩ := live_byte hheap he hj
    exact (h.owned _ hpage).translate
  refine ⟨fun e he j hj => ?_, fun e he e' he' j hj j' hj' hsame => ?_⟩
  · obtain ⟨phys, htranslate, hlt, halone⟩ := hown e he j hj
    exact ⟨phys, hlt, htranslate, halone⟩
  · obtain ⟨phys, htranslate, -, halone⟩ := hown e he j hj
    have haddr := congrArg BitVec.toNat (halone _ (hsame.symm.trans htranslate))
    obtain ⟨hmem, hend, hbyte, -⟩ := live_byte hheap he hj
    obtain ⟨hmem', hend', hbyte', -⟩ := live_byte hheap he' hj'
    rw [hbyte, hbyte'] at haddr
    have hheader : ptrToPtrinfo e.1 = ptrToPtrinfo e'.1 := by
      by_contra hne
      have hapart := hheap.regions.apart _ hmem _ hmem' hne
      omega
    have hptr : e.1 = e'.1 := by
      rw [← ptrinfoToPtr_ptrToPtrinfo e.1, hheader, ptrinfoToPtr_ptrToPtrinfo]
    refine ⟨Prod.ext hptr ?_, ?_⟩
    · rw [← hheap.sizes e he, ← hheap.sizes e' he', hptr]
    · rw [hheader] at haddr
      omega

end Bytes

section Run
variable {image : KernelImage} {mmap : List MemoryMap} {info : Word → PtrInfo} {byte : Bytes} {ops : List KernelOp}
  {s₀ : PagingPrivate} {s : KernelHeap}

theorem start_inv (hwhole : pageCnt mmap % 32 = 0) (hinit : PagingPrivate.init image mmap = some s₀) :
    Inv ⟨State.start info byte, s₀⟩ := by
  obtain ⟨horder, hzero⟩ := PagingPrivate.init_inOrder hwhole hinit
  refine ⟨⟨horder, hzero, ?_⟩, _, _, (Heap.start_inv info byte).1⟩
  rintro v ⟨run, hrun, -⟩
  exact absurd hrun List.not_mem_nil

/-- In every run over the pages of x86 the bytes of live blocks are apart in memory, and every operation
of the heap comes back for which the paging has an answer. -/
theorem bytes_apart (hwhole : pageCnt mmap % 32 = 0) (hinit : PagingPrivate.init image mmap = some s₀)
    (hrun : Run (Guarded Step Bumps) ⟨State.start info byte, s₀⟩ ops s) :
    s.BytesApart ∧ ∀ op page paging, s.Callers (.heap op) → s.answer op = some (page, paging) →
      BumpSafe s.heap (op.withPage page) → ∃ s', s.exec (.heap op) = some s' := by
  have hinv : s.Inv := hrun.invariant (fun _ _ _ h hstep => inv_step h hstep) (start_inv hwhole hinit)
  refine ⟨hinv.bytesApart, fun op page paging hcallers hanswer hbump => ?_⟩
  obtain ⟨heap', hheap, -⟩ := heap_spec hinv hcallers hanswer hbump
  refine ⟨⟨heap', paging⟩, Option.bind_eq_some_iff.mpr ⟨_, hanswer, ?_⟩⟩
  exact Option.map_eq_some_iff.mpr ⟨heap', hheap, rfl⟩

theorem alloc_gigabyte : ∃ s₀ s₁, PagingPrivate.init smallKernel PagingPrivate.gigabyte = some s₀ ∧
    s₀.alloc 1 = some (HEAP_START, s₁) := by
  obtain ⟨s, hinit, hok, hcnt, hunmarked, htable, havail, hheap⟩ := PagingPrivate.init_gigabyte
  have hfind : s.bits.findUnset.1 ≠ none := by
    intro hnone
    have hlen := hok.len
    have hmarked := hok.findUnset_none hnone (k := 0x10) (by omega) (by decide)
    cases hmarked.symm.trans hunmarked
  obtain ⟨f, hf⟩ := Option.ne_none_iff_exists'.mp hfind
  have hbase : PagingPrivate.alignAddress Paging.PAGE_SIZE (s.heap PAGING_MAP_R0) = HEAP_START := by
    rw [show s.heap PAGING_MAP_R0 = HEAP_START from hheap]
    rfl
  have hpage : ((s.setHeap PAGING_MAP_R0 0x30001000).directory.load (PageDir.ptr 0x30000)).isAvail = true := havail
  obtain ⟨s₁, hmap, -⟩ := PagingPrivate.mapFrame_of_avail (PageDir.ptr 0x30000) .kernel .rw hpage hf
  have hget : (s.setHeap PAGING_MAP_R0 0x30001000).dirGetPage HEAP_START .doReserve =
      (some (PageDir.ptr 0x30000), s.setHeap PAGING_MAP_R0 0x30001000) :=
    PagingPrivate.dirGetPage_of_table .doReserve htable
  have hloop : PagingPrivate.mapLoop .kernel 1 HEAP_START (s.setHeap PAGING_MAP_R0 0x30001000) = some (true, s₁) := by
    rw [PagingPrivate.mapLoop, hget]
    dsimp only
    rw [if_pos hpage, hmap]
    rfl
  have hcall : s.map PAGING_MAP_R0 1 = some (true, some HEAP_START, s₁) := by
    have htype : PagingPrivate.mapType PAGING_MAP_R0 = .kernel := rfl
    have hone : (1 : Word).toNat = 1 := rfl
    have hnext : Nat.iterate (· + BitVec.ofNat 32 Paging.PAGE_SIZE) 1 HEAP_START = (0x30001000 : Word) := rfl
    unfold PagingPrivate.map
    rw [hbase, htype, hone]
    dsimp only
    rw [hnext, hloop]
  refine ⟨s, s₁, hinit, ?_⟩
  unfold PagingPrivate.alloc
  rw [hcall]

/-- A first block is taken on that machine. -/
theorem bytes_apart_gigabyte :
    ∃ s₀ s, PagingPrivate.init smallKernel PagingPrivate.gigabyte = some s₀ ∧
      Run (Guarded Step Bumps) ⟨blank, s₀⟩ [.heap (.alloc 100 .fast 0)] s ∧
      s.heap.live = [(0x30000014, 100)] ∧ s.BytesApart := by
  obtain ⟨s₀, s₁, hinit, halloc⟩ := alloc_gigabyte
  have hanswer : answer ⟨blank, s₀⟩ (.alloc 100 .fast 0) = some (HEAP_START, s₁) := by
    have hasked : blank.pagesAsked (.alloc 100 .fast 0) = some 1 := by decide +kernel
    unfold answer
    rw [hasked]
    exact halloc
  obtain ⟨heap, hheap, hlive⟩ : ∃ heap, blank.exec (.alloc 100 .fast HEAP_START) = some heap ∧
      heap.live = [(0x30000014, 100)] := by
    obtain ⟨heap, hheap⟩ := Option.isSome_iff_exists.mp
      (by decide +kernel : (blank.exec (.alloc 100 .fast HEAP_START)).isSome = true)
    refine ⟨heap, hheap, ?_⟩
    have hlive : ((blank.exec (.alloc 100 .fast HEAP_START)).map State.live) = some [(0x30000014, 100)] := by
      decide +kernel
    rw [hheap] at hlive
    exact Option.some.inj hlive
  have hbumps : Bumps ⟨blank, s₀⟩ (.heap (.alloc 100 .fast 0)) ⟨heap, s₁⟩ := by
    rintro heapOp hop page paging hans
    obtain rfl := KernelOp.heap.inj hop
    obtain ⟨rfl, -⟩ := Prod.mk.inj (Option.some.inj (hanswer.symm.trans hans))
    exact (by decide +kernel : BumpSafe blank (.alloc 100 .fast HEAP_START))
  have hrun : Run (Guarded Step Bumps) ⟨blank, s₀⟩ [.heap (.alloc 100 .fast 0)] ⟨heap, s₁⟩ := by
    refine .cons ⟨⟨trivial, Option.bind_eq_some_iff.mpr ⟨_, hanswer, ?_⟩⟩, hbumps⟩ (.nil _)
    exact Option.map_eq_some_iff.mpr ⟨heap, hheap, rfl⟩
  have hwhole : pageCnt PagingPrivate.gigabyte % 32 = 0 := by decide +kernel
  exact ⟨s₀, _, hinit, hrun, hlive, (bytes_apart hwhole hinit hrun).1⟩

end Run

end KernelHeap
end CxxKernel.Heap
