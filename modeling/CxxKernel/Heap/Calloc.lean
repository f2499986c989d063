import CxxKernel.Heap.Safety

/-! `calloc`: the block is as large as the 32-bit product says, and cleared. -/
namespace CxxKernel.Heap
open BinaryTree SearchTree LinkedTree Runs

/-- What `calloc` promises: null, or a block of at least `cnt * size` bytes, all of them zero. -/
def CallocLaw (cnt size : Word) (m' : MM) (q : Word) : Prop :=
  q = 0 ∨ (cnt.toNat * size.toNat ≤ (m'.info (ptrToPtrinfo q)).size.toNat ∧
    ∀ i < cnt.toNat * size.toNat, m'.byte (q + BitVec.ofNat 32 i) = 0)

/-- `alloc` fails: the size is above the guard, or nothing fits, the bump region is too small and there
are no pages. -/
def Refuses (m : MM) (size page : Word) : Prop :=
  SIZEMASK - sizeofPtrInfo < size ∨
    m.searchAvail size = some none ∧ m.NeedsPages (size + sizeofPtrInfo) ∧ page = 0

instance (m : MM) (size page : Word) : Decidable (Refuses m size page) :=
  inferInstanceAs (Decidable (_ ∨ _ ∧ _ ∧ _))

section Answer
variable {m m' : MM} {blocks : Set Word} {t : BinaryTree Word} {size cnt page q : Word}

theorem clearLoop_apply {ptr : Word} {n i : ℕ} {mem : Bytes} (hi : i < n) :
    MM.clearLoop ptr n mem (ptr + BitVec.ofNat 32 i) = 0 := by
  induction n with
  | zero => omega
  | succ n ih =>
    rw [MM.clearLoop, Function.update_apply]
    split_ifs with heq
    · rfl
    · apply ih
      have hne : i ≠ n := fun hc => heq (by rw [hc])
      omega

theorem allocMem_size {ty : AllocType} (h : m.allocMem size ty page = some (m', q)) (hq : q ≠ 0) :
    (m'.info (ptrToPtrinfo q)).size = size := by
  obtain ⟨⟨m₁, avail⟩, -, h₂⟩ := Option.bind_eq_some_iff.mp h
  obtain ⟨⟨m₂, ptr⟩, -, h₃⟩ := Option.map_eq_some_iff.mp h₂
  dsimp only at h₃
  split_ifs at h₃
  · exact absurd (Prod.mk.inj h₃).2.symm hq
  · obtain ⟨rfl, rfl⟩ := Prod.mk.inj h₃
    rw [ptrToPtrinfo_ptrinfoToPtr, MM.setInfo_self]
    exact and_SIZEMASK size

theorem calloc_block (h : m.calloc cnt size page = some (m', q)) (hq : q ≠ 0) :
    (m'.info (ptrToPtrinfo q)).size = cnt * size ∧
      ∀ i < (cnt * size).toNat, m'.byte (q + BitVec.ofNat 32 i) = 0 := by
  rw [MM.calloc, MM.alloc] at h
  split_ifs at h
  · obtain ⟨-, rfl⟩ := Prod.mk.inj (Option.some.inj h)
    exact absurd rfl hq
  · obtain ⟨⟨m₁, ptr⟩, hmem, hclear⟩ := Option.map_eq_some_iff.mp h
    dsimp only at hclear
    split_ifs at hclear
    · exact absurd (Prod.mk.inj hclear).2.symm hq
    · obtain ⟨rfl, rfl⟩ := Prod.mk.inj hclear
      have hsize := allocMem_size hmem hq
      constructor
      · exact hsize
      · intro i hi
        exact clearLoop_apply hi

theorem callocLaw_iff_of_ne_zero (h : m.calloc cnt size page = some (m', q)) (hq : q ≠ 0) :
    CallocLaw cnt size m' q ↔ cnt.toNat * size.toNat < 2 ^ 32 := by
  obtain ⟨hsize, hzero⟩ := calloc_block h hq
  have hlt := (cnt * size).isLt
  unfold CallocLaw
  rw [hsize]
  constructor
  · intro hlaw
    exact lt_of_le_of_lt (hlaw.resolve_left hq).1 hlt
  · intro hexact
    have hmul : (cnt * size).toNat = cnt.toNat * size.toNat := by
      rw [BitVec.toNat_mul, Nat.mod_eq_of_lt hexact]
    rw [hmul] at hzero ⊢
    exact .inr ⟨le_refl _, hzero⟩

/-- The bump branch comes back, and is refused only for want of pages. -/
theorem bumpAlloc_answer (h : HeapInv m blocks t) (size2 : Word) {cnt : Word}
    (hpage : PageAnswer m cnt page) :
    ∃ m' a, m.bumpAlloc size2 cnt page = some (m', a) ∧ (a = 0 ↔ m.NeedsPages size2 ∧ page = 0) ∧
      a.toNat + 20 < 2 ^ 32 := by
  unfold MM.bumpAlloc
  by_cases hneeds : m.NeedsPages size2
  · obtain ⟨m₁, -, -, heq, -⟩ := reclaimTail_spec h
    rw [if_pos hneeds, heq, Option.map_some]
    rcases hpage with rfl | hfresh
    · exact ⟨m₁, 0, rfl, iff_of_true rfl ⟨hneeds, rfl⟩, by decide⟩
    · have hne := hfresh.nonnull
      have halloc : m₁.allocPage cnt page = ({ m₁ with runs := (page, cnt) :: m₁.runs }, page) := if_neg hne
      rw [halloc]
      dsimp only
      rw [if_neg hne]
      have haligned := hfresh.aligned
      have hlt := page.isLt
      exact ⟨_, page, rfl, iff_of_false hne fun hc => hne hc.2, by omega⟩
  · have hready := not_not.mp (not_or.mp hneeds).1
    have hbounds := h.bump.freeMax_le h.regions hready
    rw [if_neg hneeds]
    exact ⟨_, m.freeTop, rfl, iff_of_false hready.2.1 fun hc => hneeds hc.1, by omega⟩

theorem allocMem_answer (h : HeapInv m blocks t)
    (hpage : PageAnswer m (MM.pagesFor (size + sizeofPtrInfo)) page) :
    ∃ m' q, m.allocMem size .normal page = some (m', q) ∧
      (q = 0 ↔ m.searchAvail size = some none ∧ m.NeedsPages (size + sizeofPtrInfo) ∧ page = 0) := by
  obtain ⟨res, hres, hspec⟩ := searchAvail_spec size h.tree
  cases res with
  | none =>
    obtain ⟨m₁, a, hbump, hnull, hlt⟩ := bumpAlloc_answer h (size + sizeofPtrInfo) hpage
    have hfind : m.findAvail size = some (m, 0) := by
      rw [MM.findAvail, hres]
      rfl
    have hmem : m.allocMem size .normal page = some (if a = 0 then (m₁, 0) else
        (m₁.setInfo a (MM.usedInfo size (size + sizeofPtrInfo)), ptrinfoToPtr a)) := by
      simp only [MM.allocMem, if_true, hfind, Option.bind_some, hbump, Option.map_some]
    by_cases ha : a = 0
    · rw [if_pos ha] at hmem
      exact ⟨m₁, 0, hmem, iff_of_true rfl ⟨hres, hnull.mp ha⟩⟩
    · have hptr : ptrinfoToPtr a ≠ 0 := by
        unfold ptrinfoToPtr sizeofPtrInfo
        bv_omega
      rw [if_neg ha] at hmem
      exact ⟨_, _, hmem, iff_of_false hptr fun hc => ha (hnull.mpr hc.2)⟩
  | some found =>
    obtain ⟨p, parent⟩ := found
    obtain ⟨hp, -, -⟩ := hspec p parent rfl
    obtain ⟨m', t', hmem, -⟩ := allocMem_reuse h hres page
    have hptr := h.regions.ptr_ne_zero (h.nodes_blocks p hp)
    refine ⟨m', _, hmem, iff_of_false hptr fun hc => ?_⟩
    rw [hres] at hc
    cases hc.1

theorem calloc_answer (h : HeapInv m blocks t)
    (hpage : PageAnswer m (MM.pagesFor (cnt * size + sizeofPtrInfo)) page) :
    ∃ m' q, m.calloc cnt size page = some (m', q) ∧ (q = 0 ↔ Refuses m (cnt * size) page) := by
  by_cases hguard : SIZEMASK - sizeofPtrInfo < cnt * size
  · refine ⟨m, 0, ?_, iff_of_true rfl (.inl hguard)⟩
    rw [MM.calloc, MM.alloc, if_pos hguard]
  · obtain ⟨m₁, q, hmem, hnull⟩ := allocMem_answer h hpage
    have hrefuses : Refuses m (cnt * size) page ↔ q = 0 := by
      rw [hnull]
      exact or_iff_right hguard
    have hcalloc : m.calloc cnt size page = some (if q = 0 then (m₁, 0)
        else ({ m₁ with byte := MM.clearLoop q (cnt * size).toNat m₁.byte }, q)) := by
      rw [MM.calloc, MM.alloc, if_neg hguard, MM.allocMemClear, hmem, Option.map_some]
    by_cases hq : q = 0
    · rw [if_pos hq] at hcalloc
      exact ⟨m₁, 0, hcalloc, iff_of_true rfl (hrefuses.mpr hq)⟩
    · rw [if_neg hq] at hcalloc
      exact ⟨_, q, hcalloc, iff_of_false hq (mt hrefuses.mp hq)⟩

end Answer

/-- `calloc` keeps its promise exactly when the product fits, or when it is refused. In any heap from
which it comes back at all, a product that fits is enough. -/
theorem calloc_iff (cnt size page : Word) :
    (∀ m m' q, MM.calloc m cnt size page = some (m', q) → cnt.toNat * size.toNat < 2 ^ 32 →
      CallocLaw cnt size m' q) ∧
    ∀ info byte ops s,
      Run (Guarded Step fun s op _ => BumpSafe s op) (State.start info byte) ops s →
      Allowed s (.alloc (cnt * size) .clear page) →
      ∃ m' q, s.mm.calloc cnt size page = some (m', q) ∧
        (CallocLaw cnt size m' q ↔
          cnt.toNat * size.toNat < 2 ^ 32 ∨ Refuses s.mm (cnt * size) page) := by
  constructor
  · intro m m' q heq hexact
    by_cases hq : q = 0
    · exact .inl hq
    · exact (callocLaw_iff_of_ne_zero heq hq).mpr hexact
  · intro info byte ops s hrun hallow
    obtain ⟨blocks, t, hinv⟩ := run_inv hrun
    obtain ⟨m', q, heq, hnull⟩ := calloc_answer hinv.toHeapInv hallow
    refine ⟨m', q, heq, ?_⟩
    by_cases hq : q = 0
    · exact iff_of_true (.inl hq) (.inr (hnull.mp hq))
    · rw [callocLaw_iff_of_ne_zero heq hq, or_iff_left (mt hnull.mpr hq)]

/-- Three items of five bytes on the first page. -/
theorem calloc_iff_fifteen :
    ∃ m' q, blank.mm.calloc 3 5 0x1000 = some (m', q) ∧ CallocLaw 3 5 m' q := by
  have hallow : Allowed blank (.alloc (3 * 5) .clear 0x1000) := .inr freshRun_first
  obtain ⟨m', q, heq, hlaw⟩ := (calloc_iff 3 5 0x1000).2 (fun _ => ⟨0, 0, 0, 0, .none, false⟩) (fun _ => 0)
    [] blank (.nil _) hallow
  exact ⟨m', q, heq, hlaw.mpr (.inl (by decide))⟩

/-- A product that wraps to 4: the block has 4 bytes. -/
theorem calloc_wraps : ∃ m', blank.mm.calloc 0x40000001 4 0x1000 = some (m', 0x1014) ∧
    ¬ CallocLaw 0x40000001 4 m' 0x1014 := by
  have hanswer : (blank.mm.calloc 0x40000001 4 0x1000).map Prod.snd = some 0x1014 := by decide +kernel
  obtain ⟨⟨m', q⟩, heq, rfl⟩ := Option.map_eq_some_iff.mp hanswer
  refine ⟨m', heq, fun hlaw => ?_⟩
  have hsmall := (callocLaw_iff_of_ne_zero heq (show (0x1014 : Word) ≠ 0 by decide)).mp hlaw
  exact absurd hsmall (by decide)

end CxxKernel.Heap
