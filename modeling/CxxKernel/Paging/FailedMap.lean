import CxxKernel.Paging.RealMemory

/-! What `map` leaves behind when it fails. -/
namespace CxxKernel.Paging
namespace PagingPrivate

variable {s s₁ s' : PagingPrivate} {flags cnt addr i : Word} {base : Option Word} {type : MapType} {v : ℕ}

/-- No entry changes, and the bitmap changes as by static memory for new page tables only. -/
structure NoTrace (s s' : PagingPrivate) : Prop where
  pages : ∀ v, s'.directory.pageAt v = s.directory.pageAt v
  bits : ∃ tables, s'.bits =
    (Nat.iterate (fun t => (t.allocStatic (BitVec.ofNat 32 (4 * PAGES_PER_TABLE))).2) tables s).bits

/-- The page of the address is not there for `map`: its entry is in use, or there is no entry and the
address that a new table would get is null. -/
def Blocked (s : PagingPrivate) (addr : Word) : Prop :=
  match s.directory.tables (addr.toNat / PAGE_SIZE / PAGES_PER_TABLE) with
  | some table => (table (addr.toNat / PAGE_SIZE % PAGES_PER_TABLE)).isAvail = false
  | none => s.pageAlign.free_page_address = 0

theorem new_isAvail (k : ℕ) : (PageTable.new k).isAvail = true := by
  unfold PageTable.new
  decide

/-- The pointer that `getPage` returns is to an entry that is in use, or null, exactly if the page is
not there for `map`. -/
theorem dirGetPage_blocked (s : PagingPrivate) (addr : Word) : Blocked s addr ↔
    ∀ p, (s.dirGetPage addr .doReserve).1 = some p →
      ((s.dirGetPage addr .doReserve).2.directory.load p).isAvail = false := by
  unfold Blocked dirGetPage
  dsimp only
  cases htable : s.directory.tables (addr.toNat / PAGE_SIZE / PAGES_PER_TABLE) with
  | some table =>
    constructor
    · intro hblocked p hp
      rw [← Option.some.inj hp, PageDir.load, htable]
      exact hblocked
    · intro h
      have hentry := h _ rfl
      rw [PageDir.load, htable] at hentry
      exact hentry
  | none =>
    have hphys : (s.allocStatic (BitVec.ofNat 32 (4 * PAGES_PER_TABLE))).1 = s.pageAlign.free_page_address := rfl
    dsimp only
    rw [← hphys]
    split_ifs with hzero
    · exact ⟨fun _ p hp => absurd hp (by simp), fun _ => hzero⟩
    · refine ⟨fun h => absurd h hzero, fun h => ?_⟩
      have hentry := h _ rfl
      unfold PageDir.load at hentry
      dsimp only at hentry
      rw [Function.update_self] at hentry
      cases (new_isAvail _).symm.trans hentry

theorem pageAlignLoop_heap (fuel : ℕ) (s : PagingPrivate) (a b : Word) :
    pageAlignLoop fuel { s with heap_address := a, user_heap_address := b } =
      { pageAlignLoop fuel s with heap_address := a, user_heap_address := b } := by
  induction fuel generalizing s with
  | zero => rfl
  | succ fuel ih =>
    rw [pageAlignLoop, pageAlignLoop]
    dsimp only
    split_ifs
    · exact ih { s with
        bits := s.bits.set (s.free_page_address.toNat / PAGE_SIZE)
        free_page_address := s.free_page_address + 1 }
    · rfl

theorem allocStatic_setHeap (s : PagingPrivate) (flags addr size : Word) :
    ((s.setHeap flags addr).allocStatic size).2.bits = (s.allocStatic size).2.bits := by
  have hheap : ∀ a b, (({ s with heap_address := a, user_heap_address := b } : PagingPrivate).allocStatic
      size).2.bits = (s.allocStatic size).2.bits := by
    intro a b
    unfold allocStatic pageAlign freePageAddress
    rw [pageAlignLoop_heap]
    dsimp only
    split_ifs
    · rfl
    · rfl
  unfold setHeap
  split_ifs
  · exact hheap s.heap_address addr
  · exact hheap addr s.user_heap_address

theorem dirGetPage_bits (s : PagingPrivate) (addr : Word) :
    (s.dirGetPage addr .doReserve).2.bits = s.bits ∨ (s.dirGetPage addr .doReserve).2.bits =
      (s.allocStatic (BitVec.ofNat 32 (4 * PAGES_PER_TABLE))).2.bits := by
  by_cases htable : s.directory.tables (addr.toNat / PAGE_SIZE / PAGES_PER_TABLE) = none
  · obtain ⟨directory, hnew⟩ := dirGetPage_of_none htable
    right
    rw [hnew]
  · left
    rw [dirGetPage_of_table .doReserve htable]

/-- When the loop of `map` fails, its first page was not there, or is mapped now. -/
theorem mapLoop_false {cnt : ℕ} (h : mapLoop type (cnt + 1) i s = some (false, s')) :
    Blocked s i ∧ s' = (s.dirGetPage i .doReserve).2 ∨
      ¬ Blocked s i ∧ Fresh type s s' (i.toNat / PAGE_SIZE) := by
  have hpages := dirGetPage_pageAt s i .doReserve
  have hblocked := dirGetPage_blocked s i
  rw [mapLoop] at h
  cases hget : s.dirGetPage i .doReserve with
  | mk found s₁ =>
    rw [hget] at h hpages hblocked
    dsimp only at hblocked
    cases found with
    | none =>
      refine Or.inl ⟨hblocked.mpr fun p hp => absurd hp (by simp), ?_⟩
      exact (Prod.mk.inj (Option.some.inj h)).2.symm
    | some p =>
      obtain ⟨rfl, htable⟩ := dirGetPage_some hget
      dsimp only at h
      split at h
      · rename_i havail
        right
        refine ⟨fun hb => ?_, ?_⟩
        · cases havail.symm.trans (hblocked.mp hb _ rfl)
        · split at h
          · cases h
          · rename_i s₂ hmap
            obtain ⟨-, rfl⟩ := Prod.mk.inj (Option.some.inj h)
            exact (mapFrame_fresh htable havail hmap).1.of_pageAt (hpages _)
          · rename_i s₂ hmap
            have hfresh := (mapFrame_fresh htable havail hmap).1
            exact (hfresh.keeps (mapLoop_fresh h).1).of_pageAt (hpages _)
      · rename_i havail
        refine Or.inl ⟨hblocked.mpr fun p hp => ?_, (Prod.mk.inj (Option.some.inj h)).2.symm⟩
        rw [← Option.some.inj hp]
        exact eq_false_of_ne_true havail

theorem blocked_setHeap (s : PagingPrivate) (flags a addr : Word) :
    Blocked (s.setHeap flags a) addr ↔ Blocked s addr := by
  have hheap : ∀ a b, Blocked { s with heap_address := a, user_heap_address := b } addr ↔ Blocked s addr := by
    intro a b
    unfold Blocked pageAlign
    rw [pageAlignLoop_heap]
  unfold setHeap
  split_ifs
  · exact hheap s.heap_address a
  · exact hheap a s.user_heap_address

/-- A call of `map` that fails leaves no trace if its first page was not there, and otherwise an entry. -/
theorem map_false (h : s.map flags cnt = some (false, base, s')) :
    Blocked s (alignAddress PAGE_SIZE (s.heap flags)) ∧ NoTrace s s' ∨
      ¬ Blocked s (alignAddress PAGE_SIZE (s.heap flags)) ∧ ¬ NoTrace s s' := by
  unfold map at h
  dsimp only at h
  generalize alignAddress PAGE_SIZE (s.heap flags) = i at h ⊢
  generalize Nat.iterate (· + BitVec.ofNat 32 PAGE_SIZE) cnt.toNat i = a at h
  split at h
  · cases h
  · rename_i s₁ hloop
    obtain ⟨-, rfl⟩ : none = base ∧ s₁ = s' := by simpa using h
    cases hcnt : cnt.toNat with
    | zero =>
      rw [hcnt] at hloop
      cases hloop
    | succ n =>
      rw [hcnt] at hloop
      have hdir : ∀ v, (s.setHeap flags a).directory.pageAt v = s.directory.pageAt v := fun v => by
        rw [setHeap_directory]
      rcases mapLoop_false hloop with ⟨hblocked, rfl⟩ | ⟨hfree, hfresh⟩
      · refine Or.inl ⟨(blocked_setHeap s flags a i).mp hblocked, fun v => ?_, ?_⟩
        · rw [dirGetPage_pageAt, hdir]
        · rcases dirGetPage_bits (s.setHeap flags a) i with hbits | hbits
          · refine ⟨0, hbits.trans ?_⟩
            unfold setHeap
            split_ifs
            · rfl
            · rfl
          · exact ⟨1, hbits.trans (allocStatic_setHeap s flags a _)⟩
      · refine Or.inr ⟨fun hb => hfree ((blocked_setHeap s flags a i).mpr hb), fun htrace => ?_⟩
        have hsame := htrace.pages (i.toNat / PAGE_SIZE)
        have hbefore := hfresh.before
        rw [hdir, ← hsame, hfresh.present] at hbefore
        cases hbefore
  · simp at h

theorem mapFrame_of_avail (p : PagePtr) (type : MapType) (perms : MapPermissions)
    (havail : (s.directory.load p).isAvail = true) {f : ℕ} (hfind : s.bits.findUnset.1 = some f) :
    ∃ s', s.mapFrame (some p) type perms = some (true, s') ∧ s'.directory = s.directory.store p
      (mapped (s.directory.load p) (BitVec.ofNat 32 (f * PAGE_SIZE)) type perms) := by
  rw [mapFrame, if_pos havail]
  split
  · rename_i hnone
    rw [hnone] at hfind
    cases hfind
  · rename_i hsome
    rw [hsome] at hfind
    obtain rfl := Option.some.inj hfind
    exact ⟨_, rfl, rfl⟩

theorem mapLoop_second {i j : Word} (hj : i + BitVec.ofNat 32 PAGE_SIZE = j)
    (htable : s.directory.tables (i.toNat / PAGE_SIZE / PAGES_PER_TABLE) ≠ none)
    (htable' : s.directory.tables (j.toNat / PAGE_SIZE / PAGES_PER_TABLE) ≠ none)
    (havail : (s.directory.pageAt (i.toNat / PAGE_SIZE)).isAvail = true)
    (htaken : (s.directory.pageAt (j.toNat / PAGE_SIZE)).isAvail = false)
    (hfind : s.bits.findUnset.1 ≠ none) : ∃ s', mapLoop type 2 i s = some (false, s') := by
  obtain ⟨f, hf⟩ := Option.ne_none_iff_exists'.mp hfind
  obtain ⟨s₁, hmap, hdir⟩ := mapFrame_of_avail (PageDir.ptr (i.toNat / PAGE_SIZE)) type .rw havail hf
  have hne : PageDir.ptr (j.toNat / PAGE_SIZE) ≠ PageDir.ptr (i.toNat / PAGE_SIZE) := by
    intro heq
    rw [PageDir.ptr_inj heq, havail] at htaken
    cases htaken
  have htable₁ : s₁.directory.tables (j.toNat / PAGE_SIZE / PAGES_PER_TABLE) ≠ none := by
    rw [hdir, store_tables]
    exact htable'
  have htaken₁ : (s₁.directory.load (PageDir.ptr (j.toNat / PAGE_SIZE))).isAvail = false := by
    rw [hdir, PageDir.load_store htable, if_neg hne]
    exact htaken
  have havail' : (s.directory.load (PageDir.ptr (i.toNat / PAGE_SIZE))).isAvail = true := havail
  refine ⟨s₁, ?_⟩
  rw [mapLoop, dirGetPage_of_table _ htable]
  dsimp only
  rw [if_pos havail', hmap]
  dsimp only
  rw [mapLoop, hj, dirGetPage_of_table _ htable₁]
  dsimp only
  rw [if_neg (by rw [htaken₁]; decide)]

section AfterInit

/-- The heap of the kernel is as `init` has found it, and a frame that is not marked has no entry in
the place of its own page. -/
structure Untouched (s : PagingPrivate) : Prop where
  heap : s.heap_address = HEAP_START
  pages : ∀ v < s.bits.cnt, s.bits.marked v = false → s.directory.pageAt v = ⟨0⟩

/-- Bits are set, and the heap stays. -/
structure Grows (s s' : PagingPrivate) : Prop where
  heap : s'.heap_address = s.heap_address
  cnt : s'.bits.cnt = s.bits.cnt
  marked : ∀ f, s.bits.marked f = true → s'.bits.marked f = true

theorem Grows.of_marks {P : ℕ → Prop} (hheap : s'.heap_address = s.heap_address)
    (h : Bits.Marks s.bits s'.bits P) : Grows s s' :=
  ⟨hheap, h.cnt, fun f hf => (h.marked f).mpr (Or.inl hf)⟩

theorem Grows.trans (h : Grows s s₁) (h' : Grows s₁ s') : Grows s s' :=
  ⟨h'.heap.trans h.heap, h'.cnt.trans h.cnt, fun f hf => h'.marked f (h.marked f hf)⟩

theorem pageAlignLoop_grows (fuel : ℕ) (s : PagingPrivate) : Grows s (pageAlignLoop fuel s) := by
  induction fuel generalizing s with
  | zero => exact ⟨rfl, rfl, fun _ => id⟩
  | succ fuel ih =>
    rw [pageAlignLoop]
    split_ifs
    · refine Grows.trans ?_ (ih _)
      exact .of_marks rfl (Bits.marks_set s.bits (s.free_page_address.toNat / PAGE_SIZE))
    · exact ⟨rfl, rfl, fun _ => id⟩

theorem allocStatic_grows (s : PagingPrivate) (size : Word) : Grows s (s.allocStatic size).2 := by
  have hone := Bits.marks_ite s.pageAlign.bits (s.pageAlign.free_page_address.toNat / PAGE_SIZE)
  have hfree : Grows s.pageAlign s.pageAlign.freePageAddress.2 := by
    unfold freePageAddress
    dsimp only
    split_ifs at hone ⊢
    · exact ⟨rfl, rfl, fun _ => id⟩
    · exact .of_marks rfl hone
  exact ((pageAlignLoop_grows PAGE_SIZE s).trans hfree).trans (.of_marks rfl (Bits.marks_markPages ..))

theorem dirGetPage_grows (s : PagingPrivate) (addr : Word) : Grows s (s.dirGetPage addr .doReserve).2 := by
  by_cases htable : s.directory.tables (addr.toNat / PAGE_SIZE / PAGES_PER_TABLE) = none
  · have halloc := allocStatic_grows s (BitVec.ofNat 32 (4 * PAGES_PER_TABLE))
    obtain ⟨directory, hnew⟩ := dirGetPage_of_none htable
    rw [hnew]
    exact ⟨halloc.heap, halloc.cnt, halloc.marked⟩
  · rw [dirGetPage_of_table .doReserve htable]
    exact ⟨rfl, rfl, fun _ => id⟩

theorem Untouched.dirGetPage (h : Untouched s) (addr : Word) : Untouched (s.dirGetPage addr .doReserve).2 := by
  have hgrows := dirGetPage_grows s addr
  refine ⟨hgrows.heap.trans h.heap, fun v hv hfree => ?_⟩
  rw [dirGetPage_pageAt]
  apply h.pages v (hgrows.cnt ▸ hv)
  apply eq_false_of_ne_true
  intro hmarked
  cases (hgrows.marked v hmarked).symm.trans hfree

theorem Untouched.identityMap (h : Untouched s) (addr : Word) : Untouched (identityMap addr .kernel .rw s) := by
  have h₁ := h.dirGetPage addr
  rw [PagingPrivate.identityMap]
  cases hget : s.dirGetPage addr .doReserve with
  | mk found s₁ =>
    rw [hget] at h₁
    cases found with
    | none => exact h₁
    | some p =>
      obtain ⟨rfl, htable⟩ := dirGetPage_some hget
      refine ⟨h₁.heap, fun v hv hfree => ?_⟩
      have hv' : v < s₁.bits.cnt := lt_of_lt_of_eq hv (Bits.set_cnt ..)
      have hfree' : (s₁.bits.set (addr.toNat / PAGE_SIZE)).marked v = false := hfree
      rw [Bits.marked_set, Bool.or_eq_false_iff, decide_eq_false_iff_not] at hfree'
      have hne : PageDir.ptr v ≠ PageDir.ptr (addr.toNat / PAGE_SIZE) := by
        intro heq
        have hva := PageDir.ptr_inj heq
        exact hfree'.2 ⟨hva, hva ▸ hv'⟩
      exact (PageDir.load_store htable).trans ((if_neg hne).trans (h₁.pages v hv' hfree'.1))

/-- A property that each round keeps. -/
theorem forPages_invariant {P : PagingPrivate → Prop} {stop : PagingPrivate → Word}
    {body : Word → PagingPrivate → PagingPrivate} (hbody : ∀ i s, P s → P (body i s)) {fuel : ℕ} {start : Word}
    (h : forPages stop body fuel start s = some s') (hs : P s) : P s' := by
  induction fuel generalizing start s with
  | zero => cases h
  | succ fuel ih =>
    rw [forPages] at h
    split_ifs at h
    · exact ih h (hbody _ _ hs)
    · exact Option.some.inj h ▸ hs

theorem initStatic_untouched (image : KernelImage) (mmap : List MemoryMap) :
    Untouched (initStatic image mmap).2 := by
  unfold initStatic
  dsimp only
  have hdir₁ := allocStatic_directory (boot image) SIZEOF_BITS
  have hgrows₁ := allocStatic_grows (boot image) SIZEOF_BITS
  generalize ((boot image).allocStatic SIZEOF_BITS).2 = s₁ at *
  have hdir₂ := allocStatic_directory s₁ (BitVec.ofNat 32 (4 * (Bits.new (pageCnt mmap)).len))
  have hgrows₂ := allocStatic_grows s₁ (BitVec.ofNat 32 (4 * (Bits.new (pageCnt mmap)).len))
  generalize (s₁.allocStatic (BitVec.ofNat 32 (4 * (Bits.new (pageCnt mmap)).len))).2 = s₂ at *
  have hdir₃ := allocStatic_directory { s₂ with bits := Bits.new (pageCnt mmap) } SIZEOF_PAGE_DIR
  have hgrows₃ := allocStatic_grows { s₂ with bits := Bits.new (pageCnt mmap) } SIZEOF_PAGE_DIR
  refine ⟨hgrows₃.heap.trans (hgrows₂.heap.trans hgrows₁.heap), fun v _ _ => ?_⟩
  -- there is no table yet
  rw [hdir₃, hdir₂, hdir₁]
  rfl

theorem init_untouched {image : KernelImage} {mmap : List MemoryMap} (h : init image mmap = some s) :
    Untouched s := by
  have hstatic := initStatic_untouched image mmap
  have hreserve : ∀ {start stop s s'}, reservePages start stop s = some s' → Untouched s → Untouched s' :=
    fun hloop hs => forPages_invariant (fun i _ hs => hs.dirGetPage i) hloop hs
  have hmap : ∀ {start stop s s'}, identityMapPages start stop s = some s' → Untouched s → Untouched s' :=
    fun hloop hs => forPages_invariant (fun i _ hs => hs.identityMap i) hloop hs
  unfold init at h
  generalize initStatic image mmap = r at *
  obtain ⟨directory, s₀⟩ := r
  dsimp only at h hstatic
  split_ifs at h
  obtain ⟨s₁, h₁, h⟩ := Option.bind_eq_some_iff.mp h
  obtain ⟨s₂, h₂, h⟩ := Option.bind_eq_some_iff.mp h
  obtain ⟨s₃, h₃, h⟩ := Option.bind_eq_some_iff.mp h
  obtain ⟨s₄, h₄, h⟩ := Option.bind_eq_some_iff.mp h
  obtain ⟨s₅, h₅, h⟩ := Option.bind_eq_some_iff.mp h
  obtain ⟨s₆, h₆, h⟩ := Option.bind_eq_some_iff.mp h
  obtain ⟨s₇, h₇, h⟩ := Option.bind_eq_some_iff.mp h
  obtain ⟨s₈, h₈, h⟩ := Option.bind_eq_some_iff.mp h
  obtain ⟨s₉, h₉, h⟩ := Option.bind_eq_some_iff.mp h
  exact hmap h
    (hmap h₉ (hmap h₈ (hmap h₇ (hmap h₆ (hmap h₅ (hmap h₄ (hmap h₃ (hreserve h₂ (hreserve h₁ hstatic)))))))))

def gigabyte : List MemoryMap := [⟨0, 0, 0x9FC00, 0, 1⟩, ⟨0x100000, 0, 0x3FF00000, 0, 1⟩]

/-- The first page of the kernel heap has a table after `init`, and is free. -/
theorem init_gigabyte :
    ∃ s, init smallKernel gigabyte = some s ∧ s.bits.Ok ∧ s.bits.cnt = 0x40000 ∧ s.bits.marked 0x10 = false ∧
      s.directory.tables 192 ≠ none ∧ (s.directory.pageAt 0x30000).isAvail = true ∧ s.heap_address = HEAP_START := by
  obtain ⟨s, b, hinit, hb, hw⟩ := init_walked smallKernel gigabyte
  have huntouched := init_untouched hinit
  have hcnt : pageCnt gigabyte = 0x40000 := by decide +kernel
  have hend : staticEnd smallKernel 0x40000 < 0x1000 := by decide +kernel
  rw [hcnt] at hw
  have hcount : s.bits.cnt = 0x40000 := hw.size
  have htabs : 192 ∈ tabsAt (staticEnd smallKernel 0x40000 + 0x100) := mem_tabsAt.mpr (Or.inr (Or.inr rfl))
  have hfree : ∀ f, 0x10 ≤ f ∧ f < 0xA0 ∨ 0x2000 ≤ f → s.bits.marked f = false := by
    intro f hf
    have hlen : staticAddress (directoryPage smallKernel 0x40000)
        (tabsAt (staticEnd smallKernel 0x40000 + 0x100)).length / 4096 < 0x1000 := by decide +kernel
    apply eq_false_of_ne_true
    rw [hw.marked]
    rintro ⟨-, hmapped | hstatic⟩
    · unfold LowMapped at hmapped
      omega
    · omega
  have hpage : s.directory.pageAt 0x30000 = ⟨0⟩ :=
    huntouched.pages 0x30000 (by omega) (hfree 0x30000 (Or.inr (by decide)))
  refine ⟨s, hinit, hw.ok, hcount, hfree 0x10 (by omega), (hw.tables 192).mpr htabs, ?_, huntouched.heap⟩
  rw [hpage]
  decide

theorem identityMap_of_table {perms : MapPermissions}
    (h : s.directory.tables (addr.toNat / PAGE_SIZE / PAGES_PER_TABLE) ≠ none) :
    identityMap addr type perms s = { s with
      bits := s.bits.set (addr.toNat / PAGE_SIZE)
      directory := s.directory.store (PageDir.ptr (addr.toNat / PAGE_SIZE))
        (mapped (s.directory.pageAt (addr.toNat / PAGE_SIZE)) addr type perms) } := by
  rw [identityMap, dirGetPage_of_table .doReserve h]
  rfl

/-- After `init` on a machine with a gigabyte, the second page of the kernel heap is identity mapped,
and two pages are asked for. -/
theorem map_two_pages :
    ∃ s s', init smallKernel gigabyte = some s ∧
      (identityMap 0x30001000 .kernel .rw s).map PAGING_MAP_R0 2 = some (false, none, s') ∧
      ¬ Blocked (identityMap 0x30001000 .kernel .rw s) HEAP_START ∧
      alignAddress PAGE_SIZE ((identityMap 0x30001000 .kernel .rw s).heap PAGING_MAP_R0) = HEAP_START := by
  obtain ⟨s, hinit, hok, hcnt, hunmarked, htable, hfirst, hheap⟩ := init_gigabyte
  have hmapped := @identityMap_of_table s 0x30001000 .kernel .rw htable
  refine ⟨s, ?_⟩
  generalize identityMap 0x30001000 .kernel .rw s = t at hmapped ⊢
  have hbits : t.bits = s.bits.set 0x30001 := congrArg PagingPrivate.bits hmapped
  have hdir : t.directory = s.directory.store (PageDir.ptr 0x30001)
      (mapped (s.directory.pageAt 0x30001) 0x30001000 .kernel .rw) := congrArg PagingPrivate.directory hmapped
  have hheap' : t.heap PAGING_MAP_R0 = HEAP_START := (congrArg PagingPrivate.heap_address hmapped).trans hheap
  have hload : ∀ q, t.directory.load q = if q = PageDir.ptr 0x30001 then
      mapped (s.directory.pageAt 0x30001) 0x30001000 .kernel .rw else s.directory.load q := by
    intro q
    rw [hdir, PageDir.load_store htable]
  have htable' : t.directory.tables 192 ≠ none := by
    rw [hdir, store_tables]
    exact htable
  have havail : (t.directory.pageAt 0x30000).isAvail = true := by
    have hsame : t.directory.pageAt 0x30000 = s.directory.pageAt 0x30000 :=
      (hload (PageDir.ptr 0x30000)).trans (if_neg (by decide))
    rw [hsame, hfirst]
  have htaken : (t.directory.pageAt 0x30001).isAvail = false := by
    apply Page.not_avail_of_present
    rw [PageDir.pageAt, hload, if_pos rfl]
    exact mapped_present ..
  have hfind : t.bits.findUnset.1 ≠ none := by
    intro hnone
    have hok' : t.bits.Ok := hbits ▸ hok.set 0x30001
    have hlen := hok'.len
    have hcnt' : t.bits.cnt = 0x40000 := by rw [hbits, Bits.set_cnt, hcnt]
    have hmarked := hok'.findUnset_none hnone (k := 0x10) (by omega) (by decide)
    rw [hbits, Bits.marked_set, hunmarked] at hmarked
    simp at hmarked
  obtain ⟨s', hloop⟩ := @mapLoop_second (t.setHeap PAGING_MAP_R0 (Nat.iterate (· + BitVec.ofNat 32 PAGE_SIZE) 2
    HEAP_START)) .kernel HEAP_START 0x30001000 rfl htable' htable' havail htaken hfind
  have halign : alignAddress PAGE_SIZE HEAP_START = HEAP_START := rfl
  refine ⟨s', hinit, ?_, ?_, by rw [hheap', halign]⟩
  · unfold map
    rw [hheap', halign]
    dsimp only
    have htype : mapType PAGING_MAP_R0 = .kernel := rfl
    have htwo : (2 : Word).toNat = 2 := rfl
    rw [htype, htwo, hloop]
  · rw [dirGetPage_blocked]
    intro hblocked
    have hget : t.dirGetPage HEAP_START .doReserve = (some (PageDir.ptr 0x30000), t) :=
      dirGetPage_of_table .doReserve htable'
    rw [hget] at hblocked
    cases havail.symm.trans (hblocked _ rfl)

/-- A call of `map` that fails leaves no trace exactly if its first page was not there. -/
theorem noTrace_iff (h : s.map flags cnt = some (false, base, s')) :
    NoTrace s s' ↔ Blocked s (alignAddress PAGE_SIZE (s.heap flags)) := by
  rcases map_false h with ⟨hblocked, htrace⟩ | ⟨hfree, htrace⟩
  · exact ⟨fun _ => hblocked, fun _ => htrace⟩
  · exact ⟨fun h => absurd h htrace, fun h => absurd h hfree⟩

theorem noTrace_iff_two_pages :
    ∃ s s', init smallKernel gigabyte = some s ∧
      (NoTrace (identityMap 0x30001000 .kernel .rw s) s' ↔
        Blocked (identityMap 0x30001000 .kernel .rw s)
          (alignAddress PAGE_SIZE ((identityMap 0x30001000 .kernel .rw s).heap PAGING_MAP_R0))) := by
  obtain ⟨s, s', hinit, hmap, -⟩ := map_two_pages
  exact ⟨s, s', hinit, noTrace_iff hmap⟩

/-- The first page stays mapped when the second is found to be in use. -/
theorem not_noTrace_two_pages :
    ∃ s s', init smallKernel gigabyte = some s ∧
      (identityMap 0x30001000 .kernel .rw s).map PAGING_MAP_R0 2 = some (false, none, s') ∧
      ¬ NoTrace (identityMap 0x30001000 .kernel .rw s) s' := by
  obtain ⟨s, s', hinit, hmap, hfree, hheap⟩ := map_two_pages
  refine ⟨s, s', hinit, hmap, ?_⟩
  rcases map_false hmap with ⟨hblocked, -⟩ | ⟨-, htrace⟩
  · rw [hheap] at hblocked
    exact absurd hblocked hfree
  · exact htrace

end AfterInit

end PagingPrivate

end CxxKernel.Paging
