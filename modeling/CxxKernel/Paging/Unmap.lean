import CxxKernel.Paging.Init

/-! What `free` does to the pages that `alloc` has returned. -/
namespace CxxKernel.Paging
namespace PagingPrivate
variable {s s' : PagingPrivate} {ptr cnt : Word} {v : ℕ}

def frameOf (s : PagingPrivate) (v : ℕ) : ℕ := (s.directory.pageAt v).getAddress.toNat / PAGE_SIZE

/-- From `s` to `s'` the pages are unmapped and their frames are free, and nothing else changes. -/
structure FreeLaw (s s' : PagingPrivate) (pages : List ℕ) : Prop where
  unmapped : ∀ v ∈ pages, (s'.directory.pageAt v).getPresent = false
  frames : ∀ f, s'.bits.isSet f = true ↔ s.bits.isSet f = true ∧ ∀ v ∈ pages, s.frameOf v ≠ f
  others : ∀ v ∉ pages, s'.directory.pageAt v = s.directory.pageAt v

theorem unmap_pageAt (hv : v ≠ ptr.toNat / PAGE_SIZE / PAGE_SIZE) :
    (s.unmap ptr).2.directory.pageAt v = s.directory.pageAt v := by
  have hindex : (BitVec.ofNat 32 (ptr.toNat / PAGE_SIZE)).toNat = ptr.toNat / PAGE_SIZE := by
    have hlt := ptr.isLt
    rw [BitVec.toNat_ofNat]
    exact Nat.mod_eq_of_lt (Nat.lt_of_le_of_lt (Nat.div_le_self ..) hlt)
  have hpages := dirGetPage_pageAt s (BitVec.ofNat 32 (ptr.toNat / PAGE_SIZE)) .dontReserve v
  rw [unmap]
  cases hget : s.dirGetPage (BitVec.ofNat 32 (ptr.toNat / PAGE_SIZE)) .dontReserve with
  | mk found s₁ =>
    rw [hget] at hpages
    cases found with
    | none => exact hpages
    | some p =>
      obtain ⟨hp, htable⟩ := dirGetPage_some hget
      rw [hindex] at hp
      have hne : PageDir.ptr v ≠ p := by
        rw [hp]
        exact fun h => hv (PageDir.ptr_inj h)
      dsimp only at hpages ⊢
      rw [← hpages, PageDir.pageAt, PageDir.load_store htable, if_neg hne]
      rfl

theorem freeLoop_pageAt {n : ℕ} (hv : ∀ k < n,
    v ≠ (ptr + BitVec.ofNat 32 (k * PAGE_SIZE)).toNat / PAGE_SIZE / PAGE_SIZE) :
    (freeLoop n ptr s).directory.pageAt v = s.directory.pageAt v := by
  induction n generalizing ptr s with
  | zero => rfl
  | succ n ih =>
    have hfirst : v ≠ ptr.toNat / PAGE_SIZE / PAGE_SIZE := by
      have h := hv 0 (Nat.zero_lt_succ n)
      rwa [Nat.zero_mul, BitVec.add_zero] at h
    rw [freeLoop, ih]
    · exact unmap_pageAt hfirst
    · intro k hk
      have h := hv (k + 1) (Nat.succ_lt_succ hk)
      rwa [Nat.succ_mul, Nat.add_comm, BitVec.ofNat_add, ← BitVec.add_assoc] at h

theorem alloc_some {p : Word} (h : s.alloc cnt = some (p, s')) (hp : p ≠ 0) :
    s.map PAGING_MAP_R0 cnt = some (true, some p, s') := by
  unfold alloc at h
  split at h
  · cases h
  · rename_i hmap
    obtain ⟨rfl, rfl⟩ := Prod.mk.inj (Option.some.inj h)
    exact hmap
  · obtain ⟨rfl, -⟩ := Prod.mk.inj (Option.some.inj h)
    exact absurd rfl hp

/-- Some page of the range is not written in any round of `free`: those that are written are below
256, and the only one below 256 pages is page 0. -/
theorem exists_kept {p : Word} {n : ℕ} (hmod : p.toNat % PAGE_SIZE = 0) (hp : p.toNat ≠ 0) (hn : 0 < n) :
    ∃ v ∈ pagesFrom p n, ∀ k < n,
      v ≠ (p + BitVec.ofNat 32 (k * PAGE_SIZE)).toNat / PAGE_SIZE / PAGE_SIZE := by
  have hlt := p.isLt
  have hmem : ∀ k < n, (p + BitVec.ofNat 32 (k * PAGE_SIZE)).toNat / PAGE_SIZE ∈ pagesFrom p n :=
    fun k hk => List.mem_map.mpr ⟨k, List.mem_range.mpr hk, rfl⟩
  have haddr : ∀ k, (p + BitVec.ofNat 32 (k * PAGE_SIZE)).toNat =
      (p.toNat + k * PAGE_SIZE % 2 ^ 32) % 2 ^ 32 := fun k => by
    rw [BitVec.toNat_add, BitVec.toNat_ofNat]
  have hpage : PAGE_SIZE = 4096 := rfl
  rw [hpage] at hmod
  simp only [hpage] at haddr hmem ⊢
  simp only [haddr] at hmem ⊢
  by_cases hcross : p.toNat / 4096 < 256 ∧ 256 < p.toNat / 4096 + n
  · have hlast := hmem (256 - p.toNat / 4096) (by omega)
    exact ⟨_, hlast, fun k _ => by omega⟩
  · have hfirst := hmem 0 hn
    have hzero : (p.toNat + 0 * 4096 % 2 ^ 32) % 2 ^ 32 = p.toNat := by omega
    rw [hzero] at hfirst
    refine ⟨_, hfirst, fun k hk => ?_⟩
    by_cases hfar : 256 ≤ p.toNat / 4096
    · omega
    · have hsmall : k * 4096 % 2 ^ 32 = k * 4096 := Nat.mod_eq_of_lt (by omega)
      have hnear : p.toNat + k * 4096 < 2 ^ 20 := by omega
      rw [hsmall, Nat.mod_eq_of_lt (by omega)]
      omega

/-- `free` undoes `alloc` only if no pages were asked for. -/
theorem heapFree_iff {p : Word} (h : s.alloc cnt = some (p, s')) (hp : p ≠ 0) :
    FreeLaw s' (s'.free p cnt) (pagesFrom p cnt.toNat) ↔ cnt = 0 := by
  constructor
  · intro hlaw
    by_contra hcnt
    have hpos : 0 < cnt.toNat := by
      apply Nat.pos_of_ne_zero
      exact fun hzero => hcnt (BitVec.eq_of_toNat_eq hzero)
    obtain ⟨b, hb, hmod, -, hfresh⟩ := (map_fresh (alloc_some h hp)).2 rfl
    obtain rfl := Option.some.inj hb
    have hpne : p.toNat ≠ 0 := fun hzero => hp (BitVec.eq_of_toNat_eq hzero)
    obtain ⟨v, hv, hnot⟩ := exists_kept hmod hpne hpos
    have hunmapped := hlaw.unmapped v hv
    rw [free, freeLoop_pageAt hnot, (hfresh v hv).present] at hunmapped
    cases hunmapped
  · rintro rfl
    have hnil : pagesFrom p (0 : Word).toNat = [] := rfl
    rw [hnil]
    refine ⟨fun v hv => absurd hv List.not_mem_nil, fun f => ?_, fun v _ => rfl⟩
    exact ⟨fun hf => ⟨hf, fun v hv => absurd hv List.not_mem_nil⟩, fun hf => hf.1⟩

def emptyHeap : PagingPrivate where
  bits := .new 40
  directory := ⟨fun _ => none⟩
  free_page_address := 0x4000
  heap_address := HEAP_START
  user_heap_address := USER_HEAP_START

theorem heapFree_iff_emptyHeap : ∃ s, emptyHeap.alloc 0 = some (HEAP_START, s) ∧
    FreeLaw s (s.free HEAP_START 0) (pagesFrom HEAP_START 0) := by
  have halloc : (emptyHeap.alloc 0).map Prod.fst = some HEAP_START := by decide +kernel
  obtain ⟨⟨p, s⟩, halloc, rfl⟩ := Option.map_eq_some_iff.mp halloc
  exact ⟨s, halloc, (heapFree_iff halloc (by decide)).mpr rfl⟩

/-- One page that `alloc` has returned is still mapped after `free`. -/
theorem not_freeLaw_emptyHeap : ∃ s, emptyHeap.alloc 1 = some (HEAP_START, s) ∧
    ¬ FreeLaw s (s.free HEAP_START 1) (pagesFrom HEAP_START 1) := by
  have halloc : (emptyHeap.alloc 1).map (fun r =>
      (r.1, ((r.2.free HEAP_START 1).directory.pageAt 0x30000).getPresent)) =
        some (HEAP_START, true) := by decide +kernel
  obtain ⟨⟨p, s⟩, halloc, hp⟩ := Option.map_eq_some_iff.mp halloc
  obtain ⟨rfl, hpresent⟩ := Prod.mk.inj hp
  refine ⟨s, halloc, fun hlaw => ?_⟩
  have hunmapped := hlaw.unmapped 0x30000 (by decide)
  rw [hpresent] at hunmapped
  cases hunmapped

end PagingPrivate

end CxxKernel.Paging
