import CxxKernel.Heap.Layout

/-! One pass of `allocMem`: it comes back, keeps the layout of the blocks and hands out a block
that was free or fresh, as long as the fit test does not wrap and no reclaimed tail is used
again. -/
namespace CxxKernel.Heap
open BinaryTree SearchTree LinkedTree

/-- The heap between two calls: blocks, tree and bump region fit together. -/
structure HeapInv (m : MM) (blocks : Set Word) (t : BinaryTree Word) : Prop
    extends HeapOk m blocks t where
  bump : BumpOk m blocks

/-- The bump test is sound: its sum does not wrap, and when there are no more pages the end of
the bump region has not been given to the tree. -/
structure BumpSound (m : MM) (size page : Word) : Prop where
  noWrap : m.BumpReady → m.freeTop.toNat + 20 + size.toNat < 2 ^ 32
  tailKept : m.NeedsPages (size + sizeofPtrInfo) → page = 0 → ¬ m.HasTail

instance (m : MM) (size page : Word) : Decidable (BumpSound m size page) :=
  decidable_of_iff ((m.BumpReady → m.freeTop.toNat + 20 + size.toNat < 2 ^ 32) ∧
    (m.NeedsPages (size + sizeofPtrInfo) → page = 0 → ¬ m.HasTail))
    ⟨fun h => ⟨h.1, h.2⟩, fun h => ⟨h.1, h.2⟩⟩

/-- The link is null or points to a node without children. -/
def BareLink (m : MM) (q : Word) : Prop :=
  q = 0 ∨ ((m.info (ptrToPtrinfo q)).prev = 0 ∧ (m.info (ptrToPtrinfo q)).next = 0)

instance (m : MM) (q : Word) : Decidable (BareLink m q) :=
  inferInstanceAs (Decidable (_ ∨ _ ∧ _))

/-- Every child that `releaseFree` re-inserts is without children. -/
def ReleaseSafe (m : MM) (p parent : Word) : Prop :=
  if parent = 0 then (m.info p).next = 0 ∨ BareLink m (m.info p).prev
  else BareLink m (m.info p).prev ∧ BareLink m (m.info p).next

instance (m : MM) (p parent : Word) : Decidable (ReleaseSafe m p parent) :=
  inferInstanceAs (Decidable (if parent = 0 then (m.info p).next = 0 ∨ BareLink m (m.info p).prev
    else BareLink m (m.info p).prev ∧ BareLink m (m.info p).next))

/-- The heap has grown: every block keeps its data and every node its place in the tree, and
what is new is in the tree. -/
structure Grown (m m' : MM) (blocks blocks' : Set Word) (t t' : BinaryTree Word) : Prop where
  sub : ∀ b ∈ blocks, b ∈ blocks'
  data : ∀ b ∈ blocks, (m'.info b).unlinked = (m.info b).unlinked
  fresh : ∀ b ∈ blocks', b ∈ blocks ∨ b ∈ nodes t'
  kept : ∀ b ∈ nodes t, b ∈ nodes t'

theorem Grown.refl (m : MM) (blocks : Set Word) (t : BinaryTree Word) :
    Grown m m blocks blocks t t :=
  ⟨fun _ hb => hb, fun _ _ => rfl, fun _ hb => .inl hb, fun _ hb => hb⟩

theorem Grown.congr {m m' m'' : MM} {blocks blocks' : Set Word} {t t' : BinaryTree Word}
    (h : Grown m m' blocks blocks' t t') (hinfo : m''.info = m'.info) :
    Grown m m'' blocks blocks' t t' :=
  ⟨h.sub, fun b hb => by rw [hinfo, h.data b hb], h.fresh, h.kept⟩

/-- No block that was outside the tree is in it. -/
def NoneAdded (blocks : Set Word) (t t' : BinaryTree Word) : Prop :=
  ∀ b ∈ blocks, b ∈ nodes t' → b ∈ nodes t

/-- There is room for a block of `size` bytes with its header at `a`. -/
structure RoomAt (m : MM) (blocks : Set Word) (a size : Word) : Prop where
  inRun : ∃ run ∈ m.runs, run.1.toNat ≤ a.toNat ∧ a.toNat + 20 + size.toNat ≤ runEnd run
  ptr_lt : a.toNat + 20 < 2 ^ 32
  apart : ∀ b ∈ blocks, blockEnd m b ≤ a.toNat ∨ a.toNat + 20 + size.toNat ≤ b.toNat

section Place
variable {m : MM} {blocks : Set Word} {t : BinaryTree Word} {a size : Word}

theorem RoomAt.notMem (h : RoomAt m blocks a size) : a ∉ blocks := by
  intro ha
  have hap := h.apart a ha
  unfold blockEnd at hap
  omega

theorem blockEnd_setInfo_of_ne {b : Word} (i : PtrInfo) (h : b ≠ a) :
    blockEnd (m.setInfo a i) b = blockEnd m b := by
  rw [blockEnd, MM.setInfo_of_ne m i h, blockEnd]

theorem blockEnd_setInfo_self {i : PtrInfo} (hi : i.size = size) :
    blockEnd (m.setInfo a i) a = a.toNat + 20 + size.toNat := by
  rw [blockEnd, MM.setInfo_self, hi]

theorem HeapOk.place (h : HeapOk m blocks t) (hroom : RoomAt m blocks a size) {i : PtrInfo}
    (hi : i.size = size) : HeapOk (m.setInfo a i) (insert a blocks) t := by
  have hnot := hroom.notMem
  have hne : ∀ b ∈ blocks, b ≠ a := fun b hb he => hnot (he ▸ hb)
  have hend : blockEnd (m.setInfo a i) a = a.toNat + 20 + size.toNat := blockEnd_setInfo_self hi
  have hregions : Regions (m.setInfo a i) blocks :=
    h.regions.congr rfl fun b hb => by rw [MM.setInfo_of_ne m i (hne b hb)]
  obtain ⟨run, hrun, hle, hre⟩ := hroom.inRun
  refine ⟨h.tree.setInfo i fun ha => hnot (h.nodes_blocks a ha),
    fun b hb => .inr (h.nodes_blocks b hb), fun b hb => ?_, ?_⟩
  · rw [MM.setInfo_of_ne m i (hne b (h.nodes_blocks b hb))]
    exact h.nodes_freed b hb
  · refine hregions.insert hrun hle (hend ▸ hre) hroom.ptr_lt fun b hb => ?_
    rw [blockEnd_setInfo_of_ne i (hne b hb), hend]
    exact hroom.apart b hb

/-- The new block is in use and apart from what is left of the bump region. -/
theorem HeapInv.place (h : HeapInv m blocks t) (hroom : RoomAt m blocks a size) {i : PtrInfo}
    (hi : i.size = size) (hbump : m.BumpReady →
      a.toNat + 20 + size.toNat ≤ m.freeTop.toNat ∨ m.freeMax.toNat ≤ a.toNat) :
    HeapInv (m.setInfo a i) (insert a blocks) t := by
  refine ⟨h.toHeapOk.place hroom hi, h.bump.inRun, ?_⟩
  rintro hr b (rfl | hb)
  · rw [blockEnd_setInfo_self hi]
    exact hbump hr
  · have hne : b ≠ a := fun he => hroom.notMem (he ▸ hb)
    rw [blockEnd_setInfo_of_ne i hne]
    exact h.bump.free hr b hb

theorem HeapOk.free (h : HeapOk m blocks t) (ha : a ∈ blocks)
    (hstate : (m.info a).state = .used) (hused : (m.info a).used = true) :
    ∃ m', m.freeNoLock (ptrinfoToPtr a) = some (m', true) ∧
      HeapOk m' blocks (insertLeaf m.key a t) ∧ SameData (m.setInfo a (m.info a).freed) m' := by
  have hnot : a ∉ nodes t := fun hn => by
    have hf := (h.nodes_freed a hn).2
    rw [hused] at hf
    cases hf
  obtain ⟨m', heq, htree, hdata⟩ := freeNoLock_spec h.tree hnot (h.regions.ne_zero ha)
    (h.regions.ptr_ne_zero ha) hstate hused
  refine ⟨m', heq, ⟨htree, fun b hb => ?_, fun b hb => ?_, ?_⟩, hdata⟩
  · rcases (mem_insertLeaf m.key).mp hb with rfl | hb
    · exact ha
    · exact h.nodes_blocks b hb
  · rw [hdata.state, hdata.used]
    by_cases hba : b = a
    · rw [hba, MM.setInfo_self]
      exact ⟨rfl, rfl⟩
    · rw [MM.setInfo_of_ne m _ hba]
      exact h.nodes_freed b (((mem_insertLeaf m.key).mp hb).resolve_left hba)
  · refine h.regions.congr hdata.runs fun b _ => ?_
    rw [hdata.size]
    by_cases hba : b = a
    · rw [hba, MM.setInfo_self]
      rfl
    · rw [MM.setInfo_of_ne m _ hba]

end Place

section ReclaimTail
variable {m : MM} {blocks : Set Word} {t : BinaryTree Word}

theorem BumpOk.freeMax_le (h : BumpOk m blocks) (hreg : Regions m blocks) (hr : m.BumpReady) :
    m.freeTop.toNat ≤ m.freeMax.toNat ∧ m.freeMax.toNat + 4096 ≤ 2 ^ 32 := by
  obtain ⟨run, hrun, -, hle, hmax⟩ := h.inRun hr
  have haligned := hreg.runs_aligned run hrun
  have hlt := m.freeMax.isLt
  unfold runEnd at hmax
  omega

/-- The tail of the bump region becomes a block, and the block goes into the tree. -/
theorem reclaimTail_spec (h : HeapInv m blocks t) :
    ∃ m' blocks' t', m.reclaimTail = some m' ∧ HeapOk m' blocks' t' ∧
      Grown m m' blocks blocks' t t' ∧ NoneAdded blocks t t' ∧ m'.runs = m.runs ∧
      (¬ m.HasTail → m' = m ∧ blocks' = blocks) := by
  unfold MM.reclaimTail
  by_cases htail : m.HasTail
  · have hready := htail.1
    have hbounds := h.bump.freeMax_le h.regions hready
    have htop : m.freeTop.toNat + 24 < m.freeMax.toNat := by
      have hlt := htail.2
      unfold sizeofPtrInfo at hlt
      bv_omega
    have hsize : m.freeTop.toNat + 20 + m.tailInfo.size.toNat = m.freeMax.toNat := by
      simp only [MM.tailInfo, and_SIZEMASK, sizeofPtrInfo]
      bv_omega
    obtain ⟨run, hrun, hlo, -, hmax⟩ := h.bump.inRun hready
    have hroom : RoomAt m blocks m.freeTop m.tailInfo.size :=
      ⟨⟨run, hrun, hlo, by omega⟩, by omega, fun b hb => by
        have hfree := h.bump.free hready b hb
        omega⟩
    have hplace := h.toHeapOk.place hroom (i := m.tailInfo) rfl
    have hmem : m.freeTop ∈ insert m.freeTop blocks := .inl rfl
    have hinfo : (m.setInfo m.freeTop m.tailInfo).info m.freeTop = m.tailInfo :=
      m.setInfo_self _ _
    obtain ⟨m', heq, hok, hdata⟩ := hplace.free hmem (by rw [hinfo]; rfl) (by rw [hinfo]; rfl)
    refine ⟨m', insert m.freeTop blocks, _, ?_, hok, ⟨fun b hb => .inr hb, fun b hb => ?_,
      ?_, fun b hb => ?_⟩, fun b hb hn => ?_, hdata.runs, fun hc => absurd htail hc⟩
    · rw [if_pos htail, heq, Option.map_some]
    · have hne : b ≠ m.freeTop := fun he => hroom.notMem (he ▸ hb)
      rw [hdata.info, MM.setInfo_of_ne _ _ hne, MM.setInfo_of_ne _ _ hne]
    · rintro b (rfl | hb)
      · exact .inr ((mem_insertLeaf _).mpr (.inl rfl))
      · exact .inl hb
    · exact (mem_insertLeaf _).mpr (.inr hb)
    · have hne : b ≠ m.freeTop := fun he => hroom.notMem (he ▸ hb)
      exact ((mem_insertLeaf _).mp hn).resolve_left hne
  · exact ⟨m, blocks, t, if_neg htail, h.toHeapOk, .refl m blocks t, fun _ _ hn => hn, rfl,
      fun _ => ⟨rfl, rfl⟩⟩

end ReclaimTail

section BumpAlloc
variable {m m' : MM} {blocks : Set Word} {t : BinaryTree Word} {a size page : Word}

theorem pagesFor_le (size2 : Word) : size2.toNat ≤ (MM.pagesFor size2).toNat * 4096 := by
  have hdiv : (size2 / PAGE_SIZE).toNat = size2.toNat / 4096 := rfl
  have hmod : (size2 % PAGE_SIZE).toNat = size2.toNat % 4096 := rfl
  have hlt := size2.isLt
  unfold MM.pagesFor
  by_cases h : size2 % PAGE_SIZE = 0
  · have hzero : size2.toNat % 4096 = 0 := by rw [← hmod, h]; rfl
    rw [if_neg (not_not.mpr h), hdiv]
    omega
  · have hone : (size2 / PAGE_SIZE + 1).toNat = size2.toNat / 4096 + 1 := by
      rw [BitVec.toNat_add, hdiv]
      apply Nat.mod_eq_of_lt
      change _ + 1 < _
      omega
    rw [if_pos h, hone]
    omega

/-- The room `bumpAlloc` finds lies below the bump region it leaves. -/
structure BumpRoom (m : MM) (blocks : Set Word) (a size : Word) : Prop
    extends RoomAt m blocks a size where
  below : m.BumpReady → a.toNat + 20 + size.toNat ≤ m.freeTop.toNat ∨ m.freeMax.toNat ≤ a.toNat

theorem advance_spec (h : HeapInv m blocks t) (hfit : ¬ m.NeedsPages (size + sizeofPtrInfo))
    (hwrap : m.freeTop.toNat + 20 + size.toNat < 2 ^ 32) :
    HeapInv (m.advance (size + sizeofPtrInfo)) blocks t ∧
      BumpRoom (m.advance (size + sizeofPtrInfo)) blocks m.freeTop size := by
  obtain ⟨hready, hlt⟩ := not_or.mp hfit
  rw [not_not] at hready
  have hadd : (m.freeTop + (size + sizeofPtrInfo)).toNat =
      m.freeTop.toNat + 20 + size.toNat := by
    unfold sizeofPtrInfo
    bv_omega
  have hlt' : m.freeTop.toNat + 20 + size.toNat < m.freeMax.toNat := by
    rw [← hadd]
    bv_omega
  have hadv : m.advance (size + sizeofPtrInfo) =
      { m with freeTop := m.freeTop + (size + sizeofPtrInfo) } := if_pos hready.2.1
  obtain ⟨run, hrun, hlo, -, hmax⟩ := h.bump.inRun hready
  have hfree := h.bump.free hready
  rw [hadv]
  refine ⟨⟨h.toHeapOk.congr (fun _ _ => rfl) rfl (h.regions.congr rfl fun _ _ => rfl), fun _ => ?_,
    fun _ b hb => ?_⟩, ⟨⟨run, hrun, hlo, by omega⟩, by omega, fun b hb => ?_⟩, fun _ => ?_⟩
  · refine ⟨run, hrun, ?_, ?_, hmax⟩
    · change run.1.toNat ≤ (m.freeTop + (size + sizeofPtrInfo)).toNat
      omega
    · change (m.freeTop + (size + sizeofPtrInfo)).toNat ≤ m.freeMax.toNat
      omega
  · change blockEnd m b ≤ (m.freeTop + (size + sizeofPtrInfo)).toNat ∨ m.freeMax.toNat ≤ b.toNat
    have hb' := hfree b hb
    omega
  · change blockEnd m b ≤ m.freeTop.toNat ∨ m.freeTop.toNat + 20 + size.toNat ≤ b.toNat
    have hb' := hfree b hb
    omega
  · exact .inl hadd.ge

/-- Fresh pages: they become the bump region, and the block comes off their start. -/
theorem freshPages_spec (h : HeapOk m blocks t)
    (hpage : FreshRun m.runs page (MM.pagesFor (size + sizeofPtrInfo)))
    (hsize : size.toNat + 20 < 2 ^ 32) {cnt : Word}
    (hcnt : cnt = MM.pagesFor (size + sizeofPtrInfo))
    (hm' : m' = { m with runs := (page, cnt) :: m.runs, lastPage := page,
                         freeTop := page + (size + sizeofPtrInfo),
                         freeMax := page + cnt * PAGE_SIZE }) :
    HeapInv m' blocks t ∧ BumpRoom m' blocks page size := by
  have hsize2 : (size + sizeofPtrInfo).toNat = size.toNat + 20 := by
    unfold sizeofPtrInfo
    bv_omega
  have hle := pagesFor_le (size + sizeofPtrInfo)
  rw [← hcnt, hsize2] at hle
  rw [← hcnt] at hpage
  have hne := hpage.nonnull
  have hinside := hpage.inside
  have hinfo : m'.info = m.info := by rw [hm']
  have hruns : m'.runs = (page, cnt) :: m.runs := by rw [hm']
  have hregions : Regions m' blocks := h.regions.addRun hpage hruns hinfo
  have hapart : ∀ b ∈ blocks, blockEnd m' b ≤ page.toNat ∨ runEnd (page, cnt) ≤ b.toNat :=
    fun b hb => by
      rw [blockEnd, hinfo]
      exact h.regions.apart_fresh hpage (by omega) hb
  have hrun : (page, cnt) ∈ m'.runs := by rw [hruns]; exact List.mem_cons_self
  have hend : runEnd (page, cnt) = page.toNat + cnt.toNat * 4096 := rfl
  have hpos : 0 < page.toNat := by bv_omega
  have hmul : (cnt * PAGE_SIZE).toNat = cnt.toNat * 4096 := by
    unfold PAGE_SIZE
    rw [BitVec.toNat_mul]
    exact Nat.mod_eq_of_lt (by change cnt.toNat * 4096 < 2 ^ 32; omega)
  -- the two ends are exact unless they are 2 ^ 32, which the bump test reads as no region
  have htop : m'.BumpReady → m'.freeTop.toNat = page.toNat + 20 + size.toNat := fun hr => by
    have hne' := hr.2.1
    rw [hm'] at hne' ⊢
    change page + (size + sizeofPtrInfo) ≠ 0 at hne'
    change (page + (size + sizeofPtrInfo)).toNat = _
    bv_omega
  have hmax : m'.BumpReady → m'.freeMax.toNat = page.toNat + cnt.toNat * 4096 := fun hr => by
    have hne' := hr.2.2
    rw [hm'] at hne' ⊢
    change page + cnt * PAGE_SIZE ≠ 0 at hne'
    change (page + cnt * PAGE_SIZE).toNat = _
    bv_omega
  refine ⟨⟨h.congr (fun b _ => by rw [hinfo]) (by rw [hm']) hregions, fun hr => ?_, fun hr b hb => ?_⟩,
    ⟨⟨(page, cnt), hrun, le_refl _, by omega⟩, ?_, fun b hb => ?_⟩, fun hr => ?_⟩
  · have hlo : page.toNat ≤ m'.freeTop.toNat := by
      rw [htop hr]
      omega
    have hhi : m'.freeTop.toNat ≤ m'.freeMax.toNat := by
      rw [htop hr, hmax hr]
      omega
    exact ⟨(page, cnt), hrun, hlo, hhi, by rw [hmax hr, hend]⟩
  · have hb' := hapart b hb
    rw [htop hr, hmax hr]
    omega
  · have haligned := hpage.aligned
    have hlt := page.isLt
    omega
  · have hb' := hapart b hb
    omega
  · rw [htop hr]
    exact .inl (le_refl _)

theorem bumpAlloc_spec (h : HeapInv m blocks t) (hsize : size.toNat + 20 < 2 ^ 32)
    (hpage : PageAnswer m (MM.pagesFor (size + sizeofPtrInfo)) page)
    (hsound : BumpSound m size page) :
    ∃ m' a blocks' t', m.bumpAlloc (size + sizeofPtrInfo)
        (MM.pagesFor (size + sizeofPtrInfo)) page = some (m', a) ∧ HeapInv m' blocks' t' ∧
      Grown m m' blocks blocks' t t' ∧ NoneAdded blocks t t' ∧ (a ≠ 0 → BumpRoom m' blocks' a size) := by
  unfold MM.bumpAlloc
  by_cases hneeds : m.NeedsPages (size + sizeofPtrInfo)
  · obtain ⟨m₁, blocks₁, t₁, heq, hok, hgrown, hnone, hruns, hsame⟩ := reclaimTail_spec h
    rw [if_pos hneeds, heq, Option.map_some]
    rcases hpage with rfl | hfresh
    · obtain ⟨rfl, rfl⟩ := hsame (hsound.tailKept hneeds rfl)
      exact ⟨m₁, 0, blocks₁, t₁, rfl, ⟨hok, h.bump⟩, hgrown, hnone, fun hc => absurd rfl hc⟩
    · have hne := hfresh.nonnull
      have hfresh₁ := hfresh
      rw [← hruns] at hfresh₁
      obtain ⟨hinv, hroom⟩ := freshPages_spec hok hfresh₁ hsize rfl rfl
      refine ⟨_, page, blocks₁, t₁, ?_, hinv, hgrown.congr rfl, hnone, fun _ => hroom⟩
      have halloc : m₁.allocPage (MM.pagesFor (size + sizeofPtrInfo)) page =
          ({ m₁ with runs := (page, MM.pagesFor (size + sizeofPtrInfo)) :: m₁.runs }, page) :=
        if_neg hne
      simp only [halloc, MM.advance, ne_eq, hne, not_false_eq_true, if_true, if_false]
  · obtain ⟨hinv, hroom⟩ := advance_spec h hneeds
      (hsound.noWrap (not_not.mp (not_or.mp hneeds).1))
    have hready : m.freeTop ≠ 0 := (not_not.mp (not_or.mp hneeds).1).2.1
    have hgrown : Grown m (m.advance (size + sizeofPtrInfo)) blocks blocks t t :=
      (Grown.refl m blocks t).congr (by rw [MM.advance, if_pos hready])
    exact ⟨_, m.freeTop, blocks, t, if_neg hneeds, hinv, hgrown, fun _ _ hn => hn, fun _ => hroom⟩

end BumpAlloc

section Release
variable {m : MM} {blocks : Set Word} {t l r : BinaryTree Word} {p parent : Word}

theorem TrueParent.top?_iff (hpar : TrueParent m p parent) (h : FreeTree m t) :
    top? t = some p ↔ parent = 0 := by
  rcases hpar with ⟨rfl, hroot⟩ | ⟨hfree, hlink⟩
  · exact iff_of_true (h.shape.start_eq ▸ hroot) rfl
  · have hparent := h.free_iff.mp hfree
    have hne := h.shape.start_ne_of_parent h.nodup hparent hlink
    exact iff_of_false (h.shape.start_eq ▸ hne) (h.nonnull parent hparent)

theorem eq_nil_iff_link {q : Word} (h : Shape m.left m.right (link q) l) : l = .nil ↔ q = 0 := by
  constructor
  · rintro rfl
    exact link_eq_none.mp h
  · rintro rfl
    exact h.eq_nil

theorem below_eq_nil_iff {q : Word} (h : Shape m.left m.right (link q) l) :
    below l = [] ↔ BareLink m q := by
  unfold BareLink
  cases l with
  | nil =>
    have hq : q = 0 := (eq_nil_iff_link h).mp rfl
    exact iff_of_true rfl (.inl hq)
  | node a bl br =>
    obtain ⟨hq, hl, hr⟩ := h
    obtain ⟨hq0, rfl⟩ := link_eq_some.mp hq
    have hbl : bl = .nil ↔ (m.info a).prev = 0 := eq_nil_iff_link hl
    have hbr : br = .nil ↔ (m.info a).next = 0 := eq_nil_iff_link hr
    have hnil : ∀ s : BinaryTree Word, nodes s = [] ↔ s = .nil := by
      intro s
      cases s <;> simp
    rw [below, List.append_eq_nil_iff, hnil, hnil, hbl, hbr, ptrToPtrinfo_ptrinfoToPtr]
    simp only [hq0, false_or]

theorem lostTop_eq_nil_iff {a : Word} :
    lostTop (.node a l r) = [] ↔ r = .nil ∨ below l = [] := by
  cases l with
  | nil => simp [lostTop, below]
  | node b bl br => cases r <;> simp [lostTop]

/-- `releaseFree` drops nothing exactly when it is safe. -/
theorem lost_eq_nil_iff (h : FreeTree m t) (hp : p ∈ nodes t) (hpar : TrueParent m p parent) :
    lost p t = [] ↔ ReleaseSafe m p parent := by
  obtain ⟨l, r, hsub⟩ := subtree_eq_node hp
  obtain ⟨-, hl, hr⟩ := hsub ▸ h.shape.subtree hp
  have hbl := below_eq_nil_iff (l := l) hl
  have hbr := below_eq_nil_iff (l := r) hr
  have hrn : r = .nil ↔ (m.info p).next = 0 := eq_nil_iff_link hr
  unfold lost ReleaseSafe
  by_cases htop : top? t = some p
  · rw [if_pos htop, if_pos ((hpar.top?_iff h).mp htop)]
    rw [subtree_of_top? htop] at hsub
    rw [hsub, lostTop_eq_nil_iff, hrn, hbl]
  · rw [if_neg htop, if_neg (mt (hpar.top?_iff h).mpr htop), lostInner, hsub]
    rw [List.append_eq_nil_iff, hbl, hbr]

theorem HeapInv.reuse {size : Word} (h : HeapInv m blocks t) (hp : p ∈ nodes t)
    (hpar : TrueParent m p parent) (hsize : (m.info p).size = size) (size2 : Word) :
    ∃ m', m.releaseFree p parent = some (m', p) ∧
      HeapInv (m'.setInfo p (MM.usedInfo size size2)) blocks (unlink m.key p t) ∧
      ∀ b, b ≠ p → ((m'.setInfo p (MM.usedInfo size size2)).info b).unlinked =
        (m.info b).unlinked := by
  obtain ⟨m', heq, htree, hdata⟩ := releaseFree_spec h.tree hp hpar
  have hnot : p ∉ nodes (unlink m.key p t) :=
    fun hc => ((mem_unlink _ h.tree.nodup hp).mp hc).2.1 rfl
  have hmem : ∀ b ∈ nodes (unlink m.key p t), b ∈ nodes t :=
    fun b hb => ((mem_unlink _ h.tree.nodup hp).mp hb).1
  have hinfo : ∀ b, b ≠ p → ((m'.setInfo p (MM.usedInfo size size2)).info b).unlinked =
      (m.info b).unlinked := fun b hb => by
    rw [MM.setInfo_of_ne m' _ hb, hdata.info]
  have hsizes : ∀ b ∈ blocks, ((m'.setInfo p (MM.usedInfo size size2)).info b).size =
      (m.info b).size := fun b _ => by
    by_cases hb : b = p
    · rw [hb, MM.setInfo_self, hsize]
      exact and_SIZEMASK size
    · have hu := congrArg PtrInfo.size (hinfo b hb)
      exact hu
  refine ⟨m', heq, ⟨⟨htree.setInfo _ hnot, fun b hb => h.nodes_blocks b (hmem b hb),
    fun b hb => ?_, h.regions.congr hdata.runs hsizes⟩,
    h.bump.congr hdata.runs hdata.lastPage hdata.freeTop hdata.freeMax hsizes⟩, hinfo⟩
  have hb' : b ≠ p := fun he => hnot (he ▸ hb)
  rw [MM.setInfo_of_ne m' _ hb', hdata.state, hdata.used]
  exact h.nodes_freed b (hmem b hb)

end Release

section AllocMem
variable {m : MM} {blocks : Set Word} {t : BinaryTree Word} {size page : Word}

/-- What `allocMem` did when its answer is `q`: a free or a fresh block with the payload `q` is
in use, the other blocks keep their data, and what is new besides is in the tree. -/
structure AllocEffect (m m' : MM) (blocks blocks' : Set Word) (t' : BinaryTree Word)
    (size q : Word) : Prop where
  sub : ∀ b ∈ blocks, b ∈ blocks'
  data : ∀ b ∈ blocks, ptrinfoToPtr b ≠ q → (m'.info b).unlinked = (m.info b).unlinked
  fresh : ∀ b ∈ blocks', ptrinfoToPtr b ≠ q → b ∈ blocks ∨ b ∈ nodes t'
  handed : q ≠ 0 → ptrToPtrinfo q ∈ blocks' ∧
    m'.info (ptrToPtrinfo q) = MM.usedInfo size (size + sizeofPtrInfo)
  unused : q ≠ 0 → ptrToPtrinfo q ∈ blocks → (m.info (ptrToPtrinfo q)).used = false

/-- The block `findAvail` takes can be taken without losing others. -/
def ReleaseSound (m : MM) (size : Word) : Prop :=
  ∀ found ∈ (m.searchAvail size).join, ReleaseSafe m found.1 found.2

instance (m : MM) (size : Word) : Decidable (ReleaseSound m size) :=
  inferInstanceAs (Decidable (∀ found ∈ (m.searchAvail size).join,
    ReleaseSafe m found.1 found.2))

theorem allocMem_reuse {p parent : Word} (h : HeapInv m blocks t)
    (hfound : m.searchAvail size = some (some (p, parent))) (page : Word) :
    ∃ m' t', m.allocMem size .normal page = some (m', ptrinfoToPtr p) ∧ HeapInv m' blocks t' ∧
      AllocEffect m m' blocks blocks t' size (ptrinfoToPtr p) ∧ NoneAdded blocks t t' ∧
      (ReleaseSound m size → ∀ b ∈ nodes t, ptrinfoToPtr b ≠ ptrinfoToPtr p → b ∈ nodes t') := by
  obtain ⟨res, hres, hspec⟩ := searchAvail_spec size h.tree
  rw [hfound, Option.some.injEq] at hres
  obtain ⟨hp, hsize, hpar⟩ := hspec p parent hres.symm
  obtain ⟨m', heq, hinv, hinfo⟩ := h.reuse hp hpar hsize (size + sizeofPtrInfo)
  have hp0 := h.tree.nonnull p hp
  refine ⟨m'.setInfo p (MM.usedInfo size (size + sizeofPtrInfo)), _, ?_, hinv,
    ⟨fun b hb => hb, fun b _ hne => ?_, fun b hb _ => .inl hb, fun _ => ?_, fun _ _ => ?_⟩,
    fun b _ hn => ((mem_unlink _ h.tree.nodup hp).mp hn).1, ?_⟩
  · simp only [MM.allocMem, if_true, MM.findAvail, hfound, Option.bind_some, heq, hp0, if_false,
      Option.map_some]
  · exact hinfo b fun he => hne (he ▸ rfl)
  · rw [ptrToPtrinfo_ptrinfoToPtr, MM.setInfo_self]
    exact ⟨h.nodes_blocks p hp, rfl⟩
  · rw [ptrToPtrinfo_ptrinfoToPtr]
    exact (h.nodes_freed p hp).2
  · intro hsafe b hb hne
    have hmem : (p, parent) ∈ (m.searchAvail size).join := by
      rw [hfound]
      rfl
    have hlost := (lost_eq_nil_iff h.tree hp hpar).mpr (hsafe (p, parent) hmem)
    exact ((unlink_exact_iff m.key h.tree.nodup hp).mpr hlost b).mpr ⟨hb, fun he => hne (he ▸ rfl)⟩

theorem allocMem_bump {ty : AllocType} (h : HeapInv m blocks t)
    (hty : ty ≠ .normal ∨ m.searchAvail size = some none) (hsize : size.toNat + 20 < 2 ^ 32)
    (hpage : PageAnswer m (MM.pagesFor (size + sizeofPtrInfo)) page)
    (hsound : BumpSound m size page) :
    ∃ m' q blocks' t', m.allocMem size ty page = some (m', q) ∧ HeapInv m' blocks' t' ∧
      AllocEffect m m' blocks blocks' t' size q ∧ NoneAdded blocks t t' ∧
      (q ≠ 0 → ptrToPtrinfo q ∉ blocks) ∧ ∀ b ∈ nodes t, ptrinfoToPtr b ≠ q → b ∈ nodes t' := by
  have hfind : (if ty = .normal then m.findAvail size else some (m, 0)) = some (m, 0) := by
    split_ifs with hc
    · rw [MM.findAvail, hty.resolve_left (not_not.mpr hc)]
      rfl
    · rfl
  obtain ⟨m₁, a, blocks₁, t₁, heq, hinv, hgrown, hnone, hroom⟩ := bumpAlloc_spec h hsize hpage hsound
  have hmem : m.allocMem size ty page = some (if a = 0 then (m₁, 0) else
      (m₁.setInfo a (MM.usedInfo size (size + sizeofPtrInfo)), ptrinfoToPtr a)) := by
    simp only [MM.allocMem, hfind, Option.bind_some, if_true, heq, Option.map_some]
  by_cases ha : a = 0
  · rw [if_pos ha] at hmem
    exact ⟨m₁, 0, blocks₁, t₁, hmem, hinv, ⟨hgrown.sub, fun b hb _ => hgrown.data b hb,
      fun b hb _ => hgrown.fresh b hb, fun hc => absurd rfl hc, fun hc => absurd rfl hc⟩,
      hnone, fun hc => absurd rfl hc, fun b hb _ => hgrown.kept b hb⟩
  · rw [if_neg ha] at hmem
    have hr := hroom ha
    have hnot := hr.notMem
    refine ⟨_, _, insert a blocks₁, t₁, hmem,
      hinv.place hr.toRoomAt (and_SIZEMASK size) hr.below,
      ⟨fun b hb => .inr (hgrown.sub b hb), fun b hb _ => ?_, ?_, fun _ => ?_, fun _ hc => ?_⟩,
      hnone, fun _ hc => ?_, fun b hb _ => hgrown.kept b hb⟩
    · have hne : b ≠ a := fun he => hnot (he ▸ hgrown.sub b hb)
      rw [MM.setInfo_of_ne _ _ hne]
      exact hgrown.data b hb
    · rintro b (rfl | hb) hne
      · exact absurd rfl hne
      · exact hgrown.fresh b hb
    · rw [ptrToPtrinfo_ptrinfoToPtr, MM.setInfo_self]
      exact ⟨.inl rfl, rfl⟩
    · rw [ptrToPtrinfo_ptrinfoToPtr] at hc
      exact absurd (hgrown.sub a hc) hnot
    · rw [ptrToPtrinfo_ptrinfoToPtr] at hc
      exact hnot (hgrown.sub a hc)

/-- One pass of `allocMem`. -/
theorem allocMem_spec {ty : AllocType} (h : HeapInv m blocks t)
    (hsize : size.toNat + 20 < 2 ^ 32)
    (hpage : PageAnswer m (MM.pagesFor (size + sizeofPtrInfo)) page)
    (hsound : ty ≠ .normal ∨ m.searchAvail size = some none → BumpSound m size page) :
    ∃ m' q blocks' t', m.allocMem size ty page = some (m', q) ∧ HeapInv m' blocks' t' ∧
      AllocEffect m m' blocks blocks' t' size q ∧ ((ty = .normal → ReleaseSound m size) →
        ∀ b ∈ nodes t, ptrinfoToPtr b ≠ q → b ∈ nodes t') := by
  by_cases hbump : ty ≠ .normal ∨ m.searchAvail size = some none
  · obtain ⟨m', q, blocks', t', heq, hinv, heff, -, -, hkept⟩ :=
      allocMem_bump h hbump hsize hpage (hsound hbump)
    exact ⟨m', q, blocks', t', heq, hinv, heff, fun _ => hkept⟩
  · obtain ⟨hty, hsearch⟩ := not_or.mp hbump
    rw [not_not] at hty
    subst hty
    obtain ⟨res, hres, -⟩ := searchAvail_spec size h.tree
    cases res with
    | none => exact absurd hres hsearch
    | some found =>
      obtain ⟨p, parent⟩ := found
      obtain ⟨m', t', heq, hinv, heff, -, hkept⟩ := allocMem_reuse h hres page
      exact ⟨m', _, blocks, t', heq, hinv, heff, fun hc => hkept (hc rfl)⟩

/-- A block that was there before can only be handed out when its size fits exactly, and no such
block is put into the tree. -/
theorem allocMem_reused {m' : MM} {q : Word} (h : HeapInv m blocks t)
    (hsize : size.toNat + 20 < 2 ^ 32)
    (hpage : PageAnswer m (MM.pagesFor (size + sizeofPtrInfo)) page)
    (hsound : m.searchAvail size = some none → BumpSound m size page)
    (heq : m.allocMem size .normal page = some (m', q)) :
    (q ≠ 0 → ptrToPtrinfo q ∈ blocks → (m.info (ptrToPtrinfo q)).size = size) ∧
      ∀ b ∈ blocks, m'.Free b → m.Free b := by
  obtain ⟨res, hres, hspec⟩ := searchAvail_spec size h.tree
  cases res with
  | none =>
    obtain ⟨m₁, q₁, blocks', t', heq₁, hinv, -, hnone, hfresh, -⟩ :=
      allocMem_bump h (.inr hres) hsize hpage (hsound hres)
    rw [heq, Option.some.injEq] at heq₁
    obtain ⟨rfl, rfl⟩ := Prod.mk.inj heq₁
    constructor
    · exact fun hq hb => absurd hb (hfresh hq)
    · exact fun b hb hf => h.tree.free_iff.mpr (hnone b hb (hinv.tree.free_iff.mp hf))
  | some found =>
    obtain ⟨p, parent⟩ := found
    obtain ⟨m₁, t', heq₁, hinv, -, hnone, -⟩ := allocMem_reuse h hres page
    rw [heq, Option.some.injEq] at heq₁
    obtain ⟨rfl, rfl⟩ := Prod.mk.inj heq₁
    constructor
    · intro _ _
      rw [ptrToPtrinfo_ptrinfoToPtr]
      exact (hspec p parent rfl).2.1
    · exact fun b hb hf => h.tree.free_iff.mpr (hnone b hb (hinv.tree.free_iff.mp hf))

end AllocMem

end CxxKernel.Heap
