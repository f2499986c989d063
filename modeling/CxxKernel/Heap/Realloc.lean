import CxxKernel.Heap.Safety

/-! The contents of the blocks: the allocator stores into no block but the one that `realloc` fills. -/
namespace CxxKernel.Heap
open BinaryTree SearchTree LinkedTree Runs

section Bytes
variable {m m' : MM} {cur p parent q size size2 cnt page : Word}

theorem treeAddLoop_byte {fuel : ℕ} {tmp : Word} (h : MM.treeAddLoop cur fuel m tmp = some m') :
    m'.byte = m.byte := by
  induction fuel generalizing tmp with
  | zero => cases h
  | succ fuel ih =>
    rw [MM.treeAddLoop] at h
    split_ifs at h
    · rw [← Option.some.inj h]
    · rw [← Option.some.inj h]
      rfl
    · exact ih h
    · rw [← Option.some.inj h]
      rfl
    · exact ih h

theorem treeAdd_byte (h : m.treeAdd cur = some m') : m'.byte = m.byte := by
  rw [MM.treeAdd] at h
  dsimp only at h
  split_ifs at h
  · rw [← Option.some.inj h]
  · rw [← Option.some.inj h]
    rfl
  · have hloop := treeAddLoop_byte h
    exact hloop

theorem treeAddChild_byte (h : m.treeAddChild q = some m') : m'.byte = m.byte := by
  rw [MM.treeAddChild] at h
  split_ifs at h
  · exact treeAdd_byte h
  · rw [← Option.some.inj h]

theorem releaseRoot_byte (h : m.releaseRoot p = some m') : m'.byte = m.byte := by
  rw [MM.releaseRoot] at h
  split_ifs at h
  · rw [← Option.some.inj h]
  · rw [← Option.some.inj h]
  · have hadd := treeAdd_byte h
    exact hadd
  · rw [← Option.some.inj h]

theorem unlinkParent_byte : (m.unlinkParent p parent).byte = m.byte := by
  unfold MM.unlinkParent
  split_ifs <;> rfl

theorem releaseInner_byte (h : m.releaseInner p parent = some m') : m'.byte = m.byte := by
  obtain ⟨m₁, h₁, h₂⟩ := Option.bind_eq_some_iff.mp h
  rw [treeAddChild_byte h₂, treeAddChild_byte h₁, unlinkParent_byte]

theorem releaseFree_byte (h : m.releaseFree p parent = some (m', q)) : m'.byte = m.byte := by
  rw [MM.releaseFree] at h
  split_ifs at h with hp hparent
  · rw [← (Prod.mk.inj (Option.some.inj h)).1]
  · obtain ⟨m₁, h₁, h₂⟩ := Option.map_eq_some_iff.mp h
    have hroot := releaseRoot_byte h₁
    rw [← (Prod.mk.inj h₂).1]
    exact hroot
  · obtain ⟨m₁, h₁, h₂⟩ := Option.map_eq_some_iff.mp h
    have hinner := releaseInner_byte h₁
    rw [← (Prod.mk.inj h₂).1]
    exact hinner

theorem findAvail_byte (h : m.findAvail size = some (m', q)) : m'.byte = m.byte := by
  obtain ⟨res, -, h₂⟩ := Option.bind_eq_some_iff.mp h
  cases res with
  | none => rw [← (Prod.mk.inj (Option.some.inj h₂)).1]
  | some found => exact releaseFree_byte h₂

theorem freeNoLock_byte {b : Bool} (h : m.freeNoLock p = some (m', b)) : m'.byte = m.byte := by
  rw [MM.freeNoLock] at h
  dsimp only at h
  split_ifs at h
  · rw [← (Prod.mk.inj (Option.some.inj h)).1]
  · rw [← (Prod.mk.inj (Option.some.inj h)).1]
  · rw [← (Prod.mk.inj (Option.some.inj h)).1]
  · rw [← (Prod.mk.inj (Option.some.inj h)).1]
  · obtain ⟨m₁, h₁, h₂⟩ := Option.map_eq_some_iff.mp h
    have hadd := treeAdd_byte h₁
    rw [← (Prod.mk.inj h₂).1]
    exact hadd

theorem reclaimTail_byte (h : m.reclaimTail = some m') : m'.byte = m.byte := by
  rw [MM.reclaimTail] at h
  split_ifs at h
  · obtain ⟨⟨m₁, b⟩, h₁, h₂⟩ := Option.map_eq_some_iff.mp h
    have hfree := freeNoLock_byte h₁
    rw [← h₂]
    exact hfree
  · rw [← Option.some.inj h]

theorem advance_byte : (m.advance size2).byte = m.byte := by
  unfold MM.advance
  split_ifs <;> rfl

theorem allocPage_byte : (m.allocPage cnt page).1.byte = m.byte := by
  unfold MM.allocPage
  split_ifs <;> rfl

theorem bumpAlloc_byte (h : m.bumpAlloc size2 cnt page = some (m', q)) : m'.byte = m.byte := by
  rw [MM.bumpAlloc] at h
  split_ifs at h
  · obtain ⟨m₁, h₁, h₂⟩ := Option.map_eq_some_iff.mp h
    have hpage := @allocPage_byte m₁ cnt page
    dsimp only at h₂
    split_ifs at h₂
    · rw [← (Prod.mk.inj h₂).1, hpage, reclaimTail_byte h₁]
    · rw [← (Prod.mk.inj h₂).1, advance_byte, ← reclaimTail_byte h₁]
      exact hpage
  · rw [← (Prod.mk.inj (Option.some.inj h)).1, advance_byte]

theorem allocMem_byte {ty : AllocType} (h : m.allocMem size ty page = some (m', q)) :
    m'.byte = m.byte := by
  obtain ⟨⟨m₁, avail⟩, h₁, h₂⟩ := Option.bind_eq_some_iff.mp h
  obtain ⟨⟨m₂, ptr⟩, h₃, h₄⟩ := Option.map_eq_some_iff.mp h₂
  have hfirst : m₁.byte = m.byte := by
    split_ifs at h₁
    · exact findAvail_byte h₁
    · rw [← (Prod.mk.inj (Option.some.inj h₁)).1]
  have hsecond : m₂.byte = m₁.byte := by
    split_ifs at h₃
    · exact bumpAlloc_byte h₃
    · rw [← (Prod.mk.inj (Option.some.inj h₃)).1]
  rw [← hfirst, ← hsecond]
  dsimp only at h₄
  split_ifs at h₄
  · rw [← (Prod.mk.inj h₄).1]
  · rw [← (Prod.mk.inj h₄).1]
    rfl

theorem alloc_byte (h : m.alloc size .normal page = some (m', q)) : m'.byte = m.byte := by
  rw [MM.alloc] at h
  split_ifs at h
  · rw [← (Prod.mk.inj (Option.some.inj h)).1]
  · exact allocMem_byte h

end Bytes

/-- The two ranges have no byte in common. -/
def Apart (p n q k : Word) : Prop :=
  ∀ i < n.toNat, ∀ j < k.toNat, p + BitVec.ofNat 32 i ≠ q + BitVec.ofNat 32 j

/-- The block, given by its address and its size, is in use. -/
structure InUse (m : MM) (e : Word × Word) : Prop where
  state : (m.info (ptrToPtrinfo e.1)).state = .used
  used : (m.info (ptrToPtrinfo e.1)).used = true
  size : (m.info (ptrToPtrinfo e.1)).size = e.2

/-- A block in use that holds what it held before. -/
structure Unchanged (m m' : MM) (e : Word × Word) : Prop extends InUse m' e where
  bytes : ∀ i < e.2.toNat, m'.byte (e.1 + BitVec.ofNat 32 i) = m.byte (e.1 + BitVec.ofNat 32 i)

/-- The block `p` of `n` bytes went to the new block `q` of `size` bytes, and into the free tree. -/
structure Moved (s : State) (p n size : Word) (m' : MM) (q : Word) : Prop where
  nonnull : q ≠ 0
  inUse : InUse m' (q, size)
  apart : ∀ e ∈ s.live, Apart q size e.1 e.2
  bytes : ∀ i < min n.toNat size.toNat, m'.byte (q + BitVec.ofNat 32 i) = s.mm.byte (p + BitVec.ofNat 32 i)
  freed : (m'.info (ptrToPtrinfo p)).state = .freed ∧ (m'.info (ptrToPtrinfo p)).used = false
  once : ∃ t, FreeTree m' t ∧ ptrToPtrinfo p ∈ nodes t
  others : ∀ e ∈ s.live, e.1 ≠ p → Unchanged s.mm m' e

/-- What `realloc` may do with a live block of `n` bytes: fail and change no block, answer with the
block itself, or move it. -/
def ReallocLaw (s : State) (p n size : Word) (m' : MM) (q : Word) : Prop :=
  (q = 0 ∧ ∀ e ∈ s.live, Unchanged s.mm m' e) ∨ (q = p ∧ size = n ∧ m' = s.mm) ∨ Moved s p n size m' q

section Law
variable {s : State} {m : MM} {blocks : Set Word} {t : BinaryTree Word} {p q n size page : Word}

theorem Regions.toNat_payload (h : Regions m blocks) {a : Word} (ha : a ∈ blocks) {i : ℕ}
    (hi : i < (m.info a).size.toNat) : (ptrinfoToPtr a + BitVec.ofNat 32 i).toNat = a.toNat + 20 + i := by
  have hlt := h.ptr_lt a ha
  obtain ⟨run, hrun, -, hend⟩ := h.inRun a ha
  have hin := h.runs_inside run hrun
  have hsize : blockEnd m a = a.toNat + 20 + (m.info a).size.toNat := rfl
  have htwenty : (20 : Word).toNat = 20 := rfl
  unfold ptrinfoToPtr sizeofPtrInfo
  rw [BitVec.toNat_add, BitVec.toNat_add, BitVec.toNat_ofNat, htwenty]
  omega

theorem Regions.apart_payload (h : Regions m blocks) {a b : Word} (ha : a ∈ blocks) (hb : b ∈ blocks)
    (hab : a ≠ b) : Apart (ptrinfoToPtr a) (m.info a).size (ptrinfoToPtr b) (m.info b).size := by
  intro i hi j hj heq
  have hnat := congrArg BitVec.toNat heq
  have hap := h.apart a ha b hb hab
  rw [h.toNat_payload ha hi, h.toNat_payload hb hj] at hnat
  unfold blockEnd at hap
  omega

theorem ptrToPtrinfo_inj (h : ptrToPtrinfo p = ptrToPtrinfo q) : p = q := by
  rw [← ptrinfoToPtr_ptrToPtrinfo p, h, ptrinfoToPtr_ptrToPtrinfo]

theorem Inv.apart_live (h : Inv s blocks t) {e e' : Word × Word} (he : e ∈ s.live) (he' : e' ∈ s.live)
    (hne : e.1 ≠ e'.1) : Apart e.1 e.2 e'.1 e'.2 := by
  have hb := (h.live _ (State.mem_livePtrs he)).1
  have hb' := (h.live _ (State.mem_livePtrs he')).1
  have hap := h.regions.apart_payload hb hb' fun hc => hne (ptrToPtrinfo_inj hc)
  rwa [h.sizes e he, h.sizes e' he', ptrinfoToPtr_ptrToPtrinfo, ptrinfoToPtr_ptrToPtrinfo] at hap

theorem Inv.live_end (h : Inv s blocks t) {e : Word × Word} (he : e ∈ s.live) :
    e.1 ≠ 0 ∧ e.1.toNat + e.2.toNat ≤ 2 ^ 32 := by
  have hb := (h.live _ (State.mem_livePtrs he)).1
  have hlt := h.regions.ptr_lt _ hb
  obtain ⟨run, hrun, -, hend⟩ := h.regions.inRun _ hb
  have hin := h.regions.runs_inside run hrun
  have hsize := h.sizes e he
  have hptr : e.1.toNat = (ptrToPtrinfo e.1).toNat + 20 := by
    unfold ptrToPtrinfo sizeofPtrInfo at hlt ⊢
    bv_omega
  unfold blockEnd at hend
  rw [hsize] at hend
  constructor
  · exact h.live_ne_zero (State.mem_livePtrs he)
  · omega

theorem Inv.inUse (h : Inv s blocks t) {e : Word × Word} (he : e ∈ s.live) : InUse s.mm e := by
  obtain ⟨-, hstate, hused⟩ := h.live _ (State.mem_livePtrs he)
  exact ⟨hstate, hused, h.sizes e he⟩

theorem InUse.congr {m' : MM} {e : Word × Word} (h : InUse m e)
    (hinfo : (m'.info (ptrToPtrinfo e.1)).unlinked = (m.info (ptrToPtrinfo e.1)).unlinked) :
    InUse m' e := by
  constructor
  · exact (congrArg PtrInfo.state hinfo).trans h.state
  · exact (congrArg PtrInfo.used hinfo).trans h.used
  · exact (congrArg PtrInfo.size hinfo).trans h.size

/-- The live blocks are as they were when no payload byte was stored. -/
theorem Inv.unchanged {m' : MM} (h : Inv s blocks t) {live : List (Word × Word)} (hlive : live ⊆ s.live)
    (hbyte : s.mm.byte = m'.byte) {e : Word × Word} (he : e ∈ live) : Unchanged m' s.mm e := by
  constructor
  · exact h.inUse (hlive he)
  · intro i _
    rw [hbyte]

theorem toNat_fitting : (if size < n then size else n).toNat = min n.toNat size.toNat := by
  by_cases hlt : size < n
  · have hlt' : size.toNat < n.toNat := hlt
    rw [if_pos hlt]
    omega
  · have hle : n.toNat ≤ size.toNat := Nat.not_lt.mp hlt
    rw [if_neg hlt]
    omega

section Copied
variable {byte : Bytes} {k : Word}

theorem move_inside (hq : q ≠ 0) (hp : p ≠ 0) (hqend : q.toNat + size.toNat ≤ 2 ^ 32)
    (hpend : p.toNat + n.toNat ≤ 2 ^ 32) (hk : k.toNat = min n.toNat size.toNat) {i : ℕ}
    (hi : i < k.toNat) :
    Mem.move byte q p k (q + BitVec.ofNat 32 i) = byte (p + BitVec.ofNat 32 i) := by
  have hback : p + (q + BitVec.ofNat 32 i - q) = p + BitVec.ofNat 32 i := by bv_omega
  have hlt := k.isLt
  have hto : (q + BitVec.ofNat 32 i).toNat = q.toNat + i := by
    rw [BitVec.toNat_add, BitVec.toNat_ofNat]
    omega
  rw [Mem.move_apply hq hp (by omega) (by omega), hback, if_pos]
  omega

end Copied

/-- The end of `realloc`, behind an allocation that stored no payload byte: the bytes are moved, and
the old block is freed. -/
theorem reallocMove_moved (h : Inv (s.hand m q size) blocks t) (hq : q ≠ 0) (hp : (p, n) ∈ s.live)
    (hnew : q ∉ s.livePtrs) (hbyte : m.byte = s.mm.byte) :
    ∃ m', m.reallocMove p q size = some (m', q) ∧ Moved s p n size m' q := by
  have hhand : s.hand m q size = ⟨m, (q, size) :: s.live, q :: s.issued⟩ := if_neg hq
  rw [hhand] at h
  have hpl : (p, n) ∈ (q, size) :: s.live := List.mem_cons_of_mem _ hp
  obtain ⟨hb, hstate, hused⟩ := h.live p (State.mem_livePtrs (e := (p, n)) hpl)
  obtain ⟨hp0, hpend⟩ := h.live_end hpl
  obtain ⟨-, hqend⟩ := h.live_end (e := (q, size)) List.mem_cons_self
  have hsize : (m.info (ptrToPtrinfo p)).size = n := h.sizes _ hpl
  have hold : ptrToPtrinfo p ≠ 0 := h.regions.ne_zero hb
  have hapart : ∀ e ∈ s.live, Apart q size e.1 e.2 := by
    intro e he
    apply h.apart_live (e := (q, size)) List.mem_cons_self (List.mem_cons_of_mem _ he)
    rintro rfl
    exact hnew (State.mem_livePtrs he)
  -- the free of the old block writes headers only
  let k := if size < n then size else n
  have hk : k.toNat = min n.toNat size.toNat := toNat_fitting
  have hinv₁ : HeapInv { m with byte := Mem.move m.byte q p k } blocks t := h.toHeapInv.setByte _
  obtain ⟨m', hfree, hok, hdata⟩ := hinv₁.toHeapOk.free hb hstate hused
  rw [ptrinfoToPtr_ptrToPtrinfo] at hfree
  have hbytes : m'.byte = Mem.move s.mm.byte q p k := by
    rw [hdata.byte, ← hbyte]
    rfl
  have hinfo : ∀ a, a ≠ ptrToPtrinfo p → (m'.info a).unlinked = (m.info a).unlinked := by
    intro a ha
    rw [hdata.info, MM.setInfo_of_ne _ _ ha]
  have hin : ptrToPtrinfo p ∈ nodes (insertLeaf m.key (ptrToPtrinfo p) t) := (mem_insertLeaf _).mpr (.inl rfl)
  refine ⟨m', ?_, ?_⟩
  · simp only [MM.reallocMove, hsize, if_pos hold]
    change (MM.freeNoLock { m with byte := Mem.move m.byte q p k } p).map (fun x => (x.1, q)) = _
    rw [hfree, Option.map_some]
  · constructor
    case nonnull => exact hq
    case inUse =>
      have hne : q ≠ p := fun hc => hnew (hc ▸ State.mem_livePtrs (e := (p, n)) hp)
      exact (h.inUse (e := (q, size)) List.mem_cons_self).congr (hinfo _ fun hc => hne (ptrToPtrinfo_inj hc))
    case apart => exact hapart
    case bytes =>
      intro i hi
      rw [hbytes]
      exact move_inside hq hp0 hqend hpend hk (hk ▸ hi)
    case freed => exact hok.nodes_freed _ hin
    case once => exact ⟨_, hok.tree, hin⟩
    case others =>
      intro e he hne
      constructor
      · exact (h.inUse (List.mem_cons_of_mem _ he)).congr (hinfo _ fun hc => hne (ptrToPtrinfo_inj hc))
      · intro i hi
        rw [hbytes]
        exact Mem.move_outside fun j hj => hapart e he j (by omega) i hi

theorem Inv.realloc (h : Inv s blocks t) (hp : (p, n) ∈ s.live) (hsize : size ≠ 0)
    (hpage : PageAnswer s.mm (MM.pagesFor (size + sizeofPtrInfo)) page)
    (hbump : BumpSafe s (.realloc p size page)) :
    ∃ m' q, s.mm.realloc p size page = some (m', q) ∧ ReallocLaw s p n size m' q := by
  have hlive : p ∈ s.livePtrs := State.mem_livePtrs (e := (p, n)) hp
  have hp0 : p ≠ 0 := h.live_ne_zero hlive
  have hold : (s.mm.info (ptrToPtrinfo p)).size = n := h.sizes _ hp
  have hzero : ¬ (size = 0 ∧ p ≠ 0) := fun hc => hsize hc.1
  by_cases hsame : n = size
  · have hstay : s.mm.realloc p size page = some (s.mm, p) := by
      rw [MM.realloc, if_neg hzero, if_pos ⟨hp0, hold.trans hsame⟩]
    exact ⟨s.mm, p, hstay, .inr (.inl ⟨rfl, hsame.symm, rfl⟩)⟩
  · have hother : ¬ (p ≠ 0 ∧ (s.mm.info (ptrToPtrinfo p)).size = size) := fun hc =>
      hsame (hold.symm.trans hc.2)
    obtain ⟨m₁, q, blocks', t', halloc, hinv, heff, -⟩ := alloc_spec h.toHeapInv
      (by decide : AllocType.normal ≠ .page) hpage
      fun hguard => hbump (size, .normal) (allocMemCall_realloc hzero hother hguard)
    have hhand := h.hand hinv heff
    have hbyte := alloc_byte halloc
    have hreal := realloc_of_alloc hzero hother halloc
    by_cases hq : q = 0
    · rw [State.hand, if_pos hq] at hhand
      rw [if_pos hq] at hreal
      exact ⟨m₁, 0, hreal, .inl ⟨rfl, fun e he => hhand.unchanged (fun _ hc => hc) hbyte he⟩⟩
    · have hnodup := hhand.nodup
      rw [State.livePtrs_hand hq] at hnodup
      obtain ⟨m', hmove, hmoved⟩ := reallocMove_moved hhand hq hp (List.nodup_cons.mp hnodup).1 hbyte
      have hused : ¬ (p = 0 ∨ (s.mm.info (ptrToPtrinfo p)).state = .freed) := by
        rw [(h.live p hlive).2.1]
        exact not_or.mpr ⟨hp0, by decide⟩
      rw [if_neg hq, if_neg hused, hmove] at hreal
      exact ⟨m', q, hreal, .inr (.inr hmoved)⟩

end Law

@[simp] theorem State.hand_mm (s : State) (m : MM) (q size : Word) : (s.hand m q size).mm = m := by
  unfold State.hand
  split_ifs <;> rfl

@[simp] theorem State.move_mm (s : State) (m : MM) (p size q : Word) : (s.move m p size q).mm = m := by
  unfold State.move
  split_ifs <;> rfl

section Stores
variable {s s' : State} {m m' : MM} {blocks : Set Word} {t : BinaryTree Word} {op : Op} {p q q' size page x : Word}

theorem clearLoop_outside {ptr : Word} {n : ℕ} {mem : Bytes} (hx : ∀ i < n, ptr + BitVec.ofNat 32 i ≠ x) :
    MM.clearLoop ptr n mem x = mem x := by
  induction n with
  | zero => rfl
  | succ n ih =>
    have hlast : x ≠ ptr + BitVec.ofNat 32 n := (hx n (Nat.lt_succ_self n)).symm
    rw [MM.clearLoop, Function.update_of_ne hlast, ih fun i hi => hx i (by omega)]

/-- An allocation stores bytes in the block that it hands out only. -/
theorem alloc_stores {ty : AllocType} (h : m.alloc size ty page = some (m', q)) (hx : m'.byte x ≠ m.byte x) :
    ty ≠ .page ∧ q ≠ 0 ∧ ∃ i < size.toNat, q + BitVec.ofNat 32 i = x := by
  rw [MM.alloc.eq_def] at h
  split_ifs at h with hguard
  · rw [← (Prod.mk.inj (Option.some.inj h)).1] at hx
    exact absurd rfl hx
  · cases ty with
    | normal => exact absurd (congrFun (allocMem_byte h) x) hx
    | fast => exact absurd (congrFun (allocMem_byte h) x) hx
    | page =>
      have hbyte := congrArg (fun r => r.1.byte x) (Option.some.inj h)
      exact absurd (hbyte.symm.trans (congrFun allocPage_byte x)) hx
    | clear =>
      obtain ⟨⟨m₁, ptr⟩, hmem, hclear⟩ := Option.map_eq_some_iff.mp h
      have hbyte := allocMem_byte hmem
      dsimp only at hclear
      split_ifs at hclear with hnull
      · rw [← (Prod.mk.inj hclear).1, hbyte] at hx
        exact absurd rfl hx
      · obtain ⟨rfl, rfl⟩ := Prod.mk.inj hclear
        refine ⟨nofun, hnull, by_contra fun hout => hx ?_⟩
        rw [← hbyte]
        exact clearLoop_outside fun i hi heq => hout ⟨i, hi, heq⟩

theorem reallocMove_stores (h : m.reallocMove p q size = some (m', q')) (hx : m'.byte x ≠ m.byte x) :
    q' = q ∧ q ≠ p ∧ ∃ i < size.toNat, q + BitVec.ofNat 32 i = x := by
  obtain ⟨⟨m₁, freed⟩, hfree, heq⟩ := Option.map_eq_some_iff.mp h
  obtain ⟨rfl, rfl⟩ := Prod.mk.inj heq
  rw [freeNoLock_byte hfree] at hx
  have hfits := @toNat_fitting (m.info (ptrToPtrinfo p)).size size
  generalize (if size < (m.info (ptrToPtrinfo p)).size then size else (m.info (ptrToPtrinfo p)).size) = k at hx hfits
  by_cases hold : ptrToPtrinfo p ≠ 0
  · rw [if_pos hold] at hx
    refine ⟨rfl, ?_, by_contra fun hout => hx ?_⟩
    · rintro rfl
      exact hx (congrFun (Mem.move_self _ _ _) x)
    · exact Mem.move_outside fun i hi heq => hout ⟨i, by omega, heq⟩
  · rw [if_neg hold] at hx
    exact absurd rfl hx

theorem realloc_stores (h : m.realloc p size page = some (m', q)) (hx : m'.byte x ≠ m.byte x) :
    q ≠ 0 ∧ q ≠ p ∧ ∃ i < size.toNat, q + BitVec.ofNat 32 i = x := by
  by_cases hzero : size = 0 ∧ p ≠ 0
  · rw [MM.realloc, if_pos hzero] at h
    obtain ⟨⟨m₁, freed⟩, hfree, heq⟩ := Option.map_eq_some_iff.mp h
    rw [← (Prod.mk.inj heq).1] at hx
    exact absurd (congrFun (freeNoLock_byte hfree) x) hx
  · by_cases hsame : p ≠ 0 ∧ (m.info (ptrToPtrinfo p)).size = size
    · rw [MM.realloc, if_neg hzero, if_pos hsame] at h
      rw [← (Prod.mk.inj (Option.some.inj h)).1] at hx
      exact absurd rfl hx
    · have hbind := h
      rw [MM.realloc, if_neg hzero, if_neg hsame] at hbind
      obtain ⟨⟨m₁, tmp⟩, halloc, -⟩ := Option.bind_eq_some_iff.mp hbind
      rw [realloc_of_alloc hzero hsame halloc] at h
      rw [← alloc_byte halloc] at hx
      split_ifs at h with hnull hptr
      · rw [← (Prod.mk.inj (Option.some.inj h)).1] at hx
        exact absurd rfl hx
      · rw [← (Prod.mk.inj (Option.some.inj h)).1] at hx
        exact absurd rfl hx
      · obtain ⟨rfl, hne, hin⟩ := reallocMove_stores h hx
        exact ⟨hnull, hne, hin⟩

/-- Where a step changes a byte, there is a block in use. -/
theorem Inv.stores_live (h : Inv s blocks t) (hstep : Step s op s') (hx : s'.mm.byte x ≠ s.mm.byte x) :
    ∃ e ∈ s'.live, ∃ i < e.2.toNat, e.1 + BitVec.ofNat 32 i = x := by
  obtain ⟨hallow, hexec⟩ := hstep
  cases op with
  | alloc size ty page =>
    obtain ⟨⟨m, q⟩, halloc, rfl⟩ := Option.map_eq_some_iff.mp hexec
    have hm : m.byte x ≠ s.mm.byte x := by
      by_cases hty : ty = .page
      · simpa only [if_pos hty] using hx
      · simpa only [if_neg hty, State.hand_mm] using hx
    obtain ⟨hty, hq, hin⟩ := alloc_stores halloc hm
    dsimp only
    rw [if_neg hty, State.hand, if_neg hq]
    exact ⟨(q, size), List.mem_cons_self, hin⟩
  | free p =>
    obtain ⟨⟨m, freed⟩, hfree, rfl⟩ := Option.map_eq_some_iff.mp hexec
    exact absurd (congrFun (freeNoLock_byte hfree) x) hx
  | realloc p size page =>
    obtain ⟨⟨m, q⟩, hrealloc, rfl⟩ := Option.map_eq_some_iff.mp hexec
    rw [State.move_mm] at hx
    obtain ⟨hq, hne, hin⟩ := realloc_stores hrealloc hx
    have hmove : s.move m p size q = (s.hand m q size).drop m p :=
      if_neg (not_or.mpr ⟨hne, fun hc => hq hc.1⟩)
    dsimp only
    rw [hmove, State.hand, if_neg hq]
    exact ⟨(q, size), List.mem_filter.mpr ⟨List.mem_cons_self, decide_eq_true hne⟩, hin⟩
  | write p info byte =>
    obtain rfl := Option.some.inj hexec
    obtain ⟨hp, hin⟩ := hallow
    obtain ⟨e, he, rfl⟩ := List.mem_map.mp hp
    have hsize := h.sizes e he
    refine ⟨e, he, by_contra fun hout => hx (hin.byte x fun j hj heq => hout ⟨j, ?_, heq.symm⟩)⟩
    rwa [← hsize]

/-- No step stores a byte where a header is, so that headers and bytes can be kept apart. -/
theorem headers_kept_of_run {info : Word → PtrInfo} {byte : Bytes} {ops : List Op} {r : Word × Word} {i : ℕ}
    (h : Run (Guarded Step fun s op _ => BumpSafe s op) (State.start info byte) ops s) (hstep : Step s op s')
    (hbump : BumpSafe s op) (hr : Region s' r) (hi : i < 20) :
    s'.mm.byte (r.1 + BitVec.ofNat 32 i) = s.mm.byte (r.1 + BitVec.ofNat 32 i) := by
  obtain ⟨blocks, t, hinv⟩ := run_inv h
  obtain ⟨blocks', t', hinv', -⟩ := hstep.sound hinv hbump
  by_contra hx
  obtain ⟨e, he, j, hj, heq⟩ := hinv.stores_live hstep hx
  have hmiss := hinv'.regions.not_overlaps (hinv'.region hr).1 (hinv'.live _ (State.mem_livePtrs he)).1
  rw [hinv'.sizes e he, ptrinfoToPtr_ptrToPtrinfo] at hmiss
  exact hmiss ⟨i, hi, j, hj, heq.symm⟩

end Stores

section Runs
variable {info : Word → PtrInfo} {byte : Bytes} {ops : List Op} {s : State} {p n size page : Word}

/-- In every run whose bump tests are sound, `realloc` comes back and keeps its law. -/
theorem realloc_of_run
    (h : Run (Guarded Step fun s op _ => BumpSafe s op) (State.start info byte) ops s)
    (hp : (p, n) ∈ s.live) (hsize : size ≠ 0) (hallow : Allowed s (.realloc p size page))
    (hbump : BumpSafe s (.realloc p size page)) :
    ∃ m' q, s.mm.realloc p size page = some (m', q) ∧ ReallocLaw s p n size m' q := by
  obtain ⟨blocks, t, hinv⟩ := run_inv h
  exact hinv.realloc hp hsize hallow.2 hbump

def oneBlock : State := blank.next (.alloc 100 .fast 0x1000)

theorem realloc_of_run_grown : ∃ m' q, oneBlock.mm.realloc 0x1014 200 0 = some (m', q) ∧
    ReallocLaw oneBlock 0x1014 100 200 m' q := by
  have hplays : Plays BumpSafe blank [.alloc 100 .fast 0x1000] := by
    refine ⟨.inr freshRun_first, ?_, trivial⟩
    decide +kernel
  have hallow : Allowed oneBlock (.realloc 0x1014 200 0) := ⟨.inr (by decide +kernel), .inl rfl⟩
  exact realloc_of_run hplays.run (by decide +kernel) (by decide) hallow (by decide +kernel)

/-- The wrapped bump test again: the new block covers the old one. -/
theorem realloc_overlaps :
    Run Step blank [.alloc 100 .fast 0x1000] oneBlock ∧ (0x1014, 100) ∈ oneBlock.live ∧
      Allowed oneBlock (.realloc 0x1014 0xFFFFFFEB 0) ∧
      ∃ m' q, oneBlock.mm.realloc 0x1014 0xFFFFFFEB 0 = some (m', q) ∧
        ¬ ReallocLaw oneBlock 0x1014 100 0xFFFFFFEB m' q := by
  have hlive : (0x1014, 100) ∈ oneBlock.live := by decide +kernel
  refine ⟨?_, hlive, ⟨.inr (by decide +kernel), .inl rfl⟩, ?_⟩
  · have hplays : Plays (fun _ _ => True) blank [.alloc 100 .fast 0x1000] := by
      refine ⟨.inr freshRun_first, ?_, trivial⟩
      decide +kernel
    exact hplays.run.unguard
  · have hanswer : (oneBlock.mm.realloc 0x1014 0xFFFFFFEB 0).map Prod.snd = some 0x108C := by
      decide +kernel
    obtain ⟨⟨m', q⟩, heq, hq⟩ := Option.map_eq_some_iff.mp hanswer
    change q = 0x108C at hq
    refine ⟨m', q, heq, ?_⟩
    rintro (⟨hnull, -⟩ | ⟨hsame, -, -⟩ | hmoved)
    · rw [hq] at hnull
      exact absurd hnull (by decide)
    · rw [hq] at hsame
      exact absurd hsame (by decide)
    · have hapart := hmoved.apart _ hlive
      rw [hq] at hapart
      exact hapart 0xFFFFFF88 (by decide) 0 (by decide) (by decide)

end Runs

end CxxKernel.Heap
