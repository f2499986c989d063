import CxxKernel.Heap.FreeTree

/-! Where the blocks lie: every header with its payload inside one page run, all of them
apart from one another and from the bump region. Sizes and ends are exact numbers here, so
the lemmas say at the same time that the 32-bit sums do not wrap. -/
namespace CxxKernel.Heap
open BinaryTree SearchTree LinkedTree

/-- The end of a page run, in exact arithmetic. -/
def runEnd (run : Word × Word) : ℕ := run.1.toNat + run.2.toNat * 4096

/-- The end of the block with the header `a`, in exact arithmetic. -/
def blockEnd (m : MM) (a : Word) : ℕ := a.toNat + 20 + (m.info a).size.toNat

/-- `cnt` whole pages at `base` that meet none of the page runs handed out before. -/
structure FreshRun (runs : List (Word × Word)) (base cnt : Word) : Prop where
  nonnull : base ≠ 0
  aligned : base.toNat % 4096 = 0
  inside : runEnd (base, cnt) ≤ 2 ^ 32
  disjoint : ∀ run ∈ runs, ∀ x, run.1.toNat ≤ x → x < runEnd run →
    base.toNat ≤ x → runEnd (base, cnt) ≤ x

/-- `allocPage` answers with null or with fresh pages. -/
def PageAnswer (m : MM) (cnt page : Word) : Prop := page = 0 ∨ FreshRun m.runs page cnt

/-- The regions of the blocks. -/
structure Regions (m : MM) (blocks : Set Word) : Prop where
  runs_aligned : ∀ run ∈ m.runs, run.1.toNat % 4096 = 0
  runs_nonnull : ∀ run ∈ m.runs, run.1 ≠ 0
  runs_inside : ∀ run ∈ m.runs, runEnd run ≤ 2 ^ 32
  inRun : ∀ a ∈ blocks, ∃ run ∈ m.runs, run.1.toNat ≤ a.toNat ∧ blockEnd m a ≤ runEnd run
  ptr_lt : ∀ a ∈ blocks, a.toNat + 20 < 2 ^ 32
  apart : ∀ a ∈ blocks, ∀ b ∈ blocks, a ≠ b →
    blockEnd m a ≤ b.toNat ∨ blockEnd m b ≤ a.toNat

/-- The bump region is the end of a page run and holds no block. -/
structure BumpOk (m : MM) (blocks : Set Word) : Prop where
  inRun : m.BumpReady → ∃ run ∈ m.runs, run.1.toNat ≤ m.freeTop.toNat ∧
    m.freeTop.toNat ≤ m.freeMax.toNat ∧ m.freeMax.toNat = runEnd run
  free : m.BumpReady → ∀ a ∈ blocks,
    blockEnd m a ≤ m.freeTop.toNat ∨ m.freeMax.toNat ≤ a.toNat

namespace Regions
variable {m m' : MM} {blocks : Set Word}

theorem congr (h : Regions m blocks) (hruns : m'.runs = m.runs)
    (hsize : ∀ a ∈ blocks, (m'.info a).size = (m.info a).size) : Regions m' blocks := by
  have hend : ∀ a ∈ blocks, blockEnd m' a = blockEnd m a := fun a ha => by
    rw [blockEnd, hsize a ha, blockEnd]
  refine ⟨?_, ?_, ?_, fun a ha => ?_, h.ptr_lt, fun a ha b hb hab => ?_⟩
  · rw [hruns]; exact h.runs_aligned
  · rw [hruns]; exact h.runs_nonnull
  · rw [hruns]; exact h.runs_inside
  · rw [hruns, hend a ha]; exact h.inRun a ha
  · rw [hend a ha, hend b hb]; exact h.apart a ha b hb hab

theorem ne_zero (h : Regions m blocks) {a : Word} (ha : a ∈ blocks) : a ≠ 0 := by
  obtain ⟨run, hrun, hle, -⟩ := h.inRun a ha
  have hne := h.runs_nonnull run hrun
  bv_omega

theorem ptr_ne_zero (h : Regions m blocks) {a : Word} (ha : a ∈ blocks) :
    ptrinfoToPtr a ≠ 0 := by
  have hlt := h.ptr_lt a ha
  unfold ptrinfoToPtr sizeofPtrInfo
  bv_omega

/-- A new block joins the others when it lies in a page run, apart from them. -/
theorem insert (h : Regions m blocks) {a : Word} {run : Word × Word} (hrun : run ∈ m.runs)
    (hle : run.1.toNat ≤ a.toNat) (hend : blockEnd m a ≤ runEnd run)
    (hlt : a.toNat + 20 < 2 ^ 32)
    (hapart : ∀ b ∈ blocks, blockEnd m b ≤ a.toNat ∨ blockEnd m a ≤ b.toNat) :
    Regions m (insert a blocks) := by
  refine ⟨h.runs_aligned, h.runs_nonnull, h.runs_inside, ?_, ?_, ?_⟩
  · rintro b (rfl | hb)
    · exact ⟨run, hrun, hle, hend⟩
    · exact h.inRun b hb
  · rintro b (rfl | hb)
    · exact hlt
    · exact h.ptr_lt b hb
  · rintro b (rfl | hb) c (rfl | hc) hbc
    · exact absurd rfl hbc
    · exact (hapart c hc).symm
    · exact hapart b hb
    · exact h.apart b hb c hc hbc

theorem addRun (h : Regions m blocks) {base cnt : Word} (hf : FreshRun m.runs base cnt)
    (hruns : m'.runs = (base, cnt) :: m.runs) (hinfo : m'.info = m.info) :
    Regions m' blocks := by
  have hend : ∀ a, blockEnd m' a = blockEnd m a := fun a => by
    rw [blockEnd, hinfo, blockEnd]
  refine ⟨?_, ?_, ?_, fun a ha => ?_, h.ptr_lt, fun a ha b hb hab => ?_⟩
  · rw [hruns]; exact List.forall_mem_cons.mpr ⟨hf.aligned, h.runs_aligned⟩
  · rw [hruns]; exact List.forall_mem_cons.mpr ⟨hf.nonnull, h.runs_nonnull⟩
  · rw [hruns]; exact List.forall_mem_cons.mpr ⟨hf.inside, h.runs_inside⟩
  · obtain ⟨run, hrun, hle, hre⟩ := h.inRun a ha
    exact ⟨run, by rw [hruns]; exact List.mem_cons_of_mem _ hrun, hle, by rwa [hend]⟩
  · rw [hend, hend]; exact h.apart a ha b hb hab

theorem apart_fresh (h : Regions m blocks) {base cnt : Word} (hf : FreshRun m.runs base cnt)
    (hcnt : 0 < cnt.toNat) {a : Word} (ha : a ∈ blocks) :
    blockEnd m a ≤ base.toNat ∨ runEnd (base, cnt) ≤ a.toNat := by
  obtain ⟨run, hrun, hle, hre⟩ := h.inRun a ha
  by_contra hc
  push Not at hc
  have hbe : a.toNat + 20 ≤ blockEnd m a := Nat.le_add_right _ _
  have hme : base.toNat < runEnd (base, cnt) := by
    unfold runEnd
    dsimp only
    omega
  have hx := hf.disjoint run hrun (max a.toNat base.toNat) (by omega) (by omega) (by omega)
  omega

end Regions

namespace BumpOk
variable {m m' : MM} {blocks : Set Word}

theorem congr (h : BumpOk m blocks) (hruns : m'.runs = m.runs)
    (hpage : m'.lastPage = m.lastPage) (htop : m'.freeTop = m.freeTop)
    (hmax : m'.freeMax = m.freeMax)
    (hsize : ∀ a ∈ blocks, (m'.info a).size = (m.info a).size) : BumpOk m' blocks := by
  have hready : m'.BumpReady → m.BumpReady := by
    unfold MM.BumpReady
    rw [hpage, htop, hmax]
    exact id
  refine ⟨fun hr => ?_, fun hr a ha => ?_⟩
  · rw [hruns, htop, hmax]; exact h.inRun (hready hr)
  · rw [blockEnd, hsize a ha, htop, hmax]; exact h.free (hready hr) a ha

end BumpOk

/-- The tree holds freed blocks only, and the blocks are laid out well. -/
structure HeapOk (m : MM) (blocks : Set Word) (t : BinaryTree Word) : Prop where
  tree : FreeTree m t
  nodes_blocks : ∀ a ∈ nodes t, a ∈ blocks
  nodes_freed : ∀ a ∈ nodes t, (m.info a).state = .freed ∧ (m.info a).used = false
  regions : Regions m blocks

theorem FreeTree.congr {m m' : MM} {t : BinaryTree Word} (h : FreeTree m t)
    (hinfo : ∀ a ∈ nodes t, m'.info a = m.info a) (hfree : m'.lastFree = m.lastFree) :
    FreeTree m' t := by
  have hroot : m'.root = m.root := by
    unfold MM.root
    rw [hfree]
  refine ⟨?_, h.nodup, h.nonnull, h.ordered.congr fun a ha => ?_⟩
  · rw [hroot]
    refine h.shape.congr (fun a ha => ?_) fun a ha => ?_
    · rw [MM.left, hinfo a ha, MM.left]
    · rw [MM.right, hinfo a ha, MM.right]
  · rw [MM.key, hinfo a ha, MM.key]

theorem FreeTree.setInfo {m : MM} {t : BinaryTree Word} (h : FreeTree m t) {a : Word}
    (i : PtrInfo) (ha : a ∉ nodes t) : FreeTree (m.setInfo a i) t :=
  h.congr (fun _ hb => m.setInfo_of_ne i fun he => ha (he ▸ hb)) rfl

theorem HeapOk.congr {m m' : MM} {blocks : Set Word} {t : BinaryTree Word}
    (h : HeapOk m blocks t) (hinfo : ∀ a ∈ blocks, m'.info a = m.info a)
    (hfree : m'.lastFree = m.lastFree) (hreg : Regions m' blocks) : HeapOk m' blocks t := by
  have hnodes : ∀ a ∈ nodes t, m'.info a = m.info a := fun a ha => hinfo a (h.nodes_blocks a ha)
  refine ⟨h.tree.congr hnodes hfree, h.nodes_blocks, fun a ha => ?_, hreg⟩
  rw [hnodes a ha]
  exact h.nodes_freed a ha

@[simp] theorem and_SIZEMASK (x : Word) : x &&& SIZEMASK = x := by
  unfold SIZEMASK
  exact BitVec.and_allOnes

section FreeNoLock
variable {m : MM} {t : BinaryTree Word} {cur : Word}

/-- A header as `freeNoLock` leaves it, its links apart. -/
def PtrInfo.freed (i : PtrInfo) : PtrInfo :=
  { i with prev := 0, next := 0, state := .freed, used := false }

theorem freeNoLock_of_unused {p : Word} (h : (m.info (ptrToPtrinfo p)).used = false) :
    m.freeNoLock p = some (m, false) := by
  unfold MM.freeNoLock
  split_ifs
  · rfl
  · simp [h]

theorem freeNoLock_spec (h : FreeTree m t) (hcur : cur ∉ nodes t) (hcur0 : cur ≠ 0)
    (hptr : ptrinfoToPtr cur ≠ 0) (hstate : (m.info cur).state = .used)
    (hused : (m.info cur).used = true) :
    ∃ m', m.freeNoLock (ptrinfoToPtr cur) = some (m', true) ∧
      FreeTree m' (insertLeaf m.key cur t) ∧
      SameData (m.setInfo cur (m.info cur).freed) m' := by
  let m₁ := m.setInfo cur (m.info cur).freed
  have hkey : m₁.key = m.key := by
    funext a
    by_cases ha : a = cur
    · rw [ha, MM.key, MM.setInfo_self]
      rfl
    · rw [MM.key, MM.setInfo_of_ne _ _ ha, MM.key]
  obtain ⟨m', hadd, htree, hdata, -⟩ := treeAdd_spec (h.setInfo _ hcur : FreeTree m₁ t)
    hcur hcur0 hptr
  refine ⟨m', ?_, hkey ▸ htree, hdata⟩
  rw [MM.freeNoLock, if_neg hptr]
  simp only [ptrToPtrinfo_ptrinfoToPtr, hused, hstate, Bool.true_eq_false, if_false, reduceCtorEq,
    ne_eq, not_true_eq_false]
  exact congrArg (Option.map _) hadd

end FreeNoLock

end CxxKernel.Heap
