import CxxKernel.Heap.Run

/-! What the runs of the allocator keep, and where they break: blocks lost from the tree, and
regions that leave their pages. -/
namespace CxxKernel.Heap
open BinaryTree SearchTree LinkedTree Runs

section Plays
variable {cond : State → Op → Prop} {s : State} {op : Op} {ops : List Op}

/-- The state after an operation that comes back. -/
def State.next (s : State) (op : Op) : State := (s.exec op).getD s

/-- The operations can be carried out one after another, each under the condition. -/
def Plays (cond : State → Op → Prop) : State → List Op → Prop
  | _, [] => True
  | s, op :: ops =>
      Allowed s op ∧ ((s.exec op).isSome = true ∧ cond s op) ∧ Plays cond (s.next op) ops

theorem State.exec_next (h : (s.exec op).isSome = true) : s.exec op = some (s.next op) := by
  obtain ⟨s', hs'⟩ := Option.isSome_iff_exists.mp h
  rw [State.next, hs', Option.getD_some]

theorem Plays.run (h : Plays cond s ops) :
    Run (Guarded Step fun s op _ => cond s op) s ops (ops.foldl State.next s) := by
  induction ops generalizing s with
  | nil => exact .nil s
  | cons op ops ih =>
    obtain ⟨hallow, ⟨hsome, hcond⟩, hrest⟩ := h
    exact .cons ⟨⟨hallow, State.exec_next hsome⟩, hcond⟩ (ih hrest)

theorem freshRun_first : FreshRun [] 0x1000 1 where
  nonnull := by decide
  aligned := by decide
  inside := by decide
  disjoint _ hrun := absurd hrun (List.not_mem_nil)

def blank : State := .start (fun _ => ⟨0, 0, 0, 0, .none, false⟩) fun _ => 0

end Plays

section FreeTree
variable {info : Word → PtrInfo} {byte : Bytes} {ops : List Op} {s : State}

/-- No address computation of an operation wraps, and `allocPage` finds pages when asked. -/
def Ideal (s : State) (op : Op) : Prop :=
  ∀ call ∈ allocMemCall s op, call.2 ≠ .normal ∨ s.mm.searchAvail call.1 = some none →
    (s.mm.BumpReady → s.mm.freeTop.toNat + 20 + call.1.toNat < 2 ^ 32) ∧
    (s.mm.NeedsPages (call.1 + sizeofPtrInfo) → pageOf op ≠ 0 ∧
      runEnd (pageOf op, MM.pagesFor (call.1 + sizeofPtrInfo)) < 2 ^ 32)

instance (s : State) (op : Op) : Decidable (Ideal s op) :=
  inferInstanceAs (Decidable (∀ call ∈ allocMemCall s op,
    call.2 ≠ .normal ∨ s.mm.searchAvail call.1 = some none →
      (s.mm.BumpReady → s.mm.freeTop.toNat + 20 + call.1.toNat < 2 ^ 32) ∧
      (s.mm.NeedsPages (call.1 + sizeofPtrInfo) → pageOf op ≠ 0 ∧
        runEnd (pageOf op, MM.pagesFor (call.1 + sizeofPtrInfo)) < 2 ^ 32)))

theorem Ideal.bumpSafe {op : Op} (h : Ideal s op) : BumpSafe s op := fun call hcall hreach =>
  ⟨(h call hcall hreach).1, fun hneeds hnull => absurd hnull ((h call hcall hreach).2 hneeds).1⟩

/-- The free tree is a search tree of freed blocks, none of them live; no address is live
twice; a second free is refused. -/
structure FreeTreeSafe (s : State) : Prop where
  tree : ∃ t, FreeTree s.mm t ∧ ∀ a ∈ nodes t, (s.mm.info a).state = .freed ∧
    (s.mm.info a).used = false ∧ ptrinfoToPtr a ∉ s.livePtrs
  once : s.livePtrs.Nodup
  again : ∀ p ∈ s.issued, p ∉ s.livePtrs → s.mm.free p = some (s.mm, false)

theorem Inv.freeTreeSafe {blocks : Set Word} {t : BinaryTree Word} (h : Inv s blocks t) :
    FreeTreeSafe s := by
  refine ⟨⟨t, h.tree, fun a ha => ?_⟩, h.nodup, fun p hp hl => ?_⟩
  · obtain ⟨hstate, hused⟩ := h.nodes_freed a ha
    exact ⟨hstate, hused, h.notMem_live ha⟩
  · apply freeNoLock_of_unused
    apply h.dead _ (h.issued p hp)
    rwa [ptrinfoToPtr_ptrToPtrinfo]

/-- In every run the free tree stays safe, and every operation comes back. -/
theorem freeTreeSafe_of_run
    (h : Run (Guarded Step fun s op _ => Ideal s op) (State.start info byte) ops s) :
    FreeTreeSafe s ∧ ∀ op, Allowed s op → Ideal s op → ∃ s', s.exec op = some s' := by
  have hrun : Run (Guarded Step fun s op _ => BumpSafe s op) (State.start info byte) ops s :=
    h.mono fun _ _ _ hs => ⟨hs.1, hs.2.bumpSafe⟩
  obtain ⟨blocks, t, hinv⟩ := run_inv hrun
  refine ⟨hinv.freeTreeSafe, fun op hallow hideal => ?_⟩
  obtain ⟨s', hexec, -⟩ := exec_spec hinv hallow hideal.bumpSafe
  exact ⟨s', hexec⟩

/-- Two blocks, one of them freed twice and moved by `realloc`. -/
def reuseOps : List Op :=
  [.alloc 16 .normal 0x1000, .alloc 8 .fast 0, .free 0x1014, .free 0x1014, .realloc 0x1038 16 0]

def reused : State := reuseOps.foldl State.next blank

/-- After it the first block is in use again, at its old address. -/
theorem freeTreeSafe_reused : FreeTreeSafe reused ∧ reused.livePtrs = [0x1014] := by
  have hplays : Plays Ideal blank reuseOps := by
    refine ⟨.inr freshRun_first, ?_, .inl rfl, ?_, .inr ?_, ?_, .inr ?_, ?_, ⟨.inr ?_, .inl rfl⟩,
      ?_, trivial⟩
    all_goals decide +kernel
  exact ⟨(freeTreeSafe_of_run hplays.run).1, by decide +kernel⟩

end FreeTree

section Regions
variable {info : Word → PtrInfo} {byte : Bytes} {ops : List Op} {s : State}

/-- A header with its size: of a live block, with the size asked for, or of a node of the free
tree. -/
def Region (s : State) (r : Word × Word) : Prop :=
  (ptrinfoToPtr r.1, r.2) ∈ s.live ∨ s.mm.Free r.1 ∧ r.2 = (s.mm.info r.1).size

/-- Where the payload of a region ends, in exact arithmetic. -/
def regionEnd (r : Word × Word) : ℕ := r.1.toNat + 20 + r.2.toNat

/-- Every region lies in one page run, and two regions have no byte in common. -/
structure RegionsApart (s : State) : Prop where
  inRun : ∀ r, Region s r → ∃ run ∈ s.mm.runs, run.1.toNat ≤ r.1.toNat ∧ regionEnd r ≤ runEnd run
  apart : ∀ r r', Region s r → Region s r' → r ≠ r' →
    regionEnd r ≤ r'.1.toNat ∨ regionEnd r' ≤ r.1.toNat

theorem Inv.region {blocks : Set Word} {t : BinaryTree Word} (h : Inv s blocks t)
    {r : Word × Word} (hr : Region s r) :
    r.1 ∈ blocks ∧ regionEnd r = blockEnd s.mm r.1 ∧ r.2 = (s.mm.info r.1).size := by
  rcases hr with hlive | ⟨hfree, hsize⟩
  · have hmem := (h.live _ (State.mem_livePtrs hlive)).1
    have hsize := h.sizes _ hlive
    rw [ptrToPtrinfo_ptrinfoToPtr] at hmem hsize
    exact ⟨hmem, by rw [regionEnd, blockEnd, hsize], hsize.symm⟩
  · have hmem := h.nodes_blocks _ (h.tree.free_iff.mp hfree)
    exact ⟨hmem, by rw [regionEnd, blockEnd, hsize], hsize⟩

/-- The regions stay apart in every run whose bump tests are sound. -/
theorem regionsApart_of_run
    (h : Run (Guarded Step fun s op _ => BumpSafe s op) (State.start info byte) ops s) :
    RegionsApart s := by
  obtain ⟨blocks, t, hinv⟩ := run_inv h
  refine ⟨fun r hr => ?_, fun r r' hr hr' hne => ?_⟩
  · obtain ⟨hmem, hend, -⟩ := hinv.region hr
    rw [hend]
    exact hinv.regions.inRun r.1 hmem
  · obtain ⟨hmem, hend, hsize⟩ := hinv.region hr
    obtain ⟨hmem', hend', hsize'⟩ := hinv.region hr'
    have hne' : r.1 ≠ r'.1 := fun he => hne (Prod.ext he (by rw [hsize, hsize', he]))
    rw [hend, hend']
    exact hinv.regions.apart r.1 hmem r'.1 hmem' hne'

/-- A second page run, with the tail of the first one in the tree. -/
def twoRunsOps : List Op :=
  [.alloc 100 .fast 0x1000, .alloc 4000 .fast 0x2000, .free 0x1014]

theorem regionsApart_twoRuns : RegionsApart (twoRunsOps.foldl State.next blank) := by
  have hfresh : FreshRun [(0x1000, 1)] 0x2000 1 := by
    refine ⟨by decide, by decide, by decide, fun run hrun x _ hx hx' => ?_⟩
    obtain rfl := List.mem_singleton.mp hrun
    exact absurd hx (not_lt.mpr hx')
  have hplays : Plays BumpSafe blank twoRunsOps := by
    refine ⟨.inr freshRun_first, ?_, .inr hfresh, ?_, .inr ?_, ?_, trivial⟩
    all_goals decide +kernel
  exact regionsApart_of_run hplays.run

/-- A size whose sum with the top of the bump region wraps around the address space. -/
def wrapOps : List Op := [.alloc 100 .fast 0x1000, .alloc 0xFFFFFFEB .fast 0]

def wrapped : State := wrapOps.foldl State.next blank

/-- The tail of the only page goes into the tree, no other page is found, and the tail is handed
out both from the tree and from the bump region. -/
def tailOps : List Op :=
  [.alloc 100 .fast 0x1000, .alloc 5000 .fast 0, .alloc 3956 .normal 0, .alloc 10 .fast 0,
    .alloc 10 .fast 0]

def tailTwice : State := tailOps.foldl State.next blank

theorem regions_not_apart :
    (Run Step blank wrapOps wrapped ∧ ¬ RegionsApart wrapped) ∧
    Run Step blank tailOps tailTwice ∧ ¬ RegionsApart tailTwice := by
  have hwrap : Plays (fun _ _ => True) blank wrapOps := by
    refine ⟨.inr freshRun_first, ?_, .inl rfl, ?_, trivial⟩
    all_goals decide +kernel
  have htail : Plays (fun _ _ => True) blank tailOps := by
    refine ⟨.inr freshRun_first, ?_, .inl rfl, ?_, .inl rfl, ?_, .inl rfl, ?_, .inl rfl, ?_,
      trivial⟩
    all_goals decide +kernel
  refine ⟨⟨hwrap.run.unguard, fun h => ?_⟩, htail.run.unguard, fun h => ?_⟩
  · obtain ⟨run, hrun, -, hend⟩ := h.inRun (0x1078, 0xFFFFFFEB) (.inl (by decide +kernel))
    have hruns : wrapped.mm.runs = [(0x1000, 1)] := by decide +kernel
    rw [hruns, List.mem_singleton] at hrun
    rw [hrun] at hend
    exact absurd hend (by decide)
  · have hapart := h.apart (0x1078, 3956) (0x1096, 10) (.inl (by decide +kernel))
      (.inl (by decide +kernel)) (by decide)
    exact absurd hapart (by decide)

end Regions

section Lost
variable {m : MM} {t : BinaryTree Word} {p parent : Word}

/-- `releaseFree` comes back, and takes out of the tree only its node exactly when it is safe. -/
theorem releaseFree_free_iff (h : FreeTree m t) (hp : p ∈ nodes t)
    (hpar : TrueParent m p parent) :
    ∃ m', m.releaseFree p parent = some (m', p) ∧
      ((∀ x, m'.Free x ↔ m.Free x ∧ x ≠ p) ↔ ReleaseSafe m p parent) := by
  obtain ⟨m', heq, htree, -⟩ := releaseFree_spec h hp hpar
  refine ⟨m', heq, ?_⟩
  rw [← lost_eq_nil_iff h hp hpar, ← unlink_exact_iff m.key h.nodup hp]
  simp only [htree.free_iff, h.free_iff]

/-- `releaseFree` loses no block exactly when it is safe, and a run whose releases are safe and
whose bump tests are sound loses none. -/
theorem noBlockLost_iff (info : Word → PtrInfo) (byte : Bytes) :
    (∀ m t p parent, FreeTree m t → p ∈ nodes t → TrueParent m p parent →
      ∃ m', m.releaseFree p parent = some (m', p) ∧
        ((∀ x, m'.Free x ↔ m.Free x ∧ x ≠ p) ↔ ReleaseSafe m p parent)) ∧
    ∀ ops s, Run (Guarded Step fun s op _ => BumpSafe s op ∧ TakeSafe s op)
      (State.start info byte) ops s →
      ∀ q ∈ s.issued, q ∉ s.livePtrs → s.mm.Free (ptrToPtrinfo q) := by
  refine ⟨fun m t p parent h hp hpar => releaseFree_free_iff h hp hpar,
    fun ops s h q hq hl => ?_⟩
  obtain ⟨blocks, t, hinv, hkept⟩ := run_kept h
  rw [hinv.tree.free_iff]
  apply hkept _ (hinv.issued q hq)
  rwa [ptrinfoToPtr_ptrToPtrinfo]

/-- Blocks of 10, 5, 3 and 20 bytes, freed in this order. -/
def fourBlocksOps : List Op :=
  [.alloc 10 .fast 0x1000, .alloc 5 .fast 0, .alloc 3 .fast 0, .alloc 20 .fast 0,
    .free 0x1014, .free 0x1032, .free 0x104B, .free 0x1062]

def fourBlocks : State := fourBlocksOps.foldl State.next blank

theorem fourBlocks_freeTree : FreeTree fourBlocks.mm
    (.node 0x1000 (.node 0x101E (.node 0x1037 .nil .nil) .nil) (.node 0x104E .nil .nil)) := by
  constructor
  case nonnull => simp
  all_goals decide +kernel

theorem fourBlocks_plays :
    Plays (fun s op => BumpSafe s op ∧ TakeSafe s op) blank fourBlocksOps := by
  refine ⟨.inr freshRun_first, ?_, .inl rfl, ?_, .inl rfl, ?_, .inl rfl, ?_, .inr ?_, ?_, .inr ?_,
    ?_, .inr ?_, ?_, .inr ?_, ?_, trivial⟩
  all_goals decide +kernel

/-- In that tree the block of 3 bytes can be taken without losing another, and it is there. -/
theorem noBlockLost_fourBlocks :
    (∃ m', fourBlocks.mm.releaseFree 0x1037 0x101E = some (m', 0x1037) ∧
      ∀ x, m'.Free x ↔ fourBlocks.mm.Free x ∧ x ≠ 0x1037) ∧ fourBlocks.mm.Free 0x1037 := by
  constructor
  · have hfree : fourBlocks.mm.Free 0x101E := fourBlocks_freeTree.free_iff.mpr (by decide)
    have hpar : TrueParent fourBlocks.mm 0x1037 0x101E :=
      .inr ⟨hfree, .inl (by decide +kernel)⟩
    obtain ⟨m', heq, hiff⟩ := (noBlockLost_iff (fun _ => ⟨0, 0, 0, 0, .none, false⟩) fun _ => 0).1
      _ _ _ _ fourBlocks_freeTree (by decide) hpar
    exact ⟨m', heq, hiff.mpr (by decide +kernel)⟩
  · exact (noBlockLost_iff (fun _ => ⟨0, 0, 0, 0, .none, false⟩) fun _ => 0).2 _ _ fourBlocks_plays.run
      0x104B (by decide +kernel) (by decide +kernel)

/-- The four blocks, and the one of 10 bytes taken back. -/
def lossOps : List Op :=
  [.alloc 10 .fast 0x1000, .alloc 5 .fast 0, .alloc 3 .fast 0, .alloc 20 .fast 0,
    .free 0x1014, .free 0x1032, .free 0x104B, .free 0x1062, .alloc 10 .normal 0]

def afterLoss : State := lossOps.foldl State.next blank

/-- Taking the root back loses the block of 3 bytes: it was freed, it is not in use, and it
cannot be reached. -/
theorem block_lost :
    Run Step blank lossOps afterLoss ∧
    (∃ q ∈ afterLoss.issued, q ∉ afterLoss.livePtrs ∧ ¬ afterLoss.mm.Free (ptrToPtrinfo q)) ∧
    ¬ ∀ m t p parent m', FreeTree m t → p ∈ nodes t → TrueParent m p parent →
      m.releaseFree p parent = some (m', p) → ∀ x, m'.Free x ↔ m.Free x ∧ x ≠ p := by
  refine ⟨?_, ?_, ?_⟩
  · have hplays : Plays (fun _ _ => True) blank lossOps := by
      refine ⟨.inr freshRun_first, ?_, .inl rfl, ?_, .inl rfl, ?_, .inl rfl, ?_, .inr ?_, ?_,
        .inr ?_, ?_, .inr ?_, ?_, .inr ?_, ?_, .inl rfl, ?_, trivial⟩
      all_goals decide +kernel
    exact hplays.run.unguard
  · have hshape : Shape afterLoss.mm.left afterLoss.mm.right afterLoss.mm.root
        (.node 0x104E (.node 0x101E .nil .nil) .nil) := by
      decide +kernel
    refine ⟨0x104B, by decide +kernel, by decide +kernel, fun hc => ?_⟩
    exact absurd (hshape.reaches_iff.mp hc) (by decide)
  · intro h
    have hroot : TrueParent fourBlocks.mm 0x1000 0 := .inl ⟨rfl, by decide +kernel⟩
    obtain ⟨m', heq, hiff⟩ := releaseFree_free_iff fourBlocks_freeTree (by decide) hroot
    have hsafe := hiff.mp (h _ _ _ _ _ fourBlocks_freeTree (by decide) hroot heq)
    exact absurd hsafe (by decide +kernel)

end Lost

end CxxKernel.Heap
