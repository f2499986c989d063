import CxxKernel.Heap.Safety

/-! Callers that keep a pointer to a block they have freed, and pass it to `free` and `realloc`. -/
namespace CxxKernel.Heap
open BinaryTree SearchTree LinkedTree Runs

/-- The pointer was handed out before, and its block is in use no more. -/
def Stale (s : State) (p : Word) : Prop := p ∈ s.issued ∧ p ∉ s.livePtrs

/-- What callers may do who also reallocate what they have freed. -/
def AllowedStale (s : State) : Op → Prop
  | .realloc p size page =>
      (p = 0 ∨ p ∈ s.issued) ∧ PageAnswer s.mm (MM.pagesFor (size + sizeofPtrInfo)) page
  | op => Allowed s op

def StaleStep (s : State) (op : Op) (s' : State) : Prop := AllowedStale s op ∧ s.exec op = some s'

/-- `realloc` is called with a stale pointer and the size its block has, which is not zero. -/
def AsksSame (s : State) : Op → Prop
  | .realloc p size _ => Stale s p ∧ size ≠ 0 ∧ (s.mm.info (ptrToPtrinfo p)).size = size
  | _ => False

instance (s : State) (op : Op) : Decidable (AsksSame s op) :=
  match op with
  | .realloc p size _ =>
      inferInstanceAs (Decidable ((p ∈ s.issued ∧ p ∉ s.livePtrs) ∧ size ≠ 0 ∧
        (s.mm.info (ptrToPtrinfo p)).size = size))
  | .alloc .. => inferInstanceAs (Decidable False)
  | .free _ => inferInstanceAs (Decidable False)
  | .write .. => inferInstanceAs (Decidable False)

/-- What `realloc` with the stale pointer `p` may do: the block it answers with is neither in use nor
left on the free tree, and the block of `p` is not inserted again. -/
structure StaleLaw (s : State) (p : Word) (m' : MM) (q : Word) : Prop where
  notFree : q ≠ 0 → ¬ m'.Free (ptrToPtrinfo q)
  notLive : q ∉ s.livePtrs
  notInserted : m'.Free (ptrToPtrinfo p) → s.mm.Free (ptrToPtrinfo p)
  tree : ∃ t, FreeTree m' t

section Realloc
variable {s : State} {m : MM} {blocks : Set Word} {t : BinaryTree Word} {p q size page : Word}

theorem alloc_reused {m' : MM} (h : HeapInv m blocks t)
    (hpage : PageAnswer m (MM.pagesFor (size + sizeofPtrInfo)) page)
    (hsound : ¬ SIZEMASK - sizeofPtrInfo < size → m.searchAvail size = some none → BumpSound m size page)
    (heq : m.alloc size .normal page = some (m', q)) :
    (q ≠ 0 → ptrToPtrinfo q ∈ blocks → (m.info (ptrToPtrinfo q)).size = size) ∧
      ∀ b ∈ blocks, m'.Free b → m.Free b := by
  by_cases hguard : SIZEMASK - sizeofPtrInfo < size
  · rw [MM.alloc, if_pos hguard, Option.some.injEq] at heq
    obtain ⟨rfl, rfl⟩ := Prod.mk.inj heq
    constructor
    · exact fun hc => absurd rfl hc
    · exact fun _ _ hf => hf
  · rw [MM.alloc, if_neg hguard] at heq
    exact allocMem_reused h (not_guard_iff.mp hguard) hpage (hsound hguard) heq

theorem Inv.stale_ne_zero (h : Inv s blocks t) (hp : Stale s p) : p ≠ 0 := by
  have hne := h.regions.ptr_ne_zero (h.issued p hp.1)
  rwa [ptrinfoToPtr_ptrToPtrinfo] at hne

theorem Inv.stale_unused (h : Inv s blocks t) (hp : Stale s p) :
    (s.mm.info (ptrToPtrinfo p)).used = false := by
  apply h.dead _ (h.issued p hp.1)
  rw [ptrinfoToPtr_ptrToPtrinfo]
  exact hp.2

theorem Inv.zero_notMem_live (h : Inv s blocks t) : 0 ∉ s.livePtrs := fun hc => h.live_ne_zero hc rfl

/-- `realloc` that neither frees nor keeps its stale block is an allocation: at most it copies the
bytes of the freed block into the new one. -/
theorem Inv.realloc_stale_alloc {m₁ : MM} (h : Inv s blocks t) (hp : Stale s p) (hzero : size ≠ 0)
    (hsame : (s.mm.info (ptrToPtrinfo p)).size ≠ size) (halloc : s.mm.alloc size .normal page = some (m₁, q))
    (hunused : (m₁.info (ptrToPtrinfo p)).used = false) :
    ∃ byte, s.mm.realloc p size page = some ({ m₁ with byte := byte }, q) := by
  have hp0 := h.stale_ne_zero hp
  have hreal := realloc_of_alloc (fun hc => hzero hc.1) (fun hc => hsame hc.2) halloc
  by_cases hq : q = 0
  · rw [if_pos hq] at hreal
    rw [hreal, hq]
    exact ⟨m₁.byte, rfl⟩
  · rw [if_neg hq] at hreal
    split_ifs at hreal
    · exact ⟨m₁.byte, hreal⟩
    · have hold : ptrToPtrinfo p ≠ 0 := h.regions.ne_zero (h.issued p hp.1)
      have hfree : ∀ byte : Bytes, MM.freeNoLock { m₁ with byte := byte } p =
          some ({ m₁ with byte := byte }, false) := fun _ => freeNoLock_of_unused hunused
      rw [hreal, MM.reallocMove]
      dsimp only
      rw [if_pos hold, hfree]
      exact ⟨_, rfl⟩

theorem Inv.realloc_stale (h : Inv s blocks t) (hp : Stale s p)
    (hpage : PageAnswer s.mm (MM.pagesFor (size + sizeofPtrInfo)) page)
    (hbump : BumpSafe s (.realloc p size page)) (hno : ¬ AsksSame s (.realloc p size page)) :
    ∃ m' q blocks' t', s.mm.realloc p size page = some (m', q) ∧ q ≠ p ∧
      Inv (s.hand m' q size) blocks' t' ∧ StaleLaw s p m' q := by
  have hp0 := h.stale_ne_zero hp
  by_cases hzero : size = 0
  · have hfree : s.mm.free p = some (s.mm, false) := freeNoLock_of_unused (h.stale_unused hp)
    refine ⟨s.mm, 0, blocks, t, ?_, hp0.symm, ?_, ?_⟩
    · rw [MM.realloc, if_pos ⟨hzero, hp0⟩, hfree, Option.map_some]
    · rwa [State.hand, if_pos rfl]
    · constructor
      · exact fun hc => absurd rfl hc
      · exact h.zero_notMem_live
      · exact fun hf => hf
      · exact ⟨t, h.tree⟩
  · have hsame : (s.mm.info (ptrToPtrinfo p)).size ≠ size := fun hc => hno ⟨hp, hzero, hc⟩
    have hsound : ¬ SIZEMASK - sizeofPtrInfo < size →
        s.mm.searchAvail size = some none → BumpSound s.mm size page := fun hguard hs =>
      hbump (size, .normal) (allocMemCall_realloc (fun hc => hzero hc.1) (fun hc => hsame hc.2) hguard)
        (.inr hs)
    obtain ⟨m₁, q, blocks', t', halloc, hinv, heff, -⟩ := alloc_spec h.toHeapInv
      (by decide : AllocType.normal ≠ .page) hpage
      fun hguard hs => hsound hguard (hs.resolve_left fun hc => hc rfl)
    obtain ⟨hsize, hadded⟩ := alloc_reused h.toHeapInv hpage hsound halloc
    have hb := h.issued p hp.1
    -- the block of the stale pointer has another size, so it is not the one handed out
    have hqp : q ≠ p := by
      rintro rfl
      exact hsame (hsize hp0 hb)
    have hdata : (m₁.info (ptrToPtrinfo p)).used = false := by
      have hne : ptrinfoToPtr (ptrToPtrinfo p) ≠ q := by
        rw [ptrinfoToPtr_ptrToPtrinfo]
        exact hqp.symm
      have hused := congrArg PtrInfo.used (heff.data _ hb hne)
      exact hused.trans (h.stale_unused hp)
    obtain ⟨byte, hreal⟩ := h.realloc_stale_alloc hp hzero hsame halloc hdata
    have hhand := h.hand (hinv.setByte byte) (heff.setByte byte)
    refine ⟨_, q, blocks', t', hreal, hqp, hhand, ?_⟩
    have htree : FreeTree { m₁ with byte := byte } t' := (hinv.setByte byte).tree
    constructor
    · intro hq hf
      have hused := (hinv.nodes_freed _ (htree.free_iff.mp hf)).2
      rw [(heff.handed hq).2] at hused
      cases hused
    · intro hq
      by_cases hq0 : q = 0
      · exact h.zero_notMem_live (hq0 ▸ hq)
      · have hunused := heff.unused hq0 (h.live q hq).1
        rw [(h.live q hq).2.2] at hunused
        cases hunused
    · intro hf
      exact hadded _ hb (hinv.tree.free_iff.mpr (htree.free_iff.mp hf))
    · exact ⟨t', htree⟩

/-- Asked for the size its block has, `realloc` answers with the freed block. -/
theorem Inv.realloc_same (h : Inv s blocks t) (hask : AsksSame s (.realloc p size page)) :
    s.mm.realloc p size page = some (s.mm, p) ∧
      (StaleLaw s p s.mm p ↔ ¬ s.mm.Free (ptrToPtrinfo p)) := by
  obtain ⟨hp, hzero, hsame⟩ := hask
  have hp0 := h.stale_ne_zero hp
  constructor
  · rw [MM.realloc, if_neg fun hc => hzero hc.1, if_pos ⟨hp0, hsame⟩]
  · constructor
    · exact fun hlaw => hlaw.notFree hp0
    · exact fun hf => ⟨fun _ => hf, hp.2, fun hc => hc, t, h.tree⟩

end Realloc

section Runs
variable {info : Word → PtrInfo} {byte : Bytes} {ops : List Op} {s s' : State} {m : MM}
  {blocks : Set Word} {t : BinaryTree Word} {op : Op} {p q size : Word}

theorem State.move_of_stale (hp : Stale s p) (hqp : q ≠ p) :
    s.move m p size q = s.hand m q size := by
  by_cases hq : q = 0
  · have hhand : s.hand m q size = { s with mm := m } := if_pos hq
    by_cases hstay : q = p ∨ q = 0 ∧ size ≠ 0
    · rw [State.move, if_pos hstay, hhand]
    · rw [State.move, if_neg hstay, hhand]
      exact State.drop_of_notMem hp.2
  · have hnot : p ∉ (s.hand m q size).livePtrs := by
      rw [State.livePtrs_hand hq, List.mem_cons]
      exact not_or.mpr ⟨hqp.symm, hp.2⟩
    rw [State.move, if_neg (not_or.mpr ⟨hqp, fun hc => hq hc.1⟩), State.drop_of_notMem hnot, State.hand,
      if_neg hq]

/-- A step of a caller that may use stale pointers keeps the heap sound. -/
theorem StaleStep.inv (h : Inv s blocks t) (hstep : StaleStep s op s') (hbump : BumpSafe s op)
    (hno : ¬ AsksSame s op) : ∃ blocks' t', Inv s' blocks' t' := by
  have hsafe : Allowed s op → ∃ blocks' t', Inv s' blocks' t' := by
    intro hallow
    obtain ⟨blocks', t', hinv, -⟩ := Step.sound h ⟨hallow, hstep.2⟩ hbump
    exact ⟨blocks', t', hinv⟩
  cases op with
  | alloc size ty page => exact hsafe hstep.1
  | free p => exact hsafe hstep.1
  | write p info byte => exact hsafe hstep.1
  | realloc p size page =>
    obtain ⟨⟨hp, hpage⟩, hexec⟩ := hstep
    by_cases hlive : p = 0 ∨ p ∈ s.livePtrs
    · exact hsafe ⟨hlive, hpage⟩
    · obtain ⟨hp0, hnot⟩ := not_or.mp hlive
      have hstale : Stale s p := ⟨hp.resolve_left hp0, hnot⟩
      obtain ⟨m', q, blocks', t', hreal, hqp, hinv, -⟩ := h.realloc_stale hstale hpage hbump hno
      rw [exec_of_realloc hreal, State.move_of_stale hstale hqp, Option.some.injEq] at hexec
      exact ⟨blocks', t', hexec ▸ hinv⟩

/-- In every run without such a call and with sound bump tests the free tree is safe, no address is
handed out twice, and a stale pointer does no harm; there `realloc` breaks its law exactly when the
size is that of the freed block and the block is still in the tree. -/
theorem stale_of_run
    (h : Run (Guarded StaleStep fun s op _ => BumpSafe s op ∧ ¬ AsksSame s op) (State.start info byte)
      ops s) :
    FreeTreeSafe s ∧ ∀ p, Stale s p → s.mm.free p = some (s.mm, false) ∧
      ∀ size page, AllowedStale s (.realloc p size page) → BumpSafe s (.realloc p size page) →
        ∃ m' q, s.mm.realloc p size page = some (m', q) ∧
          (StaleLaw s p m' q ↔
            ¬ (AsksSame s (.realloc p size page) ∧ s.mm.Free (ptrToPtrinfo p))) := by
  have hstep : ∀ s op s', (∃ blocks t, Inv s blocks t) →
      Guarded StaleStep (fun s op _ => BumpSafe s op ∧ ¬ AsksSame s op) s op s' →
      ∃ blocks t, Inv s' blocks t := by
    rintro s op s' ⟨blocks, t, hinv⟩ ⟨hs, hbump, hno⟩
    exact hs.inv hinv hbump hno
  obtain ⟨blocks, t, hinv⟩ := h.invariant hstep ⟨_, _, (start_inv info byte).1⟩
  refine ⟨hinv.freeTreeSafe, fun p hp => ⟨freeNoLock_of_unused (hinv.stale_unused hp), ?_⟩⟩
  intro size page hallow hbump
  by_cases hask : AsksSame s (.realloc p size page)
  · obtain ⟨hreal, hlaw⟩ := hinv.realloc_same hask
    refine ⟨s.mm, p, hreal, hlaw.trans ?_⟩
    exact not_congr ⟨fun hf => ⟨hask, hf⟩, fun hf => hf.2⟩
  · obtain ⟨m', q, -, -, hreal, -, -, hlaw⟩ := hinv.realloc_stale hp hallow.2 hbump hask
    exact ⟨m', q, hreal, iff_of_true hlaw fun hc => hask hc.1⟩

def freedOnce : State := (blank.next (.alloc 16 .fast 0x1000)).next (.free 0x1014)

theorem freedOnce_run : Run (Guarded StaleStep fun s op _ => BumpSafe s op ∧ ¬ AsksSame s op) blank
    [.alloc 16 .fast 0x1000, .free 0x1014] freedOnce := by
  apply Run.cons (t := blank.next (.alloc 16 .fast 0x1000))
  · exact ⟨⟨.inr freshRun_first, State.exec_next (by decide +kernel)⟩, by decide +kernel⟩
  · apply Run.cons (t := freedOnce)
    · exact ⟨⟨.inr (by decide +kernel), State.exec_next (by decide +kernel)⟩, by decide +kernel⟩
    · exact .nil _

theorem stale_of_run_freedOnce : freedOnce.mm.free 0x1014 = some (freedOnce.mm, false) ∧
    ∃ m' q, freedOnce.mm.realloc 0x1014 8 0 = some (m', q) ∧ StaleLaw freedOnce 0x1014 m' q := by
  have hstale : Stale freedOnce 0x1014 := ⟨by decide +kernel, by decide +kernel⟩
  have hallow : AllowedStale freedOnce (.realloc 0x1014 8 0) := ⟨.inr hstale.1, .inl rfl⟩
  obtain ⟨hfree, hrealloc⟩ := (stale_of_run freedOnce_run).2 0x1014 hstale
  obtain ⟨m', q, heq, hlaw⟩ := hrealloc 8 0 hallow (by decide +kernel)
  have hother : ¬ AsksSame freedOnce (.realloc 0x1014 8 0) := by decide +kernel
  exact ⟨hfree, m', q, heq, hlaw.mpr fun hc => hother hc.1⟩

/-- The freed block is returned for its own size, and the next allocation of that size returns it
again. -/
theorem stale_returned : Run StaleStep blank [.alloc 16 .fast 0x1000, .free 0x1014] freedOnce ∧
    Stale freedOnce 0x1014 ∧ AllowedStale freedOnce (.realloc 0x1014 16 0) ∧
    ∃ m', freedOnce.mm.realloc 0x1014 16 0 = some (m', 0x1014) ∧ ¬ StaleLaw freedOnce 0x1014 m' 0x1014 ∧
      (m'.alloc 16 .normal 0).map Prod.snd = some 0x1014 := by
  have hstale : Stale freedOnce 0x1014 := ⟨by decide +kernel, by decide +kernel⟩
  have hsame : freedOnce.mm.realloc 0x1014 16 0 = some (freedOnce.mm, 0x1014) := by
    rw [MM.realloc, if_neg (by decide), if_pos (by decide +kernel)]
  have hshape : Shape freedOnce.mm.left freedOnce.mm.right freedOnce.mm.root
      (.node 0x1000 .nil .nil) := by
    decide +kernel
  refine ⟨freedOnce_run.unguard, hstale, ⟨.inr hstale.1, .inl rfl⟩, freedOnce.mm, hsame, ?_, ?_⟩
  · intro hlaw
    exact hlaw.notFree (by decide) (hshape.reaches_iff.mpr (by decide))
  · decide +kernel

end Runs

end CxxKernel.Heap
