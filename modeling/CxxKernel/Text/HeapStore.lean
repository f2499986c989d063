import CxxKernel.Heap.Realloc
import CxxKernel.Text.Store

/-! `MM` is such a store: as long as its bump tests are sound, the calls of `alloc`, `realloc` and `free` that
succeed do what the store says. -/
namespace CxxKernel.Text
open Heap BinaryTree Runs

/-- The heap as its callers see it. -/
def view (s : Heap.State) : Store := ⟨s.live, s.mm.byte⟩

/-- The calls that succeed are calls of the store. -/
structure Serves (s : Heap.State) : Prop where
  wf : Wf (view s).live
  alloc : ∀ size page m q, PageAnswer s.mm (MM.pagesFor (size + sizeofPtrInfo)) page →
    BumpSafe s (.alloc size .normal page) → s.mm.alloc size .normal page = some (m, q) → q ≠ 0 →
    (view s).alloc size q = some (view (s.hand m q size))
  realloc : ∀ p size page m q, p = 0 ∨ p ∈ s.livePtrs → PageAnswer s.mm (MM.pagesFor (size + sizeofPtrInfo)) page →
    BumpSafe s (.realloc p size page) → s.mm.realloc p size page = some (m, q) → q ≠ 0 →
    (view s).realloc p size q = some (view (s.move m p size q), q)
  free : ∀ p m b, s.mm.free p = some (m, b) → (view s).free p = view (s.drop m p)

section Views
variable {s : Heap.State} {m m' : MM} {blocks : Set Word} {t : BinaryTree Word} {p q size page : Word}

theorem clear_live (h : Heap.Inv s blocks t) {e e' : Block} (he : e ∈ s.live) (he' : e' ∈ s.live)
    (hne : e.1 ≠ e'.1) : Clear e e' := by
  have hb := (h.live _ (State.mem_livePtrs he)).1
  have hb' := (h.live _ (State.mem_livePtrs he')).1
  have hap := h.regions.apart _ hb _ hb' fun hc => hne (ptrToPtrinfo_inj hc)
  have hlt := h.regions.ptr_lt _ hb
  have hlt' := h.regions.ptr_lt _ hb'
  have hend : blockEnd s.mm (ptrToPtrinfo e.1) = (ptrToPtrinfo e.1).toNat + 20 + e.2.toNat := by
    rw [← h.sizes e he]
    rfl
  have hend' : blockEnd s.mm (ptrToPtrinfo e'.1) = (ptrToPtrinfo e'.1).toNat + 20 + e'.2.toNat := by
    rw [← h.sizes e' he']
    rfl
  have hptr : ∀ a : Word, (ptrToPtrinfo a).toNat + 20 < 2 ^ 32 → a.toNat = (ptrToPtrinfo a).toNat + 20 := by
    intro a ha
    unfold ptrToPtrinfo sizeofPtrInfo at ha ⊢
    bv_omega
  rw [hend, hend'] at hap
  have hfirst := hptr e.1 hlt
  have hsecond := hptr e'.1 hlt'
  unfold Clear
  omega

theorem live_wf (h : Heap.Inv s blocks t) : Wf s.live where
  nonnull _ he := (h.live_end he).1
  inside _ he := (h.live_end he).2
  nodup := h.nodup
  clear _ he _ he' hne := clear_live h he he' hne

theorem hand_fresh (h : Heap.Inv (s.hand m q size) blocks t) (hq : q ≠ 0)
    (hsize : ¬ SIZEMASK - sizeofPtrInfo < size) :
    Fresh s.live (q, size) := by
  have hhand : s.hand m q size = ⟨m, (q, size) :: s.live, q :: s.issued⟩ := if_neg hq
  rw [hhand] at h
  obtain ⟨-, hinside⟩ := h.live_end (e := (q, size)) List.mem_cons_self
  have hnodup := h.nodup
  refine ⟨hq, hinside, BitVec.not_lt.mp hsize, ?_⟩
  intro e he
  have hne : q ≠ e.1 := by
    intro heq
    apply (List.nodup_cons.mp hnodup).1
    change q ∈ s.livePtrs
    rw [heq]
    exact State.mem_livePtrs he
  exact ⟨hne, clear_live h (e := (q, size)) List.mem_cons_self (List.mem_cons_of_mem _ he) hne⟩

theorem alloc_size (halloc : m.alloc size .normal page = some (m', q)) (hq : q ≠ 0) :
    ¬ SIZEMASK - sizeofPtrInfo < size := by
  intro hguard
  rw [MM.alloc, if_pos hguard] at halloc
  cases halloc
  exact hq rfl

/-- What `alloc` hands out keeps the invariant, and its bytes are as they were. -/
theorem alloc_view (h : Heap.Inv s blocks t) (hpage : PageAnswer s.mm (MM.pagesFor (size + sizeofPtrInfo)) page)
    (hbump : ¬ SIZEMASK - sizeofPtrInfo < size →
      memType .normal ≠ .normal ∨ s.mm.searchAvail size = some none → BumpSound s.mm size page)
    (halloc : s.mm.alloc size .normal page = some (m, q)) (hq : q ≠ 0) :
    (view s).alloc size q = some ⟨(q, size) :: s.live, m.byte⟩ ∧
      ∃ blocks' t', Heap.Inv (s.hand m q size) blocks' t' := by
  obtain ⟨m', q', blocks', t', heq, hinv, heff, -⟩ := alloc_spec h.toHeapInv (by decide) hpage hbump
  cases heq.symm.trans halloc
  have hhand := h.hand hinv heff
  refine ⟨?_, blocks', t', hhand⟩
  have hfresh : Fresh (view s).live (q, size) := hand_fresh hhand hq (alloc_size halloc hq)
  rw [Store.alloc, if_pos hfresh, alloc_byte halloc]
  rfl

theorem reallocMove_byte {n tmp : Word} (h : m.reallocMove p tmp size = some (m', q)) (hold : ptrToPtrinfo p ≠ 0)
    (hn : (m.info (ptrToPtrinfo p)).size = n) :
    q = tmp ∧ m'.byte = Mem.move m.byte tmp p (if size < n then size else n) := by
  rw [MM.reallocMove] at h
  dsimp only at h
  rw [if_pos hold, hn] at h
  obtain ⟨⟨m₁, b⟩, hfree, heq⟩ := Option.map_eq_some_iff.mp h
  cases heq
  exact ⟨rfl, freeNoLock_byte hfree⟩

theorem lookup_live (h : Heap.Inv s blocks t) (hp : p ∈ s.livePtrs) :
    s.live.lookup p = some (s.mm.info (ptrToPtrinfo p)).size := by
  obtain ⟨⟨p', n⟩, he, rfl⟩ := List.mem_map.mp hp
  have hsize := h.sizes _ he
  dsimp only at hsize ⊢
  rw [hsize]
  exact (live_wf h).lookup he

theorem realloc_view (h : Heap.Inv s blocks t) (hp : p = 0 ∨ p ∈ s.livePtrs)
    (hpage : PageAnswer s.mm (MM.pagesFor (size + sizeofPtrInfo)) page)
    (hbump : BumpSafe s (.realloc p size page)) (hrealloc : s.mm.realloc p size page = some (m, q)) (hq : q ≠ 0) :
    (view s).realloc p size q = some (view (s.move m p size q), q) := by
  by_cases hzero : size = 0 ∧ p ≠ 0
  · rw [MM.realloc, if_pos hzero] at hrealloc
    obtain ⟨⟨m', b⟩, -, heq⟩ := Option.map_eq_some_iff.mp hrealloc
    cases heq
    exact absurd rfl hq
  by_cases hsame : p ≠ 0 ∧ (s.mm.info (ptrToPtrinfo p)).size = size
  · rw [MM.realloc, if_neg hzero, if_pos hsame] at hrealloc
    cases hrealloc
    have hlive := hp.resolve_left hsame.1
    have hne : size ≠ 0 := fun hz => hzero ⟨hz, hsame.1⟩
    have hlookup : (view s).live.lookup p = some size := by
      rw [← hsame.2]
      exact lookup_live h hlive
    rw [Store.realloc, if_neg hsame.1, hlookup, State.move, if_pos (.inl rfl)]
    dsimp only
    rw [if_neg hne, if_pos rfl]
  · have hbind := hrealloc
    rw [MM.realloc, if_neg hzero, if_neg hsame] at hbind
    obtain ⟨⟨m₁, tmp⟩, halloc, -⟩ := Option.bind_eq_some_iff.mp hbind
    rw [realloc_of_alloc hzero hsame halloc] at hrealloc
    by_cases htmp : tmp = 0
    · rw [if_pos htmp] at hrealloc
      cases hrealloc
      exact absurd rfl hq
    rw [if_neg htmp] at hrealloc
    obtain ⟨hstore, blocks', t', hhand⟩ := alloc_view h hpage
      (fun hguard => hbump (size, .normal) (allocMemCall_realloc hzero hsame hguard)) halloc htmp
    have hlive : (s.hand m₁ tmp size).live = (tmp, size) :: s.live := by rw [State.hand, if_neg htmp]
    by_cases hnull : p = 0
    · rw [if_pos (.inl hnull)] at hrealloc
      cases hrealloc
      have hother : ¬ (q = 0 ∨ q = 0 ∧ size ≠ 0) := fun hc => hq (hc.elim id And.left)
      have hkeep : ((q, size) :: s.live).filter (·.1 ≠ 0) = (q, size) :: s.live := by
        rw [← hlive]
        apply List.filter_eq_self.mpr
        intro e he
        exact decide_eq_true ((live_wf hhand).nonnull e he)
      rw [Store.realloc, if_pos hnull, hstore, hnull, State.move, if_neg hother, view, State.drop, hlive, hkeep]
      rfl
    · have hp' := hp.resolve_left hnull
      obtain ⟨hb, hstate, -⟩ := h.live p hp'
      have hused : ¬ (p = 0 ∨ (s.mm.info (ptrToPtrinfo p)).state = .freed) := by
        rw [hstate]
        exact not_or.mpr ⟨hnull, by decide⟩
      rw [if_neg hused] at hrealloc
      obtain ⟨⟨p', n⟩, he, rfl⟩ := List.mem_map.mp hp'
      dsimp only at hnull hb hrealloc ⊢
      have hlookup : (view s).live.lookup p' = some n := (live_wf h).lookup he
      have hnew : tmp ∉ s.livePtrs := by
        have hnodup := hhand.nodup
        rw [State.livePtrs_hand htmp] at hnodup
        exact (List.nodup_cons.mp hnodup).1
      have hne : tmp ≠ p' := fun hc => hnew (hc ▸ State.mem_livePtrs he)
      have hsize : (m₁.info (ptrToPtrinfo p')).size = n := by
        have hsizes := hhand.sizes (p', n) (by rw [hlive]; exact List.mem_cons_of_mem _ he)
        rwa [State.hand, if_neg htmp] at hsizes
      obtain ⟨rfl, hbyte⟩ := reallocMove_byte hrealloc (h.regions.ne_zero hb) hsize
      have hzero' : size ≠ 0 := fun hz => hzero ⟨hz, hnull⟩
      have hsame' : n ≠ size := fun hc => hsame ⟨hnull, (h.sizes _ he).trans hc⟩
      have hother : ¬ (q = p' ∨ q = 0 ∧ size ≠ 0) := fun hc => hc.elim hne fun hc => htmp hc.1
      rw [Store.realloc, if_neg hnull, hlookup]
      dsimp only
      rw [if_neg hzero', if_neg hsame', hstore, State.move, if_neg hother, view, State.drop, State.hand, if_neg htmp,
        Option.map_some, hbyte]
      rfl

/-- In every run whose bump tests are sound the heap serves its callers. -/
theorem serves_of_run {info : Word → PtrInfo} {byte : Bytes} {ops : List Heap.Op}
    (hrun : Run (Guarded Heap.Step fun s op _ => BumpSafe s op) (State.start info byte) ops s) : Serves s := by
  obtain ⟨blocks, t, h⟩ := run_inv hrun
  constructor
  case wf => exact live_wf h
  case alloc =>
    intro size page m q hpage hbump halloc hq
    have hcall : ¬ SIZEMASK - sizeofPtrInfo < size →
        memType .normal ≠ .normal ∨ s.mm.searchAvail size = some none → BumpSound s.mm size page := by
      intro hguard
      have hcall : allocMemCall s (.alloc size .normal page) = some (size, .normal) :=
        if_neg (not_or.mpr ⟨hguard, by decide⟩)
      exact hbump (size, .normal) hcall
    rw [(alloc_view h hpage hcall halloc hq).1, State.hand, if_neg hq]
    rfl
  case realloc =>
    intro p size page m q hp hpage hbump hrealloc hq
    exact realloc_view h hp hpage hbump hrealloc hq
  case free =>
    intro p m b hfree
    rw [Store.free, view, State.drop, view, freeNoLock_byte hfree]

end Views

end CxxKernel.Text
