import CxxKernel.Heap.Safety

/-! When an operation of the heap comes to `allocPage`, and what it does with the pages. -/
namespace CxxKernel.Heap

namespace MM
variable {m m' : MM} {p parent cur size q page page' cnt : Word} {t : AllocType}

section PageRuns

theorem treeAddLoop_runs {fuel : ℕ} {tmp : Word} (h : treeAddLoop cur fuel m tmp = some m') : m'.runs = m.runs := by
  induction fuel generalizing tmp with
  | zero => cases h
  | succ fuel ih =>
    rw [treeAddLoop] at h
    split_ifs at h
    · rw [← Option.some.inj h]
    · rw [← Option.some.inj h]
      rfl
    · exact ih h
    · rw [← Option.some.inj h]
      rfl
    · exact ih h

theorem treeAdd_runs (h : treeAdd m cur = some m') : m'.runs = m.runs := by
  unfold treeAdd at h
  dsimp only at h
  split_ifs at h
  · rw [← Option.some.inj h]
  · rw [← Option.some.inj h]
    rfl
  · exact (treeAddLoop_runs h).trans rfl

theorem releaseRoot_runs (h : m.releaseRoot p = some m') : m'.runs = m.runs := by
  unfold releaseRoot at h
  split_ifs at h
  · rw [← Option.some.inj h]
  · rw [← Option.some.inj h]
  · exact (treeAdd_runs h).trans rfl
  · rw [← Option.some.inj h]

theorem treeAddChild_runs {link : Word} (h : m.treeAddChild link = some m') : m'.runs = m.runs := by
  unfold treeAddChild at h
  split_ifs at h
  · exact treeAdd_runs h
  · rw [← Option.some.inj h]

theorem releaseInner_runs (h : m.releaseInner p parent = some m') : m'.runs = m.runs := by
  obtain ⟨m₁, h₁, h₂⟩ := Option.bind_eq_some_iff.mp h
  have hunlink : (m.unlinkParent (ptrinfoToPtr p) parent).runs = m.runs := by
    unfold unlinkParent
    split_ifs <;> rfl
  rw [treeAddChild_runs h₂, treeAddChild_runs h₁, hunlink]

theorem releaseFree_runs (h : m.releaseFree p parent = some (m', q)) : m'.runs = m.runs ∧ q = p := by
  unfold releaseFree at h
  split_ifs at h with hp hparent
  · obtain ⟨rfl, rfl⟩ := Prod.mk.inj (Option.some.inj h)
    exact ⟨rfl, hp.symm⟩
  · obtain ⟨m₁, h₁, he⟩ := Option.map_eq_some_iff.mp h
    obtain ⟨rfl, rfl⟩ := Prod.mk.inj he
    exact ⟨(rfl : _ = m₁.runs).trans (releaseRoot_runs h₁), rfl⟩
  · obtain ⟨m₁, h₁, he⟩ := Option.map_eq_some_iff.mp h
    obtain ⟨rfl, rfl⟩ := Prod.mk.inj he
    exact ⟨(rfl : _ = m₁.runs).trans (releaseInner_runs h₁), rfl⟩

theorem findAvailLoop_ne_zero {fuel : ℕ} {tmp tmp2 : Word}
    (h : m.findAvailLoop size fuel tmp tmp2 = some (some (p, parent))) : p ≠ 0 := by
  induction fuel generalizing tmp tmp2 with
  | zero => cases h
  | succ fuel ih =>
    rw [findAvailLoop] at h
    split_ifs at h with hzero
    · cases h
    · obtain ⟨rfl, -⟩ := Prod.mk.inj (Option.some.inj (Option.some.inj h))
      exact hzero
    · exact ih h
    · exact ih h
    · cases h
    · exact ih h
    · exact ih h
    · cases h

/-- `findAvail` answers null exactly when its search finds no block, and then does nothing. -/
theorem findAvail_runs (h : m.findAvail size = some (m', q)) :
    m'.runs = m.runs ∧ (q = 0 → m' = m ∧ m.searchAvail size = some none) ∧
      (m.searchAvail size = some none → q = 0) := by
  obtain ⟨found, hfound, h⟩ := Option.bind_eq_some_iff.mp h
  match found with
  | none =>
    obtain ⟨rfl, rfl⟩ := Prod.mk.inj (Option.some.inj h)
    exact ⟨rfl, fun _ => ⟨rfl, hfound⟩, fun _ => rfl⟩
  | some (p, parent) =>
    obtain ⟨hruns, rfl⟩ := releaseFree_runs h
    have hne : q ≠ 0 := by
      unfold searchAvail at hfound
      split_ifs at hfound
      · cases hfound
      · exact findAvailLoop_ne_zero hfound
    refine ⟨hruns, fun hzero => absurd hzero hne, fun hnone => ?_⟩
    cases hnone.symm.trans hfound

theorem freeNoLock_runs {ok : Bool} (h : m.freeNoLock p = some (m', ok)) : m'.runs = m.runs := by
  unfold freeNoLock at h
  dsimp only at h
  split_ifs at h
  · rw [(Prod.mk.inj (Option.some.inj h)).1]
  · rw [(Prod.mk.inj (Option.some.inj h)).1]
  · rw [(Prod.mk.inj (Option.some.inj h)).1]
  · rw [(Prod.mk.inj (Option.some.inj h)).1]
  · obtain ⟨m₁, h₁, he⟩ := Option.map_eq_some_iff.mp h
    obtain ⟨rfl, -⟩ := Prod.mk.inj he
    exact (treeAdd_runs h₁).trans rfl

theorem reclaimTail_runs (h : m.reclaimTail = some m') : m'.runs = m.runs := by
  unfold reclaimTail at h
  split_ifs at h
  · obtain ⟨⟨m₁, ok⟩, h₁, rfl⟩ := Option.map_eq_some_iff.mp h
    exact (freeNoLock_runs h₁).trans rfl
  · rw [← Option.some.inj h]

@[simp] theorem advance_runs (m : MM) (size2 : Word) : (m.advance size2).runs = m.runs := by
  unfold advance
  split_ifs <;> rfl

theorem bumpAlloc_cases {size2 : Word} (h : m.bumpAlloc size2 cnt page = some (m', q)) :
    (m.NeedsPages size2 ∧ (m'.runs = m.runs ∨ page ≠ 0 ∧ m'.runs = (page, cnt) :: m.runs)) ∨
    (¬ m.NeedsPages size2 ∧ m'.runs = m.runs ∧ ∀ page', m.bumpAlloc size2 cnt page' = some (m', q)) := by
  by_cases hneeds : m.NeedsPages size2
  · refine .inl ⟨hneeds, ?_⟩
    rw [bumpAlloc, if_pos hneeds] at h
    obtain ⟨m₁, h₁, he⟩ := Option.map_eq_some_iff.mp h
    have hruns := reclaimTail_runs h₁
    dsimp only at he
    unfold allocPage at he
    by_cases hpage : page = 0
    · rw [if_pos hpage, if_pos rfl] at he
      obtain ⟨rfl, -⟩ := Prod.mk.inj he
      exact .inl hruns
    · rw [if_neg hpage, if_neg hpage] at he
      obtain ⟨rfl, -⟩ := Prod.mk.inj he
      refine .inr ⟨hpage, ?_⟩
      rw [advance_runs, hruns]
  · refine .inr ⟨hneeds, ?_, fun page' => ?_⟩
    · rw [bumpAlloc, if_neg hneeds] at h
      obtain ⟨rfl, -⟩ := Prod.mk.inj (Option.some.inj h)
      exact advance_runs m size2
    · rw [bumpAlloc, if_neg hneeds] at h ⊢
      exact h

/-- The bump branch of `allocMem` comes to `allocPage`. -/
def AsksPages (m : MM) (size : Word) (t : AllocType) : Prop :=
  (t ≠ .normal ∨ m.searchAvail size = some none) ∧ m.NeedsPages (size + sizeofPtrInfo)

instance (m : MM) (size : Word) (t : AllocType) : Decidable (m.AsksPages size t) :=
  inferInstanceAs (Decidable ((t ≠ .normal ∨ m.searchAvail size = some none) ∧ m.NeedsPages (size + sizeofPtrInfo)))

theorem allocMem_cases (h : m.allocMem size t page = some (m', q)) :
    (m.AsksPages size t ∧
      (m'.runs = m.runs ∨ page ≠ 0 ∧ m'.runs = (page, pagesFor (size + sizeofPtrInfo)) :: m.runs)) ∨
    (¬ m.AsksPages size t ∧ m'.runs = m.runs ∧ ∀ page', m.allocMem size t page' = some (m', q)) := by
  unfold allocMem at h
  obtain ⟨⟨m₁, avail⟩, h₁, h⟩ := Option.bind_eq_some_iff.mp h
  obtain ⟨⟨m₂, ptr⟩, h₂, he⟩ := Option.map_eq_some_iff.mp h
  have hfirst :
      m₁.runs = m.runs ∧ (avail = 0 → m₁ = m) ∧ (avail = 0 ↔ t ≠ .normal ∨ m.searchAvail size = some none) := by
    by_cases ht : t = .normal
    · rw [if_pos ht] at h₁
      obtain ⟨hruns, hzero, hnone⟩ := findAvail_runs h₁
      refine ⟨hruns, fun ha => (hzero ha).1, fun ha => .inr (hzero ha).2, fun hor => ?_⟩
      exact hnone (hor.resolve_left (not_not.mpr ht))
    · rw [if_neg ht] at h₁
      obtain ⟨rfl, rfl⟩ := Prod.mk.inj (Option.some.inj h₁)
      exact ⟨rfl, fun _ => rfl, fun _ => .inl ht, fun _ => rfl⟩
  obtain ⟨hruns₁, hsame, hiff⟩ := hfirst
  have hend : m'.runs = m₂.runs := by
    dsimp only at he
    split_ifs at he
    · rw [← (Prod.mk.inj he).1]
    · rw [← (Prod.mk.inj he).1]
      rfl
  by_cases havail : avail = 0
  · obtain rfl := hsame havail
    rw [if_pos havail] at h₂
    rcases bumpAlloc_cases h₂ with ⟨hneeds, hruns⟩ | ⟨hneeds, hruns, hpages⟩
    · exact .inl ⟨⟨hiff.mp havail, hneeds⟩, by rwa [hend]⟩
    · refine .inr ⟨fun hasks => hneeds hasks.2, hend.trans hruns, fun page' => ?_⟩
      unfold allocMem
      rw [h₁, Option.bind_some]
      dsimp only
      rw [if_pos havail, hpages page', Option.map_some]
      exact congrArg some he
  · rw [if_neg havail] at h₂
    obtain ⟨rfl, rfl⟩ := Prod.mk.inj (Option.some.inj h₂)
    refine .inr ⟨fun hasks => havail (hiff.mpr hasks.1), hend.trans hruns₁, fun page' => ?_⟩
    unfold allocMem
    rw [h₁, Option.bind_some]
    dsimp only
    rw [if_neg havail, Option.map_some]
    exact congrArg some he

/-- The number of pages that `alloc` asks `allocPage` for, if it does. -/
def pagesAsked (m : MM) (size : Word) (t : AllocType) : Option Word :=
  if SIZEMASK - sizeofPtrInfo < size then none
  else if t = .page then some size
  else if m.AsksPages size (memType t) then some (pagesFor (size + sizeofPtrInfo))
  else none

/-- What the answer of `allocPage` means for a call: without the call it does not matter, with it its
pages may join the others. -/
def PageEffect (m m' : MM) (asked : Option Word) (page : Word) (same : Word → Prop) : Prop :=
  (∃ cnt, asked = some cnt ∧ (m'.runs = m.runs ∨ page ≠ 0 ∧ m'.runs = (page, cnt) :: m.runs)) ∨
    (asked = none ∧ m'.runs = m.runs ∧ ∀ page', same page')

theorem PageEffect.of_none {same : Word → Prop} (hruns : m'.runs = m.runs) (hsame : ∀ page', same page') :
    PageEffect m m' none page same := .inr ⟨rfl, hruns, hsame⟩

theorem PageEffect.trans {same same' : Word → Prop} {m₁ : MM} {asked : Option Word}
    (h : PageEffect m m₁ asked page same) (hruns : m'.runs = m₁.runs) (hsame : ∀ page', same page' → same' page') :
    PageEffect m m' asked page same' := by
  unfold PageEffect at *
  rw [hruns]
  exact h.imp id fun ⟨hasked, hruns₁, hall⟩ => ⟨hasked, hruns₁, fun page' => hsame page' (hall page')⟩

theorem allocMem_effect (hguard : ¬ SIZEMASK - sizeofPtrInfo < size) (ht : t ≠ .page)
    (h : m.allocMem size (memType t) page = some (m', q)) :
    PageEffect m m' (m.pagesAsked size t) page fun page' => m.allocMem size (memType t) page' = some (m', q) := by
  unfold pagesAsked
  rw [if_neg hguard, if_neg ht]
  rcases allocMem_cases h with ⟨hasks, hruns⟩ | ⟨hasks, hruns, hall⟩
  · rw [if_pos hasks]
    exact .inl ⟨_, rfl, hruns⟩
  · rw [if_neg hasks]
    exact .of_none hruns hall

theorem alloc_effect (h : m.alloc size t page = some (m', q)) :
    PageEffect m m' (m.pagesAsked size t) page fun page' => m.alloc size t page' = some (m', q) := by
  by_cases hguard : SIZEMASK - sizeofPtrInfo < size
  · have hrefused : ∀ page', m.alloc size t page' = some (m, 0) := fun _ => if_pos hguard
    obtain ⟨rfl, rfl⟩ := Prod.mk.inj (Option.some.inj ((hrefused page).symm.trans h))
    unfold pagesAsked
    rw [if_pos hguard]
    exact .of_none rfl hrefused
  · cases t with
    | normal =>
      have hcall : ∀ page', m.alloc size .normal page' = m.allocMem size .normal page' := fun _ => if_neg hguard
      rw [hcall] at h
      simp only [hcall]
      exact allocMem_effect hguard (by decide) h
    | fast =>
      have hcall : ∀ page', m.alloc size .fast page' = m.allocMem size .fast page' := fun _ => if_neg hguard
      rw [hcall] at h
      simp only [hcall]
      exact allocMem_effect hguard (by decide) h
    | clear =>
      have hcall : ∀ page', m.alloc size .clear page' = m.allocMemClear size page' := fun _ => if_neg hguard
      rw [hcall] at h
      simp only [hcall]
      obtain ⟨⟨m₁, ptr⟩, h₁, he⟩ := Option.map_eq_some_iff.mp h
      have hruns : m'.runs = m₁.runs := by
        dsimp only at he
        split_ifs at he
        · rw [← (Prod.mk.inj he).1]
        · rw [← (Prod.mk.inj he).1]
      refine (allocMem_effect (t := .clear) hguard (by decide) h₁).trans hruns fun page' h' => ?_
      exact Option.map_eq_some_iff.mpr ⟨_, h', he⟩
    | page =>
      have hcall : m.alloc size .page page = some (m.allocPage size page) := if_neg hguard
      rw [hcall] at h
      unfold pagesAsked
      rw [if_neg hguard, if_pos rfl]
      refine .inl ⟨size, rfl, ?_⟩
      dsimp only [allocPage] at h
      by_cases hpage : page = 0
      · rw [if_pos hpage] at h
        exact .inl (congrArg runs (Prod.mk.inj (Option.some.inj h)).1.symm)
      · rw [if_neg hpage] at h
        exact .inr ⟨hpage, congrArg runs (Prod.mk.inj (Option.some.inj h)).1.symm⟩

/-- The number of pages that `realloc` asks for. -/
def reallocAsked (m : MM) (p size : Word) : Option Word :=
  if p ≠ 0 ∧ (size = 0 ∨ (m.info (ptrToPtrinfo p)).size = size) then none else m.pagesAsked size .normal

theorem reallocMove_runs {tmp : Word} (h : m.reallocMove p tmp size = some (m', q)) : m'.runs = m.runs := by
  unfold reallocMove at h
  obtain ⟨⟨m₁, ok⟩, h₁, he⟩ := Option.map_eq_some_iff.mp h
  obtain ⟨rfl, -⟩ := Prod.mk.inj he
  rw [freeNoLock_runs h₁]
  split_ifs <;> rfl

theorem realloc_effect (h : m.realloc p size page = some (m', q)) :
    PageEffect m m' (m.reallocAsked p size) page fun page' => m.realloc p size page' = some (m', q) := by
  unfold realloc at h
  by_cases hzero : size = 0 ∧ p ≠ 0
  · have hcall : ∀ page', m.realloc p size page' = (m.free p).map fun x => (x.1, 0) := fun _ => if_pos hzero
    rw [if_pos hzero] at h
    obtain ⟨⟨m₁, ok⟩, h₁, he⟩ := Option.map_eq_some_iff.mp h
    obtain ⟨rfl, -⟩ := Prod.mk.inj he
    rw [reallocAsked, if_pos ⟨hzero.2, .inl hzero.1⟩]
    exact .of_none (freeNoLock_runs h₁) fun page' => (hcall page').trans h
  · rw [if_neg hzero] at h
    by_cases hsame : p ≠ 0 ∧ (m.info (ptrToPtrinfo p)).size = size
    · have hcall : ∀ page', m.realloc p size page' = some (m, p) := by
        intro page'
        rw [realloc, if_neg hzero, if_pos hsame]
      rw [if_pos hsame] at h
      obtain ⟨rfl, rfl⟩ := Prod.mk.inj (Option.some.inj h)
      rw [reallocAsked, if_pos ⟨hsame.1, .inr hsame.2⟩]
      exact .of_none rfl hcall
    · have hasked : m.reallocAsked p size = m.pagesAsked size .normal := by
        refine if_neg fun hc => ?_
        rcases hc.2 with hs | hs
        · exact hzero ⟨hs, hc.1⟩
        · exact hsame ⟨hc.1, hs⟩
      rw [if_neg hsame] at h
      obtain ⟨⟨m₁, tmp⟩, h₁, h₂⟩ := Option.bind_eq_some_iff.mp h
      have hruns : m'.runs = m₁.runs := by
        dsimp only at h₂
        generalize (if p ≠ 0 ∧ (m.info (ptrToPtrinfo p)).state = .freed then 0 else p) = p' at h₂
        split_ifs at h₂
        · rw [← (Prod.mk.inj (Option.some.inj h₂)).1]
        · rw [← (Prod.mk.inj (Option.some.inj h₂)).1]
        · exact reallocMove_runs h₂
      rw [hasked]
      refine (alloc_effect h₁).trans hruns fun page' h' => ?_
      unfold realloc
      rw [if_neg hzero, if_neg hsame]
      exact Option.bind_eq_some_iff.mpr ⟨_, h', h₂⟩

end PageRuns

end MM

/-- The operation with another answer of `allocPage`. -/
def Op.withPage (page : Word) : Op → Op
  | .alloc size t _ => .alloc size t page
  | .free p => .free p
  | .realloc p size _ => .realloc p size page
  | .write p info byte => .write p info byte

/-- The number of pages that an operation asks for. -/
def State.pagesAsked (s : State) : Op → Option Word
  | .alloc size t _ => s.mm.pagesAsked size t
  | .free _ => none
  | .realloc p size _ => s.mm.reallocAsked p size
  | .write _ _ _ => none

theorem exec_effect {s s' : State} {op : Op} {page : Word} (h : s.exec (op.withPage page) = some s') :
    MM.PageEffect s.mm s'.mm (s.pagesAsked op) page fun page' => s.exec (op.withPage page') = some s' := by
  cases op with
  | alloc size t _ =>
    obtain ⟨⟨m, q⟩, hm, he⟩ := Option.map_eq_some_iff.mp h
    have hruns : s'.mm.runs = m.runs := by
      dsimp only at he
      split_ifs at he
      · rw [← he]
      · rw [← he, State.hand]
        split_ifs <;> rfl
    exact (MM.alloc_effect hm).trans hruns fun page' h' => Option.map_eq_some_iff.mpr ⟨_, h', he⟩
  | free p =>
    obtain ⟨⟨m, ok⟩, hm, rfl⟩ := Option.map_eq_some_iff.mp h
    exact .of_none (MM.freeNoLock_runs hm) fun _ => h
  | realloc p size _ =>
    obtain ⟨⟨m, q⟩, hm, he⟩ := Option.map_eq_some_iff.mp h
    have hruns : s'.mm.runs = m.runs := by
      rw [← he]
      dsimp only [State.move]
      split_ifs
      · rfl
      · rfl
    exact (MM.realloc_effect hm).trans hruns fun page' h' => Option.map_eq_some_iff.mpr ⟨_, h', he⟩
  | write p info byte =>
    obtain rfl := Option.some.inj h
    exact .of_none rfl fun _ => rfl

end CxxKernel.Heap
