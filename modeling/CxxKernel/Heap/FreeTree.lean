import CxxKernel.Lib.LinkedTree
import CxxKernel.Heap.Allocator
import Mathlib.Data.Fintype.Card
import Mathlib.Data.Fintype.BigOperators
import Mathlib.Data.FinEnum

/-! The free tree in memory refines the search trees of the library: `treeAdd` is
`insertLeaf`, `releaseFree` is `unlink`, and both leave everything but links alone. -/
namespace CxxKernel.Heap
open BinaryTree SearchTree LinkedTree

/-- The header a link points to. Links hold payload addresses, and 0 is the null pointer. -/
def link (q : Word) : Option Word := if q = 0 then none else some (ptrToPtrinfo q)

theorem ptrinfoToPtr_ptrToPtrinfo (q : Word) : ptrinfoToPtr (ptrToPtrinfo q) = q := by
  unfold ptrinfoToPtr ptrToPtrinfo sizeofPtrInfo
  bv_omega

@[simp] theorem ptrToPtrinfo_ptrinfoToPtr (a : Word) : ptrToPtrinfo (ptrinfoToPtr a) = a := by
  unfold ptrinfoToPtr ptrToPtrinfo sizeofPtrInfo
  bv_omega

@[simp] theorem link_zero : link 0#32 = none := rfl

theorem link_of_ne {q : Word} (h : q ≠ 0) : link q = some (ptrToPtrinfo q) := if_neg h

theorem link_eq_none {q : Word} : link q = none ↔ q = 0 := by
  unfold link
  split_ifs with h
  · exact iff_of_true rfl h
  · exact iff_of_false (by simp) h

theorem link_ptrinfoToPtr {a : Word} (h : ptrinfoToPtr a ≠ 0) : link (ptrinfoToPtr a) = some a := by
  rw [link_of_ne h, ptrToPtrinfo_ptrinfoToPtr]

theorem link_eq_some {q a : Word} : link q = some a ↔ q ≠ 0 ∧ q = ptrinfoToPtr a := by
  constructor
  · intro h
    have hq : q ≠ 0 := fun hq => by rw [link_eq_none.mpr hq] at h; cases h
    rw [link_of_ne hq, Option.some.injEq] at h
    exact ⟨hq, by rw [← h, ptrinfoToPtr_ptrToPtrinfo]⟩
  · rintro ⟨hq, rfl⟩
    exact link_ptrinfoToPtr hq

/-- A header without its links. -/
def PtrInfo.unlinked (i : PtrInfo) : PtrInfo := { i with prev := 0, next := 0 }

namespace MM

def left (m : MM) (a : Word) : Option Word := link (m.info a).prev
def right (m : MM) (a : Word) : Option Word := link (m.info a).next
def root (m : MM) : Option Word := link m.lastFree
def key (m : MM) (a : Word) : ℕ := (m.info a).size.toNat

/-- The nodes that can be reached from `__mm_last_free`. -/
def Free (m : MM) (a : Word) : Prop := Reaches m.left m.right m.root a

@[simp] theorem setInfo_self (m : MM) (a : Word) (i : PtrInfo) : (m.setInfo a i).info a = i := by
  simp [setInfo]

theorem setInfo_of_ne (m : MM) {a b : Word} (i : PtrInfo) (h : b ≠ a) :
    (m.setInfo a i).info b = m.info b := by
  simp [setInfo, h]

end MM

/-- The tree at `__mm_last_free` is `t`, a search tree of distinct non-null headers. -/
structure FreeTree (m : MM) (t : BinaryTree Word) : Prop where
  shape : Shape m.left m.right m.root t
  nodup : (nodes t).Nodup
  nonnull : ∀ a ∈ nodes t, a ≠ 0
  ordered : Ordered m.key t

/-- The two heaps differ in links only. -/
structure SameData (m m' : MM) : Prop where
  info : ∀ a, (m'.info a).unlinked = (m.info a).unlinked
  byte : m'.byte = m.byte
  lastPage : m'.lastPage = m.lastPage
  freeTop : m'.freeTop = m.freeTop
  freeMax : m'.freeMax = m.freeMax
  runs : m'.runs = m.runs

namespace SameData
variable {m m' m'' : MM}

theorem refl (m : MM) : SameData m m := ⟨fun _ => rfl, rfl, rfl, rfl, rfl, rfl⟩

theorem trans (h : SameData m m') (h' : SameData m' m'') : SameData m m'' :=
  ⟨fun a => (h'.info a).trans (h.info a), h'.byte.trans h.byte, h'.lastPage.trans h.lastPage,
    h'.freeTop.trans h.freeTop, h'.freeMax.trans h.freeMax, h'.runs.trans h.runs⟩

theorem size (h : SameData m m') (a : Word) : (m'.info a).size = (m.info a).size := by
  have hu := congrArg PtrInfo.size (h.info a)
  exact hu

theorem ressize (h : SameData m m') (a : Word) : (m'.info a).ressize = (m.info a).ressize := by
  have hu := congrArg PtrInfo.ressize (h.info a)
  exact hu

theorem state (h : SameData m m') (a : Word) : (m'.info a).state = (m.info a).state := by
  have hu := congrArg PtrInfo.state (h.info a)
  exact hu

theorem used (h : SameData m m') (a : Word) : (m'.info a).used = (m.info a).used := by
  have hu := congrArg PtrInfo.used (h.info a)
  exact hu

theorem key (h : SameData m m') : m'.key = m.key :=
  funext fun a => congrArg BitVec.toNat (h.size a)

theorem setInfo {a : Word} {i : PtrInfo} (hi : i.unlinked = (m.info a).unlinked) :
    SameData m (m.setInfo a i) := by
  refine ⟨fun b => ?_, rfl, rfl, rfl, rfl, rfl⟩
  by_cases hb : b = a
  · rw [hb, MM.setInfo_self, hi]
  · rw [MM.setInfo_of_ne m i hb]

theorem setPrev (m : MM) (a p : Word) : SameData m (m.setPrev a p) := setInfo rfl

theorem setNext (m : MM) (a p : Word) : SameData m (m.setNext a p) := setInfo rfl

theorem setLastFree (m : MM) (p : Word) : SameData m { m with lastFree := p } :=
  ⟨fun _ => rfl, rfl, rfl, rfl, rfl, rfl⟩

end SameData

namespace MM
variable (m : MM)

@[simp] theorem setPrev_lastFree (a p : Word) : (m.setPrev a p).lastFree = m.lastFree := rfl

@[simp] theorem setNext_lastFree (a p : Word) : (m.setNext a p).lastFree = m.lastFree := rfl

@[simp] theorem setPrev_root (a p : Word) : (m.setPrev a p).root = m.root := rfl

@[simp] theorem setNext_root (a p : Word) : (m.setNext a p).root = m.root := rfl

theorem setPrev_info_of_ne {a b : Word} (p : Word) (h : b ≠ a) :
    (m.setPrev a p).info b = m.info b := m.setInfo_of_ne _ h

theorem setNext_info_of_ne {a b : Word} (p : Word) (h : b ≠ a) :
    (m.setNext a p).info b = m.info b := m.setInfo_of_ne _ h

@[simp] theorem setPrev_left (a p : Word) :
    (m.setPrev a p).left = Function.update m.left a (link p) := by
  funext b
  by_cases hb : b = a
  · subst hb
    simp [left, setPrev]
  · simp [left, setPrev_info_of_ne m p hb, hb]

@[simp] theorem setPrev_right (a p : Word) : (m.setPrev a p).right = m.right := by
  funext b
  by_cases hb : b = a
  · subst hb
    simp [right, setPrev]
  · simp [right, setPrev_info_of_ne m p hb]

@[simp] theorem setNext_right (a p : Word) :
    (m.setNext a p).right = Function.update m.right a (link p) := by
  funext b
  by_cases hb : b = a
  · subst hb
    simp [right, setNext]
  · simp [right, setNext_info_of_ne m p hb, hb]

@[simp] theorem setNext_left (a p : Word) : (m.setNext a p).left = m.left := by
  funext b
  by_cases hb : b = a
  · subst hb
    simp [left, setNext]
  · simp [left, setNext_info_of_ne m p hb]

/-- The write at the end of `treeAddLoop`. -/
def hang (cur : Word) (s : Word × Side) : MM :=
  match s.2 with
  | .left => m.setPrev s.1 (ptrinfoToPtr cur)
  | .right => m.setNext s.1 (ptrinfoToPtr cur)

theorem hang_left {cur : Word} (hp : ptrinfoToPtr cur ≠ 0) (s : Word × Side) :
    (m.hang cur s).left = hangLeft m.left cur s := by
  obtain ⟨a, s⟩ := s
  cases s <;> simp [hang, hangLeft, link_ptrinfoToPtr hp]

theorem hang_right {cur : Word} (hp : ptrinfoToPtr cur ≠ 0) (s : Word × Side) :
    (m.hang cur s).right = hangRight m.right cur s := by
  obtain ⟨a, s⟩ := s
  cases s <;> simp [hang, hangRight, link_ptrinfoToPtr hp]

@[simp] theorem hang_root (cur : Word) (s : Word × Side) : (m.hang cur s).root = m.root := by
  obtain ⟨a, s⟩ := s
  cases s <;> rfl

theorem hang_sameData (cur : Word) (s : Word × Side) : SameData m (m.hang cur s) := by
  obtain ⟨a, s⟩ := s
  cases s
  · exact .setPrev m a _
  · exact .setNext m a _

theorem hang_info_of_ne {cur a : Word} {s : Word × Side} (h : a ≠ s.1) :
    (m.hang cur s).info a = m.info a := by
  obtain ⟨b, s⟩ := s
  cases s
  · exact m.setPrev_info_of_ne _ h
  · exact m.setNext_info_of_ne _ h

end MM

theorem length_le_walkFuel {l : List Word} (h : l.Nodup) : l.length ≤ walkFuel := by
  have hmap : (l.map BitVec.toNat).Nodup :=
    h.map fun a b hab => BitVec.eq_of_toNat_eq hab
  have hsub : (l.map BitVec.toNat).toFinset ⊆ Finset.range (2 ^ 32) := by
    intro n hn
    obtain ⟨a, -, rfl⟩ := List.mem_map.mp (List.mem_toFinset.mp hn)
    exact Finset.mem_range.mpr a.isLt
  have hcard := Finset.card_le_card hsub
  rwa [List.toFinset_card_of_nodup hmap, List.length_map, Finset.card_range] at hcard

section TreeAdd
variable {m : MM} {t : BinaryTree Word} {cur : Word}

variable (cur) in
/-- The walk of `treeAdd` ends, at the place where the library hangs a new leaf. -/
theorem treeAddLoop_eq {tmp : Word} {fuel : ℕ} (h : Shape m.left m.right (some tmp) t)
    (hnz : ∀ a ∈ nodes t, a ≠ 0) (hfuel : (nodes t).length ≤ fuel) :
    ∃ s, slot m.key cur t = some s ∧ MM.treeAddLoop cur fuel m tmp = some (m.hang cur s) := by
  induction t generalizing tmp fuel with
  | nil => simp [Shape] at h
  | node a l r ihl ihr =>
    obtain ⟨hs, hl, hr⟩ := h
    obtain rfl : tmp = a := by simpa using hs
    cases fuel with
    | zero => simp at hfuel
    | succ fuel =>
      have hnl : ∀ b ∈ nodes l, b ≠ 0 := fun b hb => hnz b (by simp [hb])
      have hnr : ∀ b ∈ nodes r, b ≠ 0 := fun b hb => hnz b (by simp [hb])
      have hlen : (nodes l).length ≤ fuel ∧ (nodes r).length ≤ fuel := by
        simp only [nodes_node, List.length_cons, List.length_append] at hfuel
        omega
      have hlt : (m.info cur).size < (m.info tmp).size ↔ m.key cur < m.key tmp := BitVec.lt_def
      rw [MM.treeAddLoop, if_neg (hnz tmp (by simp)), slot]
      by_cases hc : m.key cur < m.key tmp
      · rw [if_pos (hlt.mpr hc), if_pos hc]
        by_cases hp : (m.info tmp).prev = 0
        · rw [show m.left tmp = none from link_eq_none.mpr hp] at hl
          obtain rfl := hl.eq_nil
          exact ⟨_, rfl, by rw [if_pos hp]; rfl⟩
        · rw [if_neg hp]
          rw [MM.left, link_of_ne hp] at hl
          obtain ⟨s, hs, hloop⟩ := ihl hl hnl hlen.1
          exact ⟨s, by rw [hs]; rfl, hloop⟩
      · rw [if_neg (mt hlt.mp hc), if_neg hc]
        by_cases hp : (m.info tmp).next = 0
        · rw [show m.right tmp = none from link_eq_none.mpr hp] at hr
          obtain rfl := hr.eq_nil
          exact ⟨_, rfl, by rw [if_pos hp]; rfl⟩
        · rw [if_neg hp]
          rw [MM.right, link_of_ne hp] at hr
          obtain ⟨s, hs, hloop⟩ := ihr hr hnr hlen.2
          exact ⟨s, by rw [hs]; rfl, hloop⟩

/-- What `treeAdd` does to a free tree: it inserts a leaf, and writes only links of the tree
and of the new node. -/
theorem treeAdd_spec (h : FreeTree m t) (hcur : cur ∉ nodes t) (hcur0 : cur ≠ 0)
    (hptr : ptrinfoToPtr cur ≠ 0) :
    ∃ m', m.treeAdd cur = some m' ∧ FreeTree m' (insertLeaf m.key cur t) ∧ SameData m m' ∧
      ∀ a, a ∉ nodes t → a ≠ cur → m'.info a = m.info a := by
  let m₁ := (m.setNext cur 0).setPrev cur 0
  have hdata : SameData m m₁ := (SameData.setNext m cur 0).trans (.setPrev _ cur 0)
  have hinfo : ∀ a, a ≠ cur → m₁.info a = m.info a := fun a ha => by
    rw [MM.setPrev_info_of_ne _ _ ha, MM.setNext_info_of_ne _ _ ha]
  have hleft : m₁.left = Function.update m.left cur none := by simp [m₁]
  have hright : m₁.right = Function.update m.right cur none := by simp [m₁]
  have hne : ∀ a ∈ nodes t, a ≠ cur := fun a ha he => hcur (he ▸ ha)
  have hshape : Shape m₁.left m₁.right m.root t := by
    rw [hleft, hright]
    exact h.shape.congr (fun a ha => Function.update_of_ne (hne a ha) _ _)
      fun a ha => Function.update_of_ne (hne a ha) _ _
  have hkey : m₁.key = m.key := hdata.key
  have hnodup := nodup_insertLeaf m.key hcur h.nodup
  have hnonnull : ∀ a ∈ nodes (insertLeaf m.key cur t), a ≠ 0 := by
    intro a ha
    rcases (mem_insertLeaf m.key).mp ha with rfl | ha
    · exact hcur0
    · exact h.nonnull a ha
  have hordered := ordered_insertLeaf m.key cur h.ordered
  rw [MM.treeAdd, if_neg hcur0]
  by_cases hroot : m.lastFree = 0
  · have hshape₀ := h.shape
    rw [show m.root = none from link_eq_none.mpr hroot] at hshape₀
    obtain rfl := hshape₀.eq_nil
    refine ⟨{ m₁ with lastFree := ptrinfoToPtr cur }, if_pos hroot, ⟨?_, hnodup, hnonnull, ?_⟩,
      hdata.trans (.setLastFree m₁ _), fun a _ ha => hinfo a ha⟩
    · refine ⟨link_ptrinfoToPtr hptr, ?_, ?_⟩
      · change m₁.left cur = none
        simp [hleft]
      · change m₁.right cur = none
        simp [hright]
    · exact hordered.congr fun a _ => congrFun hkey a
  · have hroot' : m.root = some (ptrToPtrinfo m.lastFree) := link_of_ne hroot
    rw [hroot'] at hshape
    obtain ⟨s, hs, hloop⟩ := treeAddLoop_eq cur hshape h.nonnull (length_le_walkFuel h.nodup)
    have hmem := slot_mem _ hs
    refine ⟨m₁.hang cur s, (if_neg hroot).trans hloop, ⟨?_, hnodup, hnonnull, ?_⟩,
      hdata.trans (m₁.hang_sameData cur s), fun a ha hac => ?_⟩
    · rw [MM.hang_left _ hptr, MM.hang_right _ hptr, MM.hang_root]
      change Shape _ _ m.root _
      rw [hroot', ← hkey]
      exact hshape.insertLeaf m₁.key h.nodup hcur (by simp [hleft]) (by simp [hright]) hs
    · rw [(m₁.hang_sameData cur s).key, hkey]
      exact hordered
    · rw [MM.hang_info_of_ne _ (fun he : a = s.1 => ha (he ▸ hmem)), hinfo a hac]

end TreeAdd

/-- `parent` is what `findAvail` passes to `releaseFree` with `p`: 0 for the root. -/
def TrueParent (m : MM) (p parent : Word) : Prop :=
  (parent = 0 ∧ m.root = some p) ∨
    (m.Free parent ∧ (m.left parent = some p ∨ m.right parent = some p))

namespace FreeTree
variable {m : MM} {t l r : BinaryTree Word} {p : Word}

theorem free_iff (h : FreeTree m t) {a : Word} : m.Free a ↔ a ∈ nodes t := h.shape.reaches_iff

theorem ptr_ne_zero (h : FreeTree m t) {a : Word} (ha : a ∈ nodes t) : ptrinfoToPtr a ≠ 0 := by
  have hlink : ∀ q, link q = some a → ptrinfoToPtr a ≠ 0 := fun q hq => by
    obtain ⟨hne, rfl⟩ := link_eq_some.mp hq
    exact hne
  cases h.free_iff.mpr ha with
  | start hs => exact hlink _ hs
  | left _ hs => exact hlink _ hs
  | right _ hs => exact hlink _ hs

theorem left (h : FreeTree m (.node p l r)) :
    FreeTree { m with lastFree := (m.info p).prev } l where
  shape := h.shape.2.1
  nodup := (List.nodup_append.mp (List.nodup_cons.mp h.nodup).2).1
  nonnull a ha := h.nonnull a (by simp [ha])
  ordered := h.ordered.2.2.1

theorem right (h : FreeTree m (.node p l r)) :
    FreeTree { m with lastFree := (m.info p).next } r where
  shape := h.shape.2.2
  nodup := (List.nodup_append.mp (List.nodup_cons.mp h.nodup).2).2.1
  nonnull a ha := h.nonnull a (by simp [ha])
  ordered := h.ordered.2.2.2

theorem clear (h : FreeTree m t) (hp : p ∉ nodes t) :
    FreeTree ((m.setNext p 0).setPrev p 0) t := by
  have hdata := (SameData.setNext m p 0).trans (.setPrev _ p 0)
  have hne : ∀ a ∈ nodes t, a ≠ p := fun a ha he => hp (he ▸ ha)
  refine ⟨?_, h.nodup, h.nonnull, h.ordered.congr fun a _ => congrFun hdata.key a⟩
  refine h.shape.congr (fun a ha => ?_) fun a ha => ?_
  · simp [hne a ha]
  · simp [hne a ha]

end FreeTree

section Release
variable {m : MM} {t : BinaryTree Word} {p parent : Word}

theorem releaseRoot_spec {l r : BinaryTree Word} (h : FreeTree m (.node p l r)) :
    ∃ m', m.releaseRoot p = some m' ∧ FreeTree m' (unlinkTop m.key (.node p l r)) ∧
      SameData m m' := by
  have hl := h.left.shape
  have hr := h.right.shape
  obtain ⟨-, hn⟩ := List.nodup_cons.mp h.nodup
  have hdis := (List.nodup_append.mp hn).2.2
  unfold MM.releaseRoot
  by_cases hprev : (m.info p).prev = 0 <;> by_cases hnext : (m.info p).next = 0
  · change Shape _ _ (link (m.info p).prev) l at hl
    change Shape _ _ (link (m.info p).next) r at hr
    rw [link_eq_none.mpr hprev] at hl
    rw [link_eq_none.mpr hnext] at hr
    obtain rfl := hl.eq_nil
    obtain rfl := hr.eq_nil
    refine ⟨{ m with lastFree := 0 }, by simp [hprev, hnext], ?_, .setLastFree m 0⟩
    exact ⟨rfl, List.nodup_nil, by simp [unlinkTop], trivial⟩
  · change Shape _ _ (link (m.info p).prev) l at hl
    rw [link_eq_none.mpr hprev] at hl
    obtain rfl := hl.eq_nil
    exact ⟨_, by rw [if_pos ⟨hprev, hnext⟩], h.right, .setLastFree m _⟩
  · change Shape _ _ (link (m.info p).next) r at hr
    rw [link_eq_none.mpr hnext] at hr
    obtain rfl := hr.eq_nil
    refine ⟨_, by rw [if_neg fun hc => hprev hc.1, if_pos ⟨hprev, hnext⟩], ?_,
      .setLastFree m _⟩
    cases l <;> exact h.left
  · -- two children: the right one becomes the root and only the left child is re-inserted
    have hltop : top? l = some (ptrToPtrinfo (m.info p).prev) := by
      rw [← hl.start_eq]
      exact link_of_ne hprev
    have hrtop : top? r = some (ptrToPtrinfo (m.info p).next) := by
      rw [← hr.start_eq]
      exact link_of_ne hnext
    have hcur := mem_nodes_of_top? hltop
    have hout : ptrToPtrinfo (m.info p).prev ∉ nodes r := fun hc => hdis _ hcur _ hc rfl
    obtain ⟨m', hadd, htree, hdata, -⟩ := treeAdd_spec h.right hout
      (h.nonnull _ (by simp [hcur])) (by rw [ptrinfoToPtr_ptrToPtrinfo]; exact hprev)
    refine ⟨m', ?_, ?_, (SameData.setLastFree m _).trans hdata⟩
    · rw [if_neg fun hc => hprev hc.1, if_neg fun hc => hnext hc.2, if_pos ⟨hprev, hnext⟩]
      exact hadd
    · cases l with
      | nil => simp at hltop
      | node a bl br =>
        cases r with
        | nil => simp at hrtop
        | node c cl cr =>
          obtain rfl : a = ptrToPtrinfo (m.info p).prev := by simpa using hltop
          exact htree

theorem treeAddChild_spec (h : FreeTree m t) {q : Word} {s : BinaryTree Word}
    (hq : link q = top? s) (hs : ∀ a, top? s = some a → a ∉ nodes t ∧ a ≠ 0) :
    ∃ m', m.treeAddChild q = some m' ∧ FreeTree m' (addTop m.key s t) ∧ SameData m m' ∧
      ∀ a, a ∉ nodes t → top? s ≠ some a → m'.info a = m.info a := by
  unfold MM.treeAddChild
  cases s with
  | nil =>
    have hq0 : q = 0 := link_eq_none.mp hq
    exact ⟨m, by rw [if_neg (not_not.mpr hq0)], h, .refl m, fun _ _ _ => rfl⟩
  | node a l r =>
    obtain ⟨hq0, rfl⟩ := link_eq_some.mp hq
    obtain ⟨ha, ha0⟩ := hs a rfl
    obtain ⟨m', hadd, htree, hdata, hinfo⟩ := treeAdd_spec h ha ha0 hq0
    refine ⟨m', ?_, htree, hdata, fun b hb hba => hinfo b hb fun he => hba (by rw [he]; rfl)⟩
    rw [if_pos hq0, ptrToPtrinfo_ptrinfoToPtr]
    exact hadd

theorem unlinkParent_spec (h : FreeTree m t) (hp : p ∈ nodes t) (hpar : parent ∈ nodes t)
    (hlink : m.left parent = some p ∨ m.right parent = some p) :
    FreeTree (m.unlinkParent (ptrinfoToPtr p) parent) (cut p t) ∧
      SameData m (m.unlinkParent (ptrinfoToPtr p) parent) ∧
      ∀ a, a ≠ parent → (m.unlinkParent (ptrinfoToPtr p) parent).info a = m.info a := by
  have hptr := h.ptr_ne_zero hp
  have hstart : m.root ≠ some p := h.shape.start_ne_of_parent h.nodup hpar hlink
  have huniq : ∀ a ∈ nodes t, a ≠ parent → m.left a ≠ some p ∧ m.right a ≠ some p :=
    fun a ha hne => ⟨fun hl => hne (h.shape.parent_unique h.nodup ha hpar (.inl hl) hlink),
      fun hr => hne (h.shape.parent_unique h.nodup ha hpar (.inr hr) hlink)⟩
  have hmk : ∀ m₁ : MM, SameData m m₁ → Shape m₁.left m₁.right m₁.root (cut p t) →
      FreeTree m₁ (cut p t) := fun m₁ hdata hshape =>
    ⟨hshape, nodup_cut p h.nodup, fun a ha => h.nonnull a (mem_of_mem_cut ha),
      (ordered_cut p h.ordered).congr fun a _ => congrFun hdata.key a⟩
  unfold MM.unlinkParent
  by_cases hprev : (m.info parent).prev = ptrinfoToPtr p
  · have hl : m.left parent = some p := by
      rw [MM.left, hprev]
      exact link_ptrinfoToPtr hptr
    rw [if_pos hprev]
    refine ⟨hmk _ (.setPrev m parent 0) ?_, .setPrev m parent 0,
      fun a ha => m.setPrev_info_of_ne 0 ha⟩
    refine h.shape.cut hstart (fun a ha => ?_) fun a ha => ?_
    · by_cases hap : a = parent
      · simp [hap, hl]
      · simp [hap, (huniq a ha hap).1]
    · by_cases hap : a = parent
      · simp [hap, h.shape.left_ne_right h.nodup hpar hl]
      · simp [(huniq a ha hap).2]
  · have hl : m.left parent ≠ some p := fun hl => hprev (link_eq_some.mp hl).2
    have hr : m.right parent = some p := hlink.resolve_left hl
    rw [if_neg hprev, if_pos (link_eq_some.mp hr).2]
    refine ⟨hmk _ (.setNext m parent 0) ?_, .setNext m parent 0,
      fun a ha => m.setNext_info_of_ne 0 ha⟩
    refine h.shape.cut hstart (fun a ha => ?_) fun a ha => ?_
    · by_cases hap : a = parent
      · simp [hap, hl]
      · simp [(huniq a ha hap).1]
    · by_cases hap : a = parent
      · simp [hap, hr]
      · simp [hap, (huniq a ha hap).2]

theorem releaseInner_spec (h : FreeTree m t) (hp : p ∈ nodes t) (hpar : parent ∈ nodes t)
    (hlink : m.left parent = some p ∨ m.right parent = some p) :
    ∃ m', m.releaseInner p parent = some m' ∧ FreeTree m' (unlinkInner m.key p t) ∧
      SameData m m' := by
  obtain ⟨l, r, hsub⟩ := subtree_eq_node hp
  obtain ⟨-, hl, hr⟩ := hsub ▸ h.shape.subtree hp
  have hsubn := hsub ▸ nodup_subtree p h.nodup
  obtain ⟨hpn, hn⟩ := List.nodup_cons.mp hsubn
  have hdis := (List.nodup_append.mp hn).2.2
  -- the halves below `p` are outside what is left of the tree
  have hout : ∀ a, a ∈ nodes l ∨ a ∈ nodes r → a ∉ nodes (cut p t) ∧ a ≠ 0 := by
    intro a ha
    have hmem : a ∈ nodes (subtree p t) := by rw [hsub]; simp [ha]
    exact ⟨fun hc => ((mem_cut h.nodup).mp hc).2 hmem, h.nonnull a (mem_of_mem_subtree hmem)⟩
  have hpp : p ≠ parent := by
    rintro rfl
    rcases hlink with hc | hc
    · exact hpn (List.mem_append.mpr (.inl (mem_nodes_of_top? (hl.start_eq ▸ hc))))
    · exact hpn (List.mem_append.mpr (.inr (mem_nodes_of_top? (hr.start_eq ▸ hc))))
  obtain ⟨htree₁, hdata₁, hinfo₁⟩ := unlinkParent_spec h hp hpar hlink
  obtain ⟨m₂, hadd₂, htree₂, hdata₂, hinfo₂⟩ := treeAddChild_spec htree₁
    (q := (m.info p).prev) (s := l) hl.start_eq
    fun a ha => hout a (.inl (mem_nodes_of_top? ha))
  have hinfop : m₂.info p = m.info p := by
    rw [hinfo₂ p (notMem_cut p t) fun hc =>
      hpn (List.mem_append.mpr (.inl (mem_nodes_of_top? hc))), hinfo₁ p hpp]
  obtain ⟨m₃, hadd₃, htree₃, hdata₃, -⟩ := treeAddChild_spec htree₂
    (q := (m.info p).next) (s := r) hr.start_eq fun a ha => by
      have har := mem_nodes_of_top? ha
      refine ⟨fun hc => ?_, (hout a (.inr har)).2⟩
      rcases (mem_addTop _).mp hc with hc | hc
      · exact hdis a (mem_nodes_of_top? hc) a har rfl
      · exact (hout a (.inr har)).1 hc
  refine ⟨m₃, ?_, ?_, (hdata₁.trans hdata₂).trans hdata₃⟩
  · simp only [MM.releaseInner, hinfo₁ p hpp, hadd₂, Option.bind_some, hinfop, hadd₃]
  · rw [hdata₂.key, hdata₁.key] at htree₃
    simpa only [unlinkInner, hsub] using htree₃

/-- `releaseFree` is `unlink`, and writes only links. -/
theorem releaseFree_spec (h : FreeTree m t) (hp : p ∈ nodes t) (hpar : TrueParent m p parent) :
    ∃ m', m.releaseFree p parent = some (m', p) ∧ FreeTree m' (unlink m.key p t) ∧
      SameData m m' := by
  have hout : p ∉ nodes (unlink m.key p t) := fun hc => ((mem_unlink _ h.nodup hp).mp hc).2.1 rfl
  suffices hrel : ∃ m', (if parent = 0 then m.releaseRoot p else m.releaseInner p parent) =
      some m' ∧ FreeTree m' (unlink m.key p t) ∧ SameData m m' by
    obtain ⟨m', heq, htree, hdata⟩ := hrel
    refine ⟨(m'.setNext p 0).setPrev p 0, ?_, htree.clear hout,
      (hdata.trans (.setNext m' p 0)).trans (.setPrev _ p 0)⟩
    rw [MM.releaseFree, if_neg (h.nonnull p hp), heq, Option.map_some]
  rcases hpar with ⟨rfl, hroot⟩ | ⟨hfree, hlink⟩
  · have htop : top? t = some p := h.shape.start_eq ▸ hroot
    rw [if_pos rfl, unlink, if_pos htop]
    cases t with
    | nil => simp at hp
    | node a l r =>
      obtain rfl : a = p := by simpa using htop
      exact releaseRoot_spec h
  · have hparent := h.free_iff.mp hfree
    have htop : top? t ≠ some p :=
      h.shape.start_eq ▸ h.shape.start_ne_of_parent h.nodup hparent hlink
    rw [if_neg (h.nonnull parent hparent), unlink, if_neg htop]
    exact releaseInner_spec h hp hparent hlink

end Release

section Search
variable {m : MM} {t l r : BinaryTree Word} {size : Word}

/-- `p` is a node of the wanted size, and `parent` its parent in `t`; the root of `t` has the
parent `top`. -/
structure FoundIn (m : MM) (size : Word) (t : BinaryTree Word) (top p parent : Word) :
    Prop where
  mem : p ∈ nodes t
  size_eq : (m.info p).size = size
  parent : (top? t = some p ∧ parent = top) ∨
    (parent ∈ nodes t ∧ (m.left parent = some p ∨ m.right parent = some p))

theorem FoundIn.ofLeft {a p parent top : Word} (h : FoundIn m size l a p parent)
    (hl : m.left a = top? l) : FoundIn m size (.node a l r) top p parent := by
  refine ⟨by simp [h.mem], h.size_eq, .inr ?_⟩
  rcases h.parent with ⟨htop, rfl⟩ | ⟨hmem, hlink⟩
  · exact ⟨by simp, .inl (hl.trans htop)⟩
  · exact ⟨by simp [hmem], hlink⟩

theorem FoundIn.ofRight {a p parent top : Word} (h : FoundIn m size r a p parent)
    (hr : m.right a = top? r) : FoundIn m size (.node a l r) top p parent := by
  refine ⟨by simp [h.mem], h.size_eq, .inr ?_⟩
  rcases h.parent with ⟨htop, rfl⟩ | ⟨hmem, hlink⟩
  · exact ⟨by simp, .inr (hr.trans htop)⟩
  · exact ⟨by simp [hmem], hlink⟩

variable (size) in
/-- The walk of `findAvail` ends, and what it finds is a node of the wanted size with its
parent. -/
theorem findAvailLoop_spec {tmp : Word} (tmp2 : Word) {fuel : ℕ}
    (h : Shape m.left m.right (some tmp) t) (hnz : ∀ a ∈ nodes t, a ≠ 0)
    (hfuel : (nodes t).length ≤ fuel) :
    ∃ res, m.findAvailLoop size fuel tmp tmp2 = some res ∧
      ∀ p parent, res = some (p, parent) → FoundIn m size t tmp2 p parent := by
  induction t generalizing tmp tmp2 fuel with
  | nil => cases h
  | node a l r ihl ihr =>
    obtain ⟨hs, hl, hr⟩ := h
    obtain rfl : tmp = a := by simpa using hs
    have hnl : ∀ b ∈ nodes l, b ≠ 0 := fun b hb => hnz b (by simp [hb])
    have hnr : ∀ b ∈ nodes r, b ≠ 0 := fun b hb => hnz b (by simp [hb])
    cases fuel with
    | zero => simp at hfuel
    | succ fuel =>
      have hlen : (nodes l).length ≤ fuel ∧ (nodes r).length ≤ fuel := by
        simp only [nodes_node, List.length_cons, List.length_append] at hfuel
        omega
      have hnone : ∃ res : Option (Word × Word), some none = some res ∧
          ∀ p parent, res = some (p, parent) →
            FoundIn m size (.node tmp l r) tmp2 p parent :=
        ⟨none, rfl, fun _ _ hc => by cases hc⟩
      -- going down to a child, the node just left is the parent of the child
      have hgoL : (m.info tmp).prev ≠ 0 → ∃ res : Option (Word × Word),
          m.findAvailLoop size fuel (ptrToPtrinfo (m.info tmp).prev) tmp = some res ∧
          ∀ p parent, res = some (p, parent) →
            FoundIn m size (.node tmp l r) tmp2 p parent := by
        intro hp
        have hlp : m.left tmp = some (ptrToPtrinfo (m.info tmp).prev) := link_of_ne hp
        obtain ⟨res, heq, hres⟩ := ihl tmp (hlp ▸ hl) hnl hlen.1
        exact ⟨res, heq, fun p parent hpp => (hres p parent hpp).ofLeft hl.start_eq⟩
      have hgoR : (m.info tmp).next ≠ 0 → ∃ res : Option (Word × Word),
          m.findAvailLoop size fuel (ptrToPtrinfo (m.info tmp).next) tmp = some res ∧
          ∀ p parent, res = some (p, parent) →
            FoundIn m size (.node tmp l r) tmp2 p parent := by
        intro hp
        have hrp : m.right tmp = some (ptrToPtrinfo (m.info tmp).next) := link_of_ne hp
        obtain ⟨res, heq, hres⟩ := ihr tmp (hrp ▸ hr) hnr hlen.2
        exact ⟨res, heq, fun p parent hpp => (hres p parent hpp).ofRight hr.start_eq⟩
      rw [MM.findAvailLoop, if_neg (hnz tmp (by simp))]
      split_ifs with hsize hlt hp hq hn hp'
      · refine ⟨_, rfl, fun p parent hpp => ?_⟩
        simp only [Option.some.injEq, Prod.mk.injEq] at hpp
        obtain ⟨rfl, rfl⟩ := hpp
        exact ⟨by simp, hsize, .inl ⟨rfl, rfl⟩⟩
      · exact hgoL hp
      · exact hgoR hq.1
      · exact hnone
      · exact hgoR hn
      · exact hgoL hp'.1
      · exact hnone

variable (size) in
theorem searchAvail_spec (h : FreeTree m t) :
    ∃ res, m.searchAvail size = some res ∧ ∀ p parent, res = some (p, parent) →
      p ∈ nodes t ∧ (m.info p).size = size ∧ TrueParent m p parent := by
  unfold MM.searchAvail
  split_ifs with hroot
  · exact ⟨none, rfl, fun _ _ hc => by cases hc⟩
  · have hroot' : m.root = some (ptrToPtrinfo m.lastFree) := link_of_ne hroot
    obtain ⟨res, heq, hres⟩ := findAvailLoop_spec size 0 (hroot' ▸ h.shape) h.nonnull
      (length_le_walkFuel h.nodup)
    refine ⟨res, heq, fun p parent hpp => ?_⟩
    obtain ⟨hmem, hsz, hpar⟩ := hres p parent hpp
    refine ⟨hmem, hsz, ?_⟩
    rcases hpar with ⟨htop, rfl⟩ | ⟨hpm, hpl⟩
    · exact .inl ⟨rfl, h.shape.start_eq.trans htop⟩
    · exact .inr ⟨h.free_iff.mpr hpm, hpl⟩

end Search

end CxxKernel.Heap
