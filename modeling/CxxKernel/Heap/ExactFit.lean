import CxxKernel.Heap.FreeTree

/-! The search of `findAvail`: its turns to the other child change nothing, so it finds what a plain
lookup in the search tree finds. -/
namespace CxxKernel.Heap
open BinaryTree SearchTree LinkedTree

section Search
variable {m : MM} {t : BinaryTree Word} {size : Word}

/-- The walk of `findAvail` meets the node that a plain lookup meets. -/
theorem findAvailLoop_lookup {fuel : ℕ} {tmp tmp2 : Word} {res : Option (Word × Word)}
    (h : Shape m.left m.right (some tmp) t) (hnz : ∀ a ∈ nodes t, a ≠ 0) (hord : Ordered m.key t)
    (hloop : m.findAvailLoop size fuel tmp tmp2 = some res) :
    res.map Prod.fst = lookup m.key size.toNat t := by
  induction t generalizing tmp tmp2 fuel with
  | nil => cases h
  | node a l r ihl ihr =>
    obtain ⟨hs, hl, hr⟩ := h
    obtain rfl : tmp = a := Option.some.inj hs
    obtain ⟨hlt, hge, hol, hor⟩ := hord
    have hnl : ∀ b ∈ nodes l, b ≠ 0 := fun b hb => hnz b (by simp [hb])
    have hnr : ∀ b ∈ nodes r, b ≠ 0 := fun b hb => hnz b (by simp [hb])
    have hgoL : (m.info tmp).prev ≠ 0 →
        m.findAvailLoop size (fuel - 1) (ptrToPtrinfo (m.info tmp).prev) tmp = some res →
        res.map Prod.fst = lookup m.key size.toNat l := by
      intro hp
      rw [MM.left, link_of_ne hp] at hl
      exact ihl hl hnl hol
    have hgoR : (m.info tmp).next ≠ 0 →
        m.findAvailLoop size (fuel - 1) (ptrToPtrinfo (m.info tmp).next) tmp = some res →
        res.map Prod.fst = lookup m.key size.toNat r := by
      intro hp
      rw [MM.right, link_of_ne hp] at hr
      exact ihr hr hnr hor
    have hnil : ∀ {q : Word} {s : BinaryTree Word}, Shape m.left m.right (link q) s → q = 0 →
        s = .nil := by
      intro q s hshape hq
      rw [link_eq_none.mpr hq] at hshape
      exact hshape.eq_nil
    cases fuel with
    | zero => cases hloop
    | succ fuel =>
      have hkey : (m.info tmp).size = size ↔ m.key tmp = size.toNat :=
        ⟨fun he => congrArg BitVec.toNat he, fun he => BitVec.eq_of_toNat_eq he⟩
      have hless : size < (m.info tmp).size ↔ size.toNat < m.key tmp := BitVec.lt_def
      rw [MM.findAvailLoop, if_neg (hnz tmp (by simp))] at hloop
      rw [lookup]
      by_cases hsize : m.key tmp = size.toNat
      · rw [if_pos (hkey.mpr hsize)] at hloop
        rw [if_pos hsize]
        obtain rfl := Option.some.inj hloop
        rfl
      · rw [if_neg (mt hkey.mp hsize)] at hloop
        rw [if_neg hsize]
        by_cases hdown : size.toNat < m.key tmp
        · rw [if_pos (hless.mpr hdown)] at hloop
          rw [if_pos hdown]
          split_ifs at hloop with hp hq
          · exact hgoL hp hloop
          · -- the nodes on the right are too large, and there are none on the left
            rw [hgoR hq.1 hloop, hnil hl (not_not.mp hp)]
            apply lookup_eq_none_of_ne
            intro b hb he
            exact absurd (he ▸ hge b hb) (not_le.mpr hdown)
          · obtain rfl := Option.some.inj hloop
            rw [hnil hl (not_not.mp hp)]
            rfl
        · rw [if_neg (mt hless.mp hdown)] at hloop
          rw [if_neg hdown]
          split_ifs at hloop with hp hq
          · exact hgoR hp hloop
          · -- the nodes on the left are too small, and there are none on the right
            rw [hgoL hq.1 hloop, hnil hr (not_not.mp hp)]
            apply lookup_eq_none_of_ne
            intro b hb he
            exact hdown (he ▸ hlt b hb)
          · obtain rfl := Option.some.inj hloop
            rw [hnil hr (not_not.mp hp)]
            rfl

theorem searchAvail_lookup (h : FreeTree m t) {res : Option (Word × Word)}
    (hsearch : m.searchAvail size = some res) : res.map Prod.fst = lookup m.key size.toNat t := by
  unfold MM.searchAvail at hsearch
  split_ifs at hsearch with hroot
  · have hnil : t = .nil := by
      have hshape := h.shape
      rw [MM.root, link_eq_none.mpr hroot] at hshape
      exact hshape.eq_nil
    obtain rfl := Option.some.inj hsearch
    rw [hnil]
    rfl
  · have hshape := h.shape
    rw [MM.root, link_of_ne hroot] at hshape
    exact findAvailLoop_lookup hshape h.nonnull h.ordered hsearch

end Search

/-- What `findAvail` did when it left the heap `m'` and returned `q`: without a node of the size it
returned null and changed nothing; otherwise it took such a node out of the tree. -/
structure ExactFit (m m' : MM) (size q : Word) : Prop where
  null_iff : q = 0 ↔ ∀ a, m.Free a → (m.info a).size ≠ size
  unchanged : q = 0 → m' = m
  found : q ≠ 0 → m.Free q ∧ (m.info q).size = size
  unlinked : q ≠ 0 → ¬ m'.Free q ∧ (m'.info q).prev = 0 ∧ (m'.info q).next = 0 ∧ (m'.info q).size = size

/-- `findAvail` comes back with a node of the size exactly when the tree has one, and its search ends
where a plain lookup ends. -/
theorem findAvail_exact {m : MM} {t : BinaryTree Word} (h : FreeTree m t) (size : Word) :
    (∃ m' q, m.findAvail size = some (m', q) ∧ ExactFit m m' size q) ∧
      ∃ res, m.searchAvail size = some res ∧ res.map Prod.fst = lookup m.key size.toNat t := by
  obtain ⟨res, hsearch, hspec⟩ := searchAvail_spec size h
  have hlookup := searchAvail_lookup h hsearch
  refine ⟨?_, res, hsearch, hlookup⟩
  have hsize : ∀ a, m.key a = size.toNat ↔ (m.info a).size = size := fun a =>
    ⟨fun he => BitVec.eq_of_toNat_eq he, fun he => congrArg BitVec.toNat he⟩
  rw [MM.findAvail, hsearch, Option.bind_some]
  cases res with
  | none =>
    have hnone := (lookup_eq_none_iff h.ordered).mp hlookup.symm
    have hno : ∀ a, m.Free a → (m.info a).size ≠ size := fun a ha he =>
      hnone a (h.free_iff.mp ha) ((hsize a).mpr he)
    exact ⟨m, 0, rfl, ⟨iff_of_true rfl hno, fun _ => rfl, fun hc => absurd rfl hc, fun hc => absurd rfl hc⟩⟩
  | some found =>
    obtain ⟨p, parent⟩ := found
    obtain ⟨hp, hfit, hpar⟩ := hspec p parent rfl
    have hne := h.nonnull p hp
    have hfree := h.free_iff.mpr hp
    obtain ⟨m', heq, htree, hdata⟩ := releaseFree_spec h hp hpar
    have hlinks : (m'.info p).prev = 0 ∧ (m'.info p).next = 0 := by
      rw [MM.releaseFree, if_neg hne] at heq
      obtain ⟨m₁, -, hm₁⟩ := Option.map_eq_some_iff.mp heq
      obtain ⟨rfl, -⟩ := Prod.mk.inj hm₁
      simp [MM.setPrev, MM.setNext]
    refine ⟨m', p, heq, ⟨iff_of_false hne fun hno => hno p hfree hfit, fun hc => absurd hc hne,
      fun _ => ⟨hfree, hfit⟩, fun _ => ⟨fun hc => ?_, hlinks.1, hlinks.2, ?_⟩⟩⟩
    · exact ((mem_unlink m.key h.nodup hp).mp (htree.free_iff.mp hc)).2.1 rfl
    · rw [hdata.size, hfit]

def oneFree : MM :=
  { MM.start (fun _ => ⟨0, 0, 10, 30, .freed, false⟩) fun _ => 0 with lastFree := 0x1014 }

theorem findAvail_exact_oneFree :
    (∃ m', oneFree.findAvail 10 = some (m', 0x1000) ∧ ¬ m'.Free 0x1000) ∧
      oneFree.findAvail 11 = some (oneFree, 0) := by
  have htree : FreeTree oneFree (.node 0x1000 .nil .nil) := by
    constructor
    · decide
    · decide
    · simp
    · decide
  have hfree : ∀ a, oneFree.Free a ↔ a = 0x1000 := by
    intro a
    rw [htree.free_iff]
    simp
  constructor
  · obtain ⟨⟨m', q, heq, hfit⟩, -⟩ := findAvail_exact htree 10
    have hq : q ≠ 0 := fun hq => hfit.null_iff.mp hq 0x1000 ((hfree _).mpr rfl) rfl
    obtain rfl := (hfree q).mp (hfit.found hq).1
    exact ⟨m', heq, (hfit.unlinked hq).1⟩
  · obtain ⟨⟨m', q, heq, hfit⟩, -⟩ := findAvail_exact htree 11
    have hno : ∀ a, (oneFree.info a).size ≠ 11 := fun _ => (by decide : (10 : Word) ≠ 11)
    have hq : q = 0 := hfit.null_iff.mpr fun a _ => hno a
    rw [heq, hfit.unchanged hq, hq]

end CxxKernel.Heap
