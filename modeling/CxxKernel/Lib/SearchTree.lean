import Mathlib.Data.Tree.Basic
import Mathlib.Data.List.Perm.Basic
import Mathlib.Data.List.Nodup
import Mathlib.Order.Lattice
import Mathlib.Tactic.Common

/-! Unbalanced search trees over `BinaryTree`, keyed by a function on the nodes: smaller keys
to the left, keys at least as large to the right. Insertion hangs a new leaf; removal cuts a
whole subtree off. -/
namespace SearchTree
open BinaryTree

variable {α κ : Type*}

/-- The nodes in root, left, right order. -/
def nodes : BinaryTree α → List α
  | .nil => []
  | .node a l r => a :: (nodes l ++ nodes r)

@[simp] theorem nodes_nil : nodes (.nil : BinaryTree α) = [] := rfl

@[simp] theorem nodes_node (a : α) (l r : BinaryTree α) :
    nodes (.node a l r) = a :: (nodes l ++ nodes r) := rfl

/-- The node at the root, if any. -/
def top? : BinaryTree α → Option α
  | .nil => none
  | .node a _ _ => some a

@[simp] theorem top?_nil : top? (.nil : BinaryTree α) = none := rfl

@[simp] theorem top?_node (a : α) (l r : BinaryTree α) : top? (.node a l r) = some a := rfl

theorem mem_nodes_of_top? {a : α} {t : BinaryTree α} (h : top? t = some a) : a ∈ nodes t := by
  cases t with
  | nil => simp at h
  | node b l r => simp_all

/-- The search order. -/
def Ordered [LinearOrder κ] (key : α → κ) : BinaryTree α → Prop
  | .nil => True
  | .node a l r =>
      (∀ x ∈ nodes l, key x < key a) ∧ (∀ x ∈ nodes r, key a ≤ key x) ∧
        Ordered key l ∧ Ordered key r

instance decidableOrdered [LinearOrder κ] (key : α → κ) :
    (t : BinaryTree α) → Decidable (Ordered key t)
  | .nil => inferInstanceAs (Decidable True)
  | .node a l r =>
    have := decidableOrdered key l
    have := decidableOrdered key r
    inferInstanceAs (Decidable ((∀ x ∈ nodes l, key x < key a) ∧ (∀ x ∈ nodes r, key a ≤ key x) ∧
      Ordered key l ∧ Ordered key r))

theorem Ordered.congr [LinearOrder κ] {key key' : α → κ} {t : BinaryTree α}
    (h : Ordered key t) (hk : ∀ x ∈ nodes t, key' x = key x) : Ordered key' t := by
  induction t with
  | nil => trivial
  | node a l r ihl ihr =>
    obtain ⟨hl, hr, hol, hor⟩ := h
    have hkl : ∀ x ∈ nodes l, key' x = key x := fun x hx => hk x (by simp [hx])
    have hkr : ∀ x ∈ nodes r, key' x = key x := fun x hx => hk x (by simp [hx])
    have hka : key' a = key a := hk a (by simp)
    refine ⟨fun x hx => ?_, fun x hx => ?_, ihl hol hkl, ihr hor hkr⟩
    · rw [hkl x hx, hka]; exact hl x hx
    · rw [hkr x hx, hka]; exact hr x hx

section Insert
variable [LinearOrder κ] (key : α → κ)

/-- Walk down from the root and hang `x` at the first empty place. -/
def insertLeaf (x : α) : BinaryTree α → BinaryTree α
  | .nil => .node x .nil .nil
  | .node a l r =>
      if key x < key a then .node a (insertLeaf x l) r else .node a l (insertLeaf x r)

theorem nodes_insertLeaf (x : α) (t : BinaryTree α) :
    (nodes (insertLeaf key x t)).Perm (x :: nodes t) := by
  induction t with
  | nil => simp [insertLeaf]
  | node a l r ihl ihr =>
    unfold insertLeaf
    split
    · have h : (nodes (insertLeaf key x l) ++ nodes r).Perm (x :: (nodes l ++ nodes r)) := by
        simpa using ihl.append_right (nodes r)
      exact (h.cons a).trans (.swap x a _)
    · have h : (nodes l ++ nodes (insertLeaf key x r)).Perm (x :: (nodes l ++ nodes r)) :=
        (ihr.append_left (nodes l)).trans List.perm_middle
      exact (h.cons a).trans (.swap x a _)

@[simp] theorem mem_insertLeaf {x y : α} {t : BinaryTree α} :
    y ∈ nodes (insertLeaf key x t) ↔ y = x ∨ y ∈ nodes t := by
  rw [(nodes_insertLeaf key x t).mem_iff, List.mem_cons]

theorem nodup_insertLeaf {x : α} {t : BinaryTree α} (hx : x ∉ nodes t) (ht : (nodes t).Nodup) :
    (nodes (insertLeaf key x t)).Nodup :=
  (nodes_insertLeaf key x t).nodup_iff.mpr (List.nodup_cons.mpr ⟨hx, ht⟩)

theorem ordered_insertLeaf (x : α) {t : BinaryTree α} (ht : Ordered key t) :
    Ordered key (insertLeaf key x t) := by
  induction t with
  | nil => simp [insertLeaf, Ordered]
  | node a l r ihl ihr =>
    obtain ⟨hl, hr, hol, hor⟩ := ht
    unfold insertLeaf
    split
    case isTrue hlt =>
      refine ⟨fun y hy => ?_, hr, ihl hol, hor⟩
      rcases (mem_insertLeaf key).mp hy with rfl | hy
      · exact hlt
      · exact hl y hy
    case isFalse hge =>
      refine ⟨hl, fun y hy => ?_, hol, ihr hor⟩
      rcases (mem_insertLeaf key).mp hy with rfl | hy
      · exact le_of_not_gt hge
      · exact hr y hy

end Insert

section Lookup
variable [LinearOrder κ] {key : α → κ} {k : κ} {t : BinaryTree α}

/-- The first node with the key `k` on the way down from the root. -/
def lookup (key : α → κ) (k : κ) : BinaryTree α → Option α
  | .nil => none
  | .node a l r => if key a = k then some a else if k < key a then lookup key k l else lookup key k r

theorem lookup_mem {a : α} (h : lookup key k t = some a) : a ∈ nodes t ∧ key a = k := by
  induction t with
  | nil => cases h
  | node b l r ihl ihr =>
    rw [lookup] at h
    split_ifs at h with heq hlt
    · obtain rfl : b = a := Option.some.inj h
      exact ⟨by simp, heq⟩
    · obtain ⟨hmem, hkey⟩ := ihl h
      exact ⟨by simp [hmem], hkey⟩
    · obtain ⟨hmem, hkey⟩ := ihr h
      exact ⟨by simp [hmem], hkey⟩

theorem lookup_eq_none_of_ne (h : ∀ a ∈ nodes t, key a ≠ k) : lookup key k t = none :=
  Option.eq_none_iff_forall_ne_some.mpr fun a ha => h a (lookup_mem ha).1 (lookup_mem ha).2

/-- In a search tree the way down misses no node. -/
theorem lookup_eq_none_iff (h : Ordered key t) : lookup key k t = none ↔ ∀ a ∈ nodes t, key a ≠ k := by
  refine ⟨fun hnone => ?_, lookup_eq_none_of_ne⟩
  induction t with
  | nil => exact fun a ha => absurd ha List.not_mem_nil
  | node b l r ihl ihr =>
    obtain ⟨hl, hr, hol, hor⟩ := h
    rw [lookup] at hnone
    intro a ha hkey
    rw [nodes_node, List.mem_cons, List.mem_append] at ha
    split_ifs at hnone with heq hlt
    · rcases ha with rfl | ha | ha
      · exact heq hkey
      · exact ihl hol hnone a ha hkey
      · exact absurd (hkey ▸ hr a ha) (not_le.mpr hlt)
    · rcases ha with rfl | ha | ha
      · exact heq hkey
      · exact hlt (hkey ▸ hl a ha)
      · exact ihr hor hnone a ha hkey

end Lookup

section Cut
variable [DecidableEq α]

/-- The tree without the subtree that hangs at `p`. -/
def cut (p : α) : BinaryTree α → BinaryTree α
  | .nil => .nil
  | .node a l r => if a = p then .nil else .node a (cut p l) (cut p r)

/-- The subtree that hangs at `p`. -/
def subtree (p : α) : BinaryTree α → BinaryTree α
  | .nil => .nil
  | .node a l r =>
      if a = p then .node a l r else if p ∈ nodes l then subtree p l else subtree p r

theorem cut_of_notMem {p : α} {t : BinaryTree α} (h : p ∉ nodes t) : cut p t = t := by
  induction t with
  | nil => rfl
  | node a l r ihl ihr =>
    simp only [nodes_node, List.mem_cons, List.mem_append, not_or] at h
    rw [cut, if_neg (Ne.symm h.1), ihl h.2.1, ihr h.2.2]

theorem subtree_of_notMem {p : α} {t : BinaryTree α} (h : p ∉ nodes t) :
    subtree p t = .nil := by
  induction t with
  | nil => rfl
  | node a l r ihl ihr =>
    simp only [nodes_node, List.mem_cons, List.mem_append, not_or] at h
    rw [subtree, if_neg (Ne.symm h.1), if_neg h.2.1, ihr h.2.2]

theorem top?_subtree {p : α} {t : BinaryTree α} (h : p ∈ nodes t) :
    top? (subtree p t) = some p := by
  induction t with
  | nil => simp at h
  | node a l r ihl ihr =>
    simp only [nodes_node, List.mem_cons, List.mem_append] at h
    unfold subtree
    split_ifs with ha hl
    · rw [top?_node, ha]
    · exact ihl hl
    · exact ihr ((h.resolve_left (Ne.symm ha)).resolve_left hl)

theorem subtree_of_top? {p : α} {t : BinaryTree α} (h : top? t = some p) : subtree p t = t := by
  cases t with
  | nil => rfl
  | node a l r => rw [subtree, if_pos (by simpa using h)]

theorem cut_of_top? {p : α} {t : BinaryTree α} (h : top? t = some p) : cut p t = .nil := by
  cases t with
  | nil => rfl
  | node a l r => rw [cut, if_pos (by simpa using h)]

/-- Cutting splits the nodes: what stays and what hangs below the cut. -/
theorem nodes_cut_subtree (p : α) {t : BinaryTree α} (ht : (nodes t).Nodup) :
    (nodes t).Perm (nodes (cut p t) ++ nodes (subtree p t)) := by
  induction t with
  | nil => simp [cut, subtree]
  | node a l r ihl ihr =>
    obtain ⟨-, hn⟩ := List.nodup_cons.mp ht
    obtain ⟨hnl, hnr, hdis⟩ := List.nodup_append.mp hn
    unfold cut subtree
    split_ifs with ha hl
    · simp
    · have hr : p ∉ nodes r := fun hr => hdis p hl p hr rfl
      rw [cut_of_notMem hr]
      have h := (ihl hnl).append_right (nodes r)
      have hmid : (nodes (cut p l) ++ nodes (subtree p l) ++ nodes r).Perm
          (nodes (cut p l) ++ nodes r ++ nodes (subtree p l)) := by
        simpa [List.append_assoc] using List.perm_append_comm.append_left (nodes (cut p l))
      exact (h.trans hmid).cons a
    · rw [cut_of_notMem hl]
      have h := (ihr hnr).append_left (nodes l)
      exact List.Perm.cons a (by simpa [List.append_assoc] using h)

theorem mem_cut {p x : α} {t : BinaryTree α} (ht : (nodes t).Nodup) :
    x ∈ nodes (cut p t) ↔ x ∈ nodes t ∧ x ∉ nodes (subtree p t) := by
  have hperm := nodes_cut_subtree p ht
  have hn := (hperm.nodup_iff.mp ht)
  rw [hperm.mem_iff, List.mem_append]
  have hdis := (List.nodup_append.mp hn).2.2
  constructor
  · exact fun hx => ⟨.inl hx, fun hs => hdis x hx x hs rfl⟩
  · exact fun ⟨hor, hs⟩ => hor.resolve_right hs

theorem mem_of_mem_cut {p x : α} {t : BinaryTree α} (h : x ∈ nodes (cut p t)) :
    x ∈ nodes t := by
  induction t with
  | nil => simp [cut] at h
  | node a l r ihl ihr =>
    unfold cut at h
    split_ifs at h with ha
    · simp at h
    · simp only [nodes_node, List.mem_cons, List.mem_append] at h ⊢
      exact h.imp_right (Or.imp ihl ihr)

theorem mem_of_mem_subtree {p x : α} {t : BinaryTree α} (h : x ∈ nodes (subtree p t)) :
    x ∈ nodes t := by
  induction t with
  | nil => simp [subtree] at h
  | node a l r ihl ihr =>
    unfold subtree at h
    split_ifs at h with ha hl
    · exact h
    · simp [ihl h]
    · simp [ihr h]

theorem nodup_cut (p : α) {t : BinaryTree α} (ht : (nodes t).Nodup) : (nodes (cut p t)).Nodup :=
  (List.nodup_append.mp ((nodes_cut_subtree p ht).nodup_iff.mp ht)).1

theorem nodup_subtree (p : α) {t : BinaryTree α} (ht : (nodes t).Nodup) :
    (nodes (subtree p t)).Nodup :=
  (List.nodup_append.mp ((nodes_cut_subtree p ht).nodup_iff.mp ht)).2.1

theorem ordered_cut [LinearOrder κ] {key : α → κ} (p : α) {t : BinaryTree α}
    (ht : Ordered key t) : Ordered key (cut p t) := by
  induction t with
  | nil => trivial
  | node a l r ihl ihr =>
    obtain ⟨hl, hr, hol, hor⟩ := ht
    unfold cut
    split_ifs
    · trivial
    · exact ⟨fun x hx => hl x (mem_of_mem_cut hx), fun x hx => hr x (mem_of_mem_cut hx),
        ihl hol, ihr hor⟩

theorem notMem_cut (p : α) (t : BinaryTree α) : p ∉ nodes (cut p t) := by
  induction t with
  | nil => simp [cut]
  | node a l r ihl ihr =>
    unfold cut
    split_ifs with ha
    · simp
    · simp [ihl, ihr, Ne.symm ha]

end Cut

section Unlink
variable [LinearOrder κ] (key : α → κ)

/-- The nodes below the root. -/
def below : BinaryTree α → List α
  | .nil => []
  | .node _ l r => nodes l ++ nodes r

/-- Insert only the root of the first tree, as a leaf, into the second. -/
def addTop : BinaryTree α → BinaryTree α → BinaryTree α
  | .nil, t => t
  | .node a _ _, t => insertLeaf key a t

theorem mem_addTop {s t : BinaryTree α} {x : α} :
    x ∈ nodes (addTop key s t) ↔ top? s = some x ∨ x ∈ nodes t := by
  cases s with
  | nil => simp [addTop]
  | node a l r => simp [addTop, eq_comm]

theorem mem_nodes_iff_below {s : BinaryTree α} {x : α} :
    x ∈ nodes s ↔ top? s = some x ∨ x ∈ below s := by
  cases s with
  | nil => simp [below]
  | node a l r => simp [below, eq_comm]

theorem top?_notMem_below {s : BinaryTree α} {x : α} (hs : (nodes s).Nodup)
    (hx : x ∈ below s) : top? s ≠ some x := by
  cases s with
  | nil => simp
  | node a l r =>
    intro he
    obtain rfl : a = x := by simpa using he
    exact (List.nodup_cons.mp hs).1 hx

/-- Take the root away: a lone child moves up, of two children the left one is re-inserted. -/
def unlinkTop : BinaryTree α → BinaryTree α
  | .nil => .nil
  | .node _ .nil r => r
  | .node _ l .nil => l
  | .node _ l r => addTop key l r

/-- The nodes `unlinkTop` drops. -/
def lostTop : BinaryTree α → List α
  | .nil => []
  | .node _ .nil _ => []
  | .node _ _ .nil => []
  | .node _ l _ => below l

theorem mem_unlinkTop {a x : α} {l r : BinaryTree α} (ht : (nodes (.node a l r)).Nodup) :
    x ∈ nodes (unlinkTop key (.node a l r)) ↔
      x ∈ nodes (.node a l r) ∧ x ≠ a ∧ x ∉ lostTop (.node a l r) := by
  obtain ⟨ha, hn⟩ := List.nodup_cons.mp ht
  obtain ⟨hnl, -, hdis⟩ := List.nodup_append.mp hn
  simp only [List.mem_append, not_or] at ha
  have hxa : x ∈ nodes l ∨ x ∈ nodes r → x ≠ a := by
    rintro (h | h) rfl
    exacts [ha.1 h, ha.2 h]
  cases l with
  | nil =>
    simp only [unlinkTop, lostTop, nodes_node, nodes_nil, List.nil_append, List.mem_cons]
    grind [nodes_nil]
  | node b bl br =>
    cases r with
    | nil =>
      simp only [unlinkTop, lostTop, List.not_mem_nil, not_false_eq_true, and_true]
      rw [nodes_node a, nodes_nil, List.append_nil, List.mem_cons]
      grind
    | node c cl cr =>
      change x ∈ nodes (addTop key (.node b bl br) (.node c cl cr)) ↔
        _ ∧ _ ∧ x ∉ below (.node b bl br)
      rw [mem_addTop, nodes_node a, List.mem_cons, List.mem_append]
      have hiff := @mem_nodes_iff_below _ (.node b bl br) x
      have hno := @top?_notMem_below _ (.node b bl br) x hnl
      have hd : x ∈ nodes (.node c cl cr) → x ∉ nodes (.node b bl br) :=
        fun hr hl => hdis x hl x hr rfl
      grind

variable [DecidableEq α]

/-- Take away a node that is not the root: its subtree is cut off and the roots of the two
halves are re-inserted. -/
def unlinkInner (p : α) (t : BinaryTree α) : BinaryTree α :=
  match subtree p t with
  | .nil => t
  | .node _ l r => addTop key r (addTop key l (cut p t))

/-- The nodes `unlinkInner` drops. -/
def lostInner (p : α) (t : BinaryTree α) : List α :=
  match subtree p t with
  | .nil => []
  | .node _ l r => below l ++ below r

def unlink (p : α) (t : BinaryTree α) : BinaryTree α :=
  if top? t = some p then unlinkTop key t else unlinkInner key p t

/-- The nodes that `unlink` takes out of the tree besides `p`. -/
def lost (p : α) (t : BinaryTree α) : List α :=
  if top? t = some p then lostTop t else lostInner p t

theorem subtree_eq_node {p : α} {t : BinaryTree α} (hp : p ∈ nodes t) :
    ∃ l r, subtree p t = .node p l r := by
  have htop := top?_subtree hp
  cases hs : subtree p t with
  | nil => simp [hs] at htop
  | node a l r =>
    rw [hs, top?_node, Option.some.injEq] at htop
    exact ⟨l, r, by rw [htop]⟩

theorem mem_unlinkInner {p x : α} {t : BinaryTree α} (ht : (nodes t).Nodup)
    (hp : p ∈ nodes t) :
    x ∈ nodes (unlinkInner key p t) ↔ x ∈ nodes t ∧ x ≠ p ∧ x ∉ lostInner p t := by
  obtain ⟨l, r, hs⟩ := subtree_eq_node hp
  have hns : (nodes (subtree p t)).Nodup := nodup_subtree p ht
  have hcut := mem_cut (x := x) (p := p) ht
  have hsub : x ∈ nodes (subtree p t) → x ∈ nodes t := mem_of_mem_subtree
  rw [unlinkInner, lostInner]
  simp only [hs] at hns hcut hsub ⊢
  obtain ⟨hpn, hn⟩ := List.nodup_cons.mp hns
  obtain ⟨hnl, hnr, hdis⟩ := List.nodup_append.mp hn
  simp only [List.mem_append, not_or] at hpn
  rw [mem_addTop, mem_addTop, hcut, List.mem_append]
  rw [nodes_node, List.mem_cons, List.mem_append] at hcut hsub ⊢
  have hl := @mem_nodes_iff_below _ l x
  have hr := @mem_nodes_iff_below _ r x
  have hlb := @top?_notMem_below _ l x hnl
  have hrb := @top?_notMem_below _ r x hnr
  have hd : x ∈ nodes r → x ∉ nodes l := fun hr hl => hdis x hl x hr rfl
  grind

theorem mem_unlink {p x : α} {t : BinaryTree α} (ht : (nodes t).Nodup) (hp : p ∈ nodes t) :
    x ∈ nodes (unlink key p t) ↔ x ∈ nodes t ∧ x ≠ p ∧ x ∉ lost p t := by
  unfold unlink lost
  split_ifs with htop
  · cases t with
    | nil => simp at hp
    | node a l r =>
      obtain rfl : a = p := by simpa using htop
      exact mem_unlinkTop key ht
  · exact mem_unlinkInner key ht hp

theorem lost_subset {p x : α} {t : BinaryTree α} (ht : (nodes t).Nodup) (hx : x ∈ lost p t) :
    x ∈ nodes t ∧ x ≠ p := by
  unfold lost at hx
  split_ifs at hx with htop
  · match t with
    | .nil => simp [lostTop] at hx
    | .node a .nil r => simp [lostTop] at hx
    | .node a (.node b bl br) .nil => simp [lostTop] at hx
    | .node a (.node b bl br) (.node c cl cr) =>
      obtain rfl : a = p := by simpa using htop
      have hb : x ∈ nodes (.node b bl br) := mem_nodes_iff_below.mpr (.inr hx)
      have ha := (List.nodup_cons.mp ht).1
      refine ⟨by simp only [nodes_node a, List.mem_cons, List.mem_append, hb, true_or, or_true],
        ?_⟩
      rintro rfl
      exact ha (List.mem_append.mpr (.inl hb))
  · have hns := nodup_subtree p ht
    have hsub := @mem_of_mem_subtree _ _ p x t
    unfold lostInner at hx
    cases hs : subtree p t with
    | nil => simp [hs] at hx
    | node a l r =>
      have hp : p ∈ nodes t := by
        by_contra hp
        simp [subtree_of_notMem hp] at hs
      obtain rfl : a = p := by simpa [hs] using top?_subtree hp
      simp only [hs, List.mem_append] at hx hns hsub
      have hlr : x ∈ nodes l ∨ x ∈ nodes r :=
        hx.imp (fun h => mem_nodes_iff_below.mpr (.inr h))
          fun h => mem_nodes_iff_below.mpr (.inr h)
      refine ⟨hsub (by simp [hlr]), ?_⟩
      rintro rfl
      exact (List.nodup_cons.mp hns).1 (List.mem_append.mpr hlr)

/-- Only the wanted node goes exactly when nothing is dropped with it. -/
theorem unlink_exact_iff {p : α} {t : BinaryTree α} (ht : (nodes t).Nodup) (hp : p ∈ nodes t) :
    (∀ x, x ∈ nodes (unlink key p t) ↔ x ∈ nodes t ∧ x ≠ p) ↔ lost p t = [] := by
  constructor
  · intro h
    rw [List.eq_nil_iff_forall_not_mem]
    intro x hx
    have hmem := (h x).mpr (lost_subset ht hx)
    exact ((mem_unlink key ht hp).mp hmem).2.2 hx
  · intro h x
    rw [mem_unlink key ht hp, h]
    simp

end Unlink

end SearchTree
