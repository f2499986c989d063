import CxxKernel.Lib.SearchTree
import Mathlib.Data.List.Flatten
import Mathlib.Data.List.Pairwise
import Mathlib.Data.List.Perm.Lattice
import Mathlib.Logic.Function.Basic

/-! Binary trees kept as links in a memory: `left` and `right` send a node to its children.
The lemmas say which tree is found after one link is written. -/
namespace LinkedTree
open BinaryTree SearchTree

variable {α κ : Type*} {left right : α → Option α} {start : Option α} {t : BinaryTree α}

/-- Following the links from `start` finds exactly the tree `t`. -/
def Shape (left right : α → Option α) (start : Option α) : BinaryTree α → Prop
  | .nil => start = none
  | .node a l r => start = some a ∧ Shape left right (left a) l ∧ Shape left right (right a) r

instance decidableShape [DecidableEq α] :
    (start : Option α) → (t : BinaryTree α) → Decidable (Shape left right start t)
  | start, .nil => inferInstanceAs (Decidable (start = none))
  | start, .node a l r =>
    have := decidableShape (left a) l
    have := decidableShape (right a) r
    inferInstanceAs (Decidable
      (start = some a ∧ Shape left right (left a) l ∧ Shape left right (right a) r))

/-- The nodes found by following links from `start`. -/
inductive Reaches (left right : α → Option α) (start : Option α) : α → Prop
  | start {a : α} : start = some a → Reaches left right start a
  | left {a b : α} : Reaches left right start a → left a = some b → Reaches left right start b
  | right {a b : α} : Reaches left right start a → right a = some b → Reaches left right start b

namespace Shape

theorem start_eq (h : Shape left right start t) : start = top? t := by
  cases t with
  | nil => exact h
  | node a l r => exact h.1

theorem eq_nil (h : Shape left right none t) : t = .nil := by
  cases t with
  | nil => rfl
  | node a l r => cases h.1

theorem congr {left' right' : α → Option α} (h : Shape left right start t)
    (hl : ∀ a ∈ nodes t, left' a = left a) (hr : ∀ a ∈ nodes t, right' a = right a) :
    Shape left' right' start t := by
  induction t generalizing start with
  | nil => exact h
  | node a l r ihl ihr =>
    obtain ⟨hs, hsl, hsr⟩ := h
    refine ⟨hs, ?_, ?_⟩
    · rw [hl a (by simp)]
      exact ihl hsl (fun b hb => hl b (by simp [hb])) (fun b hb => hr b (by simp [hb]))
    · rw [hr a (by simp)]
      exact ihr hsr (fun b hb => hl b (by simp [hb])) (fun b hb => hr b (by simp [hb]))

theorem children_mem (h : Shape left right start t) {a b : α} (ha : a ∈ nodes t)
    (hb : left a = some b ∨ right a = some b) : b ∈ nodes t := by
  induction t generalizing start with
  | nil => simp at ha
  | node c l r ihl ihr =>
    obtain ⟨-, hl, hr⟩ := h
    simp only [nodes_node, List.mem_cons, List.mem_append] at ha ⊢
    rcases ha with rfl | ha | ha
    · rcases hb with hb | hb
      · exact .inr (.inl (mem_nodes_of_top? (hl.start_eq ▸ hb)))
      · exact .inr (.inr (mem_nodes_of_top? (hr.start_eq ▸ hb)))
    · exact .inr (.inl (ihl hl ha))
    · exact .inr (.inr (ihr hr ha))

theorem reaches_of_mem (h : Shape left right start t) {root : Option α}
    (hstart : ∀ a, start = some a → Reaches left right root a) {a : α} (ha : a ∈ nodes t) :
    Reaches left right root a := by
  induction t generalizing start with
  | nil => simp at ha
  | node b l r ihl ihr =>
    obtain ⟨hs, hl, hr⟩ := h
    simp only [nodes_node, List.mem_cons, List.mem_append] at ha
    rcases ha with rfl | ha | ha
    · exact hstart a hs
    · exact ihl hl (fun c hc => .left (hstart b hs) hc) ha
    · exact ihr hr (fun c hc => .right (hstart b hs) hc) ha

theorem reaches_iff (h : Shape left right start t) {a : α} :
    Reaches left right start a ↔ a ∈ nodes t := by
  constructor
  · intro hr
    induction hr with
    | start hs => exact mem_nodes_of_top? (h.start_eq ▸ hs)
    | left _ hb ih => exact h.children_mem ih (.inl hb)
    | right _ hb ih => exact h.children_mem ih (.inr hb)
  · exact h.reaches_of_mem fun _ hs => .start hs

/-- Every node is the start or the child of one link. -/
theorem nodes_perm_links (h : Shape left right start t) :
    (nodes t).Perm
      (start.toList ++ (nodes t).flatMap fun a => (left a).toList ++ (right a).toList) := by
  induction t generalizing start with
  | nil => simp [show start = none from h]
  | node a l r ihl ihr =>
    obtain ⟨hs, hl, hr⟩ := h
    rw [hs]
    simp only [nodes_node, Option.toList_some, List.flatMap_cons, List.flatMap_append,
      List.singleton_append]
    refine .cons a (((ihl hl).append (ihr hr)).trans ?_)
    simp only [List.append_assoc]
    refine .append_left _ ?_
    rw [← List.append_assoc, ← List.append_assoc]
    exact .append_right _ List.perm_append_comm

theorem start_no_parent (h : Shape left right start t) (ht : (nodes t).Nodup) {a p : α}
    (hp : start = some p) (ha : a ∈ nodes t) : left a ≠ some p ∧ right a ≠ some p := by
  have hn := (h.nodes_perm_links.nodup_iff.mp ht)
  have hdis := (List.nodup_append.mp hn).2.2 p (by simp [hp])
  constructor
  all_goals
    intro hc
    exact hdis p (List.mem_flatMap.mpr ⟨a, ha, by simp [hc]⟩) rfl

theorem parent_unique (h : Shape left right start t) (ht : (nodes t).Nodup) {a b p : α}
    (ha : a ∈ nodes t) (hb : b ∈ nodes t) (hpa : left a = some p ∨ right a = some p)
    (hpb : left b = some p ∨ right b = some p) : a = b := by
  have hn := (h.nodes_perm_links.nodup_iff.mp ht)
  have hpw := (List.nodup_flatMap.mp (List.nodup_append.mp hn).2.1).2
  by_contra hab
  have hpa' : p ∈ (left a).toList ++ (right a).toList := by
    rcases hpa with h | h <;> simp [h]
  have hpb' : p ∈ (left b).toList ++ (right b).toList := by
    rcases hpb with h | h <;> simp [h]
  have : Std.Symm (Function.onFun List.Disjoint fun a => (left a).toList ++ (right a).toList) :=
    ⟨fun _ _ hxy => List.Disjoint.symm hxy⟩
  exact hpw.forall ha hb hab hpa' hpb'

theorem left_ne_right (h : Shape left right start t) (ht : (nodes t).Nodup) {a p : α}
    (ha : a ∈ nodes t) (hl : left a = some p) : right a ≠ some p := by
  intro hr
  have hn := (h.nodes_perm_links.nodup_iff.mp ht)
  have hna := (List.nodup_flatMap.mp (List.nodup_append.mp hn).2.1).1 a ha
  simp [hl, hr] at hna

theorem start_ne_of_parent (h : Shape left right start t) (ht : (nodes t).Nodup) {a p : α}
    (ha : a ∈ nodes t) (hp : left a = some p ∨ right a = some p) : start ≠ some p := by
  intro hs
  have hno := h.start_no_parent ht hs ha
  exact hp.elim hno.1 hno.2

variable [DecidableEq α]

theorem subtree (h : Shape left right start t) {p : α} (hp : p ∈ nodes t) :
    Shape left right (some p) (SearchTree.subtree p t) := by
  induction t generalizing start with
  | nil => simp at hp
  | node a l r ihl ihr =>
    obtain ⟨-, hl, hr⟩ := h
    simp only [nodes_node, List.mem_cons, List.mem_append] at hp
    unfold SearchTree.subtree
    split_ifs with ha hpl
    · exact ⟨by rw [ha], hl, hr⟩
    · exact ihl hl hpl
    · exact ihr hr ((hp.resolve_left (Ne.symm ha)).resolve_left hpl)

/-- Clearing the links to `p` leaves the tree with the subtree at `p` cut off. -/
theorem cut {left' right' : α → Option α} (h : Shape left right start t) {p : α}
    (hp : start ≠ some p)
    (hl : ∀ a ∈ nodes t, left' a = if left a = some p then none else left a)
    (hr : ∀ a ∈ nodes t, right' a = if right a = some p then none else right a) :
    Shape left' right' start (SearchTree.cut p t) := by
  have hlink : ∀ (s : Option α) (u : BinaryTree α), Shape left right s u →
      (s ≠ some p → Shape left' right' s (SearchTree.cut p u)) →
      Shape left' right' (if s = some p then none else s) (SearchTree.cut p u) := by
    intro s u hs ih
    split_ifs with hsp
    · rw [cut_of_top? (hs.start_eq ▸ hsp)]
      rfl
    · exact ih hsp
  induction t generalizing start with
  | nil => exact h
  | node a l r ihl ihr =>
    obtain ⟨hs, hsl, hsr⟩ := h
    have hap : a ≠ p := fun hap => hp (by rw [hs, hap])
    rw [SearchTree.cut, if_neg hap]
    refine ⟨hs, ?_, ?_⟩
    · rw [hl a (by simp)]
      exact hlink _ _ hsl fun hsp =>
        ihl hsl hsp (fun b hb => hl b (by simp [hb])) (fun b hb => hr b (by simp [hb]))
    · rw [hr a (by simp)]
      exact hlink _ _ hsr fun hsp =>
        ihr hsr hsp (fun b hb => hl b (by simp [hb])) (fun b hb => hr b (by simp [hb]))

end Shape

section Hang
variable [LinearOrder κ] (key : α → κ)

inductive Side
  | left
  | right
  deriving DecidableEq

/-- The node and side where `insertLeaf` hangs `x`. -/
def slot (x : α) : BinaryTree α → Option (α × Side)
  | .nil => none
  | .node a l r =>
      some (if key x < key a then (slot x l).getD (a, .left) else (slot x r).getD (a, .right))

theorem slot_mem {x a : α} {s : Side} (h : slot key x t = some (a, s)) : a ∈ nodes t := by
  induction t generalizing a s with
  | nil => simp [slot] at h
  | node b l r ihl ihr =>
    simp only [slot, Option.some.injEq] at h
    split_ifs at h
    · cases hl : slot key x l with
      | none => simp_all
      | some c => simp_all
    · cases hr : slot key x r with
      | none => simp_all
      | some c => simp_all

theorem slot_eq_none {x : α} : slot key x t = none ↔ t = .nil := by
  cases t <;> simp [slot]

variable [DecidableEq α]

def hangLeft (left : α → Option α) (x : α) (s : α × Side) : α → Option α :=
  if s.2 = .left then Function.update left s.1 (some x) else left

def hangRight (right : α → Option α) (x : α) (s : α × Side) : α → Option α :=
  if s.2 = .right then Function.update right s.1 (some x) else right

theorem hangLeft_of_ne {x a b : α} {s : Side} (h : b ≠ a) :
    hangLeft left x (a, s) b = left b := by
  unfold hangLeft
  split_ifs <;> simp [h]

theorem hangRight_of_ne {x a b : α} {s : Side} (h : b ≠ a) :
    hangRight right x (a, s) b = right b := by
  unfold hangRight
  split_ifs <;> simp [h]

/-- Writing the one link at `slot` turns the tree into `insertLeaf`. -/
theorem Shape.insertLeaf (h : Shape left right start t) (ht : (nodes t).Nodup) {x : α}
    (hx : x ∉ nodes t) (hxl : left x = none) (hxr : right x = none) {s : α × Side}
    (hs : slot key x t = some s) :
    Shape (hangLeft left x s) (hangRight right x s) start (SearchTree.insertLeaf key x t) := by
  induction t generalizing start s with
  | nil => simp [slot] at hs
  | node a l r ihl ihr =>
    obtain ⟨hstart, hl, hr⟩ := h
    obtain ⟨ha, hn⟩ := List.nodup_cons.mp ht
    obtain ⟨hnl, hnr, hdis⟩ := List.nodup_append.mp hn
    simp only [nodes_node, List.mem_cons, List.mem_append, not_or] at hx ha
    have hleaf : ∀ s : Side, Shape (hangLeft left x (a, s)) (hangRight right x (a, s))
        (some x) (.node x .nil .nil) := fun s =>
      ⟨rfl, by rw [hangLeft_of_ne hx.1]; exact hxl, by rw [hangRight_of_ne hx.1]; exact hxr⟩
    have hkeep : ∀ {u : BinaryTree α} {st : Option α} {b : α} {s : Side},
        Shape left right st u → b ∉ nodes u →
        Shape (hangLeft left x (b, s)) (hangRight right x (b, s)) st u :=
      fun hu hb => hu.congr (fun c hc => hangLeft_of_ne fun he => hb (he ▸ hc))
        (fun c hc => hangRight_of_ne fun he => hb (he ▸ hc))
    simp only [slot, Option.some.injEq] at hs
    unfold SearchTree.insertLeaf
    split_ifs at hs ⊢ with hlt
    · cases hsl : slot key x l with
      | none =>
        rw [hsl, Option.getD_none] at hs
        obtain rfl := (slot_eq_none key).mp hsl
        subst hs
        refine ⟨hstart, ?_, ?_⟩
        · simpa [hangLeft, SearchTree.insertLeaf] using hleaf .left
        · rw [show hangRight right x (a, .left) a = right a by simp [hangRight]]
          exact hkeep hr ha.2
      | some b =>
        rw [hsl, Option.getD_some] at hs
        subst hs
        have hb := slot_mem key hsl
        have hab : a ≠ b.1 := fun he => ha.1 (he ▸ hb)
        refine ⟨hstart, ?_, ?_⟩
        · rw [show b = (b.1, b.2) from rfl, hangLeft_of_ne hab]
          exact ihl hl hnl hx.2.1 hsl
        · rw [show b = (b.1, b.2) from rfl, hangRight_of_ne hab]
          exact hkeep hr fun hbr => hdis _ hb _ hbr rfl
    · cases hsr : slot key x r with
      | none =>
        rw [hsr, Option.getD_none] at hs
        obtain rfl := (slot_eq_none key).mp hsr
        subst hs
        refine ⟨hstart, ?_, ?_⟩
        · rw [show hangLeft left x (a, .right) a = left a by simp [hangLeft]]
          exact hkeep hl ha.1
        · simpa [hangRight, SearchTree.insertLeaf] using hleaf .right
      | some b =>
        rw [hsr, Option.getD_some] at hs
        subst hs
        have hb := slot_mem key hsr
        have hab : a ≠ b.1 := fun he => ha.2 (he ▸ hb)
        refine ⟨hstart, ?_, ?_⟩
        · rw [show b = (b.1, b.2) from rfl, hangLeft_of_ne hab]
          exact hkeep hl fun hbl => hdis _ hbl _ hb rfl
        · rw [show b = (b.1, b.2) from rfl, hangRight_of_ne hab]
          exact ihr hr hnr hx.2.2 hsr

end Hang

end LinkedTree
