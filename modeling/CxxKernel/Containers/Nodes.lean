import CxxKernel.Containers.LinkedList
import Mathlib.Data.Finset.Card
import Mathlib.Data.Finset.Range

/-! The nodes of a `LinkedList`: what an operation does to the chain from `m_first` on, also where
`m_last` and `m_size` do not fit it. -/
namespace CxxKernel.Containers.LinkedList
open LinkedChain

variable {ν : Type} {s s' : LinkedList ν} {mem : Ptr → Option (ListObject ν)} {a b fresh : Ptr}
  {o : ListObject ν} {n : Option Ptr} {v : Option ν} {q : List (Ptr × Option ν)} {x : Ptr × Option ν}

def nextIn (mem : Ptr → Option (ListObject ν)) (a : Ptr) : Option Ptr := (mem a).bind ListObject.next

def valueIn (mem : Ptr → Option (ListObject ν)) (a : Ptr) : Option (Option ν) :=
  (mem a).map ListObject.ptr

theorem nextIn_update :
    nextIn (Function.update mem a (some o)) b = if b = a then o.next else nextIn mem b := by
  unfold nextIn
  by_cases h : b = a
  · rw [h, Function.update_self, if_pos rfl]
    rfl
  · rw [Function.update_of_ne h, if_neg h]

theorem valueIn_update :
    valueIn (Function.update mem a (some o)) b = if b = a then some o.ptr else valueIn mem b := by
  unfold valueIn
  by_cases h : b = a
  · rw [h, Function.update_self, if_pos rfl]
    rfl
  · rw [Function.update_of_ne h, if_neg h]

theorem nextIn_eq (h : mem a = some o) : nextIn mem a = o.next := by
  rw [nextIn, h]
  rfl

theorem valueIn_eq (h : mem a = some o) : valueIn mem a = some o.ptr := by
  rw [valueIn, h]
  rfl

theorem exists_of_valueIn (h : valueIn mem a = some v) : ∃ o, mem a = some o ∧ o.ptr = v :=
  Option.map_eq_some_iff.mp h

theorem valueIn_ne_none : valueIn mem a ≠ none ↔ mem a ≠ none := by
  unfold valueIn
  rw [ne_eq, Option.map_eq_none_iff]

/-- From `s` to `t` only the link of node `a` changes, to `n`. -/
structure Linked (s t : LinkedList ν) (a : Ptr) (n : Option Ptr) : Prop where
  first : t.m_first = s.m_first
  last : t.m_last = s.m_last
  size : t.m_size = s.m_size
  freed : t.m_freed = s.m_freed
  next : ∀ b, nextIn t.mem b = if b = a then n else nextIn s.mem b
  value : ∀ b, valueIn t.mem b = valueIn s.mem b

theorem setNext_linked (h : valueIn s.mem a = some v) (n : Option Ptr) :
    ∃ t, s.setNext a n = some t ∧ Linked s t a n := by
  obtain ⟨o, ho, hv⟩ := exists_of_valueIn h
  rw [setNext, ho]
  refine ⟨_, rfl, rfl, rfl, rfl, rfl, fun b => nextIn_update, fun b => valueIn_update.trans ?_⟩
  split_ifs with hb
  · rw [hb, valueIn_eq ho]
  · rfl

theorem linked_of_setNext {t : LinkedList ν} (h : s.setNext a n = some t) : Linked s t a n := by
  obtain ⟨o, ho, rfl⟩ := Option.map_eq_some_iff.mp h
  obtain ⟨t, hset, ht⟩ := setNext_linked (valueIn_eq ho) n
  obtain rfl := Option.some.inj (h.symm.trans hset)
  exact ht

/-- The nodes that `m_first` leads to, with their values. The nodes of the pool exist, and are not
in the list. -/
structure Nodes (s : LinkedList ν) (q : List (Ptr × Option ν)) : Prop where
  chain : Chain (nextIn s.mem) s.m_first (q.map Prod.fst)
  value : ∀ x ∈ q, valueIn s.mem x.1 = some x.2
  nodup : (q.map Prod.fst ++ s.m_freed).Nodup
  live : ∀ a ∈ s.m_freed, s.mem a ≠ none
  room : s.m_freed.length < LIST_MAX_FREED

/-- The nodes of the list with their values. The nodes of the pool exist, and are not in the list. -/
structure Represents (s : LinkedList ν) (q : List (Ptr × Option ν)) : Prop where
  chain : Chain (nextIn s.mem) s.m_first (q.map Prod.fst)
  last : s.m_last = (q.map Prod.fst).getLast?
  size : s.m_size = BitVec.ofNat 32 q.length
  value : ∀ x ∈ q, valueIn s.mem x.1 = some x.2
  nodup : (q.map Prod.fst ++ s.m_freed).Nodup
  live : ∀ a ∈ s.m_freed, s.mem a ≠ none
  room : s.m_freed.length < LIST_MAX_FREED

theorem Represents.nodes (h : s.Represents q) : s.Nodes q := ⟨h.chain, h.value, h.nodup, h.live, h.room⟩

theorem Nodes.represents (h : s.Nodes q) (hlast : s.m_last = (q.map Prod.fst).getLast?)
    (hsize : s.m_size = BitVec.ofNat 32 q.length) : s.Represents q :=
  ⟨h.chain, hlast, hsize, h.value, h.nodup, h.live, h.room⟩

namespace Represents

/-- From `s` to `t` a node `obj` for the value `v` is taken. -/
structure Taken (s t : LinkedList ν) (q : List (Ptr × Option ν)) (obj : Ptr) (v : Option ν) : Prop where
  first : t.m_first = s.m_first
  last : t.m_last = s.m_last
  size : t.m_size = s.m_size
  next : ∀ b, nextIn t.mem b = if b = obj then none else nextIn s.mem b
  value : ∀ b, valueIn t.mem b = if b = obj then some v else valueIn s.mem b
  nodup : (obj :: (q.map Prod.fst ++ t.m_freed)).Nodup
  live : ∀ a ∈ t.m_freed, s.mem a ≠ none
  room : t.m_freed.length < LIST_MAX_FREED

theorem Taken.ne {t : LinkedList ν} {obj : Ptr} (h : Taken s t q obj v) :
    ∀ b ∈ q.map Prod.fst, b ≠ obj := by
  rintro b hb rfl
  exact (List.nodup_cons.mp h.nodup).1 (List.mem_append_left _ hb)

/-- From `t` to `u` the node `obj` is given up. The other nodes stay. -/
structure GivenUp (t u : LinkedList ν) (q : List (Ptr × Option ν)) (obj : Ptr) : Prop where
  first : u.m_first = t.m_first
  last : u.m_last = t.m_last
  size : u.m_size = t.m_size
  mem : ∀ a ≠ obj, u.mem a = t.mem a
  nodup : (q.map Prod.fst ++ u.m_freed).Nodup
  live : ∀ a ∈ u.m_freed, u.mem a ≠ none
  room : u.m_freed.length < LIST_MAX_FREED

/-- How the end of the list is kept when node `z` goes, whose link is `next`. -/
def withLast (t : LinkedList ν) (y z : Ptr) (next : Option Ptr) : LinkedList ν :=
  let t := if some z = t.m_last then { t with m_last := next } else t
  if next = none then { t with m_last := some y } else t

end Represents

namespace Nodes
open Represents

variable {p r r' : List (Ptr × Option ν)} {y z : Ptr × Option ν} {t u : LinkedList ν} {obj : Ptr}

theorem exists_node (h : s.Nodes q) (hx : x ∈ q) : ∃ o, s.mem x.1 = some o ∧ o.ptr = x.2 :=
  exists_of_valueIn (h.value x hx)

theorem first_eq (h : s.Nodes q) : s.m_first = (q.map Prod.fst).head? := h.chain.start_eq

theorem first (h : s.Nodes q) : s.first = some (q.map Prod.snd).head?.join := by
  unfold LinkedList.first
  rw [h.first_eq]
  cases q with
  | nil => rfl
  | cons x q => exact h.value x List.mem_cons_self

theorem last_value (h : s.Nodes q) (hlast : s.m_last = (q.map Prod.fst).getLast?) :
    s.last = some (q.map Prod.snd).getLast?.join := by
  unfold LinkedList.last
  rw [hlast]
  rcases List.eq_nil_or_concat' q with rfl | ⟨q, x, rfl⟩
  · rfl
  · rw [List.map_append, List.map_append, List.map_singleton, List.map_singleton, List.getLast?_concat,
      List.getLast?_concat]
    exact h.value x (by simp)

theorem unique {q' : List (Ptr × Option ν)} (h : s.Nodes q) (h' : s.Nodes q') : q = q' := by
  have hfst := h.chain.unique h'.chain
  have hsnd : q.map Prod.snd = q'.map Prod.snd := by
    apply List.map_injective_iff.mpr fun _ _ => Option.some.inj
    have hval : ∀ l : List (Ptr × Option ν), (∀ x ∈ l, valueIn s.mem x.1 = some x.2) →
        (l.map Prod.snd).map some = (l.map Prod.fst).map (valueIn s.mem) := by
      intro l hl
      rw [List.map_map, List.map_map]
      exact List.map_congr_left fun x hx => (hl x hx).symm
    rw [hval q h.value, hval q' h'.value, hfst]
  exact (List.zip_of_prod hfst hsnd).trans (List.zip_of_prod rfl rfl).symm

theorem length_lt (h : s.Nodes q) : q.length < 2 ^ 32 := by
  have hnodup := (List.nodup_append.mp h.nodup).1
  have hinj : Function.Injective fun a : Ptr => a.1.toNat := fun a b hab =>
    Subtype.ext (BitVec.eq_of_toNat_eq hab)
  have haddr := hnodup.map hinj
  have hzero : 0 ∉ (q.map Prod.fst).map fun a : Ptr => a.1.toNat := by
    intro hmem
    obtain ⟨a, -, ha⟩ := List.mem_map.mp hmem
    exact a.2 (BitVec.eq_of_toNat_eq ha)
  have hcard : (0 :: (q.map Prod.fst).map fun a : Ptr => a.1.toNat).toFinset ⊆ Finset.range (2 ^ 32) := by
    intro k hk
    rw [Finset.mem_range]
    rcases List.mem_cons.mp (List.mem_toFinset.mp hk) with rfl | hk
    · decide
    · obtain ⟨a, -, rfl⟩ := List.mem_map.mp hk
      exact a.1.isLt
  have hle := Finset.card_le_card hcard
  rw [List.toFinset_card_of_nodup (List.nodup_cons.mpr ⟨hzero, haddr⟩), Finset.card_range,
    List.length_cons, List.length_map, List.length_map] at hle
  exact hle

theorem getFree (h : s.Nodes q) (hfresh : s.mem fresh = none) (v : Option ν) :
    ∃ obj t, s.getFree fresh v = some (obj, t) ∧ Taken s t q obj v := by
  have hnodup := h.nodup
  have hlive := h.live
  have hroom := h.room
  unfold LinkedList.getFree
  cases hfreed : s.m_freed with
  | nil =>
    rw [hfreed] at hlive hroom
    rw [hfreed, List.append_nil] at hnodup
    have hnot : fresh ∉ q.map Prod.fst := by
      intro hmem
      obtain ⟨x, hx, rfl⟩ := List.mem_map.mp hmem
      obtain ⟨o, ho, -⟩ := h.exists_node hx
      rw [hfresh] at ho
      cases ho
    refine ⟨fresh, _, rfl, rfl, rfl, rfl, fun b => nextIn_update, fun b => valueIn_update, ?_,
      hlive, hroom⟩
    rw [List.append_nil]
    exact List.nodup_cons.mpr ⟨hnot, hnodup⟩
  | cons res freed =>
    rw [hfreed] at hnodup hlive hroom
    obtain ⟨o, ho⟩ := Option.ne_none_iff_exists'.mp (hlive res List.mem_cons_self)
    dsimp only
    rw [ho]
    exact ⟨res, _, rfl, rfl, rfl, rfl, fun b => nextIn_update, fun b => valueIn_update,
      List.nodup_middle.mp hnodup, fun a ha => hlive a (List.mem_cons_of_mem _ ha),
      Nat.lt_of_succ_lt hroom⟩

theorem free (hobj : t.mem obj ≠ none)
    (hnodup : (obj :: (q.map Prod.fst ++ t.m_freed)).Nodup) (hlive : ∀ a ∈ t.m_freed, t.mem a ≠ none)
    (hroom : t.m_freed.length < LIST_MAX_FREED) : ∃ u, t.free obj = some u ∧ GivenUp t u q obj := by
  obtain ⟨hnot, hnodup⟩ := List.nodup_cons.mp hnodup
  unfold LinkedList.free
  split_ifs with hfull
  · obtain ⟨o, ho⟩ := Option.ne_none_iff_exists'.mp hobj
    rw [ho]
    refine ⟨_, rfl, rfl, rfl, rfl, fun a ha => Function.update_of_ne ha .., hnodup, fun a ha => ?_, hroom⟩
    have hne : a ≠ obj := by
      rintro rfl
      exact hnot (List.mem_append_right _ ha)
    dsimp only
    rw [Function.update_of_ne hne]
    exact hlive a ha
  · refine ⟨_, rfl, rfl, rfl, rfl, fun _ _ => rfl, ?_, fun a ha => ?_, ?_⟩
    · exact List.nodup_middle.mpr (List.nodup_cons.mpr ⟨hnot, hnodup⟩)
    · rcases List.mem_cons.mp ha with rfl | ha
      · exact hobj
      · exact hlive a ha
    · rw [List.length_cons]
      omega

theorem next_eq (h : s.Nodes (p ++ y :: r)) : nextIn s.mem y.1 = (r.map Prod.fst).head? := by
  have hchain := h.chain
  rw [List.map_append, List.map_cons] at hchain
  exact hchain.next_eq

theorem tail_chain (h : s.Nodes (p ++ y :: r)) : Chain (nextIn s.mem) (nextIn s.mem y.1) (r.map Prod.fst) := by
  have hchain := h.chain
  rw [List.map_append, List.map_cons] at hchain
  exact hchain.tail

theorem getLast?_behind (p r : List (Ptr × Option ν)) (y : Ptr × Option ν) :
    ((p ++ y :: r).map Prod.fst).getLast? = if r = [] then some y.1 else (r.map Prod.fst).getLast? := by
  rw [List.map_append, List.map_cons, List.getLast?_append_of_ne_nil _ (List.cons_ne_nil y.1 _)]
  by_cases hr : r = []
  · rw [if_pos hr, hr]
    rfl
  · have hmap : r.map Prod.fst ≠ [] := by simpa using hr
    rw [if_neg hr, List.getLast?_cons_of_ne_nil hmap]

theorem ne_middle (h : s.Nodes (p ++ y :: r)) : ∀ b ∈ p.map Prod.fst ++ r.map Prod.fst, b ≠ y.1 := by
  have hnodup := (List.nodup_append.mp h.nodup).1
  rw [List.map_append, List.map_cons] at hnodup
  rintro b hb rfl
  exact (List.nodup_cons.mp (List.nodup_middle.mp hnodup)).1 hb

theorem behind (h : s.Nodes (p ++ y :: r)) (hfirst : t.m_first = s.m_first)
    (hkeep : ∀ b ∈ p.map Prod.fst, nextIn t.mem b = nextIn s.mem b)
    (hchain : Chain (nextIn t.mem) (nextIn t.mem y.1) (r'.map Prod.fst))
    (hvalue : ∀ x ∈ p ++ y :: r', valueIn t.mem x.1 = some x.2)
    (hnodup : ((p ++ y :: r').map Prod.fst ++ t.m_freed).Nodup) (hlive : ∀ a ∈ t.m_freed, t.mem a ≠ none)
    (hroom : t.m_freed.length < LIST_MAX_FREED) : t.Nodes (p ++ y :: r') := by
  have hold := h.chain
  refine ⟨?_, hvalue, hnodup, hlive, hroom⟩
  rw [List.map_append, List.map_cons] at hold ⊢
  rw [hfirst]
  exact hold.replaceAfter hkeep hchain

theorem live_of_taken (ht : Taken s t q obj v) (hfreed : u.m_freed = t.m_freed)
    (hvalue : ∀ b, valueIn u.mem b = valueIn t.mem b) : ∀ a ∈ u.m_freed, u.mem a ≠ none := by
  intro a ha
  rw [hfreed] at ha
  rw [← valueIn_ne_none, hvalue, ht.value]
  split_ifs
  · exact Option.some_ne_none v
  · exact valueIn_ne_none.mpr (ht.live a ha)

theorem insertAfter (h : s.Nodes (p ++ y :: r)) (ht : Taken s t (p ++ y :: r) obj v)
    (hsub : r'.Sublist r) (hchain : Chain (nextIn s.mem) n (r'.map Prod.fst))
    (hfreed : u.m_freed = t.m_freed) (hfirst : u.m_first = s.m_first)
    (hnext : ∀ b, nextIn u.mem b = if b = y.1 then some obj else if b = obj then n else nextIn s.mem b)
    (hvalue : ∀ b, valueIn u.mem b = valueIn t.mem b) : u.Nodes (p ++ y :: (obj, v) :: r') := by
  have hne := ht.ne
  rw [List.map_append, List.map_cons] at hne
  have hy : obj ≠ y.1 := (hne _ (List.mem_append_right _ List.mem_cons_self)).symm
  have hkeep : ∀ b ∈ p.map Prod.fst ++ r.map Prod.fst, nextIn u.mem b = nextIn s.mem b := by
    intro b hb
    have hbo : b ≠ obj := by
      apply hne
      rcases List.mem_append.mp hb with hb | hb
      · exact List.mem_append_left _ hb
      · exact List.mem_append_right _ (List.mem_cons_of_mem _ hb)
    rw [hnext, if_neg (h.ne_middle b hb), if_neg hbo]
  have hmem : ∀ x ∈ p ++ y :: r', x ∈ p ++ y :: r := (hsub.cons_cons y).append_left p |>.subset
  refine h.behind hfirst (fun b hb => hkeep b (List.mem_append_left _ hb)) ?_ (fun x hx => ?_) ?_
    (live_of_taken ht hfreed hvalue) (hfreed ▸ ht.room)
  · rw [hnext y.1, if_pos rfl, List.map_cons]
    apply hchain.cons
    · rw [hnext, if_neg hy, if_pos rfl]
    · exact fun b hb => hkeep b (List.mem_append_right _ ((hsub.map _).subset hb))
  · have hcase : x = (obj, v) ∨ x ∈ p ++ y :: r' := by
      rw [List.append_cons] at hx ⊢
      exact List.mem_cons.mp (List.perm_middle.mem_iff.mp hx)
    rw [hvalue, ht.value]
    rcases hcase with rfl | hx
    · rw [if_pos rfl]
    · rw [if_neg (ht.ne _ (List.mem_map_of_mem (hmem x hx)))]
      exact h.value x (hmem x hx)
  · have hsplit : p ++ y :: (obj, v) :: r' = (p ++ [y]) ++ (obj, v) :: r' := by simp
    have hless : ((p ++ [y] ++ r').map Prod.fst ++ t.m_freed).Sublist
        ((p ++ y :: r).map Prod.fst ++ t.m_freed) := by
      rw [List.append_assoc]
      exact (((hsub.cons_cons y).append_left p).map Prod.fst).append_right _
    have hnodup := ht.nodup.sublist (hless.cons_cons obj)
    rw [hfreed, hsplit, List.map_append, List.map_cons, List.append_assoc, List.cons_append]
    rw [List.map_append, List.append_assoc] at hnodup
    exact List.nodup_middle.mpr hnodup

/-- Behind `y` the nodes `r'` are linked in, which are some of those that are there. -/
theorem relinkAfter (h : s.Nodes (p ++ y :: r)) (hsub : r'.Sublist r)
    (hchain : Chain (nextIn s.mem) n (r'.map Prod.fst)) (hfirst : t.m_first = s.m_first)
    (hfreed : t.m_freed = s.m_freed)
    (hnext : ∀ b, nextIn t.mem b = if b = y.1 then n else nextIn s.mem b)
    (hvalue : ∀ b, valueIn t.mem b = valueIn s.mem b) : t.Nodes (p ++ y :: r') := by
  have hless : (p ++ y :: r').Sublist (p ++ y :: r) := (hsub.cons_cons y).append_left p
  have hkeep : ∀ b ∈ p.map Prod.fst ++ r.map Prod.fst, nextIn t.mem b = nextIn s.mem b := by
    intro b hb
    rw [hnext, if_neg (h.ne_middle b hb)]
  refine h.behind hfirst (fun b hb => hkeep b (List.mem_append_left _ hb)) ?_ (fun x hx => ?_) ?_
    (fun a ha => ?_) (hfreed ▸ h.room)
  · rw [hnext, if_pos rfl]
    exact hchain.congr fun b hb => hkeep b (List.mem_append_right _ ((hsub.map _).subset hb))
  · rw [hvalue]
    exact h.value x (hless.subset hx)
  · rw [hfreed]
    exact h.nodup.sublist ((hless.map Prod.fst).append_right _)
  · rw [← valueIn_ne_none, hvalue, valueIn_ne_none]
    exact h.live a (hfreed ▸ ha)

theorem keep (h : s.Nodes q) (hfirst : t.m_first = s.m_first)
    (hnext : ∀ b ∈ q.map Prod.fst, nextIn t.mem b = nextIn s.mem b)
    (hvalue : ∀ b ∈ q.map Prod.fst, valueIn t.mem b = valueIn s.mem b)
    (hnodup : (q.map Prod.fst ++ t.m_freed).Nodup) (hlive : ∀ a ∈ t.m_freed, t.mem a ≠ none)
    (hroom : t.m_freed.length < LIST_MAX_FREED) : t.Nodes q where
  chain := by
    rw [hfirst]
    exact h.chain.congr hnext
  value x hx := (hvalue x.1 (List.mem_map_of_mem hx)).trans (h.value x hx)
  nodup := hnodup
  live := hlive
  room := hroom

theorem giveUp (h : t.Nodes q) (obj : Ptr) (hobj : t.mem obj ≠ none) (hnot : obj ∉ q.map Prod.fst ++ t.m_freed) :
    ∃ u, t.free obj = some u ∧ u.Nodes q ∧ GivenUp t u q obj := by
  obtain ⟨u, hfree, hu⟩ := free hobj (List.nodup_cons.mpr ⟨hnot, h.nodup⟩) h.live h.room
  have hne : ∀ b ∈ q.map Prod.fst, u.mem b = t.mem b := by
    intro b hb
    apply hu.mem
    rintro rfl
    exact hnot (List.mem_append_left _ hb)
  refine ⟨u, hfree, h.keep hu.first (fun b hb => ?_) (fun b hb => ?_) hu.nodup hu.live hu.room, hu⟩
  · rw [nextIn, hne b hb]
    rfl
  · rw [valueIn, hne b hb]
    rfl

theorem insertFirst (h : s.Nodes q) (ht : Taken s t q obj v) (hfreed : u.m_freed = t.m_freed)
    (hfirst : u.m_first = some obj)
    (hnext : ∀ b, nextIn u.mem b = if b = obj then s.m_first else nextIn s.mem b)
    (hvalue : ∀ b, valueIn u.mem b = valueIn t.mem b) : u.Nodes ((obj, v) :: q) := by
  refine ⟨?_, fun x hx => ?_, hfreed ▸ ht.nodup, live_of_taken ht hfreed hvalue, hfreed ▸ ht.room⟩
  · rw [hfirst, List.map_cons]
    apply h.chain.cons
    · rw [hnext, if_pos rfl]
    · intro b hb
      rw [hnext, if_neg (ht.ne b hb)]
  · rw [hvalue, ht.value]
    rcases List.mem_cons.mp hx with rfl | hx
    · rw [if_pos rfl]
    · rw [if_neg (ht.ne _ (List.mem_map_of_mem hx))]
      exact h.value x hx

theorem addFirst (h : s.Nodes q) (hfresh : s.mem fresh = none) (v : Option ν) :
    ∃ s' obj, s.addFirst fresh v = some s' ∧ s'.Nodes ((obj, v) :: q) ∧
      s'.m_last = (if q = [] then some obj else s.m_last) ∧ s'.m_size = s.m_size + 1 := by
  obtain ⟨obj, t, hget, ht⟩ := h.getFree hfresh v
  have hfirst := h.first_eq
  unfold LinkedList.addFirst
  rw [hget, Option.bind_some]
  dsimp only
  rw [ht.first, hfirst]
  cases q with
  | nil =>
    refine ⟨_, obj, rfl, h.insertFirst ht rfl rfl (fun b => ?_) fun _ => rfl, rfl, congrArg (· + 1) ht.size⟩
    rw [hfirst]
    exact ht.next b
  | cons x q =>
    have hobj : valueIn t.mem obj = some v := by rw [ht.value, if_pos rfl]
    obtain ⟨u, hset, hu⟩ := setNext_linked hobj (some x.1)
    refine ⟨_, obj, congrArg (Option.map _) hset,
      h.insertFirst ht hu.freed rfl (fun b => ?_) hu.value, hu.last.trans ht.last, ?_⟩
    · rw [hfirst]
      dsimp only
      rw [hu.next, ht.next]
      split_ifs
      · rfl
      · rfl
    · dsimp only
      rw [hu.size, ht.size]

/-- A node goes behind the node `y` that `m_last` names. What is behind `y` is lost. -/
theorem append_at (h : s.Nodes (p ++ y :: r)) (hlast : s.m_last = some y.1) (hfresh : s.mem fresh = none)
    (v : Option ν) : ∃ s' obj, s.append fresh v = some s' ∧ s'.Nodes (p ++ y :: [(obj, v)]) ∧
      s'.m_last = some obj ∧ s'.m_size = s.m_size + 1 := by
  obtain ⟨obj, t, hget, ht⟩ := h.getFree hfresh v
  have hy : y.1 ≠ obj := ht.ne _ (by simp)
  have hvalue : valueIn t.mem y.1 = some y.2 := by
    rw [ht.value, if_neg hy]
    exact h.value y (by simp)
  obtain ⟨u, hset, hu⟩ := setNext_linked hvalue (some obj)
  unfold LinkedList.append
  rw [hlast]
  dsimp only
  rw [hget, Option.bind_some]
  refine ⟨_, obj, congrArg (Option.map _) hset, h.insertAfter ht (List.nil_sublist r) (n := none) rfl
    hu.freed (hu.first.trans ht.first) (fun b => ?_) hu.value, rfl, ?_⟩
  · rw [hu.next, ht.next]
  · dsimp only
    rw [hu.size, ht.size]

theorem append_off (h : s.Nodes q) {last : Ptr} (hlast : s.m_last = some last) (hoff : last ∉ q.map Prod.fst)
    (hfresh : s.mem fresh = none) (happend : s.append fresh v = some s') : s'.Nodes q := by
  obtain ⟨obj, t, hget, ht⟩ := h.getFree hfresh v
  unfold LinkedList.append at happend
  rw [hlast] at happend
  dsimp only at happend
  rw [hget, Option.bind_some] at happend
  obtain ⟨u, hset, rfl⟩ := Option.map_eq_some_iff.mp happend
  have hu := linked_of_setNext hset
  refine h.keep (hu.first.trans ht.first) (fun b hb => ?_) (fun b hb => ?_) ?_
    (live_of_taken ht hu.freed hu.value) ?_
  · have hne : b ≠ last := fun heq => hoff (heq ▸ hb)
    rw [hu.next, if_neg hne, ht.next, if_neg (ht.ne b hb)]
  · rw [hu.value, ht.value, if_neg (ht.ne b hb)]
  · dsimp only
    rw [hu.freed]
    exact (List.nodup_cons.mp ht.nodup).2
  · dsimp only
    rw [hu.freed]
    exact ht.room

/-- The loop stops at the node with the number that is asked for, or at the last one. -/
theorem walk_spec (h : s.Nodes (p ++ y :: r)) (n c : ℕ) :
    ∃ p' y' r', y :: r = p' ++ y' :: r' ∧ p'.length = min n r.length ∧
      s.walk n c y.1 = some (c + p'.length, y'.1) := by
  induction n generalizing p y r c with
  | zero => exact ⟨[], y, r, rfl, (Nat.zero_min _).symm, rfl⟩
  | succ n ih =>
    obtain ⟨o, ho, -⟩ := h.exists_node (List.mem_append_right p List.mem_cons_self)
    have hnext := h.next_eq
    rw [nextIn_eq ho] at hnext
    rw [walk, ho, Option.bind_some]
    cases r with
    | nil =>
      rw [hnext]
      exact ⟨[], y, [], rfl, (Nat.min_zero _).symm, rfl⟩
    | cons z r =>
      rw [hnext]
      have hrest : s.Nodes (p ++ [y] ++ z :: r) := by
        rw [List.append_assoc]
        exact h
      obtain ⟨p', y', r', hsplit, hlen, hwalk⟩ := ih hrest (c + 1)
      refine ⟨y :: p', y', r', by rw [hsplit, List.cons_append], ?_, ?_⟩
      · rw [List.length_cons, List.length_cons, hlen, Nat.succ_min_succ]
      · rw [List.length_cons, Nat.add_comm p'.length, ← Nat.add_assoc]
        exact hwalk

/-- The end of `appendAfter` and of `addAt`, which link a new node in behind `y`. The state `w` is
taken where `y` was the last one. -/
theorem linkBehind (h : s.Nodes (p ++ y :: r)) (ht : Taken s t (p ++ y :: r) obj v) {w : LinkedList ν}
    (hmem : w.mem = t.mem) (hfirst : w.m_first = t.m_first) (hfreed : w.m_freed = t.m_freed)
    (hsize : w.m_size = t.m_size) :
    ∃ o s', t.mem y.1 = some o ∧
      ((if o.next ≠ none then t.setNext obj o.next else some w).bind fun u =>
        (u.setNext y.1 (some obj)).map fun u => (true, { u with m_size := u.m_size + 1 })) = some (true, s') ∧
      s'.Nodes (p ++ y :: (obj, v) :: r) ∧ s'.m_last = (if r = [] then w.m_last else s.m_last) ∧
      s'.m_size = s.m_size + 1 := by
  have hy : y.1 ≠ obj := ht.ne _ (by simp)
  have hvalue : valueIn t.mem y.1 = some y.2 := by
    rw [ht.value, if_neg hy]
    exact h.value y (by simp)
  have hobj : valueIn t.mem obj = some v := by rw [ht.value, if_pos rfl]
  obtain ⟨o, ho, -⟩ := exists_of_valueIn hvalue
  have hnext := ht.next y.1
  rw [if_neg hy, h.next_eq, nextIn_eq ho] at hnext
  refine ⟨o, ?_⟩
  cases r with
  | nil =>
    have hend : o.next = none := hnext
    obtain ⟨u, hset, hu⟩ := setNext_linked (s := w) (hmem ▸ hvalue) (some obj)
    refine ⟨{ u with m_size := u.m_size + 1 }, ho, ?_, h.insertAfter ht (List.Sublist.refl _) rfl
      (hu.freed.trans hfreed)
      (hu.first.trans (hfirst.trans ht.first)) (fun b => ?_) fun b => (hu.value b).trans (by rw [hmem]), hu.last, ?_⟩
    · rw [hend, if_neg (not_not.mpr rfl), Option.bind_some, hset]
      rfl
    · dsimp only
      rw [hu.next, hmem, ht.next]
    · dsimp only
      rw [hu.size, hsize, ht.size]
  | cons z r =>
    have hend : o.next = some z.1 := hnext
    obtain ⟨u₁, hset₁, hu₁⟩ := setNext_linked hobj (some z.1)
    have hvalue₁ : valueIn u₁.mem y.1 = some y.2 := by rw [hu₁.value, hvalue]
    obtain ⟨u₂, hset₂, hu₂⟩ := setNext_linked hvalue₁ (some obj)
    have hchain := h.tail_chain
    rw [h.next_eq] at hchain
    refine ⟨{ u₂ with m_size := u₂.m_size + 1 }, ho, ?_, h.insertAfter ht (List.Sublist.refl _) hchain
      (hu₂.freed.trans hu₁.freed) (hu₂.first.trans (hu₁.first.trans ht.first)) (fun b => ?_)
      fun b => (hu₂.value b).trans (hu₁.value b), hu₂.last.trans (hu₁.last.trans ht.last), ?_⟩
    · rw [hend, if_pos (Option.some_ne_none z.1), hset₁, Option.bind_some, hset₂]
      rfl
    · dsimp only
      rw [hu₂.next, hu₁.next, ht.next]
      split_ifs
      · rfl
      · rfl
      · rfl
    · dsimp only
      rw [hu₂.size, hu₁.size, ht.size]

theorem appendAfter_behind (h : s.Nodes (p ++ y :: r)) (hfresh : s.mem fresh = none) {i : Word} {k : ℕ}
    (hfirst : s.m_first = some a) (hwalk : s.walk i.toNat 0 a = some (k, y.1)) (hv : v ≠ none) :
    ∃ s' obj, s.appendAfter fresh i v = some (true, s') ∧ s'.Nodes (p ++ y :: (obj, v) :: r) ∧
      s'.m_last = (if r = [] then some obj else s.m_last) ∧ s'.m_size = s.m_size + 1 := by
  obtain ⟨obj, t, hget, ht⟩ := h.getFree hfresh v
  obtain ⟨o, s', ho, hprog, hnodes, hlast, hsize⟩ :=
    h.linkBehind ht (w := { t with m_last := some obj }) rfl rfl rfl rfl
  refine ⟨s', obj, ?_, hnodes, hlast, hsize⟩
  unfold LinkedList.appendAfter
  rw [if_neg hv, hfirst]
  dsimp only
  rw [hwalk, Option.bind_some, hget, Option.bind_some, ho, Option.bind_some]
  exact hprog

theorem dropFirst (h : s.Nodes (x :: q)) : ({ s with m_first := nextIn s.mem x.1 } : LinkedList ν).Nodes q :=
  ⟨tail_chain (s := s) (p := []) h, fun y hy => h.value y (List.mem_cons_of_mem _ hy), (List.nodup_cons.mp h.nodup).2,
    h.live, h.room⟩

theorem takeFirst (h : s.Nodes (x :: q)) :
    ∃ s', s.takeFirst = some (x.2, s') ∧ s'.Nodes q ∧ s'.m_last = (if q = [] then none else s.m_last) ∧
      s'.m_size = s.m_size - 1 := by
  have hnext := next_eq (p := []) h
  obtain ⟨o, ho, hv⟩ := h.exists_node List.mem_cons_self
  rw [nextIn_eq ho] at hnext
  unfold LinkedList.takeFirst
  rw [h.first_eq, List.map_cons, List.head?_cons]
  dsimp only
  rw [ho, Option.bind_some]
  generalize ht : (if o.next ≠ none then { s with m_first := o.next }
    else { s with m_first := none, m_last := none } : LinkedList ν) = t
  have hkeep : t.mem = s.mem ∧ t.m_freed = s.m_freed ∧ t.m_size = s.m_size := by
    rw [← ht]
    split_ifs
    · exact ⟨rfl, rfl, rfl⟩
    · exact ⟨rfl, rfl, rfl⟩
  have hends : t.m_first = (q.map Prod.fst).head? ∧ t.m_last = if q = [] then none else s.m_last := by
    rw [← ht, hnext]
    cases q with
    | nil => exact ⟨rfl, rfl⟩
    | cons y q =>
      rw [List.map_cons, List.head?_cons, if_pos (Option.some_ne_none _)]
      exact ⟨rfl, rfl⟩
  have hrest := h.dropFirst
  rw [next_eq (p := []) h, ← hends.1] at hrest
  have ht' : ({ t with m_size := t.m_size - 1 } : LinkedList ν).Nodes q := by
    refine hrest.keep rfl (fun b _ => ?_) (fun b _ => ?_) (hkeep.2.1 ▸ hrest.nodup) ?_ (hkeep.2.1 ▸ h.room)
    · rw [hkeep.1]
    · rw [hkeep.1]
    · rw [hkeep.1, hkeep.2.1]
      exact h.live
  have hnode : ({ t with m_size := t.m_size - 1 } : LinkedList ν).mem x.1 ≠ none := by
    rw [hkeep.1, ho]
    exact Option.some_ne_none o
  obtain ⟨u, hfree, hnodes, hu⟩ := ht'.giveUp _ hnode (by rw [hkeep.2.1]; exact (List.nodup_cons.mp h.nodup).1)
  refine ⟨u, ?_, hnodes, hu.last.trans hends.2, hu.size.trans (congrArg (· - 1) hkeep.2.2)⟩
  rw [hfree, hv]
  rfl

/-- The first node goes behind the node `y` that `m_last` names. What is behind `y` is lost. -/
theorem rotate_at (h : s.Nodes (x :: (p ++ y :: r))) (hlast : s.m_last = some y.1) :
    ∃ s', s.rotateFirstLast = some s' ∧ s'.Nodes (p ++ y :: [x]) ∧ s'.m_last = some x.1 ∧
      s'.m_size = s.m_size := by
  have hxy : x.1 ≠ y.1 := by
    apply ne_middle (p := x :: p) h
    simp
  have hne : some x.1 ≠ s.m_last := by
    rw [hlast]
    exact fun heq => hxy (Option.some.inj heq)
  obtain ⟨o, ho, -⟩ := h.exists_node List.mem_cons_self
  obtain ⟨u₁, hset₁, hu₁⟩ := setNext_linked (s := { s with m_first := o.next }) (h.value y (by simp)) (some x.1)
  have hvx : valueIn u₁.mem x.1 = some x.2 := by
    rw [hu₁.value]
    exact h.value x List.mem_cons_self
  obtain ⟨u₂, hset₂, hu₂⟩ := setNext_linked hvx none
  have hnext : ∀ b, nextIn u₂.mem b = if b = x.1 then none else if b = y.1 then some x.1
      else nextIn s.mem b := fun b => by rw [hu₂.next, hu₁.next]
  have hvalue : ∀ b, valueIn u₂.mem b = valueIn s.mem b := fun b => (hu₂.value b).trans (hu₁.value b)
  have hfreed : u₂.m_freed = s.m_freed := hu₂.freed.trans hu₁.freed
  have hrest := h.dropFirst
  refine ⟨{ u₂ with m_last := some x.1 }, ?_, ?_, rfl, hu₂.size.trans hu₁.size⟩
  · unfold LinkedList.rotateFirstLast
    rw [h.first_eq, List.map_cons, List.head?_cons]
    dsimp only
    rw [if_neg hne]
    refine Option.bind_eq_some_iff.mpr ⟨o, ho, Option.bind_eq_some_iff.mpr ⟨y.1, hlast, ?_⟩⟩
    rw [hset₁, Option.bind_some, hset₂]
    rfl
  · refine hrest.behind ?_ (fun b hb => ?_) ?_ (fun z hz => ?_) ?_ (fun a ha => ?_) (hfreed ▸ h.room)
    · rw [nextIn_eq ho]
      exact hu₂.first.trans hu₁.first
    · have hbx : b ≠ x.1 := by
        apply ne_middle (p := []) h
        rw [List.map_append]
        exact List.mem_append_right _ (List.mem_append_left _ hb)
      have hby : b ≠ y.1 := hrest.ne_middle b (List.mem_append_left _ hb)
      rw [hnext, if_neg hbx, if_neg hby]
    · rw [hnext, if_neg hxy.symm, if_pos rfl]
      refine ⟨rfl, ?_⟩
      rw [hnext, if_pos rfl]
      rfl
    · rw [hvalue]
      apply h.value
      rcases List.mem_append.mp hz with hz | hz
      · exact List.mem_cons_of_mem _ (List.mem_append_left _ hz)
      · rcases List.mem_cons.mp hz with rfl | hz
        · exact List.mem_cons_of_mem _ (List.mem_append_right _ List.mem_cons_self)
        · rw [List.mem_singleton.mp hz]
          exact List.mem_cons_self
    · have hless : (x :: (p ++ [y])).Sublist (x :: (p ++ y :: r)) :=
        (((List.nil_sublist r).cons_cons y).append_left p).cons_cons x
      have hperm : (p ++ y :: [x]).Perm (x :: (p ++ [y])) := by
        rw [List.append_cons]
        exact List.perm_append_singleton x (p ++ [y])
      rw [hfreed, ((hperm.map Prod.fst).append_right s.m_freed).nodup_iff]
      exact h.nodup.sublist ((hless.map Prod.fst).append_right _)
    · rw [← valueIn_ne_none, hvalue, valueIn_ne_none]
      exact h.live a (hfreed ▸ ha)

theorem rotate_off (h : s.Nodes (x :: q)) {last : Ptr} (hlast : s.m_last = some last)
    (hoff : last ∉ (x :: q).map Prod.fst) (hrotate : s.rotateFirstLast = some s') : s'.Nodes q := by
  obtain ⟨o, ho, -⟩ := h.exists_node List.mem_cons_self
  have hne : some x.1 ≠ some last := by
    intro heq
    apply hoff
    rw [← Option.some.inj heq, List.map_cons]
    exact List.mem_cons_self
  unfold LinkedList.rotateFirstLast at hrotate
  rw [h.first_eq, List.map_cons, List.head?_cons] at hrotate
  dsimp only at hrotate
  rw [hlast, if_neg hne, ho, Option.bind_some, Option.bind_some] at hrotate
  obtain ⟨u₁, hset₁, hrotate⟩ := Option.bind_eq_some_iff.mp hrotate
  obtain ⟨u₂, hset₂, rfl⟩ := Option.map_eq_some_iff.mp hrotate
  have hu₁ := linked_of_setNext hset₁
  have hu₂ := linked_of_setNext hset₂
  have hfreed : u₂.m_freed = s.m_freed := hu₂.freed.trans hu₁.freed
  have hvalue : ∀ b, valueIn u₂.mem b = valueIn s.mem b := fun b => (hu₂.value b).trans (hu₁.value b)
  have hrest := h.dropFirst
  rw [nextIn_eq ho] at hrest
  refine hrest.keep (hu₂.first.trans hu₁.first) (fun b hb => ?_) (fun b _ => hvalue b) (hfreed ▸ hrest.nodup)
    (fun a ha => ?_) (hfreed ▸ h.room)
  · have hbl : b ≠ last := by
      rintro rfl
      exact hoff (List.mem_cons_of_mem _ hb)
    rw [hu₂.next, if_neg (ne_middle (p := []) h b hb), hu₁.next, if_neg hbl]
  · rw [← valueIn_ne_none, hvalue, valueIn_ne_none]
    exact h.live a (hfreed ▸ ha)

theorem deleteAt_zero (h : s.Nodes (x :: q)) :
    ∃ s', s.deleteAt 0 = some (true, s') ∧ s'.Nodes q ∧ s'.m_last = (if q = [] then none else s.m_last) ∧
      s'.m_size = if q = [] then 0 else s.m_size - 1 := by
  have hnext := next_eq (p := []) h
  obtain ⟨o, ho, -⟩ := h.exists_node List.mem_cons_self
  have hrest := h.dropFirst
  rw [nextIn_eq ho] at hnext hrest
  unfold LinkedList.deleteAt
  rw [h.first_eq, List.map_cons, List.head?_cons]
  dsimp only
  rw [if_pos rfl, ho, Option.map_some]
  rw [hnext] at hrest ⊢
  cases q with
  | nil => exact ⟨_, rfl, ⟨hrest.chain, hrest.value, hrest.nodup, hrest.live, hrest.room⟩, rfl, rfl⟩
  | cons y q => exact ⟨_, rfl, ⟨hrest.chain, hrest.value, hrest.nodup, hrest.live, hrest.room⟩, rfl, rfl⟩

theorem withLast_eq (t : LinkedList ν) (y z : Ptr) (r : List (Ptr × Option ν)) :
    withLast t y z (r.map Prod.fst).head? = { t with
      m_last := if r = [] then some y else if some z = t.m_last then (r.map Prod.fst).head? else t.m_last } := by
  unfold withLast
  cases r with
  | nil =>
    rw [List.map_nil, List.head?_nil, if_pos rfl, if_pos rfl]
    split_ifs
    · rfl
    · rfl
  | cons w r =>
    rw [List.map_cons, List.head?_cons, if_neg (Option.some_ne_none _), if_neg (List.cons_ne_nil w r)]
    split_ifs
    · rfl
    · rfl

/-- The pool can take the node `z` when it is no longer linked behind `y`. -/
theorem not_mem_of_unlinked (h : s.Nodes (p ++ y :: z :: r)) (hsub : r'.Sublist r) :
    z.1 ∉ (p ++ y :: r').map Prod.fst ++ s.m_freed := by
  have hmid : (p ++ y :: z :: r).Perm (z :: (p ++ y :: r)) := by
    rw [List.append_cons, List.append_cons p y r]
    exact List.perm_middle
  have hless : (p ++ y :: r').Sublist (p ++ y :: r) := (hsub.cons_cons y).append_left p
  have hnodup := ((hmid.map Prod.fst).append_right s.m_freed).nodup_iff.mp h.nodup
  intro hmem
  exact (List.nodup_cons.mp hnodup).1 (((hless.map Prod.fst).append_right _).subset hmem)

theorem deleteAt_behind (h : s.Nodes (p ++ y :: z :: r)) {i : Word} (hi : i.toNat = p.length + 1)
    (hfirst : s.m_first = some a) (hwalk : s.walk (i.toNat - 1) 0 a = some (p.length, y.1)) :
    ∃ s', s.deleteAt i = some (true, s') ∧ s'.Nodes (p ++ y :: r) ∧
      s'.m_last = (if r = [] then some y.1 else if some z.1 = s.m_last then (r.map Prod.fst).head? else s.m_last) ∧
      s'.m_size = s.m_size - 1 := by
  obtain ⟨oy, hoy, -⟩ := h.exists_node (x := y) (by simp)
  obtain ⟨oz, hoz, -⟩ := h.exists_node (x := z) (by simp)
  have hy := h.next_eq
  rw [nextIn_eq hoy] at hy
  have hz := next_eq (p := p ++ [y]) (r := r) (y := z) (by simpa using h)
  rw [nextIn_eq hoz] at hz
  obtain ⟨t, hset, ht⟩ := setNext_linked (h.value y (by simp)) oz.next
  have hend := withLast_eq t y.1 z.1 r
  rw [← hz, ht.last] at hend
  have hchain := tail_chain (p := p ++ [y]) (r := r) (y := z) (by simpa using h)
  have hu : ({ withLast t y.1 z.1 oz.next with m_size := (withLast t y.1 z.1 oz.next).m_size - 1 } :
      LinkedList ν).Nodes (p ++ y :: r) := by
    rw [nextIn_eq hoz] at hchain
    rw [hend]
    exact h.relinkAfter (List.sublist_cons_self z r) hchain ht.first ht.freed ht.next ht.value
  have hnot := h.not_mem_of_unlinked (List.Sublist.refl r)
  obtain ⟨w, hfree, hnodes, hw⟩ := hu.giveUp z.1
    (by rw [hend, ← valueIn_ne_none, ht.value, h.value z (by simp)]; exact Option.some_ne_none _)
    (by rw [hend]; dsimp only; rw [ht.freed]; exact hnot)
  have hne : i ≠ 0 := by
    rintro rfl
    exact absurd hi (Nat.succ_ne_zero _).symm
  refine ⟨w, ?_, hnodes, ?_, ?_⟩
  · unfold LinkedList.deleteAt
    rw [hfirst]
    dsimp only
    rw [if_neg hne, hwalk, Option.bind_some]
    dsimp only
    rw [if_neg (not_not.mpr hi.symm), hoy, Option.bind_some, hy, List.map_cons, List.head?_cons]
    dsimp only
    rw [hoz, Option.bind_some, hset, Option.bind_some]
    exact congrArg (Option.map _) hfree
  · rw [hw.last, hend, hz]
  · rw [hw.size, hend]
    exact congrArg (· - 1) ht.size

theorem deleteAt_size (h : s.Nodes (p ++ [y])) {i : Word} (hi : i.toNat = p.length + 1)
    (hfirst : s.m_first = some a) (hwalk : s.walk (i.toNat - 1) 0 a = some (p.length, y.1)) :
    ∃ s', s.deleteAt i = some (true, s') ∧ s'.Nodes [] := by
  obtain ⟨o, ho, -⟩ := h.exists_node (x := y) (by simp)
  have hy := h.next_eq
  rw [nextIn_eq ho] at hy
  have hnot : y.1 ∉ s.m_freed := by
    intro hmem
    have hdisjoint := (List.nodup_append.mp h.nodup).2.2
    exact hdisjoint y.1 (by simp) y.1 hmem rfl
  have hempty : ({ s with m_first := none, m_last := none, m_size := 0 } : LinkedList ν).Nodes [] :=
    ⟨rfl, fun x hx => absurd hx List.not_mem_nil, (List.nodup_append.mp h.nodup).2.1, h.live, h.room⟩
  obtain ⟨u, hfree, hnodes, -⟩ := hempty.giveUp y.1 (by rw [ho]; exact Option.some_ne_none o) hnot
  have hne : i ≠ 0 := by
    rintro rfl
    exact absurd hi (Nat.succ_ne_zero _).symm
  refine ⟨u, ?_, hnodes⟩
  unfold LinkedList.deleteAt
  rw [hfirst]
  dsimp only
  rw [if_neg hne, hwalk, Option.bind_some]
  dsimp only
  rw [if_neg (not_not.mpr hi.symm), ho, Option.bind_some, hy]
  exact congrArg (Option.map _) hfree

theorem deleteAt_beyond {i : Word} {k : ℕ} (hfirst : s.m_first = some a) (hi : i ≠ 0)
    (hwalk : s.walk (i.toNat - 1) 0 a = some (k, b)) (hk : k + 1 ≠ i.toNat) :
    s.deleteAt i = some (false, s) := by
  unfold LinkedList.deleteAt
  rw [hfirst]
  dsimp only
  rw [if_neg hi, hwalk, Option.bind_some]
  exact if_pos hk

theorem deleteAt (h : s.Nodes q) {i : Word} (hi : i.toNat < q.length) :
    ∃ s', s.deleteAt i = some (true, s') ∧ s'.Nodes (q.eraseIdx i.toNat) ∧
      (s.m_last = (q.map Prod.fst).getLast? → s'.m_last = ((q.eraseIdx i.toNat).map Prod.fst).getLast?) ∧
      (s'.m_size = s.m_size - 1 ∨ q.length = 1 ∧ s'.m_size = 0) := by
  cases q with
  | nil => exact absurd hi (Nat.not_lt_zero _)
  | cons x q =>
    by_cases hzero : i = 0
    · rw [hzero]
      obtain ⟨s', hdelete, hnodes, hlast, hsize⟩ := h.deleteAt_zero
      refine ⟨s', hdelete, hnodes, fun hend => ?_, ?_⟩
      · rw [hlast, hend]
        cases q with
        | nil => rfl
        | cons y q => exact List.getLast?_cons_cons
      · cases q with
        | nil => exact Or.inr ⟨rfl, hsize⟩
        | cons y q => exact Or.inl hsize
    · have hpos : i.toNat ≠ 0 := fun he => hzero (BitVec.eq_of_toNat_eq he)
      obtain ⟨p, y, r, hsplit, hlen, hwalk⟩ := h.walk_spec (p := []) (i.toNat - 1) 0
      have hlength := congrArg List.length hsplit
      rw [List.length_append, List.length_cons, List.length_cons] at hlength
      rw [List.length_cons] at hi
      have hp : i.toNat = p.length + 1 := by omega
      obtain ⟨z, r, rfl⟩ := List.exists_cons_of_length_pos (by omega : 0 < r.length)
      have hone : p.length + 1 - p.length = 1 := Nat.add_sub_cancel_left ..
      rw [Nat.zero_add] at hwalk
      have hfirst := h.first_eq
      rw [hsplit] at h ⊢
      rw [hp, List.eraseIdx_append_of_length_le (Nat.le_add_right _ 1), hone]
      obtain ⟨s', hdelete, hnodes, hlast, hsize⟩ := h.deleteAt_behind hp hfirst hwalk
      refine ⟨s', hdelete, hnodes, fun hend => ?_, Or.inl hsize⟩
      have hback := getLast?_behind (p ++ [y]) r z
      rw [List.append_assoc] at hback
      have hend' := hend.trans hback
      have herase : (y :: z :: r).eraseIdx 1 = y :: r := rfl
      rw [hlast, herase, getLast?_behind]
      by_cases hr : r = []
      · rw [if_pos hr, if_pos hr]
      · rw [if_neg hr] at hend' ⊢
        have hne : some z.1 ≠ s.m_last := by
          intro heq
          apply ne_middle (p := p ++ [y]) (y := z) (r := r) (by simpa using h) z.1 ?_ rfl
          exact List.mem_append_right _ (List.mem_of_getLast? (hend'.symm.trans heq.symm))
        rw [if_neg hne, if_neg hr, hend']

end Nodes

end CxxKernel.Containers.LinkedList
