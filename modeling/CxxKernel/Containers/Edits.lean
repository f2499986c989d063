import CxxKernel.Containers.Sequence
import Mathlib.Data.List.Chain

/-! The calls that edit a `LinkedList` in the middle: `addAt`, `deleteAt` and `deleteAll`. After them
`m_last` and `m_size` need not fit the nodes any more. -/
namespace CxxKernel.Containers.LinkedList
open Runs Nodes

variable {ν : Type} {s s' : LinkedList ν} {fresh : Ptr} {v : Option ν}
  {p q r : List (Ptr × Option ν)} {x y z : Ptr × Option ν}

/-- Any call of the class. -/
inductive ListEdit (ν : Type)
  | op (call : ListOp ν)
  | addAt (i : Word) (val : Option ν)
  | deleteAt (i : Word)
  | deleteAll (val : Option ν)

/-- There are fewer nodes than addresses. -/
def ADDRESSES : ℕ := 2 ^ 32

def ListEdit.exec [DecidableEq ν] (s : LinkedList ν) (fresh : Ptr) : ListEdit ν → Option (LinkedList ν)
  | .op call => (call.exec s fresh).map Prod.snd
  | .addAt i val => (s.addAt fresh i val).map Prod.snd
  | .deleteAt i => (s.deleteAt i).map Prod.snd
  | .deleteAll val => s.deleteAll ADDRESSES val

def EditStep [DecidableEq ν] (s : LinkedList ν) (call : ListEdit ν) (s' : LinkedList ν) : Prop :=
  ∃ fresh, s.mem fresh = none ∧ call.exec s fresh = some s'

namespace Nodes

theorem addAt_behind (h : s.Nodes (p ++ y :: r)) (hfresh : s.mem fresh = none) {i : Word} {a : Ptr} {k : ℕ}
    (hfirst : s.m_first = some a) (hi : i ≠ 0) (hwalk : s.walk (i.toNat - 1) 0 a = some (k, y.1))
    (hv : v ≠ none) :
    ∃ s' obj, s.addAt fresh i v = some (true, s') ∧ s'.Nodes (p ++ y :: (obj, v) :: r) ∧
      s'.m_last = s.m_last ∧ s'.m_size = s.m_size + 1 := by
  obtain ⟨obj, t, hget, ht⟩ := h.getFree hfresh v
  obtain ⟨o, s', ho, hprog, hnodes, hlast, hsize⟩ := h.linkBehind ht (w := t) rfl rfl rfl rfl
  rw [ht.last, ite_self] at hlast
  refine ⟨s', obj, ?_, hnodes, hlast, hsize⟩
  unfold LinkedList.addAt
  rw [if_neg hv, hfirst]
  dsimp only
  rw [if_neg hi, hwalk, Option.bind_some, hget, Option.bind_some, ho, Option.bind_some]
  exact hprog

theorem insertIdx_behind (p r : List (Ptr × Option ν)) : (p ++ r).insertIdx p.length x = p ++ x :: r := by
  induction p with
  | nil => rfl
  | cons y p ih => exact congrArg (y :: ·) ih

theorem getLast?_insertIdx {k : ℕ} (hk : k < q.length) :
    ((q.insertIdx k x).map Prod.fst).getLast? = (q.map Prod.fst).getLast? := by
  have hsplit := insertIdx_behind (x := x) (q.take k) (q.drop k)
  rw [List.take_append_drop, List.length_take, Nat.min_eq_left hk.le] at hsplit
  have hrest : q.drop k ≠ [] := by simpa using hk
  have hmap : (q.drop k).map Prod.fst ≠ [] := by simpa using hk
  rw [hsplit, getLast?_behind, if_neg hrest]
  conv_rhs => rw [← List.take_append_drop k q, List.map_append]
  exact (List.getLast?_append_of_ne_nil _ hmap).symm

theorem addAt (h : s.Nodes q) (hfresh : s.mem fresh = none) (i : Word) (hv : v ≠ none) :
    ∃ s' obj, s.addAt fresh i v = some (true, s') ∧ s'.Nodes (q.insertIdx (min i.toNat q.length) (obj, v)) ∧
      s'.m_last = (if q = [] then some obj else s.m_last) ∧ s'.m_size = s.m_size + 1 := by
  have hfirst := h.first_eq
  by_cases hfront : q = [] ∨ i = 0
  · obtain ⟨s', obj, hadd, hnodes, hlast, hsize⟩ := h.addFirst hfresh v
    have hmin : min i.toNat q.length = 0 := by
      rcases hfront with rfl | rfl
      · exact Nat.min_zero _
      · exact Nat.zero_min _
    refine ⟨s', obj, ?_, ?_, hlast, hsize⟩
    · unfold LinkedList.addAt
      rw [if_neg hv]
      split
      · rw [hadd]
        rfl
      · rename_i hsome
        rw [hfirst] at hsome
        have hne : q ≠ [] := by
          rintro rfl
          cases hsome
        rw [if_pos (hfront.resolve_left hne), hadd]
        rfl
    · rw [hmin, List.insertIdx_zero]
      exact hnodes
  · obtain ⟨hne, hi⟩ := not_or.mp hfront
    obtain ⟨x, q, rfl⟩ := List.exists_cons_of_ne_nil hne
    obtain ⟨p, y, r, hsplit, hlen, hwalk⟩ := h.walk_spec (p := []) (i.toNat - 1) 0
    have hpos : i.toNat ≠ 0 := fun he => hi (BitVec.eq_of_toNat_eq he)
    have hlength := congrArg List.length hsplit
    rw [List.length_append, List.length_cons, List.length_cons] at hlength
    rw [hsplit] at h
    obtain ⟨s', obj, hadd, hnodes, hlast, hsize⟩ := h.addAt_behind hfresh hfirst hi hwalk hv
    refine ⟨s', obj, hadd, ?_, ?_, hsize⟩
    · have hmin : min i.toNat (x :: q).length = (p ++ [y]).length := by
        rw [List.length_cons, List.length_append, List.length_singleton]
        omega
      have hjoin : p ++ y :: (obj, v) :: r = p ++ [y] ++ (obj, v) :: r := List.append_cons ..
      rw [hmin, hsplit, List.append_cons p y r, insertIdx_behind, ← hjoin]
      exact hnodes
    · rw [if_neg hne, hlast]

section DeleteAll
variable {val : Option ν} {last : Option Ptr}

/-- What the loop of `deleteAll` leaves of the nodes behind a node that it keeps, and how many of them
it gives up. The node behind one that is given up is kept unseen, and all nodes behind `last` are lost
when that is given up. -/
def sweep [DecidableEq ν] (val : Option ν) (last : Option Ptr) : List (Ptr × Option ν) → List (Ptr × Option ν) × ℕ
  | [] => ([], 0)
  | [z] => if z.2 = val then ([], 1) else ([z], 0)
  | z :: w :: r =>
    if z.2 = val then
      if last = some z.1 then ([], 1)
      else (w :: (sweep val last r).1, (sweep val last r).2 + 1)
    else (z :: (sweep val last (w :: r)).1, (sweep val last (w :: r)).2)

/-- The node `z`, which is no longer linked, is given up, and the loop goes on behind `y`. -/
theorem deleteObj_free {t : LinkedList ν} {r' : List (Ptr × Option ν)} (h : s.Nodes (p ++ y :: z :: r))
    (hsub : r'.Sublist r) (ht : t.Nodes (p ++ y :: r')) (hfreed : t.m_freed = s.m_freed)
    (hvalue : ∀ b, valueIn t.mem b = valueIn s.mem b) :
    ∃ u, (({ t with m_size := t.m_size - 1 } : LinkedList ν).free z.1).bind (fun s =>
        (LinkedList.next s (some y.1)).map fun obj => (obj, s)) = some ((r'.map Prod.fst).head?, u) ∧
      u.Nodes (p ++ y :: r') ∧ u.m_size = t.m_size - 1 ∧ u.m_last = t.m_last := by
  have hnodes : ({ t with m_size := t.m_size - 1 } : LinkedList ν).Nodes (p ++ y :: r') :=
    ⟨ht.chain, ht.value, ht.nodup, ht.live, ht.room⟩
  have hnot := h.not_mem_of_unlinked hsub
  rw [← hfreed] at hnot
  have hnode : t.mem z.1 ≠ none := by
    rw [← valueIn_ne_none, hvalue, h.value z (by simp)]
    exact Option.some_ne_none _
  obtain ⟨u, hfree, hu, hgiven⟩ := hnodes.giveUp _ hnode hnot
  obtain ⟨o, ho, -⟩ := hu.exists_node (x := y) (by simp)
  have hnext := hu.next_eq
  rw [nextIn_eq ho] at hnext
  refine ⟨u, ?_, hu, hgiven.size, hgiven.last⟩
  rw [hfree, Option.bind_some, LinkedList.next, ho, Option.map_some, Option.map_some, hnext]

/-- The node `z` behind `y` is deleted. When it is the one that `m_last` names, the nodes behind it
are lost. -/
theorem deleteObj (h : s.Nodes (p ++ y :: z :: r)) :
    ∃ s' r', s.deleteObj (some y.1) z.1 (r.map Prod.fst).head? = some ((r'.map Prod.fst).head?, s') ∧
      s'.Nodes (p ++ y :: r') ∧ s'.m_size = s.m_size - 1 ∧
      (r' = if s.m_last = some z.1 then [] else r) ∧
      s'.m_last = if s.m_last = some z.1 then some y.1 else s.m_last := by
  have hvy := h.value y (by simp)
  have hz := next_eq (p := p ++ [y]) (r := r) (y := z) (by simpa using h)
  have hchain := tail_chain (p := p ++ [y]) (r := r) (y := z) (by simpa using h)
  rw [hz] at hchain
  obtain ⟨t, hset, ht⟩ := setNext_linked hvy (r.map Prod.fst).head?
  unfold LinkedList.deleteObj
  dsimp only
  rw [hset, Option.bind_some, ht.last]
  by_cases hlast : s.m_last = some z.1
  · have hvt : valueIn t.mem y.1 = some y.2 := by rw [ht.value, hvy]
    obtain ⟨w, hset', hw⟩ := setNext_linked (s := { t with m_last := some y.1 }) hvt none
    have hvalue : ∀ b, valueIn w.mem b = valueIn s.mem b := fun b => (hw.value b).trans (ht.value b)
    have hnext : ∀ b, nextIn w.mem b = if b = y.1 then none else nextIn s.mem b := by
      intro b
      rw [hw.next, ht.next]
      split_ifs
      · rfl
      · rfl
    have hnodes : w.Nodes (p ++ y :: []) :=
      h.relinkAfter (List.nil_sublist _) rfl (hw.first.trans ht.first) (hw.freed.trans ht.freed) hnext hvalue
    obtain ⟨u, hfree, hu, hsize, hend⟩ :=
      h.deleteObj_free (List.nil_sublist r) hnodes (hw.freed.trans ht.freed) hvalue
    refine ⟨u, [], ?_, hu, ?_, ?_, ?_⟩
    · rw [if_pos hlast, Option.bind_some, hset', Option.bind_some]
      exact hfree
    · rw [hsize, hw.size]
      exact congrArg (· - 1) ht.size
    · rw [if_pos hlast]
    · rw [if_pos hlast, hend]
      exact hw.last
  · have hnodes : t.Nodes (p ++ y :: r) :=
      h.relinkAfter (List.sublist_cons_self z r) hchain ht.first ht.freed ht.next ht.value
    obtain ⟨u, hfree, hu, hsize, hend⟩ := h.deleteObj_free (List.Sublist.refl r) hnodes ht.freed ht.value
    refine ⟨u, r, ?_, hu, ?_, ?_, ?_⟩
    · rw [if_neg hlast, Option.bind_some]
      exact hfree
    · rw [hsize, ht.size]
    · rw [if_neg hlast]
    · rw [if_neg hlast, hend, ht.last]

/-- No node that is looked for is followed by another, nor named by `last` unless it is the last one. -/
def Sparse (val : Option ν) (last : Option Ptr) (q : List (Ptr × Option ν)) : Prop :=
  q.IsChain fun x y => x.2 = val → y.2 ≠ val ∧ last ≠ some x.1

theorem sparse_cons (hz : z.2 ≠ val) : Sparse val last (z :: r) ↔ Sparse val last r := by
  unfold Sparse
  cases r with
  | nil => simp
  | cons w r => simp [hz]

variable [DecidableEq ν]

theorem deleteAllLoop_keep (h : s.Nodes (p ++ y :: z :: r)) (hz : z.2 ≠ val) (fuel : ℕ) :
    deleteAllLoop val (fuel + 1) s (some y.1) (some z.1) =
      deleteAllLoop val fuel s (some z.1) (r.map Prod.fst).head? := by
  obtain ⟨o, ho, hv⟩ := h.exists_node (x := z) (by simp)
  have hnext := next_eq (p := p ++ [y]) (r := r) (y := z) (by simpa using h)
  rw [nextIn_eq ho] at hnext
  rw [deleteAllLoop, ho, Option.bind_some, if_neg (hv ▸ hz), Option.bind_some]
  dsimp only
  rw [LinkedList.next, ho, Option.map_some, Option.bind_some, hnext]

theorem deleteAllLoop_delete (h : s.Nodes (p ++ y :: z :: r)) (hz : z.2 = val) (fuel : ℕ) :
    ∃ s' r', deleteAllLoop val (fuel + 1) s (some y.1) (some z.1) =
        deleteAllLoop val fuel s' (r'.map Prod.fst).head? (r'.tail.map Prod.fst).head? ∧
      s'.Nodes (p ++ y :: r') ∧ s'.m_size = s.m_size - 1 ∧
      (r' = if s.m_last = some z.1 then [] else r) ∧
      s'.m_last = if s.m_last = some z.1 then some y.1 else s.m_last := by
  obtain ⟨o, ho, hv⟩ := h.exists_node (x := z) (by simp)
  have hnext := next_eq (p := p ++ [y]) (r := r) (y := z) (by simpa using h)
  rw [nextIn_eq ho] at hnext
  obtain ⟨s', r', hdelete, hnodes, hrest⟩ := h.deleteObj
  refine ⟨s', r', ?_, hnodes, hrest⟩
  rw [deleteAllLoop, ho, Option.bind_some, if_pos (hv.trans hz), hnext, hdelete, Option.bind_some]
  dsimp only
  cases r' with
  | nil => rfl
  | cons w r' =>
    obtain ⟨o', ho', -⟩ := hnodes.exists_node (x := w) (by simp)
    have hbehind := next_eq (p := p ++ [y]) (r := r') (y := w) (by simpa using hnodes)
    rw [nextIn_eq ho'] at hbehind
    rw [List.map_cons, List.head?_cons, LinkedList.next, ho', Option.map_some, Option.bind_some, hbehind]
    rfl

theorem deleteAllLoop (h : s.Nodes (p ++ y :: r)) (hlast : s.m_last = last) {fuel : ℕ} (hfuel : r.length < fuel) :
    ∃ s', deleteAllLoop val fuel s (some y.1) (r.map Prod.fst).head? = some s' ∧
      s'.Nodes (p ++ y :: (sweep val last r).1) ∧
      s'.m_size = s.m_size - BitVec.ofNat 32 (sweep val last r).2 ∧
      (last = ((p ++ y :: r).map Prod.fst).getLast? →
        s'.m_last = ((p ++ y :: (sweep val last r).1).map Prod.fst).getLast?) := by
  have hjoin : ∀ (p l : List (Ptr × Option ν)) y, p ++ [y] ++ l = p ++ y :: l := fun _ _ _ =>
    (List.append_cons ..).symm
  -- the number of nodes that are given up grows by one
  have hcount : ∀ (w : Word) n, w - 1 - BitVec.ofNat 32 n = w - BitVec.ofNat 32 (n + 1) := by
    intro w n
    rw [← ofNat_succ, BitVec.add_comm, BitVec.sub_sub]
  obtain ⟨fuel, rfl⟩ := Nat.exists_eq_succ_of_ne_zero (Nat.ne_of_gt (Nat.zero_lt_of_lt hfuel))
  induction r using sweep.induct val last generalizing s p y fuel with
  | case1 => exact ⟨s, rfl, h, (BitVec.sub_zero _).symm, fun hend => hlast.trans hend⟩
  | case2 z hz =>
    -- the last node is given up
    obtain ⟨s', r', hloop, hnodes, hsize, hr', hend⟩ := h.deleteAllLoop_delete hz fuel
    rw [ite_self] at hr'
    rw [List.length_singleton] at hfuel
    obtain ⟨fuel, rfl⟩ := Nat.exists_eq_succ_of_ne_zero (by omega : fuel ≠ 0)
    rw [hr'] at hloop hnodes
    rw [sweep, if_pos hz]
    refine ⟨s', hloop, hnodes, hsize, fun hfinal => ?_⟩
    rw [← hjoin, getLast?_behind, if_pos rfl] at hfinal
    rw [getLast?_behind, if_pos rfl, hend, hlast, if_pos hfinal]
  | case3 z hz =>
    rw [List.length_singleton] at hfuel
    obtain ⟨fuel, rfl⟩ := Nat.exists_eq_succ_of_ne_zero (by omega : fuel ≠ 0)
    have hkeep := h.deleteAllLoop_keep hz (fuel + 1)
    rw [sweep, if_neg hz]
    exact ⟨s, hkeep, h, (BitVec.sub_zero _).symm, fun hend => hlast.trans hend⟩
  | case4 z w r hz hzl =>
    -- the nodes from `w` on are lost, and `last` is not the last of all
    obtain ⟨s', r', hloop, hnodes, hsize, hr', hend⟩ := h.deleteAllLoop_delete hz fuel
    rw [hlast, if_pos hzl] at hr' hend
    rw [List.length_cons] at hfuel
    obtain ⟨fuel, rfl⟩ := Nat.exists_eq_succ_of_ne_zero (by omega : fuel ≠ 0)
    rw [hr'] at hloop hnodes
    rw [sweep, if_pos hz, if_pos hzl]
    refine ⟨s', hloop, hnodes, hsize, fun _ => ?_⟩
    rw [getLast?_behind, if_pos rfl, hend]
  | case5 z w r hz hzl ih =>
    obtain ⟨s', r', hloop, hnodes, hsize, hr', hend⟩ := h.deleteAllLoop_delete hz fuel
    rw [hlast, if_neg hzl] at hr' hend
    rw [hr'] at hloop hnodes
    rw [← hjoin] at hnodes
    rw [List.length_cons, List.length_cons] at hfuel
    obtain ⟨fuel, rfl⟩ := Nat.exists_eq_succ_of_ne_zero (by omega : fuel ≠ 0)
    obtain ⟨u, hrest, hu, husize, huend⟩ := ih hnodes hend fuel (by omega)
    rw [sweep, if_pos hz, if_neg hzl]
    refine ⟨u, hloop.trans hrest, hjoin p _ y ▸ hu, ?_, fun hfinal => ?_⟩
    · rw [husize, hsize, hcount]
    · rw [← hjoin, ← hjoin, getLast?_behind] at hfinal
      have hu' := huend (by rw [getLast?_behind, hfinal])
      rw [← hjoin]
      exact hu'
  | case6 z w r hz ih =>
    have hkeep := h.deleteAllLoop_keep hz fuel
    rw [List.length_cons] at hfuel
    obtain ⟨fuel, rfl⟩ := Nat.exists_eq_succ_of_ne_zero (by omega : fuel ≠ 0)
    rw [← hjoin] at h
    obtain ⟨u, hrest, hu, husize, huend⟩ := ih h hlast fuel (by omega)
    rw [sweep, if_neg hz]
    refine ⟨u, hkeep.trans hrest, hjoin p _ y ▸ hu, husize, fun hfinal => ?_⟩
    rw [← hjoin] at hfinal ⊢
    exact huend hfinal

/-- Where the nodes are sparse, the loop keeps those that are not looked for, and gives up the others. -/
theorem sweep_of_sparse (h : Sparse val last r) : (sweep val last r).1 = r.filter (fun x => x.2 ≠ val) ∧
    (sweep val last r).1.length + (sweep val last r).2 = r.length := by
  induction r using sweep.induct val last with
  | case1 => exact ⟨rfl, rfl⟩
  | case2 z hz => simp [sweep, hz]
  | case3 z hz => simp [sweep, hz]
  | case4 z w r hz hzl => exact absurd hzl ((List.isChain_cons_cons.mp h).1 hz).2
  | case5 z w r hz hzl ih =>
    have hw := (List.isChain_cons_cons.mp h).1 hz
    obtain ⟨hkept, hlen⟩ := ih ((sparse_cons hw.1).mp (List.isChain_cons_cons.mp h).2)
    rw [sweep, if_pos hz, if_neg hzl]
    constructor
    · simp [hz, hw.1, hkept]
    · simp only [List.length_cons]
      omega
  | case6 z w r hz ih =>
    obtain ⟨hkept, hlen⟩ := ih ((sparse_cons hz).mp h)
    rw [sweep, if_neg hz]
    constructor
    · rw [hkept, List.filter_cons_of_pos (a := z) (by simpa using hz)]
    · simp only [List.length_cons] at hlen ⊢
      omega

theorem sweep_length_le (r : List (Ptr × Option ν)) :
    (sweep val last r).1.length + (sweep val last r).2 ≤ r.length := by
  induction r using sweep.induct val last with
  | case1 => exact Nat.le_refl 0
  | case2 z hz => simp [sweep, hz]
  | case3 z hz => simp [sweep, hz]
  | case4 z w r hz hzl => simp [sweep, hz, hzl]
  | case5 z w r hz hzl ih =>
    simp only [sweep, hz, hzl, if_true, if_false, List.length_cons]
    omega
  | case6 z w r hz ih =>
    simp only [sweep, hz, if_false, List.length_cons] at ih ⊢
    omega

/-- The loop keeps no node that is looked for, and loses none, only if the nodes are sparse. -/
theorem sparse_of_sweep (hkept : ∀ x ∈ (sweep val last r).1, x.2 ≠ val)
    (hlen : (sweep val last r).1.length + (sweep val last r).2 = r.length) : Sparse val last r := by
  induction r using sweep.induct val last with
  | case1 => exact List.isChain_nil
  | case2 z hz => exact List.isChain_singleton z
  | case3 z hz => exact List.isChain_singleton z
  | case4 z w r hz hzl =>
    rw [sweep, if_pos hz, if_pos hzl] at hlen
    simp only [List.length_nil, List.length_cons] at hlen
    omega
  | case5 z w r hz hzl ih =>
    rw [sweep, if_pos hz, if_neg hzl] at hkept hlen
    have hw := hkept w List.mem_cons_self
    have hr := ih (fun x hx => hkept x (List.mem_cons_of_mem w hx)) (by
      simp only [List.length_cons] at hlen
      omega)
    exact List.isChain_cons_cons.mpr ⟨fun _ => ⟨hw, hzl⟩, (sparse_cons hw).mpr hr⟩
  | case6 z w r hz ih =>
    rw [sweep, if_neg hz] at hkept hlen
    have hr := ih (fun x hx => hkept x (List.mem_cons_of_mem z hx)) (by
      simp only [List.length_cons] at hlen ⊢
      omega)
    exact (sparse_cons hz).mpr hr

/-- Where the first node is looked for, the source follows the pointer `prev`, which is null. -/
theorem deleteAll_front (h : s.Nodes (y :: r)) (hy : y.2 = val) (fuel : ℕ) : s.deleteAll fuel val = none := by
  obtain ⟨o, ho, hv⟩ := h.exists_node List.mem_cons_self
  unfold LinkedList.deleteAll
  rw [h.first_eq, List.map_cons, List.head?_cons]
  dsimp only
  cases fuel with
  | zero => rfl
  | succ fuel =>
    rw [LinkedList.deleteAllLoop, ho, Option.bind_some, if_pos (hv.trans hy)]
    unfold LinkedList.deleteObj
    simp

theorem deleteAll (h : s.Nodes (y :: r)) (hy : y.2 ≠ val) {fuel : ℕ} (hfuel : (y :: r).length < fuel) :
    ∃ s', s.deleteAll fuel val = some s' ∧ s'.Nodes (y :: (sweep val s.m_last r).1) ∧
      s'.m_size = s.m_size - BitVec.ofNat 32 (sweep val s.m_last r).2 ∧
      (s.m_last = ((y :: r).map Prod.fst).getLast? →
        s'.m_last = ((y :: (sweep val s.m_last r).1).map Prod.fst).getLast?) := by
  obtain ⟨o, ho, hv⟩ := h.exists_node List.mem_cons_self
  have hnext := next_eq (p := []) h
  rw [nextIn_eq ho] at hnext
  rw [List.length_cons] at hfuel
  obtain ⟨fuel, rfl⟩ := Nat.exists_eq_succ_of_ne_zero (Nat.ne_of_gt (Nat.zero_lt_of_lt hfuel))
  obtain ⟨s', hloop, hrest⟩ := deleteAllLoop (p := []) h rfl (Nat.succ_lt_succ_iff.mp hfuel)
  refine ⟨s', ?_, hrest⟩
  unfold LinkedList.deleteAll
  rw [h.first_eq, List.map_cons, List.head?_cons]
  dsimp only
  rw [LinkedList.deleteAllLoop, ho, Option.bind_some, if_neg (hv ▸ hy), Option.bind_some]
  dsimp only
  rw [LinkedList.next, ho, Option.map_some, Option.bind_some, hnext, hloop]

end DeleteAll

/-- The loop of `deleteAt` stops before the number that is asked for, or at the last node. -/
theorem deleteAt_cases (h : s.Nodes q) (i : Word) :
    i.toNat < q.length ∨
      (q ≠ [] ∧ i.toNat = q.length ∧ ∃ s', s.deleteAt i = some (true, s') ∧ s'.Nodes []) ∨
      ((q = [] ∨ q.length < i.toNat) ∧ s.deleteAt i = some (false, s)) := by
  cases q with
  | nil =>
    refine Or.inr (Or.inr ⟨Or.inl rfl, ?_⟩)
    unfold LinkedList.deleteAt
    rw [h.first_eq]
    rfl
  | cons x q =>
    have hfirst := h.first_eq
    obtain ⟨p, y, r, hsplit, hlen, hwalk⟩ := h.walk_spec (p := []) (i.toNat - 1) 0
    have hlength := congrArg List.length hsplit
    rw [List.length_append, List.length_cons, List.length_cons] at hlength
    rw [Nat.zero_add] at hwalk
    rw [List.length_cons]
    rcases Nat.lt_trichotomy i.toNat (q.length + 1) with hlt | heq | hgt
    · exact Or.inl hlt
    · have hr : r = [] := List.eq_nil_of_length_eq_zero (by omega)
      have hp : i.toNat = p.length + 1 := by omega
      rw [hsplit, hr] at h
      exact Or.inr (Or.inl ⟨List.cons_ne_nil x q, heq, h.deleteAt_size hp hfirst hwalk⟩)
    · have hi : i ≠ 0 := by
        rintro rfl
        exact Nat.not_lt_zero _ hgt
      exact Or.inr (Or.inr ⟨Or.inr hgt, deleteAt_beyond hfirst hi hwalk (by omega)⟩)

theorem append (h : s.Nodes q) (hfresh : s.mem fresh = none) (happend : s.append fresh v = some s') :
    ∃ q', s'.Nodes q' := by
  cases hlast : s.m_last with
  | none =>
    obtain ⟨t, obj, hadd, hnodes, -⟩ := h.addFirst hfresh v
    unfold LinkedList.append at happend
    rw [hlast] at happend
    obtain rfl := Option.some.inj (hadd.symm.trans happend)
    exact ⟨_, hnodes⟩
  | some last =>
    by_cases hmem : last ∈ q.map Prod.fst
    · obtain ⟨y, hy, rfl⟩ := List.mem_map.mp hmem
      obtain ⟨p, r, rfl⟩ := List.append_of_mem hy
      obtain ⟨t, obj, hadd, hnodes, -⟩ := h.append_at hlast hfresh v
      obtain rfl := Option.some.inj (hadd.symm.trans happend)
      exact ⟨_, hnodes⟩
    · exact ⟨q, h.append_off hlast hmem hfresh happend⟩

theorem rotateFirstLast (h : s.Nodes q) (hrotate : s.rotateFirstLast = some s') : ∃ q', s'.Nodes q' := by
  cases q with
  | nil =>
    unfold LinkedList.rotateFirstLast at hrotate
    rw [h.first_eq] at hrotate
    obtain rfl := Option.some.inj hrotate
    exact ⟨[], h⟩
  | cons x q =>
    cases hlast : s.m_last with
    | none =>
      obtain ⟨o, ho, -⟩ := h.exists_node List.mem_cons_self
      unfold LinkedList.rotateFirstLast at hrotate
      rw [h.first_eq, List.map_cons, List.head?_cons, hlast] at hrotate
      dsimp only at hrotate
      rw [if_neg (Option.some_ne_none _), ho] at hrotate
      cases hrotate
    | some last =>
      by_cases hmem : last ∈ (x :: q).map Prod.fst
      · obtain ⟨y, hy, rfl⟩ := List.mem_map.mp hmem
        rcases List.mem_cons.mp hy with rfl | hy
        · -- the first node is the last one
          unfold LinkedList.rotateFirstLast at hrotate
          rw [h.first_eq, List.map_cons, List.head?_cons, hlast] at hrotate
          dsimp only at hrotate
          rw [if_pos rfl] at hrotate
          obtain rfl := Option.some.inj hrotate
          exact ⟨_, h⟩
        · obtain ⟨p, r, rfl⟩ := List.append_of_mem hy
          obtain ⟨t, hrotate', hnodes, -⟩ := h.rotate_at hlast
          obtain rfl := Option.some.inj (hrotate'.symm.trans hrotate)
          exact ⟨_, hnodes⟩
      · exact ⟨q, h.rotate_off hlast hmem hrotate⟩

theorem appendAfter (h : s.Nodes q) (hfresh : s.mem fresh = none) (i : Word) (hv : v ≠ none) :
    ∃ s' q', s.appendAfter fresh i v = some (true, s') ∧ s'.Nodes q' := by
  have hfirst := h.first_eq
  cases q with
  | nil =>
    obtain ⟨s', obj, hadd, hnodes, -⟩ := h.addFirst hfresh v
    unfold LinkedList.appendAfter
    rw [if_neg hv, hfirst]
    exact ⟨s', _, congrArg (Option.map _) hadd, hnodes⟩
  | cons x q =>
    obtain ⟨p, y, r, hsplit, hlen, hwalk⟩ := h.walk_spec (p := []) i.toNat 0
    rw [hsplit] at h
    obtain ⟨s', obj, happend, hnodes, -⟩ := h.appendAfter_behind hfresh hfirst hwalk hv
    exact ⟨s', _, happend, hnodes⟩

/-- Whatever `m_last` and `m_size` are, a call that returns leaves a list. -/
theorem op (h : s.Nodes q) (hfresh : s.mem fresh = none) {call : ListOp ν} {res : ListResult ν}
    (hexec : call.exec s fresh = some (res, s')) : ∃ q', s'.Nodes q' := by
  cases call with
  | addFirst val =>
    obtain ⟨t, hadd, ht⟩ := Option.map_eq_some_iff.mp hexec
    obtain ⟨-, rfl⟩ := Prod.mk.inj ht
    obtain ⟨u, obj, hadd', hnodes, -⟩ := h.addFirst hfresh val
    obtain rfl := Option.some.inj (hadd'.symm.trans hadd)
    exact ⟨_, hnodes⟩
  | append val =>
    obtain ⟨t, happend, ht⟩ := Option.map_eq_some_iff.mp hexec
    obtain ⟨-, rfl⟩ := Prod.mk.inj ht
    exact h.append hfresh happend
  | appendAfter i val =>
    obtain ⟨⟨b, t⟩, happend, ht⟩ := Option.map_eq_some_iff.mp hexec
    obtain ⟨-, rfl⟩ := Prod.mk.inj ht
    by_cases hval : val = none
    · have hno : s.appendAfter fresh i val = some (false, s) := if_pos hval
      obtain ⟨-, rfl⟩ := Prod.mk.inj (Option.some.inj (hno.symm.trans happend))
      exact ⟨q, h⟩
    · obtain ⟨u, q', happend', hnodes⟩ := h.appendAfter hfresh i hval
      obtain ⟨-, rfl⟩ := Prod.mk.inj (Option.some.inj (happend'.symm.trans happend))
      exact ⟨q', hnodes⟩
  | takeFirst =>
    obtain ⟨⟨b, t⟩, htake, ht⟩ := Option.map_eq_some_iff.mp hexec
    obtain ⟨-, rfl⟩ := Prod.mk.inj ht
    cases q with
    | nil =>
      have hno : s.takeFirst = some (none, s) := by
        unfold LinkedList.takeFirst
        rw [h.first_eq]
        rfl
      obtain ⟨-, rfl⟩ := Prod.mk.inj (Option.some.inj (hno.symm.trans htake))
      exact ⟨[], h⟩
    | cons x q =>
      obtain ⟨u, htake', hnodes, -⟩ := h.takeFirst
      obtain ⟨-, rfl⟩ := Prod.mk.inj (Option.some.inj (htake'.symm.trans htake))
      exact ⟨q, hnodes⟩
  | rotateFirstLast =>
    obtain ⟨t, hrotate, ht⟩ := Option.map_eq_some_iff.mp hexec
    obtain ⟨-, rfl⟩ := Prod.mk.inj ht
    exact h.rotateFirstLast hrotate
  | first =>
    obtain ⟨_, _, ht⟩ := Option.map_eq_some_iff.mp hexec
    exact ⟨q, (Prod.mk.inj ht).2 ▸ h⟩
  | last =>
    obtain ⟨_, _, ht⟩ := Option.map_eq_some_iff.mp hexec
    exact ⟨q, (Prod.mk.inj ht).2 ▸ h⟩
  | size => exact ⟨q, (Prod.mk.inj (Option.some.inj hexec)).2 ▸ h⟩
  | at' i =>
    obtain ⟨_, _, ht⟩ := Option.map_eq_some_iff.mp hexec
    exact ⟨q, (Prod.mk.inj ht).2 ▸ h⟩

variable [DecidableEq ν]

theorem edit (h : s.Nodes q) {call : ListEdit ν} (hstep : EditStep s call s') : ∃ q', s'.Nodes q' := by
  obtain ⟨fresh, hfresh, hexec⟩ := hstep
  cases call with
  | op call =>
    obtain ⟨⟨res, t⟩, hop, rfl⟩ := Option.map_eq_some_iff.mp hexec
    exact h.op hfresh hop
  | addAt i val =>
    obtain ⟨⟨res, t⟩, hadd, rfl⟩ := Option.map_eq_some_iff.mp hexec
    by_cases hval : val = none
    · have hno : s.addAt fresh i val = some (false, s) := if_pos hval
      obtain ⟨-, rfl⟩ := Prod.mk.inj (Option.some.inj (hno.symm.trans hadd))
      exact ⟨q, h⟩
    · obtain ⟨u, obj, hadd', hnodes, -⟩ := h.addAt hfresh i hval
      obtain ⟨-, rfl⟩ := Prod.mk.inj (Option.some.inj (hadd'.symm.trans hadd))
      exact ⟨_, hnodes⟩
  | deleteAt i =>
    obtain ⟨⟨res, t⟩, hdelete, rfl⟩ := Option.map_eq_some_iff.mp hexec
    rcases h.deleteAt_cases i with hi | ⟨-, -, u, hdelete', hnodes⟩ | ⟨-, hdelete'⟩
    · obtain ⟨u, hdelete', hnodes, -⟩ := h.deleteAt hi
      obtain ⟨-, rfl⟩ := Prod.mk.inj (Option.some.inj (hdelete'.symm.trans hdelete))
      exact ⟨_, hnodes⟩
    · obtain ⟨-, rfl⟩ := Prod.mk.inj (Option.some.inj (hdelete'.symm.trans hdelete))
      exact ⟨_, hnodes⟩
    · obtain ⟨-, rfl⟩ := Prod.mk.inj (Option.some.inj (hdelete'.symm.trans hdelete))
      exact ⟨q, h⟩
  | deleteAll val =>
    have hdelete : s.deleteAll ADDRESSES val = some s' := hexec
    cases q with
    | nil =>
      unfold LinkedList.deleteAll at hdelete
      rw [h.first_eq] at hdelete
      obtain rfl := Option.some.inj hdelete
      exact ⟨[], h⟩
    | cons y r =>
      by_cases hy : y.2 = val
      · rw [h.deleteAll_front hy] at hdelete
        cases hdelete
      · obtain ⟨u, hdelete', hnodes, -⟩ := h.deleteAll hy h.length_lt
        obtain rfl := Option.some.inj (hdelete'.symm.trans hdelete)
        exact ⟨_, hnodes⟩

end Nodes

section Laws

theorem nodes_of_reachable [DecidableEq ν] (h : Reachable EditStep (· = new) s) : ∃ q, s.Nodes q := by
  apply h.invariant
  · rintro s rfl
    exact ⟨[], represents_new.nodes⟩
  · rintro s call s' ⟨q, hq⟩ hstep
    exact hq.edit hstep

/-- `addAt` brings the value in at position `i`, or at the end, and a call of `append` after it
loses no value. -/
def AddAtLaw (s : LinkedList ν) (q : List (Ptr × Option ν)) (fresh : Ptr) (i : Word) (val : ν) : Prop :=
  ∃ s' q', s.addAt fresh i (some val) = some (true, s') ∧ s'.Nodes q' ∧
    q'.map Prod.snd = (q.map Prod.snd).insertIdx (min i.toNat q.length) (some val) ∧
    s'.size = s.size + 1 ∧ s'.m_last = (q'.map Prod.fst).getLast? ∧
    s'.last = some (q'.map Prod.snd).getLast?.join ∧
    ∀ fresh' v, s'.mem fresh' = none → ∃ t q'', s'.append fresh' v = some t ∧ t.Nodes q'' ∧
      q''.map Prod.snd = q'.map Prod.snd ++ [v]

/-- `deleteAt` takes out position `i`, if there is one. The size and the end fit the nodes afterwards
where they fit before. -/
def DeleteAtLaw (s : LinkedList ν) (q : List (Ptr × Option ν)) (i : Word) : Prop :=
  ∃ s' q', s.deleteAt i = some (decide (i.toNat < q.length), s') ∧ s'.Nodes q' ∧
    q'.map Prod.snd = (q.map Prod.snd).eraseIdx i.toNat ∧
    s'.first = some (q'.map Prod.snd).head?.join ∧
    (s.m_size = BitVec.ofNat 32 q.length → s'.m_size = BitVec.ofNat 32 q'.length) ∧
    (s.m_last = (q.map Prod.fst).getLast? → s'.m_last = (q'.map Prod.fst).getLast?) ∧
    (q.length ≤ i.toNat → s' = s)

/-- `deleteAll` takes out the value wherever it is. The size falls by what is taken out, and the end
is the last node afterwards where it is before. -/
def DeleteAllLaw [DecidableEq ν] (s : LinkedList ν) (q : List (Ptr × Option ν)) (val : Option ν) : Prop :=
  ∀ fuel, q.length < fuel → ∃ s' q', s.deleteAll fuel val = some s' ∧ s'.Nodes q' ∧
    q'.map Prod.snd = (q.map Prod.snd).filter (· ≠ val) ∧
    s'.first = some (q'.map Prod.snd).head?.join ∧
    s'.m_size = s.m_size - BitVec.ofNat 32 (q.length - q'.length) ∧
    (s.m_last = (q.map Prod.fst).getLast? → s'.m_last = (q'.map Prod.fst).getLast?)

theorem addAtLaw_of (h : s.Nodes q) (hlast : s.m_last = (q.map Prod.fst).getLast?) (hfresh : s.mem fresh = none)
    {i : Word} (val : ν) (hi : q = [] ∨ i.toNat < q.length) : AddAtLaw s q fresh i val := by
  obtain ⟨s', obj, hadd, hnodes, hend, hsize⟩ := h.addAt hfresh i (Option.some_ne_none val)
  have hfinal : s'.m_last = ((q.insertIdx (min i.toNat q.length) (obj, some val)).map Prod.fst).getLast? := by
    rw [hend]
    by_cases hne : q = []
    · rw [if_pos hne, hne, List.length_nil, Nat.min_zero]
      rfl
    · have hlt := hi.resolve_left hne
      rw [if_neg hne, Nat.min_eq_left hlt.le, getLast?_insertIdx hlt, hlast]
  refine ⟨s', _, hadd, hnodes, List.map_insertIdx .., hsize, hfinal, hnodes.last_value hfinal,
    fun fresh' v hfresh' => ?_⟩
  rcases List.eq_nil_or_concat' (q.insertIdx (min i.toNat q.length) (obj, some val)) with hnil | ⟨p, y, hp⟩
  · have hlen := congrArg List.length hnil
    rw [List.length_insertIdx_of_le_length (Nat.min_le_right ..)] at hlen
    cases hlen
  · rw [hp] at hnodes hfinal ⊢
    rw [getLast?_behind, if_pos rfl] at hfinal
    obtain ⟨t, obj', happend, ht, -⟩ := hnodes.append_at hfinal hfresh' v
    refine ⟨t, _, happend, ht, ?_⟩
    simp

/-- At the end, and behind it, the new node is not what `m_last` names. -/
theorem not_addAtLaw (h : s.Nodes q) (hlast : s.m_last = (q.map Prod.fst).getLast?) (hfresh : s.mem fresh = none)
    {i : Word} (val : ν) (hne : q ≠ []) (hi : q.length ≤ i.toNat) : ¬ AddAtLaw s q fresh i val := by
  rintro ⟨s', q', hadd, hnodes, -, -, hend, -⟩
  obtain ⟨t, obj, hadd', ht, htlast, -⟩ := h.addAt hfresh i (Option.some_ne_none val)
  obtain ⟨-, rfl⟩ := Prod.mk.inj (Option.some.inj (hadd'.symm.trans hadd))
  rw [Nat.min_eq_right hi, List.insertIdx_length_self] at ht
  obtain ⟨p, y, rfl⟩ := (List.eq_nil_or_concat' q).resolve_left hne
  rw [hnodes.unique ht, htlast, if_neg hne, hlast, getLast?_behind, getLast?_behind, if_pos rfl, if_pos rfl] at hend
  have hy : y.1 ≠ obj := by
    apply ne_middle (p := p ++ [y]) (y := (obj, some val)) ht
    simp
  exact hy (Option.some.inj hend)

theorem deleteAtLaw_of (h : s.Nodes q) {i : Word} (hi : i.toNat ≠ q.length ∨ q = []) : DeleteAtLaw s q i := by
  rcases h.deleteAt_cases i with hlt | ⟨hne, heq, -⟩ | ⟨hout, hdelete⟩
  · obtain ⟨s', hdelete, hnodes, hlast, hsize⟩ := h.deleteAt hlt
    refine ⟨s', _, ?_, hnodes, (List.eraseIdx_map ..).symm, hnodes.first, fun hfit => ?_, hlast,
      fun hle => absurd hlt (Nat.not_lt.mpr hle)⟩
    · rw [decide_eq_true hlt]
      exact hdelete
    · have hlen : q.length = (q.eraseIdx i.toNat).length + 1 := by
        rw [List.length_eraseIdx_of_lt hlt]
        omega
      rcases hsize with hsize | ⟨hone, hsize⟩
      · rw [hsize, hfit, hlen, ofNat_pred]
      · have hzero : (q.eraseIdx i.toNat).length = 0 := by omega
        rw [hsize, hzero]
        rfl
  · exact absurd heq (hi.resolve_right hne)
  · have hle : q.length ≤ i.toNat := by
      rcases hout with rfl | hlt
      · exact Nat.zero_le _
      · exact hlt.le
    refine ⟨s, q, ?_, h, ?_, h.first, id, id, fun _ => rfl⟩
    · rw [decide_eq_false (Nat.not_lt.mpr hle)]
      exact hdelete
    · rw [List.eraseIdx_of_length_le (by rw [List.length_map]; exact hle)]

/-- With the number behind the last node, `deleteAt` reports that it has deleted a node. -/
theorem not_deleteAtLaw (h : s.Nodes q) {i : Word} (hne : q ≠ []) (hi : i.toNat = q.length) :
    ¬ DeleteAtLaw s q i := by
  rintro ⟨s', q', hdelete, -⟩
  rcases h.deleteAt_cases i with hlt | ⟨-, -, t, hdelete', -⟩ | ⟨hnil | hlt, -⟩
  · exact absurd hi hlt.ne
  · have hres := (Prod.mk.inj (Option.some.inj (hdelete'.symm.trans hdelete))).1
    rw [hi, decide_eq_false (Nat.lt_irrefl _)] at hres
    cases hres
  · exact hne hnil
  · exact absurd hi hlt.ne'

variable [DecidableEq ν] {val : Option ν}

theorem deleteAllLaw_of (h : s.Nodes q) (hfirst : ∀ x ∈ q.head?, x.2 ≠ val) (hsparse : Sparse val s.m_last q) :
    DeleteAllLaw s q val := by
  intro fuel hfuel
  cases q with
  | nil =>
    refine ⟨s, [], ?_, h, rfl, h.first, (BitVec.sub_zero _).symm, id⟩
    unfold LinkedList.deleteAll
    rw [h.first_eq]
    rfl
  | cons y r =>
    have hy : y.2 ≠ val := hfirst y rfl
    obtain ⟨hkept, hlen⟩ := sweep_of_sparse ((sparse_cons hy).mp hsparse)
    obtain ⟨s', hdelete, hnodes, hsize, hlast⟩ := h.deleteAll hy hfuel
    refine ⟨s', _, hdelete, hnodes, ?_, hnodes.first, ?_, hlast⟩
    · rw [hkept, List.filter_map, List.filter_cons_of_pos (a := y) (by simpa using hy)]
      rfl
    · have hcount : (y :: r).length - (y :: (sweep val s.m_last r).1).length = (sweep val s.m_last r).2 := by
        simp only [List.length_cons]
        omega
      rw [hsize, hcount]

theorem sparse_of_deleteAllLaw (h : s.Nodes q) (hlaw : DeleteAllLaw s q val) :
    (∀ x ∈ q.head?, x.2 ≠ val) ∧ Sparse val s.m_last q := by
  obtain ⟨s', q', hdelete, hnodes, hvalues, -, hsize, -⟩ := hlaw (q.length + 1) (Nat.lt_succ_self _)
  cases q with
  | nil => exact ⟨fun x hx => absurd hx (Option.not_mem_none x), List.isChain_nil⟩
  | cons y r =>
    have hlt := h.length_lt
    by_cases hy : y.2 = val
    · rw [h.deleteAll_front hy] at hdelete
      cases hdelete
    · obtain ⟨t, hdelete', ht, htsize, -⟩ := h.deleteAll hy (Nat.lt_succ_self _)
      obtain rfl := Option.some.inj (hdelete'.symm.trans hdelete)
      rw [hnodes.unique ht] at hvalues hsize
      have hle : (sweep val s.m_last r).1.length + (sweep val s.m_last r).2 ≤ r.length := sweep_length_le r
      have hkept : ∀ x ∈ (sweep val s.m_last r).1, x.2 ≠ val := by
        intro x hx
        have hmem : x.2 ∈ ((y :: r).map Prod.snd).filter (· ≠ val) := by
          rw [← hvalues]
          exact List.mem_map_of_mem (List.mem_cons_of_mem y hx)
        simpa using (List.mem_filter.mp hmem).2
      have hcount := congrArg BitVec.toNat ((BitVec.sub_right_inj _).mp (htsize.symm.trans hsize))
      rw [List.length_cons] at hlt
      rw [List.length_cons, List.length_cons, BitVec.toNat_ofNat, BitVec.toNat_ofNat, Nat.mod_eq_of_lt (by omega),
        Nat.mod_eq_of_lt (by omega)] at hcount
      refine ⟨fun x hx => ?_, (sparse_cons hy).mpr (sparse_of_sweep hkept (by omega))⟩
      rw [← Option.mem_some.mp hx]
      exact hy

end Laws

def oneNode : LinkedList ℕ :=
  ⟨Function.update (fun _ => none) ⟨8, by decide⟩ (some ⟨none, some 1⟩), some ⟨8, by decide⟩,
    some ⟨8, by decide⟩, 1, []⟩

theorem reachable_oneNode : Reachable EditStep (· = new) oneNode :=
  .snoc (.start rfl) ⟨⟨8, by decide⟩, rfl, (rfl : ListEdit.exec new _ (.op (.append (some 1))) = some oneNode)⟩

theorem represents_oneNode : oneNode.Represents [(⟨8, by decide⟩, some 1)] where
  chain := ⟨rfl, rfl⟩
  last := rfl
  size := rfl
  value x hx := by
    rw [List.mem_singleton.mp hx]
    rfl
  nodup := List.nodup_singleton _
  live a ha := absurd ha List.not_mem_nil
  room := Nat.zero_lt_succ 31

section Calls
variable [DecidableEq ν]

/-- In every list that the calls lead to, and whose end is its last node, `addAt` obeys its law exactly
in front of a node, or in an empty list. -/
theorem addAt_iff (h : Reachable EditStep (· = new) s) :
    ∃ q, s.Nodes q ∧ (s.m_last = (q.map Prod.fst).getLast? → ∀ fresh i (val : ν), s.mem fresh = none →
      (AddAtLaw s q fresh i val ↔ q = [] ∨ i.toNat < q.length)) := by
  obtain ⟨q, hq⟩ := nodes_of_reachable h
  refine ⟨q, hq, fun hlast fresh i val hfresh => ?_⟩
  constructor
  · intro hlaw
    by_contra hcond
    obtain ⟨hne, hi⟩ := not_or.mp hcond
    exact not_addAtLaw hq hlast hfresh val hne (Nat.not_lt.mp hi) hlaw
  · exact addAtLaw_of hq hlast hfresh val

theorem addAt_iff_oneNode : ∃ q, oneNode.Nodes q ∧
    (AddAtLaw oneNode q ⟨16, by decide⟩ 0 2 ↔ q = [] ∨ (0 : Word).toNat < q.length) := by
  obtain ⟨q, hq, hiff⟩ := addAt_iff reachable_oneNode
  refine ⟨q, hq, hiff ?_ _ _ _ rfl⟩
  rw [hq.unique represents_oneNode.nodes]
  rfl

/-- The value that is added at the end is not the last one for the class. -/
theorem addAt_at_end : ∃ q, Reachable EditStep (· = new) oneNode ∧ oneNode.Nodes q ∧
    oneNode.m_last = (q.map Prod.fst).getLast? ∧ ¬ AddAtLaw oneNode q ⟨16, by decide⟩ 1 2 :=
  ⟨_, reachable_oneNode, represents_oneNode.nodes, rfl,
    not_addAtLaw represents_oneNode.nodes rfl rfl 2 (List.cons_ne_nil _ _) (by decide)⟩

/-- In every list that the calls lead to, `deleteAt` obeys its law exactly for the positions other than
the one behind the last node. -/
theorem deleteAt_iff (h : Reachable EditStep (· = new) s) :
    ∃ q, s.Nodes q ∧ ∀ i, DeleteAtLaw s q i ↔ i.toNat ≠ q.length ∨ q = [] := by
  obtain ⟨q, hq⟩ := nodes_of_reachable h
  refine ⟨q, hq, fun i => ?_⟩
  constructor
  · intro hlaw
    by_contra hcond
    obtain ⟨hi, hne⟩ := not_or.mp hcond
    exact not_deleteAtLaw hq hne (not_not.mp hi) hlaw
  · exact deleteAtLaw_of hq

theorem deleteAt_iff_oneNode : ∃ q, oneNode.Nodes q ∧
    ∀ i, DeleteAtLaw oneNode q i ↔ i.toNat ≠ q.length ∨ q = [] :=
  deleteAt_iff reachable_oneNode

/-- The position behind the only node is reported as deleted, and the list is empty. -/
theorem deleteAt_at_end : ∃ q, Reachable EditStep (· = new) oneNode ∧ oneNode.Represents q ∧
    ¬ DeleteAtLaw oneNode q 1 :=
  ⟨_, reachable_oneNode, represents_oneNode,
    not_deleteAtLaw represents_oneNode.nodes (List.cons_ne_nil _ _) (by decide)⟩

/-- In every list that the calls lead to, `deleteAll` obeys its law exactly if the first node is not
looked for, no two neighbours are, and `m_last` names no other node than the last that is. -/
theorem deleteAll_iff (h : Reachable EditStep (· = new) s) :
    ∃ q, s.Nodes q ∧ ∀ val : Option ν,
      (DeleteAllLaw s q val ↔ (∀ x ∈ q.head?, x.2 ≠ val) ∧ Sparse val s.m_last q) := by
  obtain ⟨q, hq⟩ := nodes_of_reachable h
  refine ⟨q, hq, fun val => ?_⟩
  constructor
  · exact sparse_of_deleteAllLaw hq
  · rintro ⟨hfirst, hsparse⟩
    exact deleteAllLaw_of hq hfirst hsparse

theorem deleteAll_iff_oneNode : ∃ q, oneNode.Nodes q ∧ ∀ val : Option ℕ,
    (DeleteAllLaw oneNode q val ↔ (∀ x ∈ q.head?, x.2 ≠ val) ∧ Sparse val oneNode.m_last q) :=
  deleteAll_iff reachable_oneNode

/-- To delete the first value, the source follows a null pointer. -/
theorem deleteAll_at_front : ∃ q, Reachable EditStep (· = new) oneNode ∧ oneNode.Represents q ∧
    ¬ DeleteAllLaw oneNode q (some 1) := by
  refine ⟨_, reachable_oneNode, represents_oneNode, fun hlaw => ?_⟩
  exact (sparse_of_deleteAllLaw represents_oneNode.nodes hlaw).1 _ rfl rfl

end Calls

end CxxKernel.Containers.LinkedList
