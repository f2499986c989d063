import CxxKernel.Containers.Nodes
import CxxKernel.Lib.Runs

/-! A `LinkedList` is the sequence of the values in its chain of nodes. -/
namespace CxxKernel.Containers.LinkedList
open LinkedChain Runs

variable {ν : Type} {s s' : LinkedList ν} {a b fresh : Ptr} {v : Option ν} {q : List (Ptr × Option ν)}
  {x : Ptr × Option ν}

theorem represents_new : (new : LinkedList ν).Represents [] :=
  ⟨rfl, rfl, rfl, fun _ h => absurd h List.not_mem_nil, List.nodup_nil,
    fun _ h => absurd h List.not_mem_nil, Nat.zero_lt_succ 31⟩

theorem ofNat_succ (n : ℕ) : BitVec.ofNat 32 n + 1 = BitVec.ofNat 32 (n + 1) :=
  (BitVec.ofNat_add n 1).symm

theorem ofNat_pred (n : ℕ) : BitVec.ofNat 32 (n + 1) - 1 = BitVec.ofNat 32 n := by
  rw [← ofNat_succ]
  exact BitVec.add_sub_cancel ..

namespace Represents
open Nodes (getLast?_behind)

theorem first_eq (h : s.Represents q) : s.m_first = (q.map Prod.fst).head? := h.chain.start_eq

theorem addFirst (h : s.Represents q) (hfresh : s.mem fresh = none) (v : Option ν) :
    ∃ s' obj, s.addFirst fresh v = some s' ∧ s'.Represents ((obj, v) :: q) := by
  obtain ⟨s', obj, hadd, hnodes, hlast, hsize⟩ := h.nodes.addFirst hfresh v
  refine ⟨s', obj, hadd, hnodes.represents ?_ ?_⟩
  · rw [hlast, h.last]
    cases q with
    | nil => rfl
    | cons x q => exact List.getLast?_cons_cons.symm
  · rw [hsize, h.size, ofNat_succ, List.length_cons]

theorem append (h : s.Represents q) (hfresh : s.mem fresh = none) (v : Option ν) :
    ∃ s' obj, s.append fresh v = some s' ∧ s'.Represents (q ++ [(obj, v)]) := by
  have hlast := h.last
  rcases List.eq_nil_or_concat' q with rfl | ⟨q, y, rfl⟩
  · unfold LinkedList.append
    rw [hlast]
    exact h.addFirst hfresh v
  · rw [getLast?_behind, if_pos rfl] at hlast
    obtain ⟨s', obj, happend, hnodes, hlast', hsize⟩ := h.nodes.append_at hlast hfresh v
    have hsplit : q ++ [y] ++ [(obj, v)] = q ++ y :: [(obj, v)] := List.append_assoc ..
    refine ⟨s', obj, happend, hsplit ▸ hnodes.represents ?_ ?_⟩
    · rw [hlast', ← hsplit, getLast?_behind, if_pos rfl]
    · have hlen : (q ++ [y] ++ [(obj, v)]).length = (q ++ [y]).length + 1 := by
        rw [List.length_append, List.length_singleton]
      rw [hsize, h.size, ofNat_succ, ← hsplit, hlen]

theorem appendAfter (h : s.Represents q) (hfresh : s.mem fresh = none) (i : Word) (v : Option ν)
    (hv : v ≠ none) : ∃ s' obj, s.appendAfter fresh i v = some (true, s') ∧
      s'.Represents (q.take (min i.toNat (q.length - 1) + 1) ++
        (obj, v) :: q.drop (min i.toNat (q.length - 1) + 1)) := by
  have hfirst := h.first_eq
  cases q with
  | nil =>
    unfold LinkedList.appendAfter
    rw [if_neg hv, hfirst]
    obtain ⟨s', obj, hadd, hs'⟩ := h.addFirst hfresh v
    exact ⟨s', obj, congrArg (Option.map _) hadd, by simpa using hs'⟩
  | cons x q =>
    obtain ⟨p, y, r, hsplit, hlen, hwalk⟩ := h.nodes.walk_spec (p := []) i.toNat 0
    have hmin : min i.toNat ((x :: q).length - 1) + 1 = (p ++ [y]).length := by
      rw [List.length_cons, Nat.add_sub_cancel, ← hlen, List.length_append]
      rfl
    have hcons : x :: q = (p ++ [y]) ++ r := by
      rw [hsplit, List.append_assoc]
      rfl
    rw [hmin, hcons, List.take_left, List.drop_left]
    rw [hsplit] at h
    obtain ⟨s', obj, happend, hnodes, hlast, hsize⟩ := h.nodes.appendAfter_behind hfresh hfirst hwalk hv
    have hjoin : p ++ [y] ++ (obj, v) :: r = p ++ y :: (obj, v) :: r := List.append_assoc ..
    refine ⟨s', obj, happend, hjoin ▸ hnodes.represents ?_ ?_⟩
    · rw [hlast, h.last, ← hjoin, getLast?_behind, getLast?_behind]
      split_ifs
      · rfl
      · rfl
    · rw [hsize, h.size, ofNat_succ]
      simp only [List.length_append, List.length_cons]
      rfl

theorem takeFirst (h : s.Represents (x :: q)) :
    ∃ s', s.takeFirst = some (x.2, s') ∧ s'.Represents q := by
  obtain ⟨s', htake, hnodes, hlast, hsize⟩ := h.nodes.takeFirst
  refine ⟨s', htake, hnodes.represents ?_ ?_⟩
  · rw [hlast, h.last]
    cases q with
    | nil => rfl
    | cons y q => exact List.getLast?_cons_cons
  · rw [hsize, h.size, List.length_cons, ofNat_pred]

theorem rotateFirstLast (h : s.Represents (x :: q)) :
    ∃ s', s.rotateFirstLast = some s' ∧ s'.Represents (q ++ [x]) := by
  have hlast := h.last
  rcases List.eq_nil_or_concat' q with rfl | ⟨q, y, rfl⟩
  · refine ⟨s, ?_, h⟩
    unfold LinkedList.rotateFirstLast
    rw [h.first_eq, hlast]
    exact if_pos rfl
  · rw [← List.cons_append, getLast?_behind, if_pos rfl] at hlast
    obtain ⟨s', hrotate, hnodes, hlast', hsize⟩ := h.nodes.rotate_at hlast
    have hsplit : q ++ [y] ++ [x] = q ++ y :: [x] := List.append_assoc ..
    refine ⟨s', hrotate, hsplit ▸ hnodes.represents ?_ ?_⟩
    · rw [hlast', ← hsplit, getLast?_behind, if_pos rfl]
    · rw [hsize, h.size, ← hsplit]
      exact congrArg _ (List.perm_append_singleton x (q ++ [y])).length_eq.symm

theorem deleteAt (h : s.Represents q) {i : Word} (hi : i.toNat < q.length) :
    ∃ s', s.deleteAt i = some (true, s') ∧ s'.Represents (q.eraseIdx i.toNat) := by
  obtain ⟨s', hdelete, hnodes, hlast, hsize⟩ := h.nodes.deleteAt hi
  refine ⟨s', hdelete, hnodes.represents (hlast h.last) ?_⟩
  have hlen : q.length = (q.eraseIdx i.toNat).length + 1 := by
    rw [List.length_eraseIdx_of_lt hi]
    omega
  rcases hsize with hsize | ⟨hone, hsize⟩
  · rw [hsize, h.size, hlen, ofNat_pred]
  · have hzero : (q.eraseIdx i.toNat).length = 0 := by omega
    rw [hsize, hzero]
    rfl

theorem first (h : s.Represents q) : s.first = some (q.map Prod.snd).head?.join := h.nodes.first

theorem last_value (h : s.Represents q) : s.last = some (q.map Prod.snd).getLast?.join :=
  h.nodes.last_value h.last

theorem at' (h : s.Represents q) (i : Word) : s.at' i = some ((q.map Prod.snd)[i.toNat]?).join := by
  unfold LinkedList.at'
  rw [h.first_eq]
  cases q with
  | nil => rfl
  | cons x q =>
    obtain ⟨p, y, r, hsplit, hlen, hwalk⟩ := h.nodes.walk_spec (p := []) i.toNat 0
    rw [List.map_cons, List.head?_cons]
    dsimp only
    rw [hwalk, Option.bind_some]
    dsimp only
    split_ifs with hne
    · have hout : (((x :: q).map Prod.snd)[i.toNat]?) = none := by
        apply List.getElem?_eq_none
        rw [List.length_map, List.length_cons]
        omega
      rw [hout]
      rfl
    · have hi : i.toNat = p.length := by omega
      have hy : valueIn s.mem y.1 = some y.2 := by
        apply h.value
        rw [hsplit]
        exact List.mem_append_right _ List.mem_cons_self
      rw [hsplit, hi, List.map_append, List.map_cons, List.getElem?_append_right (by simp),
        List.length_map, Nat.sub_self]
      exact hy

/-- A loop over all nodes finds the first item that `f` has a result for. -/
theorem findItem {β : Type} (h : s.Represents q) (f : Option ν → Option β) {fuel : ℕ} (hfuel : q.length < fuel) :
    s.findItem f fuel s.m_first = some ((q.map Prod.snd).findSome? f) := by
  have hloop : ∀ p r, q = p ++ r → ∀ fuel, r.length < fuel →
      s.findItem f fuel (r.map Prod.fst).head? = some ((r.map Prod.snd).findSome? f) := by
    intro p r hsplit fuel hfuel
    induction r generalizing p fuel with
    | nil =>
      obtain ⟨fuel, rfl⟩ := Nat.exists_eq_succ_of_ne_zero (Nat.ne_of_gt hfuel)
      rfl
    | cons x r ih =>
      obtain ⟨fuel, rfl⟩ := Nat.exists_eq_succ_of_ne_zero (Nat.ne_of_gt (Nat.zero_lt_of_lt hfuel))
      rw [List.length_cons] at hfuel
      obtain ⟨o, ho, hv⟩ := h.nodes.exists_node (x := x) (by simp [hsplit])
      have hnext : s.next (some x.1) = some (r.map Prod.fst).head? := by
        have hlink := (hsplit ▸ h.nodes).next_eq
        rw [nextIn_eq ho] at hlink
        rw [LinkedList.next, ho, Option.map_some, hlink]
      have hitem : s.item (some x.1) = some x.2 := by
        rw [LinkedList.item, ho, Option.map_some, hv]
      rw [List.map_cons, List.head?_cons, LinkedList.findItem, hitem, Option.bind_some, List.map_cons,
        List.findSome?_cons]
      cases hf : f x.2 with
      | some res => rfl
      | none =>
        dsimp only
        rw [hnext, Option.bind_some]
        exact ih (p ++ [x]) (by simp [hsplit]) fuel (by omega)
  rw [h.first_eq]
  exact hloop [] q rfl fuel hfuel

theorem size_toNat (h : s.Represents q) : s.size.toNat = q.length := by
  unfold LinkedList.size
  rw [h.size, BitVec.toNat_ofNat]
  exact Nat.mod_eq_of_lt h.nodes.length_lt

end Represents

/-- The list holds the pointers `l`, none of which is null. -/
def Holds (s : LinkedList ν) (l : List ν) : Prop := ∃ q, s.Represents q ∧ q.map Prod.snd = l.map some

theorem holds_new : (new : LinkedList ν).Holds [] := ⟨[], represents_new, rfl⟩

namespace Holds
variable {l : List ν}

theorem length_lt (h : s.Holds l) : l.length < 2 ^ 32 := by
  obtain ⟨q, hq, hl⟩ := h
  have hlen := congrArg List.length hl
  rw [List.length_map, List.length_map] at hlen
  rw [← hlen]
  exact hq.nodes.length_lt

theorem size_toNat (h : s.Holds l) : s.size.toNat = l.length := by
  obtain ⟨q, hq, hl⟩ := h
  have hlen := congrArg List.length hl
  rw [List.length_map, List.length_map] at hlen
  rw [hq.size_toNat, hlen]

theorem append (h : s.Holds l) (hfresh : s.mem fresh = none) (x : ν) :
    ∃ s', s.append fresh (some x) = some s' ∧ s'.Holds (l ++ [x]) := by
  obtain ⟨q, hq, hl⟩ := h
  obtain ⟨s', obj, happend, hs'⟩ := hq.append hfresh (some x)
  refine ⟨s', happend, _, hs', ?_⟩
  rw [List.map_append, hl, List.map_append]
  rfl

theorem at' (h : s.Holds l) (i : Word) : s.at' i = some l[i.toNat]? := by
  obtain ⟨q, hq, hl⟩ := h
  rw [hq.at', hl, List.getElem?_map]
  cases l[i.toNat]? with
  | none => rfl
  | some x => rfl

theorem deleteAt (h : s.Holds l) {i : Word} (hi : i.toNat < l.length) :
    ∃ s', s.deleteAt i = some (true, s') ∧ s'.Holds (l.eraseIdx i.toNat) := by
  obtain ⟨q, hq, hl⟩ := h
  have hlen := congrArg List.length hl
  rw [List.length_map, List.length_map] at hlen
  obtain ⟨s', hdelete, hs'⟩ := hq.deleteAt (hlen ▸ hi)
  refine ⟨s', hdelete, _, hs', ?_⟩
  rw [← List.eraseIdx_map, hl, List.eraseIdx_map]

theorem findItem {β : Type} (h : s.Holds l) (f : Option ν → Option β) {fuel : ℕ} (hfuel : l.length < fuel) :
    s.findItem f fuel s.m_first = some (l.findSome? (f ∘ some)) := by
  obtain ⟨q, hq, hl⟩ := h
  have hlen := congrArg List.length hl
  rw [List.length_map, List.length_map] at hlen
  rw [hq.findItem f (hlen ▸ hfuel), hl, List.findSome?_map]

end Holds

inductive ListOp (ν : Type)
  | addFirst (val : Option ν)
  | append (val : Option ν)
  | appendAfter (i : Word) (val : Option ν)
  | takeFirst
  | rotateFirstLast
  | first
  | last
  | size
  | at' (i : Word)

inductive ListResult (ν : Type)
  | unit
  | value (val : Option ν)
  | bool (val : Bool)
  | word (val : Word)
  deriving DecidableEq

/-- A call, and what it returns. -/
def ListOp.exec (s : LinkedList ν) (fresh : Ptr) : ListOp ν → Option (ListResult ν × LinkedList ν)
  | .addFirst val => (s.addFirst fresh val).map (.unit, ·)
  | .append val => (s.append fresh val).map (.unit, ·)
  | .appendAfter i val => (s.appendAfter fresh i val).map fun (res, s) => (.bool res, s)
  | .takeFirst => s.takeFirst.map fun (val, s) => (.value val, s)
  | .rotateFirstLast => s.rotateFirstLast.map (.unit, ·)
  | .first => s.first.map (.value ·, s)
  | .last => s.last.map (.value ·, s)
  | .size => some (.word s.size, s)
  | .at' i => (s.at' i).map (.value ·, s)

/-- The same operation on a sequence. -/
def ListOp.onSequence (l : List (Option ν)) : ListOp ν → ListResult ν × List (Option ν)
  | .addFirst val => (.unit, val :: l)
  | .append val => (.unit, l ++ [val])
  | .appendAfter i val =>
    let k := min i.toNat (l.length - 1) + 1
    if val = none then (.bool false, l) else (.bool true, l.take k ++ val :: l.drop k)
  | .takeFirst => (.value l.head?.join, l.tail)
  | .rotateFirstLast => (.unit, l.tail ++ l.head?.toList)
  | .first => (.value l.head?.join, l)
  | .last => (.value l.getLast?.join, l)
  | .size => (.word (BitVec.ofNat 32 l.length), l)
  | .at' i => (.value l[i.toNat]?.join, l)

/-- A call that returns, with any address that `new` may return. -/
def ListStep (s : LinkedList ν) (call : ListOp ν × ListResult ν) (s' : LinkedList ν) : Prop :=
  ∃ fresh, s.mem fresh = none ∧ call.1.exec s fresh = some (call.2, s')

def SequenceStep (l : List (Option ν)) (call : ListOp ν × ListResult ν) (l' : List (Option ν)) : Prop :=
  call.1.onSequence l = (call.2, l')

/-- Each operation returns, and does to the list what it does to the sequence. -/
theorem Represents.exec (h : s.Represents q) (hfresh : s.mem fresh = none) (op : ListOp ν) :
    ∃ s' q', op.exec s fresh = some ((op.onSequence (q.map Prod.snd)).1, s') ∧ s'.Represents q' ∧
      q'.map Prod.snd = (op.onSequence (q.map Prod.snd)).2 := by
  cases op with
  | addFirst val =>
    obtain ⟨s', obj, hadd, hs'⟩ := h.addFirst hfresh val
    exact ⟨s', _, congrArg (Option.map _) hadd, hs', rfl⟩
  | append val =>
    obtain ⟨s', obj, hadd, hs'⟩ := h.append hfresh val
    exact ⟨s', _, congrArg (Option.map _) hadd, hs', List.map_append⟩
  | appendAfter i val =>
    by_cases hval : val = none
    · have hno : s.appendAfter fresh i val = some (false, s) := if_pos hval
      refine ⟨s, q, ?_, h, ?_⟩
      · unfold ListOp.exec ListOp.onSequence
        dsimp only
        rw [hno, if_pos hval]
        rfl
      · unfold ListOp.onSequence
        dsimp only
        rw [if_pos hval]
    · obtain ⟨s', obj, hadd, hs'⟩ := h.appendAfter hfresh i val hval
      refine ⟨s', _, ?_, hs', ?_⟩
      · unfold ListOp.exec ListOp.onSequence
        dsimp only
        rw [hadd, if_neg hval]
        rfl
      · unfold ListOp.onSequence
        dsimp only
        rw [if_neg hval, List.map_append, List.map_cons, List.map_take, List.map_drop, List.length_map]
  | takeFirst =>
    cases q with
    | nil =>
      have hno : s.takeFirst = some (none, s) := by
        unfold LinkedList.takeFirst
        rw [h.first_eq]
        rfl
      exact ⟨s, [], congrArg (Option.map _) hno, h, rfl⟩
    | cons x q =>
      obtain ⟨s', htake, hs'⟩ := h.takeFirst
      exact ⟨s', q, congrArg (Option.map _) htake, hs', rfl⟩
  | rotateFirstLast =>
    cases q with
    | nil =>
      have hno : s.rotateFirstLast = some s := by
        unfold LinkedList.rotateFirstLast
        rw [h.first_eq]
        rfl
      exact ⟨s, [], congrArg (Option.map _) hno, h, rfl⟩
    | cons x q =>
      obtain ⟨s', hrotate, hs'⟩ := h.rotateFirstLast
      exact ⟨s', _, congrArg (Option.map _) hrotate, hs', List.map_append⟩
  | first => exact ⟨s, q, congrArg (Option.map _) h.first, h, rfl⟩
  | last => exact ⟨s, q, congrArg (Option.map _) h.last_value, h, rfl⟩
  | size =>
    have hsize : s.size = BitVec.ofNat 32 (q.map Prod.snd).length := by
      rw [List.length_map]
      exact h.size
    exact ⟨s, q, congrArg (fun w => some (ListResult.word w, s)) hsize, h, rfl⟩
  | at' i => exact ⟨s, q, congrArg (Option.map _) (h.at' i), h, rfl⟩

theorem sequence_step {call : ListOp ν × ListResult ν} (h : s.Represents q) (hstep : ListStep s call s') :
    ∃ q', SequenceStep (q.map Prod.snd) call (q'.map Prod.snd) ∧ s'.Represents q' := by
  obtain ⟨fresh, hfresh, hexec⟩ := hstep
  obtain ⟨s₁, q', hexec', hs₁, hq'⟩ := h.exec hfresh call.1
  obtain ⟨hres, rfl⟩ := Prod.mk.inj (Option.some.inj (hexec'.symm.trans hexec))
  exact ⟨q', Prod.ext hres hq'.symm, hs₁⟩

/-- A run on a list that starts empty is a run on a sequence, with the same results. The list is
that sequence, and each further call returns. -/
theorem sequence_run {calls : List (ListOp ν × ListResult ν)} (h : Run ListStep new calls s) :
    ∃ q, Run SequenceStep [] calls (q.map Prod.snd) ∧ s.Represents q ∧ s.size.toNat = q.length ∧
      (∀ i : Word, ∃ v, s.at' i = some v ∧
        (v = none ↔ q.length ≤ i.toNat ∨ (q.map Prod.snd)[i.toNat]? = some none)) ∧
      ∀ fresh, s.mem fresh = none → ∀ op : ListOp ν, (op.exec s fresh).isSome := by
  have hsim : ∀ (s : LinkedList ν) call s' l, (∃ q, s.Represents q ∧ q.map Prod.snd = l) →
      ListStep s call s' → ∃ l', SequenceStep l call l' ∧ ∃ q, s'.Represents q ∧ q.map Prod.snd = l' := by
    rintro s call s' _ ⟨q, hq, rfl⟩ hstep
    obtain ⟨q', hstep', hq'⟩ := sequence_step hq hstep
    exact ⟨_, hstep', q', hq', rfl⟩
  obtain ⟨_, hrun, q, hq, rfl⟩ := h.simulate hsim ⟨[], represents_new, rfl⟩
  refine ⟨q, hrun, hq, hq.size_toNat, fun i => ⟨_, hq.at' i, ?_⟩, fun fresh hfresh op => ?_⟩
  · rw [← List.length_map Prod.snd, ← List.getElem?_eq_none_iff]
    cases (q.map Prod.snd)[i.toNat]? with
    | none => simp
    | some v => simp
  · obtain ⟨s', -, hexec, -⟩ := hq.exec hfresh op
    rw [hexec]
    rfl

theorem sequence_run_threeNodes :
    ∃ s q, Run SequenceStep []
        [(.addFirst (some 1), .unit), (.append (some 2), .unit), (.takeFirst, .value (some 1)),
          (.append (some 3), .unit), (.appendAfter 0 (some 4), .bool true), (.rotateFirstLast, .unit),
          (.at' 1, .value (some 3))] (q.map Prod.snd) ∧
      Represents (s : LinkedList ℕ) q := by
  have hrun : Run ListStep (new : LinkedList ℕ)
      [(.addFirst (some 1), .unit), (.append (some 2), .unit), (.takeFirst, .value (some 1)),
        (.append (some 3), .unit), (.appendAfter 0 (some 4), .bool true), (.rotateFirstLast, .unit),
        (.at' 1, .value (some 3))] _ :=
    .cons ⟨⟨8, by decide⟩, rfl, rfl⟩ (.cons ⟨⟨16, by decide⟩, rfl, rfl⟩
      (.cons ⟨⟨24, by decide⟩, rfl, rfl⟩ (.cons ⟨⟨24, by decide⟩, rfl, rfl⟩
        (.cons ⟨⟨24, by decide⟩, rfl, rfl⟩ (.cons ⟨⟨32, by decide⟩, rfl, rfl⟩
          (.cons ⟨⟨32, by decide⟩, rfl, rfl⟩ (.nil _)))))))
  obtain ⟨q, hsequence, hq, -⟩ := sequence_run hrun
  exact ⟨_, q, hsequence, hq⟩

/-- A null pointer may be in the list, and `at` returns it. -/
theorem at_null : ∃ s, Run ListStep (new : LinkedList ℕ) [(.addFirst none, .unit)] s ∧
    s.at' 0 = some none ∧ ¬ s.size ≤ 0 :=
  ⟨_, .cons ⟨⟨8, by decide⟩, rfl, rfl⟩ (.nil _), rfl, by decide⟩

end CxxKernel.Containers.LinkedList
