import Mathlib.Data.List.Nodup
import Mathlib.Logic.Function.Basic
import Mathlib.Tactic.Common

/-! Singly linked chains in a memory: `next` sends a node to the one after it. -/
namespace LinkedChain

variable {α : Type*} {next next' : α → Option α} {start : Option α} {q : List α}

/-- Following `next` from `start` meets exactly the nodes `q`, in this order, and ends. -/
def Chain (next : α → Option α) : Option α → List α → Prop
  | start, [] => start = none
  | start, a :: q => start = some a ∧ Chain next (next a) q

namespace Chain

theorem start_eq (h : Chain next start q) : start = q.head? := by
  cases q with
  | nil => exact h
  | cons a q => exact h.1

theorem congr (h : Chain next start q) (hn : ∀ a ∈ q, next' a = next a) :
    Chain next' start q := by
  induction q generalizing start with
  | nil => exact h
  | cons a q ih =>
    refine ⟨h.1, ?_⟩
    rw [hn a List.mem_cons_self]
    exact ih h.2 fun b hb => hn b (List.mem_cons_of_mem a hb)

/-- The next node is found in one way only. -/
theorem unique {q' : List α} (h : Chain next start q) (h' : Chain next start q') : q = q' := by
  induction q generalizing start q' with
  | nil =>
    cases q' with
    | nil => rfl
    | cons b q' =>
      have hb := h.symm.trans h'.1
      cases hb
  | cons a q ih =>
    cases q' with
    | nil =>
      have ha := h'.symm.trans h.1
      cases ha
    | cons b q' =>
      obtain rfl : a = b := Option.some.inj (h.1.symm.trans h'.1)
      rw [ih h.2 h'.2]

/-- The node after `a` in the chain. -/
theorem next_eq {a : α} {p : List α} (h : Chain next start (p ++ a :: q)) : next a = q.head? := by
  induction p generalizing start with
  | nil => exact h.2.start_eq
  | cons b p ih => exact ih h.2

theorem cons {x : α} (h : Chain next start q) (hx : next' x = start) (hq : ∀ a ∈ q, next' a = next a) :
    Chain next' (some x) (x :: q) := by
  refine ⟨rfl, ?_⟩
  rw [hx]
  exact h.congr hq

/-- Behind `a` the chain goes on with other nodes. -/
theorem replaceAfter {a : α} {p q' : List α} (h : Chain next start (p ++ a :: q))
    (hp : ∀ b ∈ p, next' b = next b) (ha : Chain next' (next' a) q') : Chain next' start (p ++ a :: q') := by
  induction p generalizing start with
  | nil => exact ⟨h.1, ha⟩
  | cons b p ih =>
    refine ⟨h.1, ?_⟩
    rw [hp b List.mem_cons_self]
    exact ih h.2 fun c hc => hp c (List.mem_cons_of_mem b hc)

/-- The chain behind `a`. -/
theorem tail {a : α} {p : List α} (h : Chain next start (p ++ a :: q)) : Chain next (next a) q := by
  induction p generalizing start with
  | nil => exact h.2
  | cons b p ih => exact ih h.2

/-- A node that is linked in behind `a`. -/
theorem insertAfter {a x : α} {p : List α} (h : Chain next start (p ++ a :: q))
    (hp : ∀ b ∈ p, next' b = next b) (ha : next' a = some x) (hx : next' x = next a)
    (hq : ∀ b ∈ q, next' b = next b) : Chain next' start (p ++ a :: x :: q) := by
  apply h.replaceAfter hp
  rw [ha]
  exact h.tail.cons hx hq

/-- Hang a new node behind the last one. -/
theorem snoc [DecidableEq α] {a x : α} (h : Chain next start (q ++ [a])) (hq : a ∉ q)
    (hx : x ∉ q ++ [a]) (hnext : next x = none) :
    Chain (Function.update next a (some x)) start (q ++ [a] ++ [x]) := by
  have hxa : x ≠ a := fun heq => hx (List.mem_append_right _ (List.mem_singleton.mpr heq))
  rw [List.append_assoc]
  apply h.insertAfter
  · intro b hb
    apply Function.update_of_ne
    rintro rfl
    exact hq hb
  · exact Function.update_self ..
  · rw [Function.update_of_ne hxa, hnext, h.next_eq]
    rfl
  · exact fun b hb => absurd hb List.not_mem_nil

end Chain

/-- A queue with pointers to both ends. -/
structure Queue (next : α → Option α) (head tail : Option α) (q : List α) : Prop where
  chain : Chain next head q
  tail_eq : tail = q.getLast?
  nodup : q.Nodup

namespace Queue
variable {head tail : Option α}

theorem head_eq (h : Queue next head tail q) : head = q.head? := h.chain.start_eq

theorem congr (h : Queue next head tail q) (hn : ∀ a ∈ q, next' a = next a) :
    Queue next' head tail q :=
  ⟨h.chain.congr hn, h.tail_eq, h.nodup⟩

theorem eq_nil (h : Queue next head none q) : q = [] :=
  List.getLast?_eq_none_iff.mp h.tail_eq.symm

/-- The first node of an empty queue. -/
theorem single {x : α} (hnext : next x = none) : Queue next (some x) (some x) [x] :=
  ⟨⟨rfl, hnext⟩, rfl, List.nodup_singleton x⟩

theorem push [DecidableEq α] {a x : α} (h : Queue next head (some a) q) (hx : x ∉ q)
    (hnext : next x = none) :
    Queue (Function.update next a (some x)) head (some x) (q ++ [x]) := by
  obtain ⟨q, rfl⟩ := List.getLast?_eq_some_iff.mp h.tail_eq.symm
  have ha : a ∉ q := fun hc => (List.nodup_append.mp h.nodup).2.2 a hc a (by simp) rfl
  refine ⟨h.chain.snoc ha hx hnext, by simp, ?_⟩
  rw [List.nodup_append]
  refine ⟨h.nodup, List.nodup_singleton x, fun b hb c hc => ?_⟩
  rw [List.mem_singleton.mp hc]
  rintro rfl
  exact hx hb

/-- Both ends meet exactly in a queue of one node. -/
theorem head_eq_tail_iff {a : α} (h : Queue next head tail (a :: q)) : head = tail ↔ q = [] := by
  rw [h.head_eq, h.tail_eq]
  constructor
  · intro he
    by_contra hne
    rw [List.head?_cons, List.getLast?_cons_of_ne_nil hne] at he
    exact (List.nodup_cons.mp h.nodup).1 (List.mem_of_getLast? he.symm)
  · rintro rfl
    rfl

theorem pop {a : α} (h : Queue next head tail (a :: q)) (hne : q ≠ []) :
    Queue next (next a) tail q := by
  refine ⟨h.chain.2, ?_, (List.nodup_cons.mp h.nodup).2⟩
  rw [h.tail_eq, List.getLast?_cons_of_ne_nil hne]

end Queue

end LinkedChain
