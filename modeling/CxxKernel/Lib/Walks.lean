import CxxKernel.Lib.Cursor
import Mathlib.Data.Fintype.Card
import Mathlib.Logic.Relation

/-! Which cursors come to an end. -/
namespace Cursor
open Relation

variable {ι β : Type*} {next : ι → Option (β × ι)} {c c' : ι} {x : β} {xs : List β}

/-- The cursor goes from the first place to the second one. -/
def Moves (next : ι → Option (β × ι)) (c c' : ι) : Prop := ∃ x, next c = some (x, c')

theorem Moves.yields (h : Moves next c c') (hc : Yields next c xs) :
    ∃ x ys, xs = x :: ys ∧ Yields next c' ys := by
  obtain ⟨x, hx⟩ := h
  cases hc with
  | stop hstop => rw [hx] at hstop; cases hstop
  | item hitem hrest =>
    obtain ⟨rfl, rfl⟩ := Prod.mk.inj (Option.some.inj (hx.symm.trans hitem))
    exact ⟨_, _, rfl, hrest⟩

/-- Behind a place that is reached in some moves, fewer items are left. -/
theorem yields_of_transGen (h : TransGen (Moves next) c c') (hc : Yields next c xs) :
    ∃ ys, Yields next c' ys ∧ ys.length < xs.length := by
  induction h with
  | single hmove =>
    obtain ⟨x, ys, rfl, hys⟩ := hmove.yields hc
    exact ⟨ys, hys, Nat.lt_succ_self _⟩
  | tail _ hmove ih =>
    obtain ⟨zs, hzs, hlt⟩ := ih
    obtain ⟨x, ys, rfl, hys⟩ := hmove.yields hzs
    exact ⟨ys, hys, Nat.lt_of_succ_lt hlt⟩

theorem yields_of_reflTransGen (h : ReflTransGen (Moves next) c c') (hc : Yields next c xs) :
    ∃ ys, Yields next c' ys := by
  rcases reflTransGen_iff_eq_or_transGen.mp h with rfl | h
  · exact ⟨xs, hc⟩
  · obtain ⟨ys, hys, -⟩ := yields_of_transGen h hc
    exact ⟨ys, hys⟩

/-- A cursor that comes to a place where it has been before does not end. -/
theorem not_transGen_of_yields (hc : Yields next c xs) : ¬ TransGen (Moves next) c c := by
  intro h
  obtain ⟨ys, hys, hlt⟩ := yields_of_transGen h hc
  rw [hys.unique hc] at hlt
  exact Nat.lt_irrefl _ hlt

/-- Among finitely many places a cursor comes to its end exactly when it does not come back to a place
where it has been. -/
theorem yields_iff [Finite ι] :
    (∃ xs, Yields next c xs) ↔
      ∀ c', ReflTransGen (Moves next) c c' → ¬ TransGen (Moves next) c' c' := by
  constructor
  · rintro ⟨xs, hxs⟩ c' hreach
    obtain ⟨ys, hys⟩ := yields_of_reflTransGen hreach hxs
    exact not_transGen_of_yields hys
  · intro hnot
    let behind : ι → ι → Prop := fun b a => ReflTransGen (Moves next) c a ∧ TransGen (Moves next) a b
    have htrans : IsTrans ι behind := ⟨fun _ _ _ h h' => ⟨h'.1, h'.2.trans h.2⟩⟩
    have hirrefl : Std.Irrefl behind := ⟨fun a h => hnot a h.1 h.2⟩
    have hwf : WellFounded behind := Finite.wellFounded_of_trans_of_irrefl behind
    have hall : ∀ a, ReflTransGen (Moves next) c a → ∃ xs, Yields next a xs := by
      intro a
      induction a using hwf.induction with
      | _ a ih =>
        intro ha
        cases h : next a with
        | none => exact ⟨[], .stop h⟩
        | some r =>
          have hmove : Moves next a r.2 := ⟨r.1, h⟩
          obtain ⟨xs, hxs⟩ := ih r.2 ⟨ha, .single hmove⟩ (ha.tail hmove)
          exact ⟨r.1 :: xs, .item h hxs⟩
    exact hall c .refl

/-- A cursor that never goes back ends exactly when it moves on from each place that it comes to. -/
theorem yields_iff_of_le [Finite ι] {place : ι → ℕ} (hinj : Function.Injective place)
    (hle : ∀ a b, Moves next a b → place a ≤ place b) :
    (∃ xs, Yields next c xs) ↔ ∀ c', ReflTransGen (Moves next) c c' → ¬ Moves next c' c' := by
  rw [yields_iff]
  have hall : ∀ {a b}, TransGen (Moves next) a b → place a ≤ place b := by
    intro a b h
    induction h with
    | single h => exact hle _ _ h
    | tail _ h ih => exact Nat.le_trans ih (hle _ _ h)
  refine forall₂_congr fun c' _ => not_congr ⟨fun h => ?_, fun h => .single h⟩
  obtain ⟨b, hmove, hback⟩ := TransGen.head'_iff.mp h
  rcases reflTransGen_iff_eq_or_transGen.mp hback with rfl | hback
  · exact hmove
  · obtain rfl := hinj (Nat.le_antisymm (hle _ _ hmove) (hall hback))
    exact hmove

end Cursor
