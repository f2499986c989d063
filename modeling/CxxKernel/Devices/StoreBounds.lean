import CxxKernel.Devices.Video
import CxxKernel.Lib.Runs

/-! Which cells of the video memory the text console writes. -/
namespace CxxKernel.Devices
open Runs

namespace Video

/-- What every move of the cursor and every `putCh` keep. -/
structure Kept (P : Video → Prop) : Prop where
  move : ∀ v c, P v → P { v with toCursor := c }
  put : ∀ v c, P v → P (putCh v c)

namespace Kept
variable {P : Video → Prop} {v v' : Video} {f f' : Format} {n : ℕ}

theorem print (h : Kept P) (cp : List Char8) (hv : P v) : P (print v cp).1 := by
  induction cp generalizing v with
  | nil => exact hv
  | cons c cp ih =>
    rw [Video.print]
    split
    · exact hv
    · exact ih (h.put v c hv)

theorem print_prenull (h : Kept P) (cnt fmtcnt : ℤ) (hv : P v) : P (print_prenull v cnt fmtcnt).1 := by
  rw [Video.print_prenull]
  split
  · exact h.print _ hv
  · exact hv

theorem print_l (h : Kept P) (val radix : Word) (fmtcnt : ℤ) (hv : P v) : P (print_l v val radix fmtcnt).1 := by
  rw [Video.print_l]
  split
  · exact h.put (v.print_prenull 1 fmtcnt).1 0x30 (h.print_prenull _ _ hv)
  · exact h.print _ (h.print_prenull _ _ hv)

theorem print_ull (h : Kept P) (val radix : BitVec 64) (fmtcnt : ℤ) (hv : P v) :
    P (print_ull v val radix fmtcnt).1 := by
  rw [Video.print_ull]
  split
  · exact h.put (v.print_prenull 1 fmtcnt).1 0x30 (h.print_prenull _ _ hv)
  · exact h.print _ (h.print_prenull _ _ hv)

theorem printUnsigned (h : Kept P) {radix : BitVec 64} (hconv : printUnsigned v f radix = some (v', f'))
    (hv : P v) : P v' := by
  rw [Video.printUnsigned] at hconv
  split at hconv
  · split at hconv
    · cases hconv
      exact h.print_ull _ _ _ hv
    · cases hconv
  · split at hconv
    · split at hconv
      · cases hconv
        exact h.print_ull _ _ _ hv
      · cases hconv
    · cases hconv
      exact hv

theorem convert (h : Kept P) {ch : Char8} (hconv : convert v f ch = some (v', f')) (hv : P v) : P v' := by
  have hdone : ∀ r : Video × Format, some r = some (v', f') → P r.1 → P v' := by
    intro r hsome hr
    cases hsome
    exact hr
  rw [Video.convert] at hconv
  split at hconv
  · exact hdone _ hconv (h.put v 0x25 hv)
  split at hconv
  · split at hconv
    · exact hdone _ hconv (h.print _ hv)
    · cases hconv
  split at hconv
  · exact hdone _ hconv hv
  split at hconv
  · exact h.printUnsigned hconv hv
  split at hconv
  · split at hconv
    · exact hdone _ hconv (h.put v _ hv)
    · cases hconv
  split at hconv
  · split at hconv
    · split at hconv
      · exact hdone _ hconv (h.print_l _ _ _ hv)
      · exact hdone _ hconv (h.print_ull _ _ _ hv)
    · cases hconv
  split at hconv
  · exact h.printUnsigned hconv hv
  split at hconv
  · exact hdone _ hconv hv
  · exact hdone _ hconv hv

theorem vprintfLoop (h : Kept P) {fmt : List Char8} (hloop : vprintfLoop v f fmt = some (v', n)) (hv : P v) :
    P v' := by
  induction fmt generalizing v f with
  | nil =>
    cases hloop
    exact hv
  | cons ch fmt ih =>
    rw [Video.vprintfLoop] at hloop
    split at hloop
    · cases hloop
      exact hv
    split at hloop
    · obtain ⟨⟨u, g⟩, hconv, hrest⟩ := Option.bind_eq_some_iff.mp hloop
      exact ih hrest (h.convert hconv hv)
    split at hloop
    · exact ih hloop hv
    split at hloop
    · exact ih hloop (h.move _ ⟨0, v.m_y, v.m_origin⟩ hv)
    split at hloop
    · exact ih hloop (h.put _ _ hv)
    split at hloop
    · split at hloop
      · exact ih hloop (h.move _ ⟨v.m_width - 1, v.m_y - 1, v.m_origin⟩ hv)
      split at hloop
      · exact ih hloop hv
      · exact ih hloop (h.move _ ⟨v.m_x - 1, v.m_y, v.m_origin⟩ hv)
    split at hloop
    · exact ih hloop (h.move _ ⟨v.m_x + TAB_SIZE, v.m_y, v.m_origin⟩ hv)
    · exact ih hloop (h.put _ _ hv)

theorem handleChar (h : Kept P) (c : Char8) (hv : P v) : P (handleChar v c) := by
  rw [Video.handleChar]
  split_ifs
  · exact hv
  · exact h.put _ _ (h.move _ ⟨0, v.m_y + 1, v.m_origin⟩ hv)
  · exact h.put _ _ hv

theorem setOrigin (h : Kept P) (hv : P v) : P (setOrigin v) := h.move _ ⟨v.m_x, v.m_y, v.m_x⟩ hv

end Kept

inductive Op
  | putCh (c : Char8)
  | print (cp : List Char8)
  | vprintf (fmt : List Char8) (al : List Arg)
  | handleChar (c : Char8)
  | setOrigin

def exec (v : Video) : Op → Option Video
  | .putCh c => some (putCh v c)
  | .print cp => some (print v cp).1
  | .vprintf fmt al => (vprintf v fmt al).map Prod.fst
  | .handleChar c => some (handleChar v c)
  | .setOrigin => some (setOrigin v)

def Step (v : Video) (op : Op) (v' : Video) : Prop := exec v op = some v'

theorem Kept.step {P : Video → Prop} {v v' : Video} {op : Op} (h : Kept P) (hstep : Step v op v') (hv : P v) :
    P v' := by
  cases op with
  | putCh c =>
    cases hstep
    exact h.put _ _ hv
  | print cp =>
    cases hstep
    exact h.print _ hv
  | vprintf fmt al =>
    obtain ⟨⟨u, n⟩, hloop, rfl⟩ := Option.map_eq_some_iff.mp hstep
    exact h.vprintfLoop hloop hv
  | handleChar c =>
    cases hstep
    exact h.handleChar _ hv
  | setOrigin =>
    cases hstep
    exact h.setOrigin hv

def start (width height : Word) (c : Cursor) (mem : ℕ → Cell) : Video := ⟨c, width, height, mem, [], []⟩

/-- The cell of a backspace is on the screen: the one before the cursor where that is right of the
origin, else the one under it. -/
def Fits (width height : Word) (c : Cursor) : Prop :=
  let cell := c.m_y * width + c.m_x
  (if c.m_origin < c.m_x then cell - 1 else cell).toNat < width.toNat * height.toNat

instance (width height : Word) (c : Cursor) : Decidable (Fits width height c) :=
  inferInstanceAs (Decidable (_ < _))

/-- The stores are all on the screen as long as the backspaces are. -/
structure Bounded (w h : Word) (v : Video) : Prop where
  width : v.m_width = w
  height : v.m_height = h
  stores_iff : (∀ offset ∈ v.stores, offset < w.toNat * h.toNat) ↔ ∀ c ∈ v.erased, Fits w h c

namespace Bounded
variable {w h : Word} {v : Video} {count offset dest src : ℕ} {cell : Cell}

theorem store (hv : Bounded w h v) (hlt : offset < w.toNat * h.toNat) : Bounded w h (v.store offset cell) where
  width := hv.width
  height := hv.height
  stores_iff := by
    change (∀ o ∈ v.stores ++ [offset], o < w.toNat * h.toNat) ↔ ∀ c ∈ v.erased, Fits w h c
    rw [← hv.stores_iff]
    constructor
    · intro hall o ho
      exact hall o (List.mem_append_left _ ho)
    · intro hall o ho
      rcases List.mem_append.mp ho with ho | ho
      · exact hall o ho
      · rwa [List.mem_singleton.mp ho]

theorem move (hv : Bounded w h v) (c : Cursor) : Bounded w h { v with toCursor := c } :=
  ⟨hv.width, hv.height, hv.stores_iff⟩

theorem copyCells (hv : Bounded w h v) (hle : count ≤ w.toNat * h.toNat) :
    Bounded w h (copyCells v src count) := by
  induction count with
  | zero => exact hv
  | succ count ih => exact (ih (by omega)).store (by omega)

theorem setCells (hv : Bounded w h v) (hle : dest + count ≤ w.toNat * h.toNat) :
    Bounded w h (setCells v dest cell count) := by
  induction count with
  | zero => exact hv
  | succ count ih => exact (ih (by omega)).store (by omega)

theorem toNat_cell_lt {x y : Word} (hx : x < w) (hy : y < h) : (y * w + x).toNat < w.toNat * h.toNat := by
  have hx' : x.toNat < w.toNat := hx
  have hy' : y.toNat + 1 ≤ h.toNat := hy
  have hmul := Nat.mul_le_mul_right w.toNat hy'
  calc (y * w + x).toNat
      ≤ y.toNat * w.toNat + x.toNat := by
        rw [BitVec.toNat_add, BitVec.toNat_mul, Nat.mod_add_mod]
        exact Nat.mod_le _ _
    _ < w.toNat * h.toNat := by
        rw [Nat.add_mul, Nat.one_mul] at hmul
        rw [Nat.mul_comm w.toNat]
        omega

theorem shift (hv : Bounded w h v) (hh : 2 ≤ h) : Bounded w h (shift v) ∧ (shift v).m_y < h := by
  have hh' : 2 ≤ h.toNat := hh
  have hrows : ((h - 1) * w).toNat ≤ (h.toNat - 1) * w.toNat := by
    have hpred : (h - 1).toNat = h.toNat - 1 := by bv_omega
    rw [BitVec.toNat_mul, hpred]
    exact Nat.mod_le _ _
  have hsize : (h.toNat - 1) * w.toNat + w.toNat = w.toNat * h.toNat := by
    rw [← Nat.succ_mul, Nat.succ_eq_add_one, Nat.sub_add_cancel (by omega), Nat.mul_comm]
  have hbytes : ((h - 1) * w * 2).toNat / 2 ≤ ((h - 1) * w).toNat := by
    have htwo : (2 : Word).toNat = 2 := rfl
    rw [BitVec.toNat_mul, htwo]
    omega
  rw [Video.shift, hv.width, hv.height]
  generalize hu : (if SCROLL_SIZE * w * 2 = 0 then v else
    v.copyCells (SCROLL_SIZE * w * 2).toNat (((h - 1) * w * 2).toNat / 2)) = u
  have hcopied : Bounded w h u := by
    rw [← hu]
    split
    · exact hv
    · exact hv.copyCells (by omega)
  have hset : Bounded w h (u.setCells ((h - 1) * w).toNat 0 w.toNat) := hcopied.setCells (by omega)
  rw [hcopied.width]
  constructor
  · exact hset.move ⟨_, _, _⟩
  · change (u.setCells ((h - 1) * w).toNat 0 w.toNat).m_height - 2 < h
    rw [hset.height]
    bv_omega

/-- Whatever the cursor is, `scroll` brings it onto the screen, and it writes nowhere else. -/
theorem scroll (hv : Bounded w h v) (hw : 1 ≤ w) (hh : 2 ≤ h) :
    Bounded w h (scroll v) ∧ (scroll v).m_x < w ∧ (scroll v).m_y < h := by
  rw [Video.scroll]
  generalize hu : (if v.m_height ≤ v.m_y then v.shift else v) = u
  have hrow : Bounded w h u ∧ u.m_y < h := by
    rw [← hu, hv.height]
    split
    · exact hv.shift hh
    · exact ⟨hv, BitVec.not_le.mp ‹_›⟩
  generalize ht : (if u.m_width ≤ u.m_x then { u with m_x := 0 } else u) = t
  have hcolumn : Bounded w h t ∧ t.m_x < w ∧ t.m_y < h := by
    rw [← ht]
    split
    · have hzero : (0 : Word) < w := by bv_omega
      exact ⟨hrow.1.move ⟨0, u.m_y, u.m_origin⟩, hzero, hrow.2⟩
    · have hlt := BitVec.not_le.mp ‹¬ u.m_width ≤ u.m_x›
      rw [hrow.1.width] at hlt
      exact ⟨hrow.1, hlt, hrow.2⟩
  have hinside : ¬ t.m_height < t.m_y := by
    rw [hcolumn.1.height]
    bv_omega
  rw [if_neg hinside]
  exact hcolumn

theorem backspace (hv : Bounded w h v) {c : Cursor} {cell : Word}
    (hcell : cell = if v.m_origin < v.m_x then v.m_y * v.m_width + v.m_x - 1 else v.m_y * v.m_width + v.m_x) :
    Bounded w h ({ v with toCursor := c, erased := v.erased ++ [v.toCursor] }.store cell.toNat 0) where
  width := hv.width
  height := hv.height
  stores_iff := by
    change (∀ o ∈ v.stores ++ [cell.toNat], o < w.toNat * h.toNat) ↔
      ∀ c ∈ v.erased ++ [v.toCursor], Fits w h c
    rw [List.forall_mem_append, List.forall_mem_append, List.forall_mem_singleton, List.forall_mem_singleton,
      hv.stores_iff, hcell, hv.width, Fits]

theorem putCh (hv : Bounded w h v) (hw : 1 ≤ w) (hh : 2 ≤ h) (c : Char8) : Bounded w h (putCh v c) := by
  rw [Video.putCh]
  split
  · exact ((hv.move ⟨0, v.m_y + 1, 0⟩).scroll hw hh).1
  split
  · split
    · exact hv.move ⟨v.m_x + TAB_SIZE, v.m_y, v.m_origin⟩
    · exact hv.move ⟨v.m_width - 1, v.m_y, v.m_origin⟩
  split
  · dsimp only
    split
    · rename_i hback
      have hcell : v.m_y * v.m_width + (v.m_x - 1) = v.m_y * v.m_width + v.m_x - 1 := by
        generalize v.m_y * v.m_width = row
        bv_omega
      exact hv.backspace (hcell.trans (if_pos hback.2).symm)
    · rename_i hback
      have hleft : ¬ v.m_origin < v.m_x := by
        intro hlt
        apply hback
        exact ⟨by bv_omega, hlt⟩
      exact hv.backspace (if_neg hleft).symm
  · generalize hu : (if v.m_width ≤ v.m_x then { v with m_x := v.m_x - v.m_width, m_y := v.m_y + 1 } else v) = u
    have hwrapped : Bounded w h u := by
      rw [← hu]
      split
      · exact hv.move ⟨_, _, _⟩
      · exact hv
    obtain ⟨hscroll, hx, hy⟩ := hwrapped.scroll hw hh
    have hlt := toNat_cell_lt hx hy
    rw [← congrArg (u.scroll.m_y * ·) hscroll.width] at hlt
    exact (hscroll.store hlt).move ⟨_, _, _⟩

theorem kept (hw : 1 ≤ w) (hh : 2 ≤ h) : Kept (Bounded w h) where
  move _ c hv := hv.move c
  put _ c hv := hv.putCh hw hh c

end Bounded

section Runs
variable {w h : Word} {c : Cursor} {mem : ℕ → Cell} {ops : List Op} {v : Video}

/-- On a console of any size, in every run from any cursor, every store is on the screen exactly if every
backspace is. -/
theorem storeBounds_iff (hw : 1 ≤ w) (hh : 2 ≤ h) (hrun : Run Step (start w h c mem) ops v) :
    (∀ offset ∈ v.stores, offset < w.toNat * h.toNat) ↔ ∀ c ∈ v.erased, Fits w h c := by
  have hstart : Bounded w h (start w h c mem) := by
    constructor
    · rfl
    · rfl
    · constructor
      · intro _ c hc
        cases hc
      · intro _ o ho
        cases ho
  have hend : Bounded w h v := hrun.invariant (fun _ _ _ hv hstep => (Bounded.kept hw hh).step hstep hv) hstart
  exact hend.stores_iff

end Runs

def small : Video := start 2 2 ⟨0, 0, 0⟩ fun _ => 0

def typed : List Op := [.print [0x61, 0x62], .handleChar 0x08]

/-- The text "abcd", which fills both rows, and a backspace after reading has started there. -/
def filled : List Op := [.print [0x61, 0x62, 0x63, 0x64], .setOrigin, .handleChar 0x08]

theorem storeBounds_iff_typed : ∃ v, Run Step small typed v ∧
    ∀ offset ∈ v.stores, offset < (2 : Word).toNat * (2 : Word).toNat := by
  have hrun : Run Step small typed _ := run_of_runAll rfl
  exact ⟨_, hrun, (storeBounds_iff (by decide) (by decide) hrun).mpr (by decide)⟩

/-- The backspace on the full screen writes behind the last cell. -/
theorem backspace_offScreen : ∃ v, Run Step small filled v ∧
    ¬ ∀ offset ∈ v.stores, offset < (2 : Word).toNat * (2 : Word).toNat := by
  have hrun : Run Step small filled _ := run_of_runAll rfl
  refine ⟨_, hrun, ?_⟩
  intro hall
  exact absurd (hall 4 (by decide)) (by decide)

end Video

end CxxKernel.Devices
