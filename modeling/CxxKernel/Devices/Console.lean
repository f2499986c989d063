import CxxKernel.Lib.Copying
import CxxKernel.Devices.Numbers

/-! The two ways of a text to the console, and what `scroll` leaves on the screen. -/
namespace CxxKernel.Devices.Video
open Copying

/-- The loop of `syscall_write` for the standard output. -/
def write (v : Video) (buf : List Char8) : Video := buf.foldl handleChar v

def OnScreen (v : Video) : Prop := v.m_x < v.m_width ∧ v.m_y < v.m_height

/-- The same screen contents and the same cursor. -/
structure SameScreen (v v' : Video) : Prop where
  m_videomem : v.m_videomem = v'.m_videomem
  m_x : v.m_x = v'.m_x
  m_y : v.m_y = v'.m_y

/-- Both ways leave the same screen, after the whole text and after each part it starts with. -/
def PathsAgree (v : Video) (cp : List Char8) : Prop :=
  ∀ part, part <+: cp → SameScreen (write v part) (print v part).1

/-- The cursor is in the last row, and the next row but one has a number. -/
def LastRow (v : Video) : Prop := v.m_y + 1 = v.m_height ∧ v.m_height + 1 ≠ 0

/-- Every newline of the text comes when the cursor is in the last row. -/
def NewlinesLast (v : Video) : List Char8 → Prop
  | [] => True
  | c :: cp => (c = 0x0A → LastRow v) ∧ NewlinesLast (putCh v c) cp

/-- The row that `scroll` leaves the cursor in. -/
def rowAfter (height y : Word) : Word :=
  let y := if height ≤ y then height - 2 else y
  if height < y then height - 1 else y

section Frames
variable (v : Video) (src dest count : ℕ) (cell : Cell)

theorem copyCells_frame : ∃ mem stores, ∀ c : Cursor, copyCells { v with toCursor := c } src count =
    { v with toCursor := c, m_videomem := mem, stores := stores } := by
  induction count with
  | zero => exact ⟨v.m_videomem, v.stores, fun c => rfl⟩
  | succ count ih =>
    obtain ⟨mem, stores, hcopy⟩ := ih
    refine ⟨Function.update mem count (mem (src + count)), stores ++ [count], fun c => ?_⟩
    rw [copyCells, hcopy]
    rfl

theorem setCells_frame : ∃ mem stores, ∀ c : Cursor, setCells { v with toCursor := c } dest cell count =
    { v with toCursor := c, m_videomem := mem, stores := stores } := by
  induction count with
  | zero => exact ⟨v.m_videomem, v.stores, fun c => rfl⟩
  | succ count ih =>
    obtain ⟨mem, stores, hset⟩ := ih
    refine ⟨Function.update mem (dest + count) cell, stores ++ [dest + count], fun c => ?_⟩
    rw [setCells, hset]
    rfl

theorem shift_frame : ∃ mem stores, ∀ c : Cursor, shift { v with toCursor := c } =
    { v with
      m_x := c.m_x, m_y := v.m_height - 2, m_origin := c.m_origin, m_videomem := mem, stores := stores } := by
  have hcopy : ∃ mem stores, ∀ c : Cursor,
      (if SCROLL_SIZE * v.m_width * 2 = 0 then { v with toCursor := c } else
        copyCells { v with toCursor := c } (SCROLL_SIZE * v.m_width * 2).toNat
          (((v.m_height - 1) * v.m_width * 2).toNat / 2)) =
      { v with toCursor := c, m_videomem := mem, stores := stores } := by
    split_ifs
    · exact ⟨v.m_videomem, v.stores, fun c => rfl⟩
    · exact copyCells_frame v _ _
  obtain ⟨mem, stores, hcopy⟩ := hcopy
  obtain ⟨mem', stores', hset⟩ := setCells_frame { v with m_videomem := mem, stores := stores }
    ((v.m_height - 1) * v.m_width).toNat v.m_width.toNat 0
  refine ⟨mem', stores', fun c => ?_⟩
  rw [shift]
  dsimp only
  rw [hcopy c]
  exact congrArg (fun u : Video => { u with m_y := u.m_height - 2 }) (hset c)

end Frames

section Rows
variable {v : Video} {c : Char8}

theorem scroll_below {y y' : Word} (hy : v.m_height ≤ y) (hy' : v.m_height ≤ y') :
    scroll { v with m_x := 0, m_y := y, m_origin := 0 } = scroll { v with m_x := 0, m_y := y', m_origin := 0 } := by
  obtain ⟨mem, stores, hshift⟩ := shift_frame v
  have hleft := hshift ⟨0, y, 0⟩
  have hright := hshift ⟨0, y', 0⟩
  rw [scroll, scroll, if_pos hy, if_pos hy', hleft, hright]

theorem shift_m_y (v : Video) : (shift v).m_y = v.m_height - 2 ∧ (shift v).m_height = v.m_height := by
  obtain ⟨mem, stores, hshift⟩ := shift_frame v
  have hv := hshift v.toCursor
  change shift v = _ at hv
  rw [hv]
  exact ⟨rfl, rfl⟩

theorem scroll_m_y (v : Video) : (scroll v).m_y = rowAfter v.m_height v.m_y ∧ (scroll v).m_height = v.m_height := by
  rw [scroll, rowAfter]
  generalize hu : (if v.m_height ≤ v.m_y then v.shift else v) = u
  have hshifted : u.m_y = (if v.m_height ≤ v.m_y then v.m_height - 2 else v.m_y) ∧ u.m_height = v.m_height := by
    rw [← hu]
    split
    · exact shift_m_y v
    · exact ⟨rfl, rfl⟩
  generalize ht : (if u.m_width ≤ u.m_x then { u with m_x := 0 } else u) = t
  have hcolumn : t.m_y = u.m_y ∧ t.m_height = u.m_height := by
    rw [← ht]
    split
    · exact ⟨rfl, rfl⟩
    · exact ⟨rfl, rfl⟩
  rw [← hshifted.1, ← hcolumn.1, ← hshifted.2, ← hcolumn.2]
  split
  · exact ⟨rfl, rfl⟩
  · exact ⟨rfl, rfl⟩

theorem rowAfter_of_lt {height y : Word} (h : y < height) : rowAfter height y = y := by
  have hin : ¬ height ≤ y := BitVec.not_le.mpr h
  rw [rowAfter, if_neg hin, if_neg (BitVec.not_lt.mpr (BitVec.le_of_lt h))]

theorem rowAfter_lt {height y : Word} (hy : y ≤ height) (hheight : 0 < height) : rowAfter height y < height := by
  by_cases hin : y < height
  · rw [rowAfter_of_lt hin]
    exact hin
  · rw [rowAfter, if_pos (BitVec.not_lt.mp hin)]
    split_ifs
    · bv_omega
    · bv_omega

theorem scroll_onScreen (hy : v.m_y ≤ v.m_height) (hheight : 0 < v.m_height) :
    (scroll v).m_y < (scroll v).m_height := by
  obtain ⟨hrow, hsame⟩ := scroll_m_y v
  rw [hrow, hsame]
  exact rowAfter_lt hy hheight

theorem putCh_onScreen (c : Char8) (hy : v.m_y < v.m_height) : (putCh v c).m_y < (putCh v c).m_height := by
  have hheight : 0 < v.m_height := by bv_omega
  have hnext : v.m_y + 1 ≤ v.m_height := by bv_omega
  rw [putCh]
  split
  · exact scroll_onScreen (v := { v with m_x := 0, m_y := v.m_y + 1, m_origin := 0 }) hnext hheight
  split
  · split
    · exact hy
    · exact hy
  split
  · dsimp only
    split
    · exact hy
    · exact hy
  · dsimp only
    split
    · exact scroll_onScreen (v := { v with m_x := v.m_x - v.m_width, m_y := v.m_y + 1 }) hnext hheight
    · exact scroll_onScreen (BitVec.le_of_lt hy) hheight

end Rows

section Paths
variable {v : Video} {c : Char8} {cp part rest : List Char8}

theorem handleChar_newline (v : Video) : handleChar v 0x0A = putCh { v with m_x := 0, m_y := v.m_y + 1 } 0x0A := by
  have hchar : ¬ (0x0A : Char8) = 0 := by decide
  rw [handleChar, if_neg hchar, if_pos rfl]

theorem putCh_newline (v : Video) : putCh v 0x0A = scroll { v with m_x := 0, m_y := v.m_y + 1, m_origin := 0 } := by
  rw [putCh, if_pos rfl]

/-- The two row steps of `handleChar` come to the same as one from the last row. -/
theorem newline_of_lastRow (h : LastRow v) : handleChar v 0x0A = putCh v 0x0A := by
  obtain ⟨hlast, hroom⟩ := h
  have htwo : v.m_height ≤ v.m_y + 1 + 1 := by
    rw [hlast]
    bv_omega
  have hone : v.m_height ≤ v.m_y + 1 := by
    rw [hlast]
    bv_omega
  rw [handleChar_newline, putCh_newline, putCh_newline]
  exact scroll_below htwo hone

theorem handleChar_eq (hnul : c ≠ 0) (hline : c = 0x0A → LastRow v) : handleChar v c = putCh v c := by
  by_cases hc : c = 0x0A
  · rw [hc]
    exact newline_of_lastRow (hline hc)
  · rw [handleChar, if_neg hnul, if_neg hc]

theorem lastRow_of_newline (hy : v.m_y < v.m_height) (h : (handleChar v 0x0A).m_y = (putCh v 0x0A).m_y) :
    LastRow v := by
  have hheight : v.m_y + 1 ≤ v.m_height := by bv_omega
  rw [handleChar_newline, putCh_newline, putCh_newline, (scroll_m_y _).1, (scroll_m_y _).1] at h
  change rowAfter v.m_height (v.m_y + 1 + 1) = rowAfter v.m_height (v.m_y + 1) at h
  by_cases hlast : v.m_y + 1 = v.m_height
  · refine ⟨hlast, fun hwrap => ?_⟩
    -- the row number wraps to zero, and the screen is not shifted
    rw [hlast, hwrap, rowAfter_of_lt (by bv_omega)] at h
    rw [rowAfter, if_pos (BitVec.le_refl _)] at h
    split_ifs at h
    · bv_omega
    · bv_omega
  · rw [rowAfter_of_lt (y := v.m_y + 1) (by bv_omega)] at h
    by_cases hnext : v.m_y + 1 + 1 < v.m_height
    · rw [rowAfter_of_lt hnext] at h
      bv_omega
    · rw [rowAfter, if_pos (BitVec.not_lt.mp hnext)] at h
      split_ifs at h
      · bv_omega
      · bv_omega

/-- As long as every newline comes in the last row, the two ways do the same. -/
theorem write_eq (h : NewlinesLast v cp) (hnul : 0 ∉ cp) : write v cp = cp.foldl putCh v := by
  induction cp generalizing v with
  | nil => rfl
  | cons c cp ih =>
    obtain ⟨hline, hrest⟩ := h
    obtain ⟨hne, hnul⟩ := not_or.mp (List.mem_cons.not.mp hnul)
    have hsame := handleChar_eq (Ne.symm hne) hline
    have hgo := ih hrest hnul
    rw [write] at hgo ⊢
    rw [List.foldl_cons, List.foldl_cons, hsame]
    exact hgo

theorem newlinesLast_of_append (h : NewlinesLast v (part ++ rest)) : NewlinesLast v part := by
  induction part generalizing v with
  | nil => trivial
  | cons c part ih => exact ⟨h.1, ih h.2⟩

/-- Newlines are in the last row if the two ways agree at each of them. -/
theorem newlinesLast_of_agree (hy : v.m_y < v.m_height) (hnul : 0 ∉ cp)
    (h : ∀ part, part <+: cp → SameScreen (write v part) (part.foldl putCh v)) : NewlinesLast v cp := by
  induction cp generalizing v with
  | nil => trivial
  | cons c cp ih =>
    obtain ⟨hne, hnul⟩ := not_or.mp (List.mem_cons.not.mp hnul)
    have hone := h [c] ⟨cp, rfl⟩
    have hline : c = 0x0A → LastRow v := by
      rintro rfl
      exact lastRow_of_newline hy hone.m_y
    have hsame := handleChar_eq (Ne.symm hne) hline
    refine ⟨hline, ih (putCh_onScreen c hy) hnul fun part hpart => ?_⟩
    have hnext := h (c :: part) (List.cons_prefix_cons.mpr ⟨rfl, hpart⟩)
    rw [write, List.foldl_cons, List.foldl_cons, hsame] at hnext
    exact hnext

end Paths

/-- The two ways agree along a text exactly when each of its newlines comes in the last row. -/
theorem pathsAgree_iff {v : Video} {cp : List Char8} (hv : OnScreen v) (hnul : 0 ∉ cp) :
    PathsAgree v cp ↔ NewlinesLast v cp := by
  have hprint : ∀ part, part <+: cp → (print v part).1 = part.foldl putCh v := by
    intro part hpart
    rw [print_eq_foldl v fun hmem => hnul (hpart.subset hmem)]
  constructor
  · intro hagree
    refine newlinesLast_of_agree hv.2 hnul fun part hpart => ?_
    rw [← hprint part hpart]
    exact hagree part hpart
  · intro hlines part hpart
    obtain ⟨rest, rfl⟩ := hpart
    have hwrite := write_eq (newlinesLast_of_append hlines) fun hmem => hnul (List.mem_append_left _ hmem)
    rw [hwrite, hprint part (List.prefix_append part rest)]
    exact ⟨rfl, rfl, rfl⟩

/-- A console of two rows with the cursor in the last one. -/
theorem pathsAgree_iff_last : PathsAgree ⟨⟨0, 1, 0⟩, 2, 2, fun _ => 0, [], []⟩ [0x61, 0x0A] :=
  (pathsAgree_iff ⟨by decide, by decide⟩ (by decide)).mpr
    ⟨fun h => absurd h (by decide), fun _ => ⟨by decide, by decide⟩, trivial⟩

/-- From the first row a newline goes one row further by `handleChar`. -/
theorem not_sameScreen_newline : OnScreen ⟨⟨0, 0, 0⟩, 80, 25, fun _ => 0, [], []⟩ ∧
    ¬ SameScreen (write ⟨⟨0, 0, 0⟩, 80, 25, fun _ => 0, [], []⟩ [0x0A])
      (print ⟨⟨0, 0, 0⟩, 80, 25, fun _ => 0, [], []⟩ [0x0A]).1 :=
  ⟨⟨by decide, by decide⟩, fun hsame => absurd hsame.m_y (by decide)⟩

/-- The rows that `scroll` steps the cursor back by. -/
def rowsBack (v : Video) : ℕ := v.m_height.toNat - (scroll v).m_y.toNat

/-- The rows have moved up by as many as the cursor, blank ones follow, and nothing has come from outside. -/
structure ScrollLaw (v : Video) : Prop where
  moved : ∀ row x, row + rowsBack v < v.m_height.toNat → x < v.m_width.toNat →
    (scroll v).m_videomem (row * v.m_width.toNat + x) = v.m_videomem ((row + rowsBack v) * v.m_width.toNat + x)
  blank : ∀ row x, v.m_height.toNat ≤ row + rowsBack v → row < v.m_height.toNat → x < v.m_width.toNat →
    (scroll v).m_videomem (row * v.m_width.toNat + x) = 0
  visible : ∀ mem, (∀ cell < v.m_width.toNat * v.m_height.toNat, mem cell = v.m_videomem cell) →
    ∀ cell < v.m_width.toNat * v.m_height.toNat,
      (scroll { v with m_videomem := mem }).m_videomem cell = (scroll v).m_videomem cell

section Cells
variable {v : Video} {src dest count i : ℕ} {cell : Cell}

theorem copyCells_copied (v : Video) (hsrc : 0 < src) (count : ℕ) :
    Copied id (fun i => src + i) count v.m_videomem (copyCells v src count).m_videomem := by
  induction count with
  | zero => exact Filled.zero
  | succ count ih =>
    refine Copied.append ih ?_ (fun i hi j hj => ?_) (fun i hi j hj => ?_)
    · exact Filled.update
    · change i ≠ src + (count + j)
      omega
    · change i ≠ count + j
      omega

theorem setCells_filled (v : Video) (dest : ℕ) (cell : Cell) (count : ℕ) :
    Filled (fun i => dest + i) (fun _ => cell) count v.m_videomem (setCells v dest cell count).m_videomem := by
  induction count with
  | zero => exact Filled.zero
  | succ count ih =>
    refine Filled.append ih ?_ (fun i hi j hj => ?_)
    · exact Filled.update
    · omega

theorem scroll_m_videomem (h : v.m_height ≤ v.m_y) : (scroll v).m_videomem = (shift v).m_videomem := by
  rw [scroll, if_pos h]
  split_ifs <;> rfl

theorem shift_apply (hi : i < ((v.m_height - 1) * v.m_width).toNat ∨
      ((v.m_height - 1) * v.m_width).toNat + v.m_width.toNat ≤ i) :
    (shift v).m_videomem i = if SCROLL_SIZE * v.m_width * 2 ≠ 0 ∧ i < ((v.m_height - 1) * v.m_width * 2).toNat / 2
      then v.m_videomem ((SCROLL_SIZE * v.m_width * 2).toNat + i) else v.m_videomem i := by
  have hout : ∀ j < v.m_width.toNat, i ≠ ((v.m_height - 1) * v.m_width).toNat + j := fun j hj => by omega
  by_cases hsrc : SCROLL_SIZE * v.m_width * 2 = 0
  · rw [shift, if_pos hsrc, if_neg fun h => h.1 hsrc]
    exact (setCells_filled v _ 0 _).outside i hout
  · have hpos : 0 < (SCROLL_SIZE * v.m_width * 2).toNat :=
      Nat.pos_of_ne_zero fun h => hsrc (BitVec.eq_of_toNat_eq h)
    have hcopied := copyCells_copied v hpos (((v.m_height - 1) * v.m_width * 2).toNat / 2)
    have hwidth : (copyCells v (SCROLL_SIZE * v.m_width * 2).toNat
        (((v.m_height - 1) * v.m_width * 2).toNat / 2)).m_width = v.m_width := by
      obtain ⟨mem, stores, hframe⟩ := copyCells_frame v (SCROLL_SIZE * v.m_width * 2).toNat
        (((v.m_height - 1) * v.m_width * 2).toNat / 2)
      have hat := congrArg m_width (hframe v.toCursor)
      exact hat
    rw [shift, if_neg hsrc]
    dsimp only
    rw [hwidth, (setCells_filled _ _ 0 _).outside i hout]
    split_ifs with h
    · exact hcopied.inside i h.2
    · exact hcopied.outside i fun j hj he => h ⟨hsrc, he ▸ hj⟩

/-- The code steps back two rows. -/
theorem rowsBack_eq_two (hh : 2 ≤ v.m_height) (hy : v.m_y = v.m_height) : rowsBack v = 2 := by
  have hrow : rowAfter v.m_height v.m_height = v.m_height - 2 := by
    rw [rowAfter, if_pos (BitVec.le_refl _), if_neg (by bv_omega)]
  rw [rowsBack, (scroll_m_y v).1, hy, hrow]
  bv_omega

/-- Only one row is blanked: of a screen full of one character some of the last two rows stays. -/
theorem not_scrollLaw_full (hw : 1 ≤ v.m_width) (hh : 2 ≤ v.m_height) (hy : v.m_y = v.m_height)
    (hmem : ∀ i, v.m_videomem i = 7) : ¬ ScrollLaw v := by
  intro hlaw
  have hwidth : 1 ≤ v.m_width.toNat := hw
  have hheight : 2 ≤ v.m_height.toNat := hh
  have hback := rowsBack_eq_two hh hy
  have hscroll := scroll_m_videomem (v := v) (BitVec.le_of_eq hy.symm)
  have hstays : ∀ i, (i < ((v.m_height - 1) * v.m_width).toNat ∨
      ((v.m_height - 1) * v.m_width).toNat + v.m_width.toNat ≤ i) → (scroll v).m_videomem i = 7 := by
    intro i hi
    rw [hscroll, shift_apply hi, hmem, hmem, ite_self]
  have hnext : (v.m_height.toNat - 1) * v.m_width.toNat =
      (v.m_height.toNat - 2) * v.m_width.toNat + v.m_width.toNat := by
    rw [← Nat.succ_mul]
    congr 1
    omega
  have hlow := hlaw.blank (v.m_height.toNat - 2) 0 (by omega) (by omega) (by omega)
  have hhigh := hlaw.blank (v.m_height.toNat - 1) 0 (by omega) (by omega) (by omega)
  rw [Nat.add_zero] at hlow hhigh
  by_cases hin : ((v.m_height - 1) * v.m_width).toNat ≤ (v.m_height.toNat - 2) * v.m_width.toNat
  · rw [hstays _ (.inr (by omega))] at hhigh
    exact absurd hhigh (by decide)
  · rw [hstays _ (.inl (by omega))] at hlow
    exact absurd hlow (by decide)

theorem scroll_lastRow (hw : 1 ≤ v.m_width) (hh : 2 ≤ v.m_height) (hy : v.m_y = v.m_height)
    (hfit : 2 * (v.m_width.toNat * v.m_height.toNat) ≤ 2 ^ 32) :
    (scroll v).m_videomem ((v.m_height.toNat - 2) * v.m_width.toNat) =
      v.m_videomem (v.m_width.toNat * v.m_height.toNat) := by
  have hwidth : 1 ≤ v.m_width.toNat := hw
  have hheight : 2 ≤ v.m_height.toNat := hh
  obtain ⟨k, hk⟩ := Nat.exists_eq_add_of_le hheight
  have hsize : v.m_width.toNat * v.m_height.toNat = k * v.m_width.toNat + 2 * v.m_width.toNat := by
    rw [hk, Nat.mul_comm, Nat.add_comm 2 k, Nat.add_mul]
  have htop : (v.m_height - 1).toNat = k + 1 := by bv_omega
  have hss : ((v.m_height - 1) * v.m_width).toNat = k * v.m_width.toNat + v.m_width.toNat := by
    rw [BitVec.toNat_mul, htop, Nat.add_one_mul, Nat.mod_eq_of_lt (by omega)]
  have hbytes : ((v.m_height - 1) * v.m_width * 2).toNat = (k * v.m_width.toNat + v.m_width.toNat) * 2 := by
    have htwo : (2 : Word).toNat = 2 := rfl
    rw [BitVec.toNat_mul, hss, htwo, Nat.mod_eq_of_lt (by omega)]
  have hsrc : (SCROLL_SIZE * v.m_width * 2).toNat = 2 * v.m_width.toNat := by
    rw [SCROLL_SIZE]
    bv_omega
  have hne : SCROLL_SIZE * v.m_width * 2 ≠ 0 := by
    intro hzero
    rw [hzero] at hsrc
    change 0 = _ at hsrc
    omega
  have hpred : v.m_height.toNat - 2 = k := by omega
  rw [scroll_m_videomem (BitVec.le_of_eq hy.symm), hpred, shift_apply (.inl (by omega)), if_pos ⟨hne, by omega⟩,
    hsrc, hsize, Nat.add_comm]

/-- What lies behind the screen shows up on it. -/
theorem not_scrollLaw_fit (hw : 1 ≤ v.m_width) (hh : 2 ≤ v.m_height) (hy : v.m_y = v.m_height)
    (hfit : 2 * (v.m_width.toNat * v.m_height.toNat) ≤ 2 ^ 32) : ¬ ScrollLaw v := by
  intro hlaw
  have hwidth : 1 ≤ v.m_width.toNat := hw
  have hheight : 2 ≤ v.m_height.toNat := hh
  have hcell : (v.m_height.toNat - 2) * v.m_width.toNat < v.m_width.toNat * v.m_height.toNat := by
    rw [Nat.mul_comm v.m_width.toNat]
    exact Nat.mul_lt_mul_of_pos_right (by omega) hwidth
  obtain ⟨mem, hagree, hother⟩ : ∃ mem : ℕ → Cell,
      (∀ cell < v.m_width.toNat * v.m_height.toNat, mem cell = v.m_videomem cell) ∧
      mem (v.m_width.toNat * v.m_height.toNat) ≠ v.m_videomem (v.m_width.toNat * v.m_height.toNat) := by
    refine ⟨Function.update v.m_videomem (v.m_width.toNat * v.m_height.toNat)
      (v.m_videomem (v.m_width.toNat * v.m_height.toNat) + 1), fun cell hlt => ?_, ?_⟩
    · exact Function.update_of_ne (Nat.ne_of_lt hlt) _ _
    · rw [Function.update_self]
      bv_omega
  have hsame := hlaw.visible mem hagree _ hcell
  have hmem := scroll_lastRow (v := { v with m_videomem := mem }) hw hh hy hfit
  exact hother (hmem.symm.trans (hsame.trans (scroll_lastRow hw hh hy hfit)))

end Cells

/-- No geometry keeps its screen consistent for all contents, and none whose cells have addresses for any. -/
theorem not_scrollLaw {v : Video} (hw : 1 ≤ v.m_width) (hh : 2 ≤ v.m_height) (hy : v.m_y = v.m_height) :
    (∃ mem, ¬ ScrollLaw { v with m_videomem := mem }) ∧
      (2 * (v.m_width.toNat * v.m_height.toNat) ≤ 2 ^ 32 → ¬ ScrollLaw v) :=
  ⟨⟨fun _ => 7, not_scrollLaw_full (v := { v with m_videomem := fun _ => 7 }) hw hh hy fun _ => rfl⟩,
    not_scrollLaw_fit hw hh hy⟩

theorem not_scrollLaw_text : ¬ ScrollLaw ⟨⟨0, 25, 0⟩, 80, 25, fun _ => 0, [], []⟩ :=
  (not_scrollLaw (v := ⟨⟨0, 25, 0⟩, 80, 25, fun _ => 0, [], []⟩) (by decide) (by decide) (by decide)).2 (by decide)

/-- A text screen of 80 by 25 cells that is full of one character. -/
theorem not_scrollLaw_sevens : ¬ ScrollLaw ⟨⟨0, 25, 0⟩, 80, 25, fun _ => 7, [], []⟩ :=
  not_scrollLaw_full (by decide) (by decide) rfl fun _ => rfl

end CxxKernel.Devices.Video
