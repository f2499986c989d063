import CxxKernel.Devices.FB
import Mathlib.Tactic.Ring

/-! `FB::putPixel`: the stores of its two versions into the back buffer. An `int` has 32 bits, and its arithmetic
wraps. -/
namespace CxxKernel.Devices

/-- The bytes that are written, with their places behind the start of the back buffer. -/
abbrev Stores := List (Word × BitVec 8)

/-- The store of the low `n` bytes of a value. -/
def Stores.put (pos val : Word) (n : ℕ) : Stores :=
  (List.range n).map fun i => (pos + BitVec.ofNat 32 i, (val >>> (8 * i)).setWidth 8)

namespace FB

/-- `putPixel` with the components of the color. -/
def putPixelRgba (fb : FB) (x y : Word) (r g b a : BitVec 8) : Stores :=
  if fb.m_backbuffer = .null then []
  else
    match fb.m_current with
    | none => []
    | some mode =>
      let x := if mode.width.sle x then mode.width - 1 else x
      let y := if mode.height.sle y then mode.height - 1 else y
      if mode.depth = 16 then
        let pos := y * mode.bytes_per_line.setWidth 32 + x * 2
        let color := (r &&& 0x7C).setWidth 32 <<< 8
        let color := color + (g &&& 0x7E).setWidth 32 <<< 2
        let color := color + (b &&& 0x7C).setWidth 32 >>> 3
        .put pos color 2
      else if mode.depth = 24 then
        let pos := y * mode.bytes_per_line.setWidth 32 + x * 3
        [(pos, r), (pos + 1, g), (pos + 2, b)]
      else if mode.depth = 32 then
        let pos := y * mode.bytes_per_line.setWidth 32 + x * 4
        let color := a.setWidth 32 <<< 24 + r.setWidth 32 <<< 16 + g.setWidth 32 <<< 8 + b.setWidth 32
        .put pos color 4
      else []

def blue (color : Word) : BitVec 8 := (color &&& 0xFF).setWidth 8
def green (color : Word) : BitVec 8 := (color >>> 8 &&& 0xFF).setWidth 8
def red (color : Word) : BitVec 8 := (color >>> 16 &&& 0xFF).setWidth 8
def alpha (color : Word) : BitVec 8 := (color >>> 24 &&& 0xFF).setWidth 8

/-- `putPixel` with the color in one word, which takes the components to the other version unless the mode has
32 bits. -/
def putPixel (fb : FB) (x y color : Word) : Stores :=
  let components := fb.putPixelRgba x y (red color) (green color) (blue color) (alpha color)
  if fb.m_backbuffer = .null then components
  else
    match fb.m_current with
    | none => components
    | some mode =>
      if mode.depth = 32 then
        let x := x.srem mode.width
        let y := y.srem mode.height
        .put (y * mode.bytes_per_line.setWidth 32 + x * 4) color 4
      else components

end FB

/-- A coordinate that `putPixelRgba` brings back. -/
def clampTo (n v : ℤ) : ℤ := if n ≤ v then n - 1 else v

/-- How far the remainder, which `putPixel` takes, is from that. -/
def gap (n v : ℤ) : ℤ := v.tmod n - clampTo n v

namespace FB

def screenSize (mode : ModeConfig) : ℕ := mode.bytes_per_line.toNat * mode.height.toNat

def Inside (mode : ModeConfig) (stores : Stores) : Prop := ∀ s ∈ stores, s.1.toNat < screenSize mode

/-- Both versions store the same bytes at the same places, inside the back buffer. -/
def PixelLaw (fb : FB) (mode : ModeConfig) (x y color : Word) : Prop :=
  fb.putPixel x y color = fb.putPixelRgba x y (red color) (green color) (blue color) (alpha color) ∧
    Inside mode (fb.putPixel x y color) ∧
    Inside mode (fb.putPixelRgba x y (red color) (green color) (blue color) (alpha color))

section Color

theorem toNat_component (color : Word) (s : ℕ) :
    ((color >>> s &&& 0xFF).setWidth 8 : BitVec 8).toNat = color.toNat / 2 ^ s % 2 ^ 8 := by
  have hmask : (0xFF : Word).toNat = 2 ^ 8 - 1 := rfl
  rw [BitVec.toNat_setWidth, BitVec.toNat_and, hmask, Nat.and_two_pow_sub_one_eq_mod, BitVec.toNat_ushiftRight,
    Nat.shiftRight_eq_div_pow, Nat.mod_mod]

theorem color_parts (color : Word) : (alpha color).setWidth 32 <<< 24 + (red color).setWidth 32 <<< 16 +
    (green color).setWidth 32 <<< 8 + (blue color).setWidth 32 = color := by
  have halpha : (alpha color).toNat = color.toNat / 2 ^ 24 % 2 ^ 8 := toNat_component color 24
  have hred : (red color).toNat = color.toNat / 2 ^ 16 % 2 ^ 8 := toNat_component color 16
  have hgreen : (green color).toNat = color.toNat / 2 ^ 8 % 2 ^ 8 := toNat_component color 8
  have hblue : (blue color).toNat = color.toNat / 2 ^ 0 % 2 ^ 8 := toNat_component color 0
  have hlt := color.isLt
  apply BitVec.eq_of_toNat_eq
  simp only [BitVec.toNat_add, BitVec.toNat_shiftLeft, BitVec.toNat_setWidth, Nat.shiftLeft_eq, halpha, hred, hgreen,
    hblue]
  omega

end Color

section Places
variable {mode : ModeConfig} {x y pos pos' val : Word}

theorem put_eq_iff : Stores.put pos val 4 = Stores.put pos' val 4 ↔ pos = pos' := by
  constructor
  · intro h
    have hhead : pos + BitVec.ofNat 32 0 = pos' + BitVec.ofNat 32 0 := congrArg (fun l => (l.headD (0, 0)).1) h
    have hzero (w : Word) : w + BitVec.ofNat 32 0 = w := BitVec.add_zero w
    rwa [hzero, hzero] at hhead
  · rintro rfl
    rfl

theorem inside_put_iff : Inside mode (.put pos val 4) ↔
    ∀ i < 4, (pos + BitVec.ofNat 32 i).toNat < screenSize mode := by
  unfold Inside Stores.put
  simp only [List.mem_map, List.mem_range, forall_exists_index, and_imp, forall_apply_eq_imp_iff₂]

/-- The place of a pixel, as a number. -/
def place (mode : ModeConfig) (x y : ℤ) : ℤ := y * mode.bytes_per_line.toNat + x * 4

theorem place_eq (mode : ModeConfig) (x y : Word) :
    y * mode.bytes_per_line.setWidth 32 + x * 4 = BitVec.ofInt 32 (place mode x.toInt y.toInt) := by
  have hline : (mode.bytes_per_line.setWidth 32 : Word) = BitVec.ofInt 32 mode.bytes_per_line.toNat := by
    apply BitVec.eq_of_toNat_eq
    have hlt := mode.bytes_per_line.isLt
    rw [BitVec.toNat_setWidth, BitVec.toNat_ofInt]
    omega
  have hfour : (4 : Word) = BitVec.ofInt 32 4 := rfl
  rw [place, BitVec.ofInt_add, BitVec.ofInt_mul, BitVec.ofInt_mul, BitVec.ofInt_toInt, BitVec.ofInt_toInt,
    hline, hfour]

theorem ofInt_eq_iff (a b : ℤ) : BitVec.ofInt 32 a = BitVec.ofInt 32 b ↔ (2 ^ 32 : ℤ) ∣ a - b := by
  rw [← BitVec.toNat_inj, BitVec.toNat_ofInt, BitVec.toNat_ofInt]
  omega

theorem toInt_clamp {n v : Word} (hn : 1 ≤ n.toInt) :
    (if n.sle v then n - 1 else v).toInt = clampTo n.toInt v.toInt := by
  have hsle : n.sle v = true ↔ n.toInt ≤ v.toInt := by
    rw [BitVec.sle, decide_eq_true_eq]
  rw [clampTo]
  by_cases hle : n.toInt ≤ v.toInt
  · have hlt := @BitVec.two_mul_toInt_lt 32 n
    have hone : (1 : Word).toInt = 1 := rfl
    rw [if_pos (hsle.mpr hle), if_pos hle, BitVec.toInt_sub, hone]
    exact Int.bmod_eq_of_le (by omega) (by omega)
  · rw [if_neg (mt hsle.mp hle), if_neg hle]

/-- The four bytes of a pixel at a place that is less than a buffer away from the start. -/
theorem inside_ofInt_iff {size : ℕ} {z : ℤ} (hlow : -(size : ℤ) < z) (hhigh : z + 3 < size) (hneg : z < 0 → z ≤ -4) :
    (∀ i < 4, (BitVec.ofInt 32 z + BitVec.ofNat 32 i).toNat < size) ↔ 0 ≤ z ∨ z + 3 + 2 ^ 32 < size := by
  have hbyte (i : ℕ) : (BitVec.ofInt 32 z + BitVec.ofNat 32 i).toNat = ((z + i) % 2 ^ 32).toNat := by
    have hi : BitVec.ofNat 32 i = BitVec.ofInt 32 i := (BitVec.ofInt_natCast 32 i).symm
    rw [hi, ← BitVec.ofInt_add, BitVec.toNat_ofInt]
    rfl
  constructor
  · intro h
    have hlast := h 3 (by decide)
    rw [hbyte] at hlast
    omega
  · intro h i hi
    rw [hbyte]
    omega

/-- A place of the wrapped coordinates is in front of the buffer where the row is, or the column in row 0. -/
theorem place_nonneg_iff {w fx fy : ℤ} (hline : 4 * w ≤ mode.bytes_per_line.toNat) (hleft : -w < fx)
    (hright : fx < w) :
    0 ≤ place mode fx fy ↔ 0 < fy ∨ fy = 0 ∧ 0 ≤ fx := by
  unfold place
  generalize (mode.bytes_per_line.toNat : ℤ) = line at hline ⊢
  rcases lt_trichotomy fy 0 with hneg | rfl | hpos
  · have hrow : fy * line ≤ -1 * line := Int.mul_le_mul_of_nonneg_right (by omega) (by omega)
    constructor <;> omega
  · rw [Int.zero_mul]
    omega
  · have hrow : 1 * line ≤ fy * line := Int.mul_le_mul_of_nonneg_right (by omega) (by omega)
    constructor <;> omega

theorem place_bounds {w h fx fy : ℤ} (hline : 4 * w ≤ mode.bytes_per_line.toNat) (hleft : -w < fx) (hright : fx < w)
    (htop : -h < fy) (hbottom : fy < h) :
    -(mode.bytes_per_line.toNat * h) < place mode fx fy ∧
      place mode fx fy + 3 < mode.bytes_per_line.toNat * h ∧ (place mode fx fy < 0 → place mode fx fy ≤ -4) := by
  have hsign := @place_nonneg_iff mode w fx fy hline hleft hright
  unfold place at hsign ⊢
  generalize (mode.bytes_per_line.toNat : ℤ) = line at hline hsign ⊢
  have hlow : (1 - h) * line ≤ fy * line := Int.mul_le_mul_of_nonneg_right (by omega) (by omega)
  have hhigh : fy * line ≤ (h - 1) * line := Int.mul_le_mul_of_nonneg_right (by omega) (by omega)
  have hsub : (1 - h) * line = line - line * h := by ring
  have hsub' : (h - 1) * line = line * h - line := by ring
  refine ⟨by omega, by omega, fun hneg => ?_⟩
  have hfy : fy < 0 ∨ fy = 0 ∧ fx < 0 := by omega
  rcases hfy with hfy | ⟨rfl, hfx⟩
  · have hrow : fy * line ≤ -1 * line := Int.mul_le_mul_of_nonneg_right (by omega) (by omega)
    omega
  · rw [Int.zero_mul]
    omega

end Places

/-- A mode of 32 bits. -/
structure Mode32 (mode : ModeConfig) : Prop where
  depth : mode.depth = 32
  width : 1 ≤ mode.width.toInt
  height : 1 ≤ mode.height.toInt
  line : 4 * mode.width.toInt ≤ mode.bytes_per_line.toNat

section Law
variable {fb : FB} {mode : ModeConfig} {x y color : Word}

theorem putPixel_eq (hbuf : fb.m_backbuffer ≠ .null) (hcur : fb.m_current = some mode) (hmode : Mode32 mode)
    (x y color : Word) : fb.putPixel x y color = .put (BitVec.ofInt 32
      (place mode (x.toInt.tmod mode.width.toInt) (y.toInt.tmod mode.height.toInt))) color 4 := by
  rw [putPixel, if_neg hbuf, hcur]
  dsimp only
  rw [if_pos hmode.depth, place_eq, BitVec.toInt_srem, BitVec.toInt_srem]

theorem putPixelRgba_eq (hbuf : fb.m_backbuffer ≠ .null) (hcur : fb.m_current = some mode) (hmode : Mode32 mode)
    (x y color : Word) : fb.putPixelRgba x y (red color) (green color) (blue color) (alpha color) =
      .put (BitVec.ofInt 32
        (place mode (clampTo mode.width.toInt x.toInt) (clampTo mode.height.toInt y.toInt))) color 4 := by
  have h16 : mode.depth ≠ 16 := by
    rw [hmode.depth]
    decide
  have h24 : mode.depth ≠ 24 := by
    rw [hmode.depth]
    decide
  rw [putPixelRgba, if_neg hbuf, hcur]
  dsimp only
  rw [if_neg h16, if_neg h24, if_pos hmode.depth, color_parts, place_eq, toInt_clamp hmode.width,
    toInt_clamp hmode.height]

theorem screenSize_eq (hmode : Mode32 mode) :
    (screenSize mode : ℤ) = mode.bytes_per_line.toNat * mode.height.toInt := by
  have hheight := hmode.height
  have hnat : (mode.height.toNat : ℤ) = mode.height.toInt := by
    rw [BitVec.toInt_eq_toNat_cond] at hheight ⊢
    split_ifs at hheight ⊢ <;> omega
  rw [screenSize, Nat.cast_mul, hnat]

/-- The coordinates that the two versions bring back are at the same place, up to the wrap of 32 bits. -/
def SamePlace (mode : ModeConfig) (x y : Word) : Prop :=
  (2 ^ 32 : ℤ) ∣ gap mode.height.toInt y.toInt * mode.bytes_per_line.toNat + gap mode.width.toInt x.toInt * 4

/-- The remainders are not in front of the buffer, unless it is so large that their place wraps into it. -/
def NotInFront (mode : ModeConfig) (x y : Word) : Prop :=
  (0 < y.toInt.tmod mode.height.toInt ∨
    y.toInt.tmod mode.height.toInt = 0 ∧ 0 ≤ x.toInt.tmod mode.width.toInt) ∨
  place mode (x.toInt.tmod mode.width.toInt) (y.toInt.tmod mode.height.toInt) + 3 + 2 ^ 32 < screenSize mode

theorem same_iff (hbuf : fb.m_backbuffer ≠ .null) (hcur : fb.m_current = some mode) (hmode : Mode32 mode)
    (x y color : Word) :
    fb.putPixel x y color = fb.putPixelRgba x y (red color) (green color) (blue color) (alpha color) ↔
      SamePlace mode x y := by
  have hgap : place mode (x.toInt.tmod mode.width.toInt) (y.toInt.tmod mode.height.toInt) -
      place mode (clampTo mode.width.toInt x.toInt) (clampTo mode.height.toInt y.toInt) =
        gap mode.height.toInt y.toInt * mode.bytes_per_line.toNat + gap mode.width.toInt x.toInt * 4 := by
    unfold place gap
    ring
  rw [putPixel_eq hbuf hcur hmode, putPixelRgba_eq hbuf hcur hmode, put_eq_iff, ofInt_eq_iff, hgap, SamePlace]

theorem inside_iff (hbuf : fb.m_backbuffer ≠ .null) (hcur : fb.m_current = some mode) (hmode : Mode32 mode)
    (x y color : Word) : Inside mode (fb.putPixel x y color) ↔ NotInFront mode x y := by
  have hwidth : 0 < mode.width.toInt := hmode.width
  have hheight : 0 < mode.height.toInt := hmode.height
  have hleft := Int.lt_tmod_of_pos x.toInt hwidth
  have hright := Int.tmod_lt_of_pos x.toInt hwidth
  have htop := Int.lt_tmod_of_pos y.toInt hheight
  have hbottom := Int.tmod_lt_of_pos y.toInt hheight
  obtain ⟨hlow, hhigh, hneg⟩ := place_bounds hmode.line hleft hright htop hbottom
  rw [← screenSize_eq hmode] at hlow hhigh
  rw [putPixel_eq hbuf hcur hmode, inside_put_iff, inside_ofInt_iff hlow hhigh hneg,
    place_nonneg_iff hmode.line hleft hright, NotInFront]

/-- The two versions agree, inside of the buffer, exactly if they bring the coordinates back to the same place
and this is not in front of it. -/
theorem pixelLaw_iff (hbuf : fb.m_backbuffer ≠ .null) (hcur : fb.m_current = some mode) (hmode : Mode32 mode)
    (x y color : Word) : PixelLaw fb mode x y color ↔ SamePlace mode x y ∧ NotInFront mode x y := by
  rw [PixelLaw, ← same_iff hbuf hcur hmode x y color, ← inside_iff hbuf hcur hmode x y color]
  constructor
  · rintro ⟨heq, hin, -⟩
    exact ⟨heq, hin⟩
  · rintro ⟨heq, hin⟩
    exact ⟨heq, hin, heq ▸ hin⟩

theorem gap_of_onScreen {n v : ℤ} (hle : 0 ≤ v) (hlt : v < n) : gap n v = 0 := by
  rw [gap, clampTo, if_neg (by omega), Int.tmod_eq_of_lt hle hlt, Int.sub_self]

theorem onScreen {mode : ModeConfig} {x y : Word} (hx : 0 ≤ x.toInt) (hx' : x.toInt < mode.width.toInt)
    (hy : 0 ≤ y.toInt) (hy' : y.toInt < mode.height.toInt) : SamePlace mode x y ∧ NotInFront mode x y := by
  constructor
  · rw [SamePlace, gap_of_onScreen hy hy', gap_of_onScreen hx hx', Int.zero_mul, Int.zero_mul]
    exact Int.dvd_zero _
  · rw [NotInFront, Int.tmod_eq_of_lt hx hx', Int.tmod_eq_of_lt hy hy']
    left
    omega

/-- Behind the screen the remainder goes back to the last row or column, or further. -/
theorem gap_of_nonneg {n v : ℤ} (hn : 0 < n) (hv : 0 ≤ v) :
    -n < gap n v ∧ gap n v ≤ 0 ∧ (gap n v = 0 ↔ v < n ∨ v % n = n - 1) := by
  have hlow := Int.emod_nonneg v (Int.ne_of_gt hn)
  have hhigh := Int.emod_lt_of_pos v hn
  by_cases hlt : v < n
  · rw [gap_of_onScreen hv hlt]
    simp [hn, hlt]
  · rw [gap, clampTo, if_pos (by omega), Int.tmod_eq_emod_of_nonneg hv]
    omega

/-- For coordinates that are not negative the two versions come to the same place only where both coordinates do. -/
theorem samePlace_iff_of_nonneg (hmode : Mode32 mode) (hsize : screenSize mode ≤ 2 ^ 32) (hx : 0 ≤ x.toInt)
    (hy : 0 ≤ y.toInt) : SamePlace mode x y ↔
      (x.toInt < mode.width.toInt ∨ x.toInt % mode.width.toInt = mode.width.toInt - 1) ∧
        (y.toInt < mode.height.toInt ∨ y.toInt % mode.height.toInt = mode.height.toInt - 1) := by
  have hwidth := hmode.width
  have hline := hmode.line
  obtain ⟨hxlow, hxhigh, hxzero⟩ := gap_of_nonneg (Int.lt_of_lt_of_le Int.zero_lt_one hmode.width) hx
  obtain ⟨hylow, hyhigh, hyzero⟩ := gap_of_nonneg (Int.lt_of_lt_of_le Int.zero_lt_one hmode.height) hy
  have harea := screenSize_eq hmode
  rw [← hxzero, ← hyzero, SamePlace]
  generalize gap mode.width.toInt x.toInt = dx at *
  generalize gap mode.height.toInt y.toInt = dy at *
  generalize (mode.bytes_per_line.toNat : ℤ) = line at *
  have hrow : (1 - mode.height.toInt) * line ≤ dy * line := Int.mul_le_mul_of_nonneg_right (by omega) (by omega)
  have hrows : (1 - mode.height.toInt) * line = line - line * mode.height.toInt := by ring
  have hback : dy * line ≤ 0 := Int.mul_nonpos_of_nonpos_of_nonneg hyhigh (by omega)
  constructor
  · intro hdvd
    have hzero : dy * line + dx * 4 = 0 := by omega
    have hdx : dx = 0 := by omega
    refine ⟨hdx, ?_⟩
    have hdy : dy * line = 0 := by omega
    exact (Int.mul_eq_zero.mp hdy).resolve_right (by omega)
  · rintro ⟨rfl, rfl⟩
    rw [Int.zero_mul, Int.zero_mul]
    exact Int.dvd_zero _

end Law

def xga : ModeConfig := ⟨1024, 768, 4096, 32, 0xE0000000⟩

def xgaScreen : FB := ⟨.mm 0, .mm 0, false, some xga, 4096 * 768, false, true, 1, []⟩

theorem xga_mode32 : Mode32 xga := ⟨rfl, by decide, by decide, by decide⟩

theorem pixelLaw_iff_xga : PixelLaw xgaScreen xga 10 20 0xFF8000 ↔ SamePlace xga 10 20 ∧ NotInFront xga 10 20 :=
  pixelLaw_iff (by decide) rfl xga_mode32 10 20 0xFF8000

/-- Right of the screen one version goes to the last column and the other one to the first; left of it both go in
front of the buffer. -/
theorem not_pixelLaw :
    ¬ PixelLaw xgaScreen xga 1024 0 0xFFFFFF ∧ ¬ Inside xga (xgaScreen.putPixel (-1) 0 0xFFFFFF) := by
  constructor
  · intro h
    have hsame := h.1
    revert hsame
    decide
  · intro h
    have hfirst := h (0xFFFFFFFC, 0xFF) (by decide)
    revert hfirst
    decide

end FB

end CxxKernel.Devices
