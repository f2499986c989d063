import Mathlib.Data.List.TakeWhile
import CxxKernel.Devices.Numbers

/-! The formats of `vprintf` as a language: its directives, what they print, and the loop over the characters
of a format as their interpreter. -/
namespace CxxKernel.Devices

/-- What a directive does on the console: it gives a character to `putCh`, or moves the cursor. -/
inductive Action
  | put (ch : Char8)
  | home
  | back
  | tab
  deriving DecidableEq

def Action.isPut : Action → Bool
  | .put _ => true
  | _ => false

/-- An ordinary character of a format, or a conversion with the characters between `%` and its end. -/
inductive Directive
  | plain (ch : Char8)
  | conv (modifiers : List Char8) (ch : Char8)
  deriving DecidableEq

namespace Directive

/-- The characters that end a conversion: `%`, `s`, `x`, `c`, `d` and `u`. -/
def isEnding (ch : Char8) : Bool :=
  ch == 0x25 || ch == 0x73 || ch == 0x78 || ch == 0x63 || ch == 0x64 || ch == 0x75

/-- A digit counts for the width, an `l` for the length, and any other character for nothing. -/
def isDigit (ch : Char8) : Bool := (0x30 : Char8).sle ch && ch.sle 0x39

/-- The width has 32 bits. -/
def width (modifiers : List Char8) : Word :=
  (modifiers.filter isDigit).foldl (fun w ch => w * 10 + (ch - 0x30).signExtend 32) 0

def longs (modifiers : List Char8) : ℕ := modifiers.count 0x6C

/-- The directives up to the end of a format; a conversion that is not ended is none. -/
def parse : Option (List Char8) → List Char8 → List Directive
  | _, [] => []
  | none, ch :: fmt =>
    if ch = 0 then []
    else if ch = 0x25 then parse (some []) fmt
    else plain ch :: parse none fmt
  | some modifiers, ch :: fmt =>
    if ch = 0 then []
    else if isEnding ch then conv modifiers ch :: parse none fmt
    else parse (some (modifiers ++ [ch])) fmt

/-- The characters of a directive. -/
def render : Directive → List Char8
  | plain ch => [ch]
  | conv modifiers ch => 0x25 :: modifiers ++ [ch]

/-- A directive that `parse` can find. -/
def Wellformed : Directive → Prop
  | plain ch => ch ≠ 0 ∧ ch ≠ 0x25
  | conv modifiers ch => isEnding ch = true ∧ ∀ m ∈ modifiers, m ≠ 0 ∧ isEnding m = false

/-- A text behind zeros for its width, of which there are 255 at most. -/
def padded (w : ℤ) (text : List Char8) : List Char8 :=
  List.replicate (min 255 (w - text.length).toNat) 0x30 ++ text

/-- A number with its sign; of the least one the sign is all that is printed. -/
def signedText (val : Word) : List Char8 :=
  if val = BitVec.intMin 32 then [0x2D]
  else if val.slt 0 then 0x2D :: digits 10 (-val).toNat
  else numeral 10 val.toNat

/-- The text of a conversion with the arguments behind those that it takes. -/
def unsigned (radix : ℕ) (modifiers : List Char8) (al : List Video.Arg) : Option (List Char8 × List Video.Arg) :=
  if longs modifiers ≤ 1 then
    match al with
    | .int val :: al => some (padded (width modifiers).toInt (numeral radix val.toNat), al)
    | _ => none
  else if longs modifiers = 2 then
    match al with
    | .longlong val :: al => some (padded (width modifiers).toInt (numeral radix val.toNat), al)
    | _ => none
  else some ([], al)

def conversion (modifiers : List Char8) (ch : Char8) (al : List Video.Arg) : Option (List Char8 × List Video.Arg) :=
  if ch = 0x25 then some ([0x25], al)
  else if ch = 0x73 then
    match al with
    | .str cp :: al => some (cp.takeWhile (· ≠ 0), al)
    | _ => none
  else if ch = 0x78 then unsigned 16 modifiers al
  else if ch = 0x63 then
    match al with
    | .int val :: al => some ([val.setWidth 8], al)
    | _ => none
  else if ch = 0x64 then
    match al with
    | .int val :: al => some (padded (width modifiers).toInt (signedText val), al)
    | _ => none
  else unsigned 10 modifiers al

def plainAction (ch : Char8) : Action :=
  if ch = 0x0D then .home
  else if ch = 0x08 then .back
  else if ch = 0x09 then .tab
  else .put ch

/-- What the directives do, one after another, with these arguments. -/
def actions : List Directive → List Video.Arg → Option (List Action)
  | [], _ => some []
  | plain ch :: ds, al => (actions ds al).map (plainAction ch :: ·)
  | conv modifiers ch :: ds, al => do
    let (text, al) ← conversion modifiers ch al
    let rest ← actions ds al
    some (text.map .put ++ rest)

end Directive

namespace Video

def act (v : Video) : Action → Video
  | .put ch => putCh v ch
  | .home => { v with m_x := 0 }
  | .back =>
    if v.m_x = 0 ∧ 0 < v.m_y then { v with m_y := v.m_y - 1, m_x := v.m_width - 1 }
    else if v.m_y = 0 ∧ v.m_x = 0 then v
    else { v with m_x := v.m_x - 1 }
  | .tab => { v with m_x := v.m_x + TAB_SIZE }

end Video

/-- The number of characters that are given to `putCh`. -/
def printed (as : List Action) : ℕ := as.countP Action.isPut

section Conversions
variable {radix : ℕ} {text : List Char8} {w : ℤ} {v : Video}

theorem printed_put (text : List Char8) : printed (text.map .put) = text.length := by
  rw [printed, List.countP_map]
  exact List.countP_eq_length.mpr fun _ _ => rfl

theorem act_put (v : Video) (text : List Char8) :
    (text.map Action.put).foldl Video.act v = text.foldl Video.putCh v :=
  List.foldl_map

theorem print_takeWhile (v : Video) (cp : List Char8) : Video.print v cp = Video.print v (cp.takeWhile (· ≠ 0)) := by
  induction cp generalizing v with
  | nil => rfl
  | cons c cp ih =>
    by_cases hc : c = 0
    · rw [Video.print, if_pos hc, List.takeWhile_cons_of_neg (by simpa using hc)]
      rfl
    · rw [List.takeWhile_cons_of_pos (by simpa using hc), Video.print, Video.print, if_neg hc, if_neg hc, ih]

theorem print_str (v : Video) (cp : List Char8) : Video.print v cp =
    ((cp.takeWhile (· ≠ 0)).foldl Video.putCh v, (cp.takeWhile (· ≠ 0)).length) := by
  rw [print_takeWhile]
  refine print_eq_foldl v fun h => ?_
  have hne := List.mem_takeWhile_imp h
  simp at hne

theorem print_padded (hnul : 0 ∉ text) :
    ((Video.print (Video.print_prenull v text.length w).1 text).1,
      (Video.print_prenull v text.length w).2 + (Video.print (Video.print_prenull v text.length w).1 text).2) =
    ((Directive.padded w text).foldl Video.putCh v, (Directive.padded w text).length) := by
  have hnulls : Video.print_prenull v text.length w =
      ((List.replicate (min 255 (w - text.length).toNat) 0x30).foldl Video.putCh v,
        min 255 (w - text.length).toNat) := by
    rw [Video.print_prenull]
    by_cases hlt : (text.length : ℤ) < w
    · have hcap : (if 255 < w - text.length then 255 else w - text.length).toNat =
          min 255 (w - text.length).toNat := by
        split_ifs <;> omega
      rw [if_pos hlt]
      dsimp only
      rw [hcap, print_eq_foldl v (zero_notMem_zeros _), List.length_replicate]
    · have hnone : (w - text.length).toNat = 0 := by omega
      rw [if_neg hlt, hnone]
      rfl
  rw [hnulls, print_eq_foldl _ hnul, Directive.padded, List.foldl_append, List.length_append, List.length_replicate]

theorem zero_notMem_numeral {n : ℕ} (hlow : 2 ≤ radix) (hhigh : radix ≤ 16) : 0 ∉ numeral radix n := by
  unfold numeral
  split_ifs
  · decide
  · exact zero_notMem_digits hlow hhigh

theorem print_ull_padded (v : Video) {val base : BitVec 64} (w : ℤ) (hlow : 2 ≤ base.toNat)
    (hhigh : base.toNat ≤ 16) :
    Video.print_ull v val base w = ((Directive.padded w (numeral base.toNat val.toNat)).foldl Video.putCh v,
      (Directive.padded w (numeral base.toNat val.toNat)).length) := by
  rw [← print_padded (zero_notMem_numeral hlow hhigh)]
  by_cases hzero : val = 0
  · subst hzero
    rfl
  · have hval : val.toNat ≠ 0 := fun h => hzero (BitVec.eq_of_toNat_eq h)
    have hdiv := unsigned_divides base
    have hcount := countDigits_eq hdiv hlow trivial (length_digits_le hlow val.isLt)
    have hdigits := fillDigits_eq hdiv hlow trivial (rfl : (digits base.toNat val.toNat).length = _) []
    rw [numeral, if_neg hval, Video.print_ull, if_neg hzero]
    dsimp only
    rw [hcount, if_neg (length_digits_ne_zero _ hval), hdigits, List.append_nil]

/-- What `print_l` prints when the loop that counts has found `k` digits. -/
theorem print_l_padded_of (v : Video) {val base val' : Word} (w : ℤ) {n : Bool} {k : ℕ} {filled : List Char8}
    (hzero : val ≠ 0) (hn : val.slt 0 = n) (hval : (if n then -val else val) = val')
    (hcount : Video.countDigits (fun tmp => (0 : Word).slt tmp) (·.sdiv base) 32 val' = k)
    (hk : (if n then k + 1 else k) = text.length) (hsome : text.length ≠ 0)
    (hfill : Video.fillDigits (fun val => (val.srem base).setWidth 8) (·.sdiv base) text.length val' [] = filled)
    (htext : (if n then 0x2D :: filled.tail else filled) = text) (hnul : 0 ∉ text) :
    Video.print_l v val base w =
      ((Directive.padded w text).foldl Video.putCh v, (Directive.padded w text).length) := by
  rw [← print_padded hnul, Video.print_l, if_neg hzero]
  dsimp only
  rw [hn, hval, hcount, hk, if_neg hsome, hfill, htext]

theorem print_l_padded (v : Video) (val : Word) (w : ℤ) : Video.print_l v val 10 w =
    ((Directive.padded w (Directive.signedText val)).foldl Video.putCh v,
      (Directive.padded w (Directive.signedText val)).length) := by
  have hlow : 2 ≤ 10 := by decide
  have hhigh : 10 ≤ 16 := by decide
  have hten : (10 : Word).toNat = 10 := rfl
  have hdiv := signed_divides 10 (hten ▸ hlow) (hten ▸ hhigh)
  rw [hten] at hdiv
  unfold Directive.signedText
  by_cases hmin : val = BitVec.intMin 32
  · -- the least number is its own negative, of which no digit is counted
    subst hmin
    rw [if_pos rfl]
    exact print_l_padded_of v w (by decide) rfl rfl rfl rfl (by decide) rfl rfl (by decide)
  rw [if_neg hmin]
  cases hsign : val.slt 0 with
  | true =>
    have hhalf : 2 ^ 32 ≤ 2 * val.toNat := BitVec.toInt_neg_iff.mp (of_decide_eq_true hsign)
    have hne : val.toNat ≠ 2 ^ 31 := fun h => hmin (BitVec.eq_of_toNat_eq h)
    have hopp : (-val).toNat = 2 ^ 32 - val.toNat := by
      have hlt := val.isLt
      rw [BitVec.toNat_neg]
      omega
    have hsmall : (-val).toNat < 2 ^ 31 := by omega
    have hpos : (-val).toNat ≠ 0 := by
      have hlt := val.isLt
      omega
    have hcount := countDigits_eq hdiv hlow hsmall (length_digits_le hlow (-val).isLt)
    have hdigits := fillDigits_eq hdiv hlow hsmall rfl []
    obtain ⟨c, hc⟩ := fillDigits_succ (fun val : Word => (val.srem 10).setWidth 8) (·.sdiv 10)
      (digits 10 (-val).toNat).length (-val) []
    rw [hdigits, List.append_nil] at hc
    have hnul : 0 ∉ digits 10 (-val).toNat := zero_notMem_digits hlow hhigh
    exact print_l_padded_of v w (by rintro rfl; cases hsign) hsign rfl hcount rfl (Nat.succ_ne_zero _) hc rfl
      (List.mem_cons.not.mpr (not_or.mpr ⟨by decide, hnul⟩))
  | false =>
    rw [if_neg Bool.false_ne_true]
    by_cases hzero : val = 0
    · subst hzero
      rw [← print_padded (zero_notMem_numeral hlow hhigh)]
      rfl
    · have hval : val.toNat ≠ 0 := fun h => hzero (BitVec.eq_of_toNat_eq h)
      have hmsb : val.msb = false := BitVec.slt_zero_eq_msb.symm.trans hsign
      have hsmall : val.toNat < 2 ^ 31 := by
        have hhalf := BitVec.msb_eq_false_iff_two_mul_lt.mp hmsb
        omega
      have hcount := countDigits_eq hdiv hlow hsmall (length_digits_le hlow val.isLt)
      have hdigits := fillDigits_eq hdiv hlow hsmall rfl []
      rw [numeral, if_neg hval]
      exact print_l_padded_of v w hzero hsign rfl hcount rfl (length_digits_ne_zero _ hval)
        (hdigits.trans (List.append_nil _)) rfl (zero_notMem_digits hlow hhigh)

end Conversions

section Loop
variable {v : Video} {f : Video.Format} {modifiers : List Char8} {ch : Char8}

/-- The variables of the loop when it is behind a `%` and these characters. -/
structure Reading (f : Video.Format) (modifiers : List Char8) : Prop where
  signed : f.s_signed = true
  width : f.fmtcnt = Directive.width modifiers
  longs : f.l_cnt = Directive.longs modifiers

/-- What a conversion does to the console and the variables of the loop. -/
def converted (v : Video) (f : Video.Format) (r : List Char8 × List Video.Arg) : Video × Video.Format :=
  (r.1.foldl Video.putCh v,
    { f with al := r.2, print_count := f.print_count + r.1.length, format_char := false })

theorem printUnsigned_eq (h : Reading f modifiers) (base : BitVec 64) (hlow : 2 ≤ base.toNat)
    (hhigh : base.toNat ≤ 16) : Video.printUnsigned v f base =
      (Directive.unsigned base.toNat modifiers f.al).map (converted v f) := by
  have hone : (f.l_cnt = 0 ∨ f.l_cnt = 1) ↔ Directive.longs modifiers ≤ 1 := by
    rw [h.longs]
    omega
  have hprint : ∀ (val : BitVec 64) al, f.printed al (Video.print_ull v val base f.fmtcnt.toInt) =
      converted v f (Directive.padded (Directive.width modifiers).toInt (numeral base.toNat val.toNat), al) := by
    intro val al
    rw [print_ull_padded v _ hlow hhigh, h.width]
    rfl
  unfold Video.printUnsigned Directive.unsigned
  by_cases hl : Directive.longs modifiers ≤ 1
  · rw [if_pos (hone.mpr hl), if_pos hl]
    match f.al with
    | [] => rfl
    | .str _ :: _ => rfl
    | .int val :: al =>
      have hval : (val.setWidth 64 : BitVec 64).toNat = val.toNat := BitVec.toNat_setWidth_of_le (by decide)
      dsimp only
      rw [hprint, hval]
      rfl
    | .longlong _ :: _ => rfl
  · have htwo : f.l_cnt = 2 ↔ Directive.longs modifiers = 2 := by rw [h.longs]
    rw [if_neg (hone.not.mpr hl), if_neg hl]
    by_cases hlonglong : Directive.longs modifiers = 2
    · rw [if_pos (htwo.mpr hlonglong), if_pos hlonglong]
      match f.al with
      | [] => rfl
      | .str _ :: _ => rfl
      | .int _ :: _ => rfl
      | .longlong val :: al =>
        dsimp only
        rw [hprint]
        rfl
    · rw [if_neg (htwo.not.mpr hlonglong), if_neg hlonglong]
      rfl

theorem convert_eq (h : Reading f modifiers) (hending : Directive.isEnding ch = true) :
    Video.convert v f ch = (Directive.conversion modifiers ch f.al).map (converted v f) := by
  have hlast : ch = 0x25 ∨ ch = 0x73 ∨ ch = 0x78 ∨ ch = 0x63 ∨ ch = 0x64 ∨ ch = 0x75 := by
    unfold Directive.isEnding at hending
    simpa [or_assoc] using hending
  rcases hlast with rfl | rfl | rfl | rfl | rfl | rfl
  · rfl
  · unfold Video.convert Directive.conversion
    rw [if_neg (by decide), if_pos rfl, if_neg (by decide), if_pos rfl]
    match f.al with
    | [] => rfl
    | .str cp :: al =>
      dsimp only
      rw [print_str]
      rfl
    | .int _ :: _ => rfl
    | .longlong _ :: _ => rfl
  · exact printUnsigned_eq h 16 (by decide) (by decide)
  · unfold Video.convert Directive.conversion
    rw [if_neg (by decide), if_neg (by decide), if_neg (by decide), if_neg (by decide), if_pos rfl,
      if_neg (by decide), if_neg (by decide), if_neg (by decide), if_pos rfl]
    match f.al with
    | [] => rfl
    | .str _ :: _ => rfl
    | .int _ :: _ => rfl
    | .longlong _ :: _ => rfl
  · unfold Video.convert Directive.conversion
    rw [if_neg (by decide), if_neg (by decide), if_neg (by decide), if_neg (by decide), if_neg (by decide),
      if_pos rfl,
      if_neg (by decide), if_neg (by decide), if_neg (by decide), if_neg (by decide), if_pos rfl]
    match f.al with
    | [] => rfl
    | .str _ :: _ => rfl
    | .int val :: al =>
      dsimp only
      rw [if_pos h.signed, print_l_padded, h.width]
      rfl
    | .longlong _ :: _ => rfl
  · exact printUnsigned_eq h 10 (by decide) (by decide)

theorem longs_append (modifiers : List Char8) (ch : Char8) :
    Directive.longs (modifiers ++ [ch]) = Directive.longs modifiers + if ch = 0x6C then 1 else 0 := by
  rw [Directive.longs, List.count_append, List.count_singleton, Directive.longs]
  simp only [beq_iff_eq]

theorem width_append (modifiers : List Char8) (ch : Char8) :
    Directive.width (modifiers ++ [ch]) = if Directive.isDigit ch then
      Directive.width modifiers * 10 + (ch - 0x30).signExtend 32 else Directive.width modifiers := by
  unfold Directive.width
  rw [List.filter_append, List.foldl_append]
  cases hdigit : Directive.isDigit ch with
  | true =>
    rw [List.filter_cons_of_pos hdigit]
    rfl
  | false =>
    rw [List.filter_cons_of_neg (ne_true_of_eq_false hdigit)]
    rfl

/-- A character that does not end a conversion is put to the others. -/
theorem convert_modifier (v : Video) (h : Reading f modifiers) (hending : Directive.isEnding ch = false) :
    ∃ f', Video.convert v f ch = some (v, f') ∧ Reading f' (modifiers ++ [ch]) ∧
      f'.format_char = f.format_char ∧ f'.al = f.al ∧ f'.print_count = f.print_count := by
  have hnone : ch ≠ 0x25 ∧ ch ≠ 0x73 ∧ ch ≠ 0x78 ∧ ch ≠ 0x63 ∧ ch ≠ 0x64 ∧ ch ≠ 0x75 := by
    unfold Directive.isEnding at hending
    simpa [and_assoc] using hending
  obtain ⟨hpercent, hs, hx, hc, hd, hu⟩ := hnone
  rw [Video.convert, if_neg hpercent, if_neg hs]
  by_cases hlong : ch = 0x6C
  · subst hlong
    rw [if_pos rfl]
    refine ⟨_, rfl, ⟨h.signed, ?_, ?_⟩, rfl, rfl, rfl⟩
    · rw [width_append]
      exact h.width
    · rw [longs_append, ← h.longs]
      rfl
  have hlongs : Directive.longs (modifiers ++ [ch]) = Directive.longs modifiers := by
    rw [longs_append, if_neg hlong]
    rfl
  rw [if_neg hlong, if_neg hx, if_neg hc, if_neg hd, if_neg hu]
  by_cases hdigit : Directive.isDigit ch = true
  · rw [if_pos (Bool.and_eq_true_iff.mp hdigit)]
    refine ⟨_, rfl, ⟨h.signed, ?_, h.longs.trans hlongs.symm⟩, rfl, rfl, rfl⟩
    rw [width_append, if_pos hdigit, ← h.width]
  · rw [if_neg (Bool.and_eq_true_iff.not.mp hdigit)]
    refine ⟨_, rfl, ⟨h.signed, ?_, h.longs.trans hlongs.symm⟩, rfl, rfl, rfl⟩
    rw [width_append, if_neg hdigit]
    exact h.width

/-- The end of the loop, when its variables have counted `n` characters so far. -/
def finish (v : Video) (n : ℕ) (as : List Action) : Video × ℕ := (as.foldl Video.act v, n + printed as)

theorem finish_cons (v : Video) (n : ℕ) (a : Action) (as : List Action) :
    finish v n (a :: as) = finish (v.act a) (n + if a.isPut then 1 else 0) as := by
  rw [finish, finish, printed, List.countP_cons, List.foldl_cons, ← printed]
  congr 1
  omega

theorem finish_text (v : Video) (n : ℕ) (text : List Char8) (as : List Action) :
    finish v n (text.map .put ++ as) = finish (text.foldl Video.putCh v) (n + text.length) as := by
  rw [finish, finish, List.foldl_append, act_put, printed, List.countP_append, ← printed, ← printed, printed_put,
    Nat.add_assoc]

theorem vprintfLoop_plain (v : Video) (fmt : List Char8) (hf : f.format_char = false) (hnul : ch ≠ 0)
    (hpercent : ch ≠ 0x25) : Video.vprintfLoop v f (ch :: fmt) = Video.vprintfLoop (v.act (Directive.plainAction ch))
      { f with print_count := f.print_count + if (Directive.plainAction ch).isPut then 1 else 0 } fmt := by
  rw [Video.vprintfLoop, if_neg hnul, if_neg (ne_true_of_eq_false hf), if_neg hpercent]
  unfold Directive.plainAction
  by_cases hhome : ch = 0x0D
  · rw [if_pos hhome, if_pos hhome]
    rfl
  by_cases hline : ch = 0x0A
  · subst hline
    rfl
  rw [if_neg hhome, if_neg hline, if_neg hhome]
  by_cases hback : ch = 0x08
  · rw [if_pos hback, if_pos hback]
    change _ = Video.vprintfLoop (v.act .back) f fmt
    unfold Video.act
    split_ifs
    · rfl
    · rfl
    · rfl
  rw [if_neg hback, if_neg hback]
  by_cases htab : ch = 0x09
  · rw [if_pos htab, if_pos htab]
    rfl
  · rw [if_neg htab, if_neg htab]
    rfl

/-- The loop is an interpreter of the directives. -/
theorem vprintfLoop_eq (fmt : List Char8) : ∀ v f,
    (f.format_char = false → Video.vprintfLoop v f fmt =
      (Directive.actions (Directive.parse none fmt) f.al).map (finish v f.print_count)) ∧
    ∀ modifiers, f.format_char = true → Reading f modifiers → Video.vprintfLoop v f fmt =
      (Directive.actions (Directive.parse (some modifiers) fmt) f.al).map (finish v f.print_count) := by
  induction fmt with
  | nil => exact fun v f => ⟨fun _ => rfl, fun _ _ _ => rfl⟩
  | cons ch fmt ih =>
    intro v f
    constructor
    · intro hf
      by_cases hnul : ch = 0
      · rw [Video.vprintfLoop, Directive.parse, if_pos hnul, if_pos hnul]
        rfl
      by_cases hpercent : ch = 0x25
      · rw [Video.vprintfLoop, Directive.parse, if_neg hnul, if_neg hnul, if_neg (ne_true_of_eq_false hf),
          if_pos hpercent, if_pos hpercent]
        exact (ih v { f with fmtcnt := 0, format_char := true, s_signed := true, l_cnt := 0 }).2 [] rfl
          ⟨rfl, rfl, rfl⟩
      · rw [vprintfLoop_plain v fmt hf hnul hpercent, Directive.parse, if_neg hnul, if_neg hpercent,
          Directive.actions]
        have hloop := (ih (v.act (Directive.plainAction ch))
          { f with print_count := f.print_count + if (Directive.plainAction ch).isPut then 1 else 0 }).1 hf
        refine hloop.trans ?_
        rw [Option.map_map]
        congr 1
        funext as
        exact (finish_cons v f.print_count (Directive.plainAction ch) as).symm
    · intro modifiers hf hreading
      rw [Video.vprintfLoop, Directive.parse]
      by_cases hnul : ch = 0
      · rw [if_pos hnul, if_pos hnul]
        rfl
      rw [if_neg hnul, if_neg hnul, if_pos hf]
      cases hending : Directive.isEnding ch with
      | true =>
        rw [if_pos rfl, convert_eq hreading hending, Directive.actions]
        cases Directive.conversion modifiers ch f.al with
        | none => rfl
        | some r =>
          obtain ⟨text, al⟩ := r
          have hloop := (ih (text.foldl Video.putCh v)
            { f with al, print_count := f.print_count + text.length, format_char := false }).1 rfl
          refine hloop.trans ?_
          dsimp only [Option.bind_eq_bind, Option.bind_some]
          cases Directive.actions (Directive.parse none fmt) al with
          | none => rfl
          | some as => exact congrArg some (finish_text v f.print_count text as).symm
      | false =>
        obtain ⟨f', hconvert, hreading', hf', hal, hcount⟩ := convert_modifier v hreading hending
        rw [if_neg Bool.false_ne_true, hconvert]
        have hloop := (ih v f').2 _ (hf'.trans hf) hreading'
        rw [hal, hcount] at hloop
        exact hloop

/-- `vprintf` does what the directives of its format do, one after another, and returns the number of
characters that it has given to `putCh`. -/
theorem vprintf_actions (v : Video) (fmt : List Char8) (al : List Video.Arg) : Video.vprintf v fmt al =
    (Directive.actions (Directive.parse none fmt) al).map fun as => (as.foldl Video.act v, printed as) := by
  refine ((vprintfLoop_eq fmt v ⟨false, true, 0, 0, 0, al⟩).1 rfl).trans ?_
  congr 1
  funext as
  rw [finish, Nat.zero_add]

theorem parse_modifiers {acc rest : List Char8} (hmodifiers : ∀ m ∈ modifiers, m ≠ 0 ∧ Directive.isEnding m = false)
    (hending : Directive.isEnding ch = true) : Directive.parse (some acc) (modifiers ++ ch :: rest) =
      .conv (acc ++ modifiers) ch :: Directive.parse none rest := by
  have hnul : ch ≠ 0 := by
    rintro rfl
    cases hending
  induction modifiers generalizing acc with
  | nil => rw [List.nil_append, Directive.parse, if_neg hnul, if_pos hending, List.append_nil]
  | cons m modifiers ih =>
    obtain ⟨hm, hnot⟩ := hmodifiers m List.mem_cons_self
    rw [List.cons_append, Directive.parse, if_neg hm, if_neg (ne_true_of_eq_false hnot),
      ih fun m hm => hmodifiers m (List.mem_cons_of_mem _ hm), List.append_assoc, List.singleton_append]

/-- Directives are read back from their characters. -/
theorem parse_render {ds : List Directive} (h : ∀ d ∈ ds, d.Wellformed) :
    Directive.parse none (ds.flatMap Directive.render) = ds := by
  induction ds with
  | nil => rfl
  | cons d ds ih =>
    have hrest := ih fun d hd => h d (List.mem_cons_of_mem _ hd)
    have hwell := h d List.mem_cons_self
    rw [List.flatMap_cons]
    cases d with
    | plain ch =>
      obtain ⟨hnul, hpercent⟩ := hwell
      rw [Directive.render, List.singleton_append, Directive.parse, if_neg hnul, if_neg hpercent, hrest]
    | conv modifiers ch =>
      obtain ⟨hending, hmodifiers⟩ := hwell
      rw [Directive.render, List.append_assoc, List.singleton_append, List.cons_append, Directive.parse,
        if_neg (by decide), if_pos rfl, parse_modifiers hmodifiers hending, List.nil_append, hrest]

/-- The text of any directives, with the arguments that they take, prints what they say. -/
theorem vprintf_render (v : Video) {ds : List Directive} (h : ∀ d ∈ ds, d.Wellformed) (al : List Video.Arg) :
    Video.vprintf v (ds.flatMap Directive.render) al =
      (Directive.actions ds al).map fun as => (as.foldl Video.act v, printed as) := by
  rw [vprintf_actions, parse_render h]

end Loop

end CxxKernel.Devices
