import Mathlib.Data.Nat.Digits.Lemmas
import Mathlib.Tactic.IntervalCases
import CxxKernel.Devices.Video

/-! The numbers that `Video` prints: the buffers that their digits are put together in, and the text
that comes out of them. -/
namespace CxxKernel.Devices

/-- The bytes of a `char s[256]`, which nothing initializes. -/
abbrev Buffer := ℕ → Char8

/-! The functions of `Video` with their buffers. They return the characters that they give to `putCh`, in
order, and their number, and nothing when an index lies outside of a buffer. -/
namespace Buffered

def write (s : Buffer) (i : ℕ) (c : Char8) : Option Buffer :=
  if i < 256 then some (Function.update s i c) else none

/-- `Video::print` from the index `i` on, where the buffer has `left` bytes. -/
def print (s : Buffer) : ℕ → ℕ → Option (List Char8 × ℕ)
  | 0, _ => none
  | left + 1, i =>
    if s i = 0 then some ([], 0)
    else do
      let (text, print_cnt) ← print s left (i + 1)
      some (s i :: text, print_cnt + 1)

def fillZeros (s2 : Buffer) : ℕ → Option Buffer
  | 0 => some s2
  | cc + 1 => do
    let s2 ← fillZeros s2 cc
    write s2 cc 0x30

def print_prenull (s2 : Buffer) (cnt fmtcnt : ℤ) : Option (List Char8 × ℕ) :=
  if cnt < fmtcnt then do
    let cc := fmtcnt - cnt
    let cc := if 255 < cc then 255 else cc
    let s2 ← fillZeros s2 cc.toNat
    let s2 ← write s2 cc.toNat 0
    print s2 256 0
  else some ([], 0)

/-- The loop that writes `l` digits, the last one first. -/
def fillDigits {n : ℕ} (digit : BitVec n → Char8) (next : BitVec n → BitVec n) :
    ℕ → BitVec n → Buffer → Option Buffer
  | 0, _, s => some s
  | l + 1, val, s => do
    let s ← write s l (Video.digitChar (digit val))
    fillDigits digit next l (next val) s

/-- The digits of `print_l` with the NUL behind them, and the sign over the first one. -/
def signedDigits (s : Buffer) (n : Bool) (val radix : Word) (l : ℕ) : Option Buffer := do
  let s ← write s l 0
  let s ← fillDigits (fun val => (val.srem radix).setWidth 8) (·.sdiv radix) l val s
  if n then write s 0 0x2D else some s

def print_l (s s2 : Buffer) (val radix : Word) (fmtcnt : ℤ) : Option (List Char8 × ℕ) :=
  if val = 0 then do
    let (nulls, print_cnt) ← print_prenull s2 1 fmtcnt
    some (nulls ++ [0x30], print_cnt + 1)
  else do
    let n := val.slt 0
    let val := if n then -val else val
    let l := Video.countDigits (fun tmp => (0 : Word).slt tmp) (·.sdiv radix) 32 val
    let l := if n then l + 1 else l
    let l := if l = 0 then 1 else l
    let s ← signedDigits s n val radix l
    let (nulls, null_cnt) ← print_prenull s2 l fmtcnt
    let (text, print_cnt) ← print s 256 0
    some (nulls ++ text, null_cnt + print_cnt)

def print_ull (s s2 : Buffer) (val radix : BitVec 64) (fmtcnt : ℤ) : Option (List Char8 × ℕ) :=
  if val = 0 then do
    let (nulls, print_cnt) ← print_prenull s2 1 fmtcnt
    some (nulls ++ [0x30], print_cnt + 1)
  else do
    let l := Video.countDigits (fun tmp => 0 < tmp) (· / radix) 64 val
    let l := if l = 0 then 1 else l
    let s ← write s l 0
    let s ← write s (l + 1) 0
    let s ← fillDigits (fun val => (val % radix).setWidth 8) (· / radix) l val s
    let (nulls, null_cnt) ← print_prenull s2 l fmtcnt
    let (text, print_cnt) ← print s 256 0
    some (nulls ++ text, null_cnt + print_cnt)

/-- The buffer holds these characters from the index `i` on. -/
def Holds (s : Buffer) (i : ℕ) (text : List Char8) : Prop := ∀ (j : ℕ) (h : j < text.length), s (i + j) = text[j]

section Buffers
variable {s s2 : Buffer} {i l : ℕ} {c : Char8} {text : List Char8}

theorem write_some (h : i < 256) : write s i c = some (Function.update s i c) := if_pos h

theorem Holds.cons (h : Holds s (i + 1) text) : Holds (Function.update s i c) i (c :: text) := by
  intro j hj
  cases j with
  | zero => exact Function.update_self i c s
  | succ j =>
    have hne : i + (j + 1) ≠ i := by omega
    have hat : i + (j + 1) = i + 1 + j := by omega
    rw [Function.update_of_ne hne, hat, h j (Nat.lt_of_succ_lt_succ hj), List.getElem_cons_succ]

theorem Holds.nul (h : s i = 0) : Holds s i [0] := by
  intro j hj
  obtain rfl : j = 0 := Nat.lt_one_iff.mp hj
  exact h

theorem Holds.of_cons (h : Holds s i (c :: text)) : s i = c ∧ Holds s (i + 1) text := by
  refine ⟨h 0 (Nat.succ_pos _), fun j hj => ?_⟩
  have hat : i + 1 + j = i + (j + 1) := by omega
  rw [hat, h (j + 1) (Nat.succ_lt_succ hj), List.getElem_cons_succ]

theorem print_of_holds {left : ℕ} (h : Holds s i (text ++ [0])) (hchars : 0 ∉ text) (hleft : text.length < left) :
    print s left i = some (text, text.length) := by
  induction text generalizing i left with
  | nil =>
    cases left with
    | zero => exact absurd hleft (Nat.lt_irrefl 0)
    | succ left =>
      rw [print, if_pos h.of_cons.1]
      rfl
  | cons c text ih =>
    cases left with
    | zero => exact absurd hleft (Nat.not_lt_zero _)
    | succ left =>
      obtain ⟨hc, hrest⟩ := Holds.of_cons h
      obtain ⟨hne, hchars⟩ := not_or.mp (List.mem_cons.not.mp hchars)
      rw [print, if_neg (hc ▸ Ne.symm hne), ih hrest hchars (Nat.lt_of_succ_lt_succ hleft), hc]
      rfl

theorem Holds.snoc (h : Holds s i text) : Holds (Function.update s (i + text.length) c) i (text ++ [c]) := by
  intro j hj
  rw [List.length_append, List.length_singleton] at hj
  rcases Nat.lt_succ_iff_lt_or_eq.mp hj with hlt | rfl
  · have hne : i + j ≠ i + text.length := by omega
    rw [Function.update_of_ne hne, h j hlt, List.getElem_append_left hlt]
  · rw [Function.update_self, List.getElem_concat_length rfl]

theorem fillZeros_some (s2 : Buffer) {cc : ℕ} (hcc : cc ≤ 256) :
    ∃ s', fillZeros s2 cc = some s' ∧ Holds s' 0 (List.replicate cc 0x30) := by
  induction cc with
  | zero => exact ⟨s2, rfl, fun j hj => absurd hj (Nat.not_lt_zero j)⟩
  | succ cc ih =>
    obtain ⟨s', hfill, hzeros⟩ := ih (by omega)
    have hnext := hzeros.snoc (c := 0x30)
    rw [List.length_replicate, Nat.zero_add, ← List.replicate_succ'] at hnext
    refine ⟨_, ?_, hnext⟩
    rw [fillZeros, hfill]
    exact write_some (by omega)

theorem print_prenull_some {cnt fmtcnt : ℕ} (hcnt : 0 < cnt) (hfmt : fmtcnt ≤ 256) :
    print_prenull s2 cnt fmtcnt = some (List.replicate (fmtcnt - cnt) 0x30, fmtcnt - cnt) := by
  rw [print_prenull]
  by_cases hlt : (cnt : ℤ) < fmtcnt
  · have hcap : ¬ (255 : ℤ) < fmtcnt - cnt := by omega
    have hcc : ((fmtcnt : ℤ) - cnt).toNat = fmtcnt - cnt := by omega
    have hfits : fmtcnt - cnt ≤ 256 := by omega
    have hlen : (List.replicate (fmtcnt - cnt) (0x30 : Char8)).length < 256 := by
      rw [List.length_replicate]
      omega
    obtain ⟨s', hfill, hzeros⟩ := fillZeros_some s2 hfits
    have hended := hzeros.snoc (c := 0)
    rw [List.length_replicate, Nat.zero_add] at hended
    have hprint := print_of_holds hended (by simp) hlen
    rw [List.length_replicate] at hprint
    rw [if_pos hlt]
    dsimp only
    rw [if_neg hcap, hcc, hfill, Option.bind_eq_bind, Option.bind_some, write_some (by omega)]
    exact hprint
  · have hnone : fmtcnt - cnt = 0 := by omega
    rw [if_neg hlt, hnone]
    rfl

theorem fillDigits_some {n : ℕ} (digit : BitVec n → Char8) (next : BitVec n → BitVec n) (val : BitVec n)
    (h : Holds s l text) (hl : l ≤ 256) :
    ∃ s', fillDigits digit next l val s = some s' ∧ Holds s' 0 (Video.fillDigits digit next l val text) := by
  induction l generalizing s val text with
  | zero => exact ⟨s, rfl, h⟩
  | succ l ih =>
    obtain ⟨s', hfill, hholds⟩ := ih (next val) (h.cons (c := Video.digitChar (digit val))) (by omega)
    refine ⟨s', ?_, hholds⟩
    rw [fillDigits, write_some (by omega)]
    exact hfill

end Buffers
end Buffered

/-- A digit as a character. -/
def digitOf (d : ℕ) : Char8 := Video.digitChar (BitVec.ofNat 8 d)

/-- The digits of a number, the first one in front, and none for zero. -/
def digits (radix n : ℕ) : List Char8 := ((Nat.digits radix n).map digitOf).reverse

/-- The numeral of a number, without superfluous digits. -/
def numeral (radix n : ℕ) : List Char8 := if n = 0 then [0x30] else digits radix n

def digitValue (c : Char8) : ℕ := if c.toNat ≤ 0x39 then c.toNat - 0x30 else c.toNat - 0x41 + 10

/-- The number that a text of digits stands for. -/
def readNumeral (radix : ℕ) (text : List Char8) : ℕ := Nat.ofDigits radix (text.reverse.map digitValue)

section Texts
variable {radix n k d : ℕ}

theorem digitOf_value (h : d < 16) : digitValue (digitOf d) = d := by
  interval_cases d <;> rfl

theorem digitOf_ne_zero (h : d < 16) : digitOf d ≠ 0 := by
  interval_cases d <;> decide

theorem digitOf_ne_minus (h : d < 16) : digitOf d ≠ 0x2D := by
  interval_cases d <;> decide

theorem mem_digits {c : Char8} (hradix : 2 ≤ radix) (h : c ∈ digits radix n) : ∃ d < radix, c = digitOf d := by
  obtain ⟨d, hd, rfl⟩ := List.mem_map.mp (List.mem_reverse.mp h)
  exact ⟨d, Nat.digits_lt_base hradix hd, rfl⟩

theorem length_digits (radix n : ℕ) : (digits radix n).length = (Nat.digits radix n).length := by
  rw [digits, List.length_reverse, List.length_map]

theorem digitValue_zero : digitValue 0x30 = 0 := rfl

/-- Zeros in front of the digits do not change the number. -/
theorem readNumeral_digits (hlow : 2 ≤ radix) (hhigh : radix ≤ 16) (k n : ℕ) :
    readNumeral radix (List.replicate k 0x30 ++ digits radix n) = n := by
  have hvalues : (Nat.digits radix n).map (digitValue ∘ digitOf) = Nat.digits radix n := by
    refine (List.map_congr_left fun d hd => ?_).trans (List.map_id _)
    exact digitOf_value (Nat.lt_of_lt_of_le (Nat.digits_lt_base hlow hd) hhigh)
  rw [readNumeral, digits, List.reverse_append, List.reverse_reverse, List.reverse_replicate, List.map_append,
    List.map_map, hvalues, List.map_replicate, digitValue_zero, Nat.ofDigits_append_replicate_zero,
    Nat.ofDigits_digits]

theorem readNumeral_numeral (hlow : 2 ≤ radix) (hhigh : radix ≤ 16) (k n : ℕ) :
    readNumeral radix (List.replicate k 0x30 ++ numeral radix n) = n := by
  rw [numeral]
  split_ifs with hzero
  · have hall : List.replicate k (0x30 : Char8) ++ [0x30] = List.replicate (k + 1) 0x30 ++ digits radix 0 := by
      rw [← List.replicate_succ', digits, Nat.digits_zero, List.map_nil, List.reverse_nil, List.append_nil]
    rw [hall, readNumeral_digits hlow hhigh, hzero]
  · exact readNumeral_digits hlow hhigh k n

theorem length_digits_ne_zero (radix : ℕ) (hn : n ≠ 0) : (digits radix n).length ≠ 0 := by
  rw [length_digits, List.length_eq_zero_iff.ne]
  exact Nat.digits_ne_nil_iff_ne_zero.mpr hn

theorem digits_zero (radix : ℕ) : digits radix 0 = [] := by
  rw [digits, Nat.digits_zero]
  rfl

theorem digits_of_pos (hradix : 2 ≤ radix) (hn : 0 < n) :
    digits radix n = digits radix (n / radix) ++ [digitOf (n % radix)] := by
  rw [digits, Nat.digits_def' hradix hn, List.map_cons, List.reverse_cons, digits]

end Texts

/-- What the loops over the digits do with a value that `P` holds of. -/
structure Divides {w : ℕ} (P : BitVec w → Prop) (radix : ℕ) (more : BitVec w → Bool) (digit : BitVec w → Char8)
    (next : BitVec w → BitVec w) : Prop where
  keeps : ∀ val, P val → P (next val)
  next : ∀ val, P val → (next val).toNat = val.toNat / radix
  more : ∀ val, P val → more val = decide (0 < val.toNat)
  digit : ∀ val, P val → digit val = BitVec.ofNat 8 (val.toNat % radix)

section Loops
variable {w radix l fuel : ℕ} {P : BitVec w → Prop} {more : BitVec w → Bool} {digit : BitVec w → Char8}
  {next : BitVec w → BitVec w} {val : BitVec w}

theorem countDigits_eq (h : Divides P radix more digit next) (hradix : 2 ≤ radix) (hval : P val)
    (hfuel : (digits radix val.toNat).length ≤ fuel) :
    Video.countDigits more next fuel val = (digits radix val.toNat).length := by
  induction fuel generalizing val with
  | zero => exact (Nat.le_zero.mp hfuel).symm
  | succ fuel ih =>
    rw [Video.countDigits, h.more val hval]
    by_cases hpos : 0 < val.toNat
    · rw [digits_of_pos hradix hpos, List.length_append, List.length_singleton, ← h.next val hval] at hfuel ⊢
      rw [decide_eq_true hpos, if_pos rfl, ih (h.keeps val hval) (by omega)]
    · have hzero : val.toNat = 0 := Nat.eq_zero_of_not_pos hpos
      rw [decide_eq_false hpos, if_neg Bool.false_ne_true, hzero, digits_zero]
      rfl

theorem fillDigits_eq (h : Divides P radix more digit next) (hradix : 2 ≤ radix) (hval : P val)
    (hl : (digits radix val.toNat).length = l) (s : List Char8) :
    Video.fillDigits digit next l val s = digits radix val.toNat ++ s := by
  induction l generalizing val s with
  | zero => rw [List.length_eq_zero_iff.mp hl]; rfl
  | succ l ih =>
    have hpos : 0 < val.toNat := by
      refine Nat.pos_of_ne_zero fun hzero => ?_
      rw [hzero, digits_zero] at hl
      cases hl
    rw [digits_of_pos hradix hpos, List.length_append, List.length_singleton, ← h.next val hval] at hl
    rw [Video.fillDigits, ih (h.keeps val hval) (Nat.succ_inj.mp hl), h.digit val hval, digits_of_pos hradix hpos,
      List.append_assoc, h.next val hval]
    rfl

theorem fillDigits_succ (digit : BitVec w → Char8) (next : BitVec w → BitVec w) (l : ℕ) (val : BitVec w)
    (s : List Char8) :
    ∃ c, Video.fillDigits digit next (l + 1) val s = c :: Video.fillDigits digit next l val s := by
  induction l generalizing val s with
  | zero => exact ⟨_, rfl⟩
  | succ l ih => exact ih (next val) (Video.digitChar (digit val) :: s)

theorem fillDigits_append (digit : BitVec w → Char8) (next : BitVec w → BitVec w) (l : ℕ) (val : BitVec w)
    (s rest : List Char8) :
    Video.fillDigits digit next l val (s ++ rest) = Video.fillDigits digit next l val s ++ rest := by
  induction l generalizing val s with
  | zero => rfl
  | succ l ih => exact ih (next val) (Video.digitChar (digit val) :: s)

theorem length_digits_le {n : ℕ} (hradix : 2 ≤ radix) (hn : n < 2 ^ l) : (digits radix n).length ≤ l := by
  rw [length_digits, Nat.digits_length_le_iff hradix]
  exact Nat.lt_of_lt_of_le hn (Nat.pow_le_pow_left hradix l)

theorem unsigned_divides (radix : BitVec 64) : Divides (fun _ => True) radix.toNat
    (fun tmp => decide ((0 : BitVec 64) < tmp)) (fun val => (val % radix).setWidth 8) (fun val => val / radix) := by
  refine ⟨fun _ _ => trivial, fun val _ => BitVec.toNat_udiv, fun val _ => rfl, fun val _ => ?_⟩
  rw [← BitVec.toNat_umod]
  exact (BitVec.ofNat_toNat 8 _).symm

theorem signed_divides (radix : Word) (hlow : 2 ≤ radix.toNat) (hhigh : radix.toNat ≤ 16) :
    Divides (fun val : Word => val.toNat < 2 ^ 31) radix.toNat (fun tmp => (0 : Word).slt tmp)
      (fun val => (val.srem radix).setWidth 8) (fun val => val.sdiv radix) := by
  have hradix : radix.msb = false := BitVec.msb_eq_false_iff_two_mul_lt.mpr (by omega)
  have hmsb : ∀ val : Word, val.toNat < 2 ^ 31 → val.msb = false := fun val hval =>
    BitVec.msb_eq_false_iff_two_mul_lt.mpr (by omega)
  have hnext : ∀ val : Word, val.toNat < 2 ^ 31 → (val.sdiv radix).toNat = val.toNat / radix.toNat := by
    intro val hval
    rw [BitVec.sdiv_eq, hmsb val hval, hradix]
    exact BitVec.toNat_udiv
  refine ⟨fun val hval => ?_, hnext, fun val hval => ?_, fun val hval => ?_⟩
  · rw [hnext val hval]
    exact Nat.lt_of_le_of_lt (Nat.div_le_self _ _) hval
  · have hint : val.toInt = val.toNat := BitVec.toInt_eq_toNat_of_msb (hmsb val hval)
    have hzero : (0 : Word).toInt = 0 := rfl
    rw [BitVec.slt_eq_decide, hzero, hint, decide_eq_decide]
    omega
  · have hrem : (val.srem radix).toNat = val.toNat % radix.toNat := by
      rw [BitVec.srem_eq, hmsb val hval, hradix]
      exact BitVec.toNat_umod
    rw [← hrem]
    exact (BitVec.ofNat_toNat 8 _).symm

end Loops

/-- The function with its buffers and the one on the console give this text to `putCh`, and return its length. -/
def Emits (text : List Char8) (buffered : Option (List Char8 × ℕ)) (console : Video → Video × ℕ) : Prop :=
  buffered = some (text, text.length) ∧ ∀ v, console v = (text.foldl Video.putCh v, text.length)

section Console
variable {s s2 : Buffer} {text text' : List Char8} {cnt fmtcnt : ℕ}

theorem print_eq_foldl (v : Video) (h : 0 ∉ text) :
    Video.print v text = (text.foldl Video.putCh v, text.length) := by
  induction text generalizing v with
  | nil => rfl
  | cons c text ih =>
    obtain ⟨hne, hrest⟩ := not_or.mp (List.mem_cons.not.mp h)
    rw [Video.print, if_neg (Ne.symm hne), ih (Video.putCh v c) hrest]
    rfl

theorem zero_notMem_zeros (k : ℕ) : (0 : Char8) ∉ List.replicate k 0x30 := by
  intro h
  exact absurd (List.eq_of_mem_replicate h) (by decide)

theorem print_prenull_emits (s2 : Buffer) (hcnt : 0 < cnt) (hfmt : fmtcnt ≤ 256) :
    Emits (List.replicate (fmtcnt - cnt) 0x30) (Buffered.print_prenull s2 cnt fmtcnt)
      (fun v => Video.print_prenull v cnt fmtcnt) := by
  rw [Emits, List.length_replicate]
  refine ⟨Buffered.print_prenull_some hcnt hfmt, fun v => ?_⟩
  rw [Video.print_prenull]
  by_cases hlt : (cnt : ℤ) < fmtcnt
  · have hcap : ¬ (255 : ℤ) < fmtcnt - cnt := by omega
    have hcc : ((fmtcnt : ℤ) - cnt).toNat = fmtcnt - cnt := by omega
    rw [if_pos hlt]
    dsimp only
    rw [if_neg hcap, hcc, print_eq_foldl v (zero_notMem_zeros _), List.length_replicate]
  · have hnone : fmtcnt - cnt = 0 := by omega
    rw [if_neg hlt, hnone]
    rfl

theorem Emits.putCh {b : Option (List Char8 × ℕ)} {f : Video → Video × ℕ} (h : Emits text b f) (c : Char8) :
    Emits (text ++ [c]) (do let (nulls, print_cnt) ← b; some (nulls ++ [c], print_cnt + 1))
      (fun v => ((f v).1.putCh c, (f v).2 + 1)) := by
  obtain ⟨hb, hf⟩ := h
  refine ⟨?_, fun v => ?_⟩
  · rw [hb, List.length_append]
    rfl
  · dsimp only
    rw [hf, List.foldl_append, List.length_append]
    rfl

theorem Emits.append {b b' : Option (List Char8 × ℕ)} {f f' : Video → Video × ℕ} (h : Emits text b f)
    (h' : Emits text' b' f') :
    Emits (text ++ text')
      (do let (nulls, null_cnt) ← b; let (text, print_cnt) ← b'; some (nulls ++ text, null_cnt + print_cnt))
      (fun v => ((f' (f v).1).1, (f v).2 + (f' (f v).1).2)) := by
  obtain ⟨hb, hf⟩ := h
  obtain ⟨hb', hf'⟩ := h'
  refine ⟨?_, fun v => ?_⟩
  · rw [hb, hb', List.length_append]
    rfl
  · dsimp only
    rw [hf, hf', List.foldl_append, List.length_append]

theorem print_emits (h : Buffered.Holds s 0 (text ++ [0])) (hchars : 0 ∉ text) (hlen : text.length < 256) :
    Emits text (Buffered.print s 256 0) (fun v => Video.print v text) :=
  ⟨Buffered.print_of_holds h hchars hlen, fun v => print_eq_foldl v hchars⟩

theorem zero_notMem_digits {radix n : ℕ} (hlow : 2 ≤ radix) (hhigh : radix ≤ 16) : 0 ∉ digits radix n := by
  intro h
  obtain ⟨d, hd, hzero⟩ := mem_digits hlow h
  exact digitOf_ne_zero (Nat.lt_of_lt_of_le hd hhigh) hzero.symm

/-- The digits that the loops leave in a buffer that has been ended behind them. -/
theorem digits_held {w radix l : ℕ} {P : BitVec w → Prop} {more : BitVec w → Bool} {digit : BitVec w → Char8}
    {next : BitVec w → BitVec w} {val : BitVec w} (h : Divides P radix more digit next) (hradix : 2 ≤ radix)
    (hval : P val) (hl : (digits radix val.toNat).length = l) (hlen : l ≤ 256) (hend : s l = 0) :
    ∃ s', Buffered.fillDigits digit next l val s = some s' ∧
      Buffered.Holds s' 0 (digits radix val.toNat ++ [0]) := by
  have hnul := Buffered.Holds.nul hend
  obtain ⟨s', hfill, hholds⟩ := Buffered.fillDigits_some digit next val hnul hlen
  rw [fillDigits_eq h hradix hval hl] at hholds
  exact ⟨s', hfill, hholds⟩

theorem print_ull_emits (s s2 : Buffer) {val radix : BitVec 64} (hlow : 2 ≤ radix.toNat) (hhigh : radix.toNat ≤ 16)
    (hfmt : fmtcnt ≤ 256) :
    Emits (List.replicate (fmtcnt - (numeral radix.toNat val.toNat).length) 0x30 ++ numeral radix.toNat val.toNat)
      (Buffered.print_ull s s2 val radix fmtcnt) (fun v => Video.print_ull v val radix fmtcnt) := by
  by_cases hzero : val = 0
  · subst hzero
    exact (print_prenull_emits s2 Nat.one_pos hfmt).putCh 0x30
  · have hval : val.toNat ≠ 0 := fun h => hzero (BitVec.eq_of_toNat_eq h)
    have hdiv := unsigned_divides radix
    have hfew := length_digits_le hlow val.isLt
    have hcount := countDigits_eq hdiv hlow trivial hfew
    have hdigits := fillDigits_eq hdiv hlow trivial (rfl : (digits radix.toNat val.toNat).length = _) []
    have hsome := length_digits_ne_zero radix.toNat hval
    rw [numeral, if_neg hval]
    generalize htext : digits radix.toNat val.toNat = text at hfew hcount hdigits hsome ⊢
    have hend : Function.update (Function.update s text.length 0) (text.length + 1) 0 text.length = 0 := by
      rw [Function.update_of_ne (Nat.ne_of_lt (Nat.lt_succ_self _)), Function.update_self]
    obtain ⟨s', hfill, hholds⟩ := digits_held hdiv hlow trivial (congrArg List.length htext) (by omega) hend
    have hnul : 0 ∉ digits radix.toNat val.toNat := zero_notMem_digits hlow hhigh
    rw [htext] at hholds hnul
    have hbuffer : Buffered.print_ull s s2 val radix fmtcnt = (do
        let (nulls, null_cnt) ← Buffered.print_prenull s2 text.length fmtcnt
        let (text, print_cnt) ← Buffered.print s' 256 0
        some (nulls ++ text, null_cnt + print_cnt)) := by
      rw [Buffered.print_ull, if_neg hzero]
      dsimp only
      rw [hcount, if_neg hsome, Buffered.write_some (by omega), Option.bind_eq_bind, Option.bind_some,
        Buffered.write_some (by omega), Option.bind_eq_bind, Option.bind_some, hfill]
      rfl
    have hconsole : (fun v => Video.print_ull v val radix fmtcnt) = fun v =>
        ((Video.print (Video.print_prenull v text.length fmtcnt).1 text).1,
          (Video.print_prenull v text.length fmtcnt).2 +
            (Video.print (Video.print_prenull v text.length fmtcnt).1 text).2) := by
      funext v
      rw [Video.print_ull, if_neg hzero]
      dsimp only
      rw [hcount, if_neg hsome, hdigits, List.append_nil]
    rw [hbuffer, hconsole]
    exact (print_prenull_emits s2 (Nat.pos_of_ne_zero hsome) hfmt).append (print_emits hholds hnul (by omega))

/-- `print_l` of a number that is not zero, by what it leaves in its buffer. -/
theorem print_l_emits_text {val radix : Word} {n : Bool} {k : ℕ} {s' : Buffer} {filled : List Char8} (val' : Word)
    (text : List Char8) (hzero : val ≠ 0) (hn : val.slt 0 = n) (hval : (if n then -val else val) = val')
    (hcount : Video.countDigits (fun tmp => (0 : Word).slt tmp) (·.sdiv radix) 32 val' = k)
    (hk : (if n then k + 1 else k) = text.length) (hsome : text.length ≠ 0) (hlen : text.length < 256)
    (hbuffer : Buffered.signedDigits s n val' radix text.length = some s')
    (hholds : Buffered.Holds s' 0 (text ++ [0])) (hnul : 0 ∉ text) (hfmt : fmtcnt ≤ 256)
    (hfill : Video.fillDigits (fun val => (val.srem radix).setWidth 8) (·.sdiv radix) text.length val' [] = filled)
    (hconsole : (if n then 0x2D :: filled.tail else filled) = text) :
    Emits (List.replicate (fmtcnt - text.length) 0x30 ++ text) (Buffered.print_l s s2 val radix fmtcnt)
      (fun v => Video.print_l v val radix fmtcnt) := by
  have hbuffered : Buffered.print_l s s2 val radix fmtcnt = (do
      let (nulls, null_cnt) ← Buffered.print_prenull s2 text.length fmtcnt
      let (text, print_cnt) ← Buffered.print s' 256 0
      some (nulls ++ text, null_cnt + print_cnt)) := by
    rw [Buffered.print_l, if_neg hzero]
    dsimp only
    rw [hn, hval, hcount, hk, if_neg hsome, hbuffer]
    rfl
  have hprinted : (fun v => Video.print_l v val radix fmtcnt) = fun v =>
      ((Video.print (Video.print_prenull v text.length fmtcnt).1 text).1,
        (Video.print_prenull v text.length fmtcnt).2 +
          (Video.print (Video.print_prenull v text.length fmtcnt).1 text).2) := by
    funext v
    rw [Video.print_l, if_neg hzero]
    dsimp only
    rw [hn, hval, hcount, hk, if_neg hsome, hfill, hconsole]
  rw [hbuffered, hprinted]
  exact (print_prenull_emits s2 (Nat.pos_of_ne_zero hsome) hfmt).append (print_emits hholds hnul hlen)

theorem print_l_emits_pos (s s2 : Buffer) {val radix : Word} (hlow : 2 ≤ radix.toNat) (hhigh : radix.toNat ≤ 16)
    (hpos : 0 < val.toNat) (hval : val.toNat < 2 ^ 31) (hfmt : fmtcnt ≤ 256) :
    Emits (List.replicate (fmtcnt - (digits radix.toNat val.toNat).length) 0x30 ++ digits radix.toNat val.toNat)
      (Buffered.print_l s s2 val radix fmtcnt) (fun v => Video.print_l v val radix fmtcnt) := by
  have hdiv := signed_divides radix hlow hhigh
  have hfew := length_digits_le hlow val.isLt
  have hsome := length_digits_ne_zero radix.toNat (Nat.ne_of_gt hpos)
  have hcount := countDigits_eq hdiv hlow hval hfew
  have hdigits := fillDigits_eq hdiv hlow hval rfl []
  have hzero : val ≠ 0 := fun h => absurd (congrArg BitVec.toNat h) (Nat.ne_of_gt hpos)
  have hsign : val.slt 0 = false := by
    rw [← BitVec.msb_eq_false_iff_two_mul_lt.mpr (by omega : 2 * val.toNat < 2 ^ 32)]
    exact BitVec.slt_zero_eq_msb
  have hend : Function.update s (digits radix.toNat val.toNat).length 0 (digits radix.toNat val.toNat).length = 0 :=
    Function.update_self _ _ _
  obtain ⟨s', hfill, hholds⟩ := digits_held hdiv hlow hval rfl (Nat.le_trans hfew (by omega)) hend
  refine print_l_emits_text val _ hzero hsign rfl hcount rfl hsome (by omega) ?_ hholds
    (zero_notMem_digits hlow hhigh) hfmt (hdigits.trans (List.append_nil _)) (if_neg Bool.false_ne_true)
  rw [Buffered.signedDigits, Buffered.write_some (by omega), Option.bind_eq_bind, Option.bind_some, hfill]
  rfl

/-- A negative number: one digit more than `-val` is counted to have, and the sign over it. -/
theorem print_l_emits_neg (s s2 : Buffer) {val radix : Word} {body : List Char8} (hneg : val.slt 0 = true)
    (hcount : Video.countDigits (fun tmp => (0 : Word).slt tmp) (·.sdiv radix) 32 (-val) = body.length)
    (hbody : Video.fillDigits (fun val => (val.srem radix).setWidth 8) (·.sdiv radix) body.length (-val) [] = body)
    (hlen : body.length ≤ 32) (hnul : 0 ∉ body) (hfmt : fmtcnt ≤ 256) :
    Emits (List.replicate (fmtcnt - (body.length + 1)) 0x30 ++ 0x2D :: body)
      (Buffered.print_l s s2 val radix fmtcnt) (fun v => Video.print_l v val radix fmtcnt) := by
  have hzero : val ≠ 0 := by
    rintro rfl
    cases hneg
  have hended : Buffered.Holds (Function.update s (body.length + 1) 0) (body.length + 1) [0] :=
    Buffered.Holds.nul (Function.update_self _ _ _)
  obtain ⟨s', hfill, hholds⟩ := Buffered.fillDigits_some (fun val => (val.srem radix).setWidth 8)
    (·.sdiv radix) (-val) hended (by omega)
  obtain ⟨c, hc⟩ := fillDigits_succ (fun val => (val.srem radix).setWidth 8) (·.sdiv radix) body.length (-val) [0]
  have hrest := fillDigits_append (fun val => (val.srem radix).setWidth 8) (·.sdiv radix) body.length (-val) [] [0]
  rw [List.nil_append, hbody] at hrest
  rw [hc, hrest] at hholds
  have hsigned := (hholds.of_cons.2).cons (c := 0x2D)
  obtain ⟨c', hc'⟩ := fillDigits_succ (fun val => (val.srem radix).setWidth 8) (·.sdiv radix) body.length (-val) []
  rw [hbody] at hc'
  refine print_l_emits_text (-val) (0x2D :: body) hzero hneg rfl hcount rfl (Nat.succ_ne_zero _) ?_ ?_ hsigned
    ?_ hfmt hc' (if_pos rfl)
  · rw [List.length_cons]
    omega
  · have hend := Buffered.write_some (s := s) (c := 0) (i := body.length + 1) (by omega)
    rw [List.length_cons, Buffered.signedDigits, hend, Option.bind_eq_bind, Option.bind_some, hfill]
    exact Buffered.write_some (s := s') (i := 0) (by omega)
  · exact List.mem_cons.not.mpr (not_or.mpr ⟨by decide, hnul⟩)

theorem Emits.unique {b : Option (List Char8 × ℕ)} {f : Video → Video × ℕ} (h : Emits text b f)
    (h' : Emits text' b f) : text = text' :=
  congrArg Prod.fst (Option.some.inj (h.1.symm.trans h'.1))

end Console

/-- `print_ull` puts out the numeral of the number, behind zeros up to the width of the format, and stays inside
its buffers, whatever they held before. -/
theorem print_ull_numeral (s s2 : Buffer) {val radix : BitVec 64} {fmtcnt : ℕ} (hlow : 2 ≤ radix.toNat)
    (hhigh : radix.toNat ≤ 16) (hfmt : fmtcnt ≤ 255) :
    ∃ text, Emits text (Buffered.print_ull s s2 val radix fmtcnt) (fun v => Video.print_ull v val radix fmtcnt) ∧
      text = List.replicate (fmtcnt - (numeral radix.toNat val.toNat).length) 0x30 ++
        numeral radix.toNat val.toNat ∧
      readNumeral radix.toNat text = val.toNat :=
  ⟨_, print_ull_emits s s2 hlow hhigh (by omega), rfl, readNumeral_numeral hlow hhigh _ _⟩

theorem print_ull_numeral_255 : ∃ text,
    Emits text (Buffered.print_ull (fun _ => 0x41) (fun _ => 0x41) 255 16 (4 : ℕ))
      (fun v => Video.print_ull v 255 16 (4 : ℕ)) ∧
    text = List.replicate (4 - (numeral 16 255).length) 0x30 ++ numeral 16 255 ∧ readNumeral 16 text = 255 :=
  @print_ull_numeral _ _ 255 16 4 (by decide) (by decide) (by decide)

/-- Digits with an optional sign in front, and the number they stand for. -/
def Reads (radix : ℕ) (text : List Char8) (z : ℤ) : Prop :=
  ∃ ds : List Char8, ds ≠ [] ∧ (∀ c ∈ ds, ∃ d < radix, c = digitOf d) ∧
    (text = ds ∧ z = readNumeral radix ds ∨ text = 0x2D :: ds ∧ z = -(readNumeral radix ds : ℤ))

/-- `print_l` puts out a numeral of the number, at least as wide as the format asks for, and stays inside its
buffers. -/
def PrintLaw (s s2 : Buffer) (val radix : Word) (fmtcnt : ℕ) : Prop :=
  ∃ text, Emits text (Buffered.print_l s s2 val radix fmtcnt) (fun v => Video.print_l v val radix fmtcnt) ∧
    fmtcnt ≤ text.length ∧ Reads radix.toNat text val.toInt

section Signed
variable {radix n k : ℕ} {body : List Char8} {z : ℤ}

theorem reads_digits (hlow : 2 ≤ radix) (hhigh : radix ≤ 16) (hn : n ≠ 0) (k : ℕ) :
    Reads radix (List.replicate k 0x30 ++ digits radix n) n := by
  refine ⟨_, ?_, fun c hc => ?_, .inl ⟨rfl, ?_⟩⟩
  · intro hnil
    exact length_digits_ne_zero radix hn (List.length_eq_zero_iff.mpr (List.append_eq_nil_iff.mp hnil).2)
  · rcases List.mem_append.mp hc with hzero | hdigit
    · exact ⟨0, by omega, List.eq_of_mem_replicate hzero⟩
    · exact mem_digits hlow hdigit
  · rw [readNumeral_digits hlow hhigh]

theorem reads_negative (hlow : 2 ≤ radix) (hhigh : radix ≤ 16) (hn : n ≠ 0) :
    Reads radix (0x2D :: digits radix n) (-n) := by
  refine ⟨digits radix n, ?_, fun c hc => mem_digits hlow hc, .inr ⟨rfl, ?_⟩⟩
  · intro hnil
    exact length_digits_ne_zero radix hn (List.length_eq_zero_iff.mpr hnil)
  · have hread := readNumeral_digits hlow hhigh 0 n
    rw [List.replicate_zero, List.nil_append] at hread
    rw [hread]

theorem minus_notMem (hhigh : radix ≤ 16) {ds : List Char8} (hds : ∀ c ∈ ds, ∃ d < radix, c = digitOf d) :
    0x2D ∉ ds := by
  intro hmem
  obtain ⟨d, hd, heq⟩ := hds _ hmem
  exact digitOf_ne_minus (Nat.lt_of_lt_of_le hd hhigh) heq.symm

/-- The zeros of `print_prenull` must not come in front of a sign. -/
theorem not_reads_padded (hhigh : radix ≤ 16) (hk : k ≠ 0) :
    ¬ Reads radix (List.replicate k 0x30 ++ 0x2D :: body) z := by
  rintro ⟨ds, -, hds, ⟨rfl, -⟩ | ⟨heq, -⟩⟩
  · exact minus_notMem hhigh hds (List.mem_append_right _ List.mem_cons_self)
  · obtain ⟨j, rfl⟩ := Nat.exists_eq_succ_of_ne_zero hk
    rw [List.replicate_succ, List.cons_append] at heq
    exact absurd (List.cons.inj heq).1 (by decide)

theorem not_reads_minus (hhigh : radix ≤ 16) : ¬ Reads radix [0x2D] z := by
  rintro ⟨ds, hne, hds, ⟨rfl, -⟩ | ⟨heq, -⟩⟩
  · exact minus_notMem hhigh hds List.mem_cons_self
  · exact hne (List.cons.inj heq).2.symm

/-- The width that the digits and the sign fill. -/
theorem width_iff (hradix : 2 ≤ radix) (hn : n ≠ 0) :
    k ≤ (digits radix n).length + 1 ↔ k ≤ 2 ∨ radix ^ (k - 2) ≤ n := by
  have hsome := length_digits_ne_zero radix hn
  have hlen := Nat.lt_digits_length_iff (k := k - 2) hradix n
  rw [← length_digits] at hlen
  rw [← hlen]
  omega

theorem printLaw_of_emits {s s2 : Buffer} {val base : Word} {fmtcnt : ℕ} {text : List Char8}
    (hemits : Emits text (Buffered.print_l s s2 val base fmtcnt) (fun v => Video.print_l v val base fmtcnt))
    (hlen : fmtcnt ≤ text.length) : PrintLaw s s2 val base fmtcnt ↔ Reads base.toNat text val.toInt := by
  constructor
  · rintro ⟨text', hemits', -, hreads⟩
    rwa [hemits.unique hemits']
  · intro hreads
    exact ⟨text, hemits, hlen, hreads⟩

theorem printLaw_zero (s s2 : Buffer) {base : Word} {fmtcnt : ℕ} (hlow : 2 ≤ base.toNat) (hfmt : fmtcnt ≤ 255) :
    PrintLaw s s2 0 base fmtcnt := by
  have hemits : Emits (List.replicate (fmtcnt - 1) 0x30 ++ [0x30]) (Buffered.print_l s s2 0 base fmtcnt)
      (fun v => Video.print_l v 0 base fmtcnt) :=
    (print_prenull_emits s2 Nat.one_pos (by omega : fmtcnt ≤ 256)).putCh 0x30
  have hzeros : List.replicate (fmtcnt - 1) (0x30 : Char8) ++ [0x30] = List.replicate (fmtcnt - 1 + 1) 0x30 :=
    List.replicate_succ'.symm
  refine (printLaw_of_emits hemits ?_).mpr ⟨_, ?_, fun c hc => ?_, .inl ⟨rfl, ?_⟩⟩
  · rw [hzeros, List.length_replicate]
    omega
  · exact List.append_ne_nil_of_right_ne_nil _ (List.cons_ne_nil _ _)
  · rw [hzeros] at hc
    exact ⟨0, by omega, List.eq_of_mem_replicate hc⟩
  · rw [hzeros, readNumeral, List.reverse_replicate, List.map_replicate, digitValue_zero,
      Nat.ofDigits_replicate_zero]
    rfl

theorem printLaw_pos (s s2 : Buffer) {val base : Word} {fmtcnt : ℕ} (hlow : 2 ≤ base.toNat)
    (hhigh : base.toNat ≤ 16) (hfmt : fmtcnt ≤ 255) (hpos : 0 < val.toInt) : PrintLaw s s2 val base fmtcnt := by
  have hhalf : 2 * val.toNat < 2 ^ 32 := BitVec.toInt_pos_iff.mp (Int.le_of_lt hpos)
  have hint : val.toInt = val.toNat := BitVec.toInt_eq_toNat_of_lt hhalf
  have hlt : val.toNat < 2 ^ 31 := by omega
  have hemits := print_l_emits_pos s s2 hlow hhigh (by omega) hlt (by omega : fmtcnt ≤ 256)
  rw [printLaw_of_emits hemits, hint]
  · exact reads_digits hlow hhigh (by omega) _
  · rw [List.length_append, List.length_replicate]
    omega

/-- The smallest number: it is its own negative, and no digit is counted. -/
theorem not_printLaw_intMin (s s2 : Buffer) {base : Word} {fmtcnt : ℕ} (hhigh : base.toNat ≤ 16)
    (hfmt : fmtcnt ≤ 255) : ¬ PrintLaw s s2 (BitVec.intMin 32) base fmtcnt := by
  have hemits := @print_l_emits_neg fmtcnt s s2 (BitVec.intMin 32) base [] rfl rfl rfl (by decide) List.not_mem_nil
    (by omega)
  rw [printLaw_of_emits hemits]
  · cases hk : fmtcnt - 1 with
    | zero => exact not_reads_minus hhigh
    | succ k => exact not_reads_padded hhigh (Nat.succ_ne_zero k)
  · rw [List.length_append, List.length_replicate, List.length_cons]
    omega

/-- A negative number, with its sign where the width leaves no zeros to put in front of it. -/
theorem printLaw_neg_iff (s s2 : Buffer) {val base : Word} {fmtcnt : ℕ} (hlow : 2 ≤ base.toNat)
    (hhigh : base.toNat ≤ 16) (hfmt : fmtcnt ≤ 255) (hneg : val.toInt < 0) (hmin : val ≠ BitVec.intMin 32) :
    PrintLaw s s2 val base fmtcnt ↔ fmtcnt ≤ 2 ∨ base.toNat ^ (fmtcnt - 2) ≤ val.toInt.natAbs := by
  have hsign : val.slt 0 = true := decide_eq_true hneg
  have hhalf : 2 ^ 32 ≤ 2 * val.toNat := BitVec.toInt_neg_iff.mp hneg
  have hne : val.toNat ≠ 2 ^ 31 := fun h => hmin (BitVec.eq_of_toNat_eq h)
  have hint : val.toInt = val.toNat - 2 ^ 32 := by
    rw [BitVec.toInt_eq_toNat_cond, if_neg (by omega)]
    rfl
  have hopp : (-val).toNat = val.toInt.natAbs := by
    have := val.isLt
    rw [BitVec.toNat_neg, hint]
    omega
  have hsmall : (-val).toNat < 2 ^ 31 := by omega
  have hdiv := signed_divides base hlow hhigh
  have hsome : val.toInt.natAbs ≠ 0 := by omega
  have hfew := length_digits_le hlow (-val).isLt
  have hcount := countDigits_eq hdiv hlow hsmall hfew
  have hdigits := fillDigits_eq hdiv hlow hsmall rfl []
  rw [List.append_nil] at hdigits
  rw [hopp] at hfew hcount hdigits
  have hemits := print_l_emits_neg s s2 hsign hcount hdigits hfew
    (zero_notMem_digits hlow hhigh) (by omega : fmtcnt ≤ 256)
  rw [printLaw_of_emits hemits, ← width_iff hlow hsome]
  · have hval : val.toInt = -val.toInt.natAbs := by omega
    constructor
    · intro hreads
      by_contra hwide
      exact not_reads_padded hhigh (by omega) hreads
    · intro hfits
      have hnone : fmtcnt - ((digits base.toNat val.toInt.natAbs).length + 1) = 0 := by omega
      have hreads := reads_negative hlow hhigh hsome
      rw [← hval] at hreads
      rw [hnone]
      exact hreads
  · rw [List.length_append, List.length_replicate, List.length_cons]
    omega

end Signed

/-- `print_l` is right for the numbers that are not negative, and for the negative ones but the smallest as long
as no zero has to be put in front. -/
theorem printLaw_iff (s s2 : Buffer) {val radix : Word} {fmtcnt : ℕ} (hlow : 2 ≤ radix.toNat)
    (hhigh : radix.toNat ≤ 16) (hfmt : fmtcnt ≤ 255) : PrintLaw s s2 val radix fmtcnt ↔
      0 ≤ val.toInt ∨ val ≠ BitVec.intMin 32 ∧ (fmtcnt ≤ 2 ∨ radix.toNat ^ (fmtcnt - 2) ≤ val.toInt.natAbs) := by
  rcases lt_trichotomy 0 val.toInt with hpos | hzero | hneg
  · exact iff_of_true (printLaw_pos s s2 hlow hhigh hfmt hpos) (.inl (Int.le_of_lt hpos))
  · have hval : val = 0 := BitVec.eq_of_toInt_eq hzero.symm
    rw [hval]
    exact iff_of_true (printLaw_zero s s2 hlow hfmt) (.inl (Int.le_refl 0))
  · rw [or_iff_right (Int.not_le.mpr hneg)]
    by_cases hmin : val = BitVec.intMin 32
    · rw [hmin]
      exact iff_of_false (not_printLaw_intMin s s2 hhigh hfmt) (fun h => h.1 rfl)
    · rw [printLaw_neg_iff s s2 hlow hhigh hfmt hneg hmin, and_iff_right hmin]

theorem printLaw_iff_minus_five : PrintLaw (fun _ => 0) (fun _ => 0) (-5) 10 2 :=
  (printLaw_iff _ _ (by decide) (by decide) (by decide)).mpr (.inr ⟨by decide, .inl (by decide)⟩)

/-- `00-5` -/
theorem not_printLaw_minus_five : ¬ PrintLaw (fun _ => 0) (fun _ => 0) (-5) 10 4 := by
  rintro ⟨text, ⟨hbuffer, -⟩, -, hreads⟩
  have htext : text = List.replicate 2 0x30 ++ 0x2D :: [0x35] := by
    have hrun : Buffered.print_l (fun _ => 0) (fun _ => 0) (-5) 10 (4 : ℕ) = some ([0x30, 0x30, 0x2D, 0x35], 4) := by
      decide
    exact congrArg Prod.fst (Option.some.inj (hbuffer.symm.trans hrun))
  rw [htext] at hreads
  exact not_reads_padded (by decide) (by decide) hreads

end CxxKernel.Devices
