import CxxKernel.Memory
import Mathlib.Data.List.Basic

/-! `Video` in text mode: no framebuffer is configured, and `m_videomem` is not null. The hardware cursor
and the serial copy of the text are left out. -/
namespace CxxKernel.Devices

/-- Characters are signed in the source. -/
abbrev Char8 := BitVec 8

abbrev Cell := BitVec 16

def VIDEO_COLOR_MASK : Cell := 0x0700
def TAB_SIZE : Word := 8
def SCROLL_SIZE : Word := 1

structure Cursor where
  m_x : Word
  m_y : Word
  m_origin : Word
  deriving DecidableEq, Repr

/-- The console. The code does not read the last two fields: `stores` records the cells that were
written, and `erased` the cursors at which `putCh` was given a backspace. -/
structure Video extends Cursor where
  m_width : Word
  m_height : Word
  m_videomem : ℕ → Cell
  stores : List ℕ
  erased : List Cursor

namespace Video

def store (v : Video) (offset : ℕ) (cell : Cell) : Video :=
  { v with m_videomem := Function.update v.m_videomem offset cell, stores := v.stores ++ [offset] }

/-- `Mem::copy` of `count` cells to the start of the video memory. -/
def copyCells (v : Video) (src : ℕ) : ℕ → Video
  | 0 => v
  | count + 1 =>
    let v := copyCells v src count
    v.store count (v.m_videomem (src + count))

/-- `Mem::setw` -/
def setCells (v : Video) (dest : ℕ) (cell : Cell) : ℕ → Video
  | 0 => v
  | count + 1 => (setCells v dest cell count).store (dest + count) cell

/-- What `scroll` does when the cursor is below the screen. -/
def shift (v : Video) : Video :=
  let ss := (v.m_height - 1) * v.m_width
  let src := SCROLL_SIZE * v.m_width * 2
  -- the copy is in bytes, and does nothing when it starts where it ends
  let v := if src = 0 then v else copyCells v src.toNat ((ss * 2).toNat / 2)
  let v := setCells v ss.toNat 0 v.m_width.toNat
  { v with m_y := v.m_height - 2 }

def scroll (v : Video) : Video :=
  let v := if v.m_height ≤ v.m_y then shift v else v
  let v := if v.m_width ≤ v.m_x then { v with m_x := 0 } else v
  if v.m_height < v.m_y then { v with m_y := v.m_height - 1 } else v

def putCh (v : Video) (c : Char8) : Video :=
  if c = 0x0A then scroll { v with m_y := v.m_y + 1, m_x := 0, m_origin := 0 }
  else if c = 0x09 then
    if v.m_x + TAB_SIZE < v.m_width then { v with m_x := v.m_x + TAB_SIZE } else { v with m_x := v.m_width - 1 }
  else if c = 0x08 then
    let v := { v with erased := v.erased ++ [v.toCursor] }
    let v := if 0 < v.m_x ∧ v.m_origin < v.m_x then { v with m_x := v.m_x - 1 } else v
    let offset := v.m_y * v.m_width + v.m_x
    v.store offset.toNat 0
  else
    let v := if v.m_width ≤ v.m_x then { v with m_x := v.m_x - v.m_width, m_y := v.m_y + 1 } else v
    let v := scroll v
    let offset := v.m_y * v.m_width + v.m_x
    let v := v.store offset.toNat (c.signExtend 16 ||| VIDEO_COLOR_MASK)
    { v with m_x := v.m_x + 1 }

/-- The characters up to the first NUL, and their number. -/
def print (v : Video) : List Char8 → Video × ℕ
  | [] => (v, 0)
  | c :: cp =>
    if c = 0 then (v, 0)
    else
      let (v, print_cnt) := print (putCh v c) cp
      (v, print_cnt + 1)

def print_prenull (v : Video) (cnt fmtcnt : ℤ) : Video × ℕ :=
  if cnt < fmtcnt then
    let cc := fmtcnt - cnt
    let cc := if 255 < cc then 255 else cc
    print v (List.replicate cc.toNat 0x30)
  else (v, 0)

/-- The loop that counts the digits of a number. The fuel is the width of its type, which is enough for
the radices of the source, 10 and 16. -/
def countDigits {n : ℕ} (more : BitVec n → Bool) (next : BitVec n → BitVec n) : ℕ → BitVec n → ℕ
  | 0, _ => 0
  | fuel + 1, tmp => if more tmp then countDigits more next fuel (next tmp) + 1 else 0

def digitChar (t : Char8) : Char8 := if t.slt 10 then 0x30 + t else 0x41 + (t - 10)

/-- The loop that fills the buffer with `l` digits, from its end to its start. -/
def fillDigits {n : ℕ} (digit : BitVec n → Char8) (next : BitVec n → BitVec n) :
    ℕ → BitVec n → List Char8 → List Char8
  | 0, _, s => s
  | l + 1, val, s => fillDigits digit next l (next val) (digitChar (digit val) :: s)

/-- A `long` has 32 bits on the targets of the kernel. -/
def print_l (v : Video) (val radix : Word) (fmtcnt : ℤ) : Video × ℕ :=
  if val = 0 then
    let (v, print_cnt) := print_prenull v 1 fmtcnt
    (putCh v 0x30, print_cnt + 1)
  else
    let n := val.slt 0
    let val := if n then -val else val
    let l := countDigits (fun tmp => (0 : Word).slt tmp) (·.sdiv radix) 32 val
    let l := if n then l + 1 else l
    let l := if l = 0 then 1 else l
    let s := fillDigits (fun val => (val.srem radix).setWidth 8) (·.sdiv radix) l val []
    let s := if n then 0x2D :: s.tail else s
    let (v, nulls) := print_prenull v l fmtcnt
    let (v, print_cnt) := print v s
    (v, nulls + print_cnt)

def print_ull (v : Video) (val radix : BitVec 64) (fmtcnt : ℤ) : Video × ℕ :=
  if val = 0 then
    let (v, print_cnt) := print_prenull v 1 fmtcnt
    (putCh v 0x30, print_cnt + 1)
  else
    let l := countDigits (fun tmp => 0 < tmp) (· / radix) 64 val
    let l := if l = 0 then 1 else l
    let s := fillDigits (fun val => (val % radix).setWidth 8) (· / radix) l val []
    let (v, nulls) := print_prenull v l fmtcnt
    let (v, print_cnt) := print v s
    (v, nulls + print_cnt)

/-- What a caller can pass for one conversion. -/
inductive Arg
  | str (cp : List Char8)
  | int (val : Word)
  | longlong (val : BitVec 64)

/-- The variables of `vprintf` besides the character it looks at. The counts `l_cnt` and `print_count` are `int` in
the source, which is the same up to `2 ^ 31`. Beyond that an `int` overflows, which the language leaves undefined. -/
structure Format where
  format_char : Bool
  s_signed : Bool
  l_cnt : ℕ
  fmtcnt : Word
  print_count : ℕ
  al : List Arg

/-- The end of a conversion that has printed with the arguments before `al`. -/
def Format.printed (f : Format) (al : List Arg) (r : Video × ℕ) : Video × Format :=
  (r.1, { f with al, print_count := f.print_count + r.2, format_char := false })

/-- `%x` and `%u`; with three or more `l` nothing is printed. -/
def printUnsigned (v : Video) (f : Format) (radix : BitVec 64) : Option (Video × Format) :=
  if f.l_cnt = 0 ∨ f.l_cnt = 1 then
    match f.al with
    | .int val :: al => some (f.printed al (print_ull v (val.setWidth 64) radix f.fmtcnt.toInt))
    | _ => none
  else if f.l_cnt = 2 then
    match f.al with
    | .longlong val :: al => some (f.printed al (print_ull v val radix f.fmtcnt.toInt))
    | _ => none
  else some (v, { f with format_char := false })

/-- A character behind a `%`. There is no answer when the argument it asks for is not there. -/
def convert (v : Video) (f : Format) (ch : Char8) : Option (Video × Format) :=
  if ch = 0x25 then some (f.printed f.al (putCh v 0x25, 1))
  else if ch = 0x73 then
    match f.al with
    | .str cp :: al => some (f.printed al (print v cp))
    | _ => none
  else if ch = 0x6C then some (v, { f with l_cnt := f.l_cnt + 1 })
  else if ch = 0x78 then printUnsigned v f 16
  else if ch = 0x63 then
    match f.al with
    | .int val :: al => some (f.printed al (putCh v (val.setWidth 8), 1))
    | _ => none
  else if ch = 0x64 then
    match f.al with
    | .int val :: al =>
      if f.s_signed then some (f.printed al (print_l v val 10 f.fmtcnt.toInt))
      else some (f.printed al (print_ull v (val.setWidth 64) 10 f.fmtcnt.toInt))
    | _ => none
  else if ch = 0x75 then printUnsigned v f 10
  else if (0x30 : Char8).sle ch ∧ ch.sle 0x39 then
    some (v, { f with fmtcnt := f.fmtcnt * 10 + (ch - 0x30).signExtend 32 })
  else some (v, f)

/-- The loop of `vprintf` over the characters of the format. -/
def vprintfLoop (v : Video) (f : Format) : List Char8 → Option (Video × ℕ)
  | [] => some (v, f.print_count)
  | ch :: fmt =>
    if ch = 0 then some (v, f.print_count)
    else if f.format_char then do
      let (v, f) ← convert v f ch
      vprintfLoop v f fmt
    else if ch = 0x25 then
      vprintfLoop v { f with fmtcnt := 0, format_char := true, s_signed := true, l_cnt := 0 } fmt
    else if ch = 0x0D then vprintfLoop { v with m_x := 0 } f fmt
    else if ch = 0x0A then vprintfLoop (putCh v ch) { f with print_count := f.print_count + 1 } fmt
    else if ch = 0x08 then
      if v.m_x = 0 ∧ 0 < v.m_y then vprintfLoop { v with m_y := v.m_y - 1, m_x := v.m_width - 1 } f fmt
      else if v.m_y = 0 ∧ v.m_x = 0 then vprintfLoop v f fmt
      else vprintfLoop { v with m_x := v.m_x - 1 } f fmt
    else if ch = 0x09 then vprintfLoop { v with m_x := v.m_x + TAB_SIZE } f fmt
    else vprintfLoop (putCh v ch) { f with print_count := f.print_count + 1 } fmt

def vprintf (v : Video) (fmt : List Char8) (al : List Arg) : Option (Video × ℕ) :=
  vprintfLoop v ⟨false, true, 0, 0, 0, al⟩ fmt

def handleChar (v : Video) (c : Char8) : Video :=
  if c = 0 then v
  else if c = 0x0A then putCh { v with m_x := 0, m_y := v.m_y + 1 } c
  else putCh v c

def setOrigin (v : Video) : Video := { v with m_origin := v.m_x }

end Video

end CxxKernel.Devices
