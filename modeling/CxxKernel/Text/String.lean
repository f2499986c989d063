import CxxKernel.Text.Store

/-! `String`: a length and a buffer of the heap, which is null for the empty text. Where a function
allocates, the answers of the allocator are arguments, and the function has no answer of its own unless
they are those of successful allocations. -/
namespace CxxKernel.Text

/-- The fields of an object; a `String` with arbitrary fields is memory that is not initialised. -/
structure String where
  m_length : Word
  m_str : Word
  m_null : UInt8
  deriving DecidableEq

namespace String

/-- The loop of `length` for C strings, which goes on to the first NUL. -/
def lengthLoop (byte : Bytes) : ℕ → Word → Word → Option Word
  | 0, _, _ => none
  | fuel + 1, tmp, cnt => if byte tmp = 0 then some cnt else lengthLoop byte fuel (tmp + 1) (cnt + 1)

def length (byte : Bytes) (str : Word) : Option Word := if str = 0 then some 0 else lengthLoop byte (2 ^ 32) str 0

/-- The length that `init` takes. `len` is an `ssize_t`: a length of 2 ^ 31 or more is negative here. -/
def initLength (byte : Bytes) (str len : Word) : Option Word :=
  if (0 : Word).sle len then some len else length byte str

def init (st : Store) (s : String) (str len q : Word) : Option (Store × String) :=
  if str ≠ 0 then do
    let m_length ← initLength st.byte str len
    let st ← st.alloc (m_length + 1) q
    let st := { st with byte := Mem.copy st.byte q str m_length }
    some (st.write (q + m_length) 0, { s with m_length, m_str := q })
  else some (st, { s with m_str := 0 })

def empty : String := ⟨0, 0, 0⟩

def ofCString (st : Store) (raw : String) (str q : Word) : Option (Store × String) :=
  init st { raw with m_null := 0 } str (-1) q

def ofString (st : Store) (raw str : String) (q : Word) : Option (Store × String) :=
  init st { raw with m_null := 0 } str.m_str str.m_length q

def ofChar (st : Store) (c : UInt8) (q : Word) : Option (Store × String) := do
  let m_length : Word := 1
  let st ← st.alloc (m_length + 1) q
  let st := st.write q c
  some (st.write (q + m_length) 0, ⟨m_length, q, 0⟩)

/-- The destructor. -/
def destroy (st : Store) (s : String) : Store := if s.m_str ≠ 0 then st.free s.m_str else st

def at' (byte : Bytes) (s : String) (pos : Word) : UInt8 :=
  if s.m_length ≤ pos then s.m_null else byte (s.m_str + pos)

/-- The loop of `operator==` and `startsWith`. -/
def sameChars (byte : Bytes) (p q : Word) (n : ℕ) : Bool :=
  (List.range n).all fun i => byte (p + BitVec.ofNat 32 i) = byte (q + BitVec.ofNat 32 i)

/-- `operator==`. -/
def eq (byte : Bytes) (s other : String) : Bool :=
  if other.m_length ≠ s.m_length then false else sameChars byte s.m_str other.m_str s.m_length.toNat

def startsWith (byte : Bytes) (s other : String) : Bool :=
  let len := other.m_length
  if s.m_length < len then false else sameChars byte s.m_str other.m_str len.toNat

/-- The private `append`, for `len` bytes. -/
def appendBytes (st : Store) (s : String) (str len q : Word) : Option (Store × String) := do
  let new_length := s.m_length + len
  let (st, tmp) ← st.realloc s.m_str (new_length + 1) q
  let st := { st with byte := Mem.move st.byte (tmp + s.m_length) str len }
  let s := { s with m_str := tmp, m_length := new_length }
  some (st.write (s.m_str + s.m_length) 0, s)

/-- `append` and `operator+=` for a `String`. -/
def append (st : Store) (s str : String) (q : Word) : Option (Store × String) :=
  appendBytes st s str.m_str str.m_length q

def appendCString (st : Store) (s : String) (str q : Word) : Option (Store × String) := do
  let len ← length st.byte str
  appendBytes st s str len q

/-- `operator+=` for a C string, which makes a `String` of it first; `raw` and `q` are for that one. -/
def addCString (st : Store) (s : String) (str : Word) (raw : String) (q q' : Word) : Option (Store × String) := do
  let (st, tmp) ← ofCString st raw str q
  let (st, s) ← append st s tmp q'
  some (destroy st tmp, s)

/-- `operator+=` for a character. -/
def addChar (st : Store) (s : String) (c : UInt8) (q : Word) : Option (Store × String) := do
  let (st, tmp) ← st.realloc s.m_str (s.m_length + 2) q
  let st := st.write (tmp + s.m_length) c
  let s := { s with m_str := tmp, m_length := s.m_length + 1 }
  some (st.write (s.m_str + s.m_length) 0, s)

end String

end CxxKernel.Text
