import CxxKernel.Devices.Keyboard
import CxxKernel.Fs.FileIO

/-! The branches of `syscall_read` and `syscall_readv` for the keyboard. A list of answers stands for what
the keyboard gives, one after the other, and `none` is an answer without a key, after which the call sleeps. -/
namespace CxxKernel.Fs
open Devices

/-- What a layout gives for a key: some bytes and a NUL behind them. Only the key for a new line gives one. -/
structure KeyText where
  text : List Byte
  nonempty : text ≠ []
  noNul : 0 ∉ text
  newline : 0x0A ∈ text → text = [0x0A]
  short : text.length < 2 ^ 32

/-- A text is one that a key can give. -/
def IsKeyText (text : List Byte) : Prop :=
  text ≠ [] ∧ 0 ∉ text ∧ (0x0A ∈ text → text = [0x0A]) ∧ text.length < 2 ^ 32

instance (text : List Byte) : Decidable (IsKeyText text) := inferInstanceAs (Decidable (_ ∧ _ ∧ _ ∧ _))

section Layouts

/-- The entry of a layout for a character, in UTF-8. -/
def utf8 (c : Char) : Option (List Byte) := some ((String.utf8EncodeChar c).map UInt8.toBitVec)

def layout_fi : List (Option (List Byte)) := [
  -- 0x00 - 0x0F
  none, none, utf8 '1', utf8 '2', utf8 '3', utf8 '4', utf8 '5', utf8 '6', utf8 '7', utf8 '8',
  utf8 '9', utf8 '0', utf8 '+', utf8 (Char.ofNat 0x60), utf8 (Char.ofNat 8), utf8 (Char.ofNat 9),
  -- 0x10 - 0x1F
  utf8 'q', utf8 'w', utf8 'e', utf8 'r', utf8 't', utf8 'y', utf8 'u', utf8 'i', utf8 'o', utf8 'p',
  utf8 'å', utf8 (Char.ofNat 0x27), utf8 (Char.ofNat 0x0A), none, utf8 'a', utf8 's',
  -- 0x20 - 0x2F
  utf8 'd', utf8 'f', utf8 'g', utf8 'h', utf8 'j', utf8 'k', utf8 'l', utf8 'ö', utf8 'ä', none,
  none, none, utf8 'z', utf8 'x', utf8 'c', utf8 'v',
  -- 0x30 - 0x3F
  utf8 'b', utf8 'n', utf8 'm', utf8 ',', utf8 '.', utf8 '-', none, utf8 '*', none, utf8 ' ',
  none, none, none, none, none, none,
  -- 0x40 - 0x4F
  none, none, none, none, none, none, none, utf8 '7', utf8 '8', utf8 '9',
  utf8 '-', utf8 '4', utf8 '5', utf8 '6', utf8 '+', utf8 '1',
  -- 0x50 - 0x5F
  utf8 '2', utf8 '3', none, none, none, none, none, none, none, none,
  none, none, none, none, none, none]

def layout_fi_up : List (Option (List Byte)) := [
  -- 0x00 - 0x0F
  none, none, utf8 '!', utf8 (Char.ofNat 0x22), utf8 '#', utf8 '¤', utf8 '%', utf8 '&', utf8 '/', utf8 '(',
  utf8 ')', utf8 '=', utf8 '?', utf8 (Char.ofNat 0x60), utf8 (Char.ofNat 8), utf8 (Char.ofNat 9),
  -- 0x10 - 0x1F
  utf8 'Q', utf8 'W', utf8 'E', utf8 'R', utf8 'T', utf8 'Y', utf8 'U', utf8 'I', utf8 'O', utf8 'P',
  utf8 'Å', utf8 '^', utf8 (Char.ofNat 0x0A), none, utf8 'A', utf8 'S',
  -- 0x20 - 0x2F
  utf8 'D', utf8 'F', utf8 'G', utf8 'H', utf8 'J', utf8 'K', utf8 'L', utf8 'Ö', utf8 'Ä', none,
  none, none, utf8 'Z', utf8 'X', utf8 'C', utf8 'V',
  -- 0x30 - 0x3F
  utf8 'B', utf8 'N', utf8 'M', utf8 ';', utf8 ':', utf8 '_', none, utf8 '*', none, utf8 ' ',
  none, none, none, none, none, none,
  -- 0x40 - 0x4F
  none, none, none, none, none, none, none, utf8 '7', utf8 '8', utf8 '9',
  utf8 '-', utf8 '4', utf8 '5', utf8 '6', utf8 '+', utf8 '1',
  -- 0x50 - 0x5F
  utf8 '2', utf8 '3', none, none, none, none, none, none, none, none,
  none, none, none, none, none, none]

/-- The text of a key code in a table of texts that keys can give. -/
def entry (table : List (Option (List Byte))) (h : ∀ text, some text ∈ table → IsKeyText text) (code : Byte) :
    Option KeyText :=
  match hentry : table[code.toNat]? with
  | some (some text) =>
    have hkey := h text (List.mem_of_getElem? hentry)
    some ⟨text, hkey.1, hkey.2.1, hkey.2.2.1, hkey.2.2.2⟩
  | _ => none

theorem isKeyText_fi : ∀ text, some text ∈ layout_fi ∨ some text ∈ layout_fi_up → IsKeyText text := by
  have hall : ∀ e ∈ layout_fi ++ layout_fi_up, ∀ text ∈ e, IsKeyText text := by decide +kernel
  intro text htext
  exact hall _ (List.mem_append.mpr htext) text rfl

def finnish : KBX86.Layout KeyText :=
  ⟨entry layout_fi fun text h => isKeyText_fi text (.inl h),
    entry layout_fi_up fun text h => isKeyText_fi text (.inr h)⟩

end Layouts

/-- The memory of the caller, and all bytes that have been stored to it, in order. -/
structure Stores where
  memory : Word → Byte
  stored : List Byte

/-- `Mem::copy` of the first bytes of a text, which is not in the memory of the caller. -/
def Stores.copy (s : Stores) (dest : Word) (bytes : List Byte) : Stores :=
  if dest = 0 then s else ⟨store s.memory dest bytes, s.stored ++ bytes⟩

namespace KeyText

/-- `String::length`. -/
def length (key : KeyText) : Word := BitVec.ofNat 32 key.text.length

/-- The first byte is `'\n'`. -/
def isNewline (key : KeyText) : Bool := key.text.head? = some 0x0A

end KeyText

/-- The loop of `syscall_read`. Without a return value it still waits for a key. -/
def readKeys (buf cnt : Word) : List (Option KeyText) → Word → Stores → Option Word × Stores
  | [], c, s => if c < cnt then (none, s) else (some c, s)
  | tmp :: answers, c, s =>
    if c < cnt then
      match tmp with
      | none => readKeys buf cnt answers c s
      | some tmp =>
        let l := if cnt < tmp.length then cnt else tmp.length
        let s := s.copy (buf + c) (tmp.text.take l.toNat)
        let c := c + l
        if tmp.isNewline then (some c, s) else readKeys buf cnt answers c s
    else (some c, s)

/-- `syscall_read` for the handle 0. -/
def syscall_read_keys (buf cnt : Word) (answers : List (Option KeyText)) (memory : Word → Byte) :
    Option Word × Stores :=
  readKeys buf cnt answers 0 ⟨memory, []⟩

/-- The loop of `syscall_readv` that fills one vector. It ends with the bytes that it counted and the answers
that are left, or still waits for a key. -/
def fillKeys (len : Word) :
    List (Option KeyText) → Word → Word → Stores → Option (Word × List (Option KeyText)) × Stores
  | [], _, got, s => if got < len then (none, s) else (some (got, []), s)
  | tmp :: answers, target, got, s =>
    if got < len then
      match tmp with
      | none => fillKeys len answers target got s
      | some tmp =>
        if tmp.isNewline then (some (got, answers), s)
        else
          let rcnt := tmp.length
          fillKeys len answers (target + rcnt) (got + rcnt) (s.copy target tmp.text)
    else (some (got, tmp :: answers), s)

/-- The loop over the vectors, with the bytes that were stored for each of them. -/
def readvKeys : List IoVec → Word → List (Option KeyText) → (Word → Byte) →
    Option Word × List (List Byte) × (Word → Byte)
  | [], cnt, _, memory => (some cnt, [], memory)
  | v :: iov, cnt, answers, memory =>
    if v.iov_len.toInt < 0 then (some (-EINVAL), [], memory)
    else
      match fillKeys v.iov_len answers v.iov_base 0 ⟨memory, []⟩ with
      | (none, s) => (none, [s.stored], s.memory)
      | (some (got, answers), s) =>
        let (res, stored, memory) := readvKeys iov (cnt + got) answers s.memory
        (res, s.stored :: stored, memory)

/-- `syscall_readv` for the handle 0. -/
def syscall_readv_keys (iov : List IoVec) (answers : List (Option KeyText)) (memory : Word → Byte) :
    Option Word × List (List Byte) × (Word → Byte) :=
  readvKeys iov 0 answers memory

/-- The address names a buffer of so many bytes. -/
def IsBuffer (buf cnt : Word) : Prop := cnt ≠ 0 → buf ≠ 0 ∧ buf.toNat + cnt.toNat ≤ 2 ^ 32

instance (buf cnt : Word) : Decidable (IsBuffer buf cnt) := inferInstanceAs (Decidable (_ → _))

/-- The keys among the answers. -/
def pressed (answers : List (Option KeyText)) : List KeyText := answers.reduceOption

/-- The key strings, one behind the other. -/
def bytes (keys : List KeyText) : List Byte := keys.flatMap KeyText.text

/-- The first line, with its newline if there is one. -/
def line : List Byte → List Byte
  | [] => []
  | b :: bs => if b = 0x0A then [b] else b :: line bs

/-- `r` is what a call of `read` came to: it has stored a part of the first line, and only to its buffer. -/
structure ReadLaw (buf cnt : Word) (keys : List KeyText) (memory : Word → Byte) (r : Option Word × Stores) :
    Prop where
  room : r.2.stored.length ≤ cnt.toNat
  line : r.2.stored <+: line (bytes keys)
  memory : r.2.memory = store memory buf r.2.stored
  returns : ∀ c, r.1 = some c → c.toNat = r.2.stored.length

/-- With `c` bytes in a buffer for `n`, no key of the line comes that is longer than the room that is left. The
key that comes first is cut. -/
def FitsFrom (n c : ℕ) (keys : List KeyText) : Prop :=
  ∀ before key after, keys = before ++ key :: after → 0x0A ∉ bytes before →
    0 < c + (bytes before).length → c + (bytes before).length < n → c + (bytes before).length + key.text.length ≤ n

section Read
variable {buf cnt c : Word} {answers : List (Option KeyText)} {keys : List KeyText} {key : KeyText} {s : Stores}
  {memory : Word → Byte} {n k : ℕ} {as bs : List Byte}

theorem store_append (h : as.length + bs.length ≤ 2 ^ 32) :
    store (store memory buf as) (buf + BitVec.ofNat 32 as.length) bs = store memory buf (as ++ bs) := by
  funext x
  have hoff : (x - (buf + BitVec.ofNat 32 as.length)).toNat =
      if as.length ≤ (x - buf).toNat then (x - buf).toNat - as.length else 2 ^ 32 + (x - buf).toNat - as.length := by
    have hsub : x - (buf + BitVec.ofNat 32 as.length) = x - buf - BitVec.ofNat 32 as.length := by bv_omega
    have hlt := (x - buf).isLt
    rw [hsub, BitVec.toNat_sub, BitVec.toNat_ofNat]
    split_ifs <;> omega
  unfold store
  rw [hoff, List.length_append]
  by_cases hle : as.length ≤ (x - buf).toNat
  · have hget : (as ++ bs).getD (x - buf).toNat 0 = bs.getD ((x - buf).toNat - as.length) 0 :=
      List.getD_append_right as bs 0 _ hle
    rw [if_pos hle, hget]
    by_cases hlt : (x - buf).toNat - as.length < bs.length
    · rw [if_pos hlt, if_pos (by omega)]
    · rw [if_neg hlt, if_neg (by omega), if_neg (by omega)]
  · have hget : (as ++ bs).getD (x - buf).toNat 0 = as.getD (x - buf).toNat 0 :=
      List.getD_append as bs 0 _ (by omega)
    rw [if_neg hle, if_neg (by omega), if_pos (by omega), if_pos (by omega), hget]

theorem isNewline_iff : key.isNewline = true ↔ 0x0A ∈ key.text := by
  rw [KeyText.isNewline, decide_eq_true_iff]
  constructor
  · exact List.mem_of_head?
  · intro hmem
    rw [key.newline hmem]
    rfl

theorem line_append (h : 0x0A ∉ as) (bs : List Byte) : line (as ++ bs) = as ++ line bs := by
  induction as with
  | nil => rfl
  | cons a as ih =>
    rw [List.mem_cons, not_or] at h
    rw [List.cons_append, line, if_neg (Ne.symm h.1), ih h.2, List.cons_append]

theorem line_key (h : key.isNewline = true) (bs : List Byte) : line (key.text ++ bs) = key.text := by
  rw [key.newline (isNewline_iff.mp h)]
  rfl

theorem bytes_cons (key : KeyText) (keys : List KeyText) : bytes (key :: keys) = key.text ++ bytes keys := rfl

theorem toNat_length (key : KeyText) : key.length.toNat = key.text.length := by
  rw [KeyText.length, BitVec.toNat_ofNat, Nat.mod_eq_of_lt key.short]

theorem toNat_add_length (h : c.toNat + key.text.length < 2 ^ 32) :
    (c + key.length).toNat = c.toNat + key.text.length := by
  rw [BitVec.toNat_add, toNat_length, Nat.mod_eq_of_lt h]

theorem fitsFrom_nil : FitsFrom n k [] := by
  intro before key after h
  cases before <;> cases h

theorem forall_line_cons (P : KeyText → ℕ → Prop) :
    (∀ before next after, key :: keys = before ++ next :: after → 0x0A ∉ bytes before →
        P next (k + (bytes before).length)) ↔
      P key k ∧ (key.isNewline = false → ∀ before next after, keys = before ++ next :: after →
        0x0A ∉ bytes before → P next (k + key.text.length + (bytes before).length)) := by
  constructor
  · intro h
    refine ⟨h [] key keys rfl List.not_mem_nil, fun hkey before next after heq hnot => ?_⟩
    have hmem : 0x0A ∉ bytes (key :: before) := by
      rw [bytes_cons, List.mem_append, not_or]
      exact ⟨fun hc => absurd (isNewline_iff.mpr hc) (by rw [hkey]; exact Bool.false_ne_true), hnot⟩
    have hnext := h (key :: before) next after (by rw [heq]; rfl) hmem
    rwa [bytes_cons, List.length_append, ← Nat.add_assoc] at hnext
  · rintro ⟨hfirst, hrest⟩ before next after heq hnot
    cases before with
    | nil =>
      obtain ⟨rfl, -⟩ := List.cons.inj heq
      exact hfirst
    | cons key' before =>
      obtain ⟨rfl, rfl⟩ := List.cons.inj heq
      rw [bytes_cons, List.mem_append, not_or] at hnot
      rw [bytes_cons, List.length_append, ← Nat.add_assoc]
      have hkey : key.isNewline = false := Bool.eq_false_iff.mpr (mt isNewline_iff.mp hnot.1)
      exact hrest hkey before next after rfl hnot.2

theorem fitsFrom_cons : FitsFrom n k (key :: keys) ↔
    (0 < k → k < n → k + key.text.length ≤ n) ∧ (key.isNewline = false → FitsFrom n (k + key.text.length) keys) :=
  forall_line_cons fun next j => 0 < j → j < n → j + next.text.length ≤ n

/-- The buffer holds the bytes that have been stored, and nothing else has changed. -/
structure Holding (buf : Word) (memory : Word → Byte) (s : Stores) (c : Word) : Prop where
  memory : s.memory = store memory buf s.stored
  count : c.toNat = s.stored.length

theorem holding_start (buf : Word) (memory : Word → Byte) : Holding buf memory ⟨memory, []⟩ 0 :=
  ⟨(store_nil memory buf).symm, rfl⟩

theorem IsBuffer.inside (h : IsBuffer buf cnt) (hlt : c < cnt) : buf + c ≠ 0 := by
  have hlt' : c.toNat < cnt.toNat := hlt
  have hne : cnt ≠ 0 := by bv_omega
  obtain ⟨hbuf, hend⟩ := h hne
  bv_omega

theorem copy_eq {dest : Word} (h : dest ≠ 0) (s : Stores) (bs : List Byte) :
    s.copy dest bs = ⟨store s.memory dest bs, s.stored ++ bs⟩ := if_neg h

theorem length_copy {dest : Word} (h : dest ≠ 0) (s : Stores) (bs : List Byte) :
    (s.copy dest bs).stored.length = s.stored.length + bs.length := by
  rw [copy_eq h, List.length_append]

theorem Holding.copy {l : Word} (h : Holding buf memory s c) (hdest : buf + c ≠ 0) (hl : bs.length = l.toNat)
    (hroom : c.toNat + l.toNat < 2 ^ 32) : Holding buf memory (s.copy (buf + c) bs) (c + l) := by
  have hc : BitVec.ofNat 32 s.stored.length = c := by rw [← h.count, BitVec.ofNat_toNat, BitVec.setWidth_eq]
  have hlen := h.count
  rw [copy_eq hdest]
  constructor
  · dsimp only
    rw [h.memory, ← hc]
    exact store_append (by omega)
  · rw [BitVec.toNat_add, Nat.mod_eq_of_lt hroom, List.length_append, hl, h.count]

theorem readKeys_fits (hlt : c < cnt) (hfit : key.text.length ≤ cnt.toNat) :
    readKeys buf cnt (some key :: answers) c s =
      if key.isNewline then (some (c + key.length), s.copy (buf + c) key.text)
      else readKeys buf cnt answers (c + key.length) (s.copy (buf + c) key.text) := by
  have hl : ¬ cnt < key.length := by
    rw [BitVec.lt_def, toNat_length]
    omega
  rw [readKeys, if_pos hlt]
  dsimp only
  rw [if_neg hl, toNat_length, List.take_length]

/-- A key that is longer than the buffer is cut to the length of the buffer. -/
theorem readKeys_cut (hlt : c < cnt) (hlong : cnt.toNat < key.text.length) :
    readKeys buf cnt (some key :: answers) c s =
      readKeys buf cnt answers (c + cnt) (s.copy (buf + c) (key.text.take cnt.toNat)) := by
  have hl : cnt < key.length := by
    rw [BitVec.lt_def, toNat_length]
    exact hlong
  have hkey : key.isNewline = false := by
    refine Bool.eq_false_iff.mpr fun hkey => ?_
    have hlt' : c.toNat < cnt.toNat := hlt
    rw [key.newline (isNewline_iff.mp hkey), List.length_singleton] at hlong
    omega
  rw [readKeys, if_pos hlt]
  dsimp only
  rw [if_pos hl, hkey, if_neg Bool.false_ne_true]

theorem readKeys_end (h : ¬ c < cnt) : readKeys buf cnt answers c s = (some c, s) := by
  cases answers with
  | nil => exact if_neg h
  | cons tmp answers => exact if_neg h

theorem readKeys_wait (hlt : c < cnt) : readKeys buf cnt (none :: answers) c s = readKeys buf cnt answers c s :=
  if_pos hlt

/-- From the state `s` on, `part` is stored, a part of the line that fits into the buffer. -/
structure ReadsOn (buf cnt : Word) (memory : Word → Byte) (s : Stores) (keys : List KeyText)
    (r : Option Word × Stores) (part : List Byte) : Prop where
  stored : r.2.stored = s.stored ++ part
  line : part <+: line (bytes keys)
  room : s.stored.length + part.length ≤ cnt.toNat
  memory : r.2.memory = store memory buf r.2.stored
  returns : ∀ c, r.1 = some c → c.toNat = r.2.stored.length

theorem Holding.readsOn (h : Holding buf memory s c) (hle : c.toNat ≤ cnt.toNat) {res : Option Word}
    (hres : ∀ c', res = some c' → c' = c) : ReadsOn buf cnt memory s keys (res, s) [] where
  stored := (List.append_nil _).symm
  line := List.nil_prefix
  room := by
    have hcount := h.count
    rw [List.length_nil]
    omega
  memory := h.memory
  returns c' hc' := by
    rw [hres c' hc']
    exact h.count

theorem readsOn_cut (hbuf : IsBuffer buf cnt) (h : Holding buf memory s c) (hzero : c = 0) (hlt : c < cnt)
    (hlong : cnt.toNat < key.text.length) :
    ReadsOn buf cnt memory s (key :: keys) (readKeys buf cnt (some key :: answers) c s)
      (key.text.take cnt.toNat) := by
  have hdest := hbuf.inside hlt
  have htake : (key.text.take cnt.toNat).length = cnt.toNat := List.length_take_of_le (by omega)
  have hstep := h.copy hdest htake (l := cnt) (by bv_omega)
  have hstart : s.stored.length = 0 := by
    rw [← h.count, hzero]
    rfl
  have hkey : 0x0A ∉ key.text := by
    intro hmem
    have hlt' : c.toNat < cnt.toNat := hlt
    rw [key.newline hmem, List.length_singleton] at hlong
    omega
  rw [readKeys_cut hlt hlong, readKeys_end (by bv_omega)]
  refine ⟨?_, ?_, ?_, hstep.memory, fun c' hc' => ?_⟩
  · rw [copy_eq hdest]
  · rw [bytes_cons, line_append hkey]
    exact (List.take_prefix _ _).trans (List.prefix_append _ _)
  · rw [htake, hstart, Nat.zero_add]
  · rw [← Option.some.inj hc']
    exact hstep.count

theorem readsOn_newline (hdest : buf + c ≠ 0) (h : Holding buf memory (s.copy (buf + c) key.text) (c + key.length))
    (hkey : key.isNewline = true) (hroom : s.stored.length + key.text.length ≤ cnt.toNat) :
    ReadsOn buf cnt memory s (key :: keys) (some (c + key.length), s.copy (buf + c) key.text) key.text where
  stored := by rw [copy_eq hdest]
  line := by rw [bytes_cons, line_key hkey]
  room := hroom
  memory := h.memory
  returns c' hc' := by
    rw [← Option.some.inj hc']
    exact h.count

theorem ReadsOn.cons {r : Option Word × Stores} {part : List Byte} (hdest : buf + c ≠ 0)
    (h : ReadsOn buf cnt memory (s.copy (buf + c) key.text) keys r part) (hkey : ¬ key.isNewline = true) :
    ReadsOn buf cnt memory s (key :: keys) r (key.text ++ part) where
  stored := by rw [h.stored, copy_eq hdest, List.append_assoc]
  line := by
    have hnot : 0x0A ∉ key.text := fun hmem => hkey (isNewline_iff.mpr hmem)
    rw [bytes_cons, line_append hnot]
    exact (List.prefix_append_right_inj _).mpr h.line
  room := by
    have hroom := h.room
    rw [length_copy hdest] at hroom
    rw [List.length_append]
    omega
  memory := h.memory
  returns := h.returns

/-- As long as every key fits, the loop stores a part of the line. -/
theorem readKeys_law (hbuf : IsBuffer buf cnt) (h : Holding buf memory s c) (hle : c.toNat ≤ cnt.toNat)
    (hfits : FitsFrom cnt.toNat c.toNat (pressed answers)) :
    ∃ part, ReadsOn buf cnt memory s (pressed answers) (readKeys buf cnt answers c s) part := by
  induction answers generalizing c s with
  | nil =>
    refine ⟨[], ?_⟩
    by_cases hlt : c < cnt
    · rw [readKeys, if_pos hlt]
      exact h.readsOn hle (by simp)
    · rw [readKeys_end hlt]
      exact h.readsOn hle (by simp)
  | cons tmp answers ih =>
    by_cases hlt : c < cnt
    swap
    · refine ⟨[], ?_⟩
      rw [readKeys_end hlt]
      exact h.readsOn hle (by simp)
    cases tmp with
    | none =>
      rw [readKeys_wait hlt]
      exact ih h hle hfits
    | some key =>
      change FitsFrom cnt.toNat c.toNat (key :: pressed answers) at hfits
      change ∃ part, ReadsOn buf cnt memory s (key :: pressed answers) _ part
      rw [fitsFrom_cons] at hfits
      obtain ⟨hfit, hrest⟩ := hfits
      have hlt' : c.toNat < cnt.toNat := hlt
      have hdest := hbuf.inside hlt
      have hbound := cnt.isLt
      by_cases hlong : cnt.toNat < key.text.length
      · -- Only the first key may be longer than the buffer.
        have hzero : c = 0 := by
          by_contra hne
          have hpos : 0 < c.toNat := by bv_omega
          have hroom := hfit hpos hlt'
          omega
        exact ⟨_, readsOn_cut hbuf h hzero hlt hlong⟩
      · have hroom : c.toNat + key.text.length ≤ cnt.toNat := by
          by_cases hpos : 0 < c.toNat
          · exact hfit hpos hlt'
          · omega
        have hstep := h.copy hdest (toNat_length key).symm (by rw [toNat_length]; omega)
        have hnext : (c + key.length).toNat = c.toNat + key.text.length := toNat_add_length (by omega)
        have hcount := h.count
        rw [readKeys_fits hlt (by omega)]
        by_cases hkey : key.isNewline = true
        · rw [if_pos hkey]
          exact ⟨_, readsOn_newline hdest hstep hkey (by omega)⟩
        · have hfits' := hrest (Bool.eq_false_iff.mpr hkey)
          rw [← hnext] at hfits'
          obtain ⟨part, hpart⟩ := ih hstep (by omega) hfits'
          rw [if_neg hkey]
          exact ⟨_, hpart.cons hdest hkey⟩

theorem readKeys_grows (hbuf : IsBuffer buf cnt) :
    s.stored.length ≤ (readKeys buf cnt answers c s).2.stored.length := by
  induction answers generalizing c s with
  | nil =>
    rw [readKeys]
    split_ifs
    · exact le_rfl
    · exact le_rfl
  | cons tmp answers ih =>
    by_cases hlt : c < cnt
    swap
    · rw [readKeys_end hlt]
    cases tmp with
    | none =>
      rw [readKeys_wait hlt]
      exact ih
    | some key =>
      have hcopy : ∀ bs, s.stored.length ≤ (s.copy (buf + c) bs).stored.length := by
        intro bs
        rw [length_copy (hbuf.inside hlt)]
        exact Nat.le_add_right ..
      rw [readKeys, if_pos hlt]
      dsimp only
      split_ifs
      · exact hcopy _
      · exact hcopy _
      · exact (hcopy _).trans ih
      · exact (hcopy _).trans ih

theorem fits_of_readKeys (hbuf : IsBuffer buf cnt) (hcount : c.toNat = s.stored.length)
    (hroom : (readKeys buf cnt answers c s).2.stored.length ≤ cnt.toNat) :
    FitsFrom cnt.toNat c.toNat (pressed answers) := by
  induction answers generalizing c s with
  | nil => exact fitsFrom_nil
  | cons tmp answers ih =>
    by_cases hlt : c < cnt
    swap
    · intro before key after heq hnot hpos hlt'
      rw [BitVec.lt_def] at hlt
      omega
    cases tmp with
    | none =>
      rw [readKeys_wait hlt] at hroom
      exact ih hcount hroom
    | some key =>
      have hlt' : c.toNat < cnt.toNat := hlt
      have hdest := hbuf.inside hlt
      change FitsFrom cnt.toNat c.toNat (key :: pressed answers)
      rw [fitsFrom_cons]
      by_cases hlong : cnt.toNat < key.text.length
      · rw [readKeys_cut hlt hlong] at hroom
        have hgrows := (readKeys_grows hbuf).trans hroom
        rw [length_copy hdest, List.length_take_of_le (by omega)] at hgrows
        refine ⟨fun hpos _ => by omega, fun _ before next after heq hnot hpos hsmall => by omega⟩
      · rw [readKeys_fits hlt (by omega)] at hroom
        have hstored : c.toNat + key.text.length ≤ cnt.toNat := by
          have hgrows : (s.copy (buf + c) key.text).stored.length ≤ cnt.toNat := by
            refine le_trans ?_ hroom
            split_ifs
            · exact le_rfl
            · exact readKeys_grows hbuf
          rw [length_copy hdest] at hgrows
          omega
        have hnext : (c + key.length).toNat = c.toNat + key.text.length := toNat_add_length (by omega)
        refine ⟨fun _ _ => hstored, fun hkey => ?_⟩
        rw [hkey, if_neg Bool.false_ne_true] at hroom
        rw [← hnext]
        refine ih ?_ hroom
        rw [hnext, length_copy hdest, hcount]

theorem readLaw_keys_iff (hbuf : IsBuffer buf cnt) :
    ReadLaw buf cnt (pressed answers) memory (syscall_read_keys buf cnt answers memory) ↔
      FitsFrom cnt.toNat 0 (pressed answers) := by
  constructor
  · intro hlaw
    exact fits_of_readKeys hbuf rfl hlaw.room
  · intro hfits
    obtain ⟨part, hpart⟩ := readKeys_law hbuf (holding_start buf memory) (Nat.zero_le _) hfits
    have hstored : (syscall_read_keys buf cnt answers memory).2.stored = part := hpart.stored
    have hroom := hpart.room
    rw [List.length_nil, Nat.zero_add] at hroom
    refine ⟨?_, ?_, hpart.memory, hpart.returns⟩
    · rw [hstored]
      exact hroom
    · rw [hstored]
      exact hpart.line

end Read

/-- With `got` bytes in a vector of `n`, no key comes for it that is longer than the room that is left. -/
def VectorFrom (n got : ℕ) (keys : List KeyText) : Prop :=
  ∀ before key after, keys = before ++ key :: after → 0x0A ∉ bytes before → key.isNewline = false →
    got + (bytes before).length < n → got + (bytes before).length + key.text.length ≤ n

/-- The answers behind those that a vector takes: it takes keys until it is full, or a new line. -/
def leftOver (n : ℕ) : ℕ → List (Option KeyText) → List (Option KeyText)
  | _, [] => []
  | got, none :: answers => if got < n then leftOver n got answers else none :: answers
  | got, some key :: answers =>
    if got < n then if key.isNewline then answers else leftOver n (got + key.text.length) answers
    else some key :: answers

/-- The keys fit into the vectors that they come for. A vector of negative length ends the call. -/
def VectorsFit : List IoVec → List (Option KeyText) → Prop
  | [], _ => True
  | v :: iov, answers => v.iov_len.toInt < 0 ∨
      VectorFrom v.iov_len.toNat 0 (pressed answers) ∧ VectorsFit iov (leftOver v.iov_len.toNat 0 answers)

/-- No vector has been given more bytes than it has room for. -/
def ReadvLaw (iov : List IoVec) (stored : List (List Byte)) : Prop :=
  ∀ p ∈ iov.zip stored, p.2.length ≤ p.1.iov_len.toNat

section Readv
variable {base len target got : Word} {answers rest : List (Option KeyText)} {keys : List KeyText} {key : KeyText}
  {s : Stores} {memory : Word → Byte} {n k : ℕ} {iov : List IoVec} {cnt : Word}

theorem vectorFrom_nil : VectorFrom n k [] := by
  intro before key after h
  cases before <;> cases h

theorem vectorFrom_cons : VectorFrom n k (key :: keys) ↔ (key.isNewline = false →
    (k < n → k + key.text.length ≤ n) ∧ VectorFrom n (k + key.text.length) keys) :=
  (forall_line_cons fun next j => next.isNewline = false → j < n → j + next.text.length ≤ n).trans forall_and.symm

theorem fillKeys_end (h : ¬ got < len) : fillKeys len answers target got s = (some (got, answers), s) := by
  cases answers with
  | nil => exact if_neg h
  | cons tmp answers => exact if_neg h

theorem fillKeys_wait (hlt : got < len) :
    fillKeys len (none :: answers) target got s = fillKeys len answers target got s := if_pos hlt

theorem fillKeys_some (hlt : got < len) : fillKeys len (some key :: answers) target got s =
    if key.isNewline then (some (got, answers), s)
    else fillKeys len answers (target + key.length) (got + key.length) (s.copy target key.text) := if_pos hlt

theorem leftOver_end (h : ¬ k < n) : leftOver n k answers = answers := by
  cases answers with
  | nil => rfl
  | cons tmp answers =>
    cases tmp with
    | none => exact if_neg h
    | some key => exact if_neg h

theorem leftOver_nil (n k : ℕ) : leftOver n k [] = [] := by rw [leftOver]

theorem fillKeys_grows (hbase : IsBuffer base len) (htarget : target = base + got) :
    s.stored.length ≤ (fillKeys len answers target got s).2.stored.length := by
  induction answers generalizing target got s with
  | nil =>
    rw [fillKeys]
    split_ifs
    · exact le_rfl
    · exact le_rfl
  | cons tmp answers ih =>
    by_cases hlt : got < len
    swap
    · rw [fillKeys_end hlt]
    cases tmp with
    | none =>
      rw [fillKeys_wait hlt]
      exact ih htarget
    | some key =>
      have hcopy : s.stored.length ≤ (s.copy target key.text).stored.length := by
        rw [htarget, length_copy (hbase.inside hlt)]
        exact Nat.le_add_right ..
      rw [fillKeys_some hlt]
      split_ifs
      · exact le_rfl
      · exact hcopy.trans (ih (by rw [htarget, BitVec.add_assoc]))

/-- A vector whose keys fit gets no more than it has room for, and leaves the others. -/
theorem fillKeys_room (hbase : IsBuffer base len) (htarget : target = base + got)
    (hcount : got.toNat = s.stored.length) (hle : got.toNat ≤ len.toNat)
    (hfits : VectorFrom len.toNat got.toNat (pressed answers)) :
    (fillKeys len answers target got s).2.stored.length ≤ len.toNat ∧
      (((fillKeys len answers target got s).1 = none ∧ leftOver len.toNat got.toNat answers = []) ∨
        ∃ got', (fillKeys len answers target got s).1 = some (got', leftOver len.toNat got.toNat answers)) := by
  induction answers generalizing target got s with
  | nil =>
    rw [leftOver_nil]
    by_cases hlt : got < len
    · rw [fillKeys, if_pos hlt]
      exact ⟨hcount ▸ hle, .inl ⟨rfl, rfl⟩⟩
    · rw [fillKeys_end hlt]
      exact ⟨hcount ▸ hle, .inr ⟨got, rfl⟩⟩
  | cons tmp answers ih =>
    by_cases hlt : got < len
    swap
    · rw [fillKeys_end hlt, leftOver_end hlt]
      exact ⟨hcount ▸ hle, .inr ⟨got, rfl⟩⟩
    have hlt' : got.toNat < len.toNat := hlt
    cases tmp with
    | none =>
      rw [fillKeys_wait hlt, leftOver, if_pos hlt']
      exact ih htarget hcount hle hfits
    | some key =>
      change VectorFrom len.toNat got.toNat (key :: pressed answers) at hfits
      rw [vectorFrom_cons] at hfits
      rw [fillKeys_some hlt, leftOver, if_pos hlt']
      by_cases hkey : key.isNewline = true
      · rw [if_pos hkey, if_pos hkey]
        exact ⟨hcount ▸ hle, .inr ⟨got, rfl⟩⟩
      · obtain ⟨hfit, hrest⟩ := hfits (Bool.eq_false_iff.mpr hkey)
        have hroom := hfit hlt'
        have hbound := len.isLt
        have hnext : (got + key.length).toNat = got.toNat + key.text.length := toNat_add_length (by omega)
        rw [if_neg hkey, if_neg hkey, ← hnext]
        refine ih (by rw [htarget, BitVec.add_assoc]) ?_ (by omega) (by rw [hnext]; exact hrest)
        rw [hnext, htarget, length_copy (hbase.inside hlt), hcount]

theorem vectorFrom_of_fillKeys (hbase : IsBuffer base len) (htarget : target = base + got)
    (hcount : got.toNat = s.stored.length) (hroom : (fillKeys len answers target got s).2.stored.length ≤ len.toNat) :
    VectorFrom len.toNat got.toNat (pressed answers) := by
  induction answers generalizing target got s with
  | nil => exact vectorFrom_nil
  | cons tmp answers ih =>
    by_cases hlt : got < len
    swap
    · intro before key after heq hnot hnext hlt'
      rw [BitVec.lt_def] at hlt
      omega
    cases tmp with
    | none =>
      rw [fillKeys_wait hlt] at hroom
      exact ih htarget hcount hroom
    | some key =>
      change VectorFrom len.toNat got.toNat (key :: pressed answers)
      rw [vectorFrom_cons]
      intro hkey
      have htarget' : target + key.length = base + (got + key.length) := by rw [htarget, BitVec.add_assoc]
      rw [fillKeys_some hlt, hkey, if_neg Bool.false_ne_true] at hroom
      have hgrows := (fillKeys_grows hbase htarget').trans hroom
      rw [htarget, length_copy (hbase.inside hlt)] at hgrows
      have hbound := len.isLt
      have hnext : (got + key.length).toNat = got.toNat + key.text.length := toNat_add_length (by omega)
      refine ⟨fun _ => by omega, ?_⟩
      rw [← hnext]
      refine ih htarget' ?_ hroom
      rw [hnext, htarget, length_copy (hbase.inside hlt), hcount]

theorem vectorsFit_nil (iov : List IoVec) : VectorsFit iov [] := by
  induction iov with
  | nil => trivial
  | cons v iov ih => exact .inr ⟨vectorFrom_nil, by rw [leftOver_nil]; exact ih⟩

theorem readvLaw_cons {v : IoVec} {bs : List Byte} {stored : List (List Byte)} :
    ReadvLaw (v :: iov) (bs :: stored) ↔ bs.length ≤ v.iov_len.toNat ∧ ReadvLaw iov stored := List.forall_mem_cons

theorem readvLaw_nil (iov : List IoVec) : ReadvLaw iov [] := by
  intro p hp
  rw [List.zip_nil_right] at hp
  cases hp

theorem readvLaw_keys_iff (hiov : ∀ v ∈ iov, IsBuffer v.iov_base v.iov_len) :
    ReadvLaw iov (readvKeys iov cnt answers memory).2.1 ↔ VectorsFit iov answers := by
  induction iov generalizing cnt answers memory with
  | nil => exact iff_of_true (readvLaw_nil []) trivial
  | cons v iov ih =>
    rw [readvKeys, VectorsFit]
    by_cases hneg : v.iov_len.toInt < 0
    · rw [if_pos hneg]
      exact iff_of_true (readvLaw_nil _) (.inl hneg)
    have hbase := hiov v List.mem_cons_self
    have htarget : v.iov_base = v.iov_base + 0 := (BitVec.add_zero _).symm
    have hroom := @fillKeys_room _ _ v.iov_base 0 answers ⟨memory, []⟩ hbase htarget rfl (Nat.zero_le _)
    have hfits := @vectorFrom_of_fillKeys _ _ v.iov_base 0 answers ⟨memory, []⟩ hbase htarget rfl
    have hrest : ∀ cnt answers memory, ReadvLaw iov (readvKeys iov cnt answers memory).2.1 ↔ VectorsFit iov answers :=
      fun _ _ _ => ih fun w hw => hiov w (List.mem_cons_of_mem _ hw)
    rw [if_neg hneg, or_iff_right hneg]
    generalize fillKeys v.iov_len answers v.iov_base 0 ⟨memory, []⟩ = r at hroom hfits
    obtain ⟨res, s⟩ := r
    change VectorFrom v.iov_len.toNat 0 (pressed answers) → _ at hroom
    change _ → VectorFrom v.iov_len.toNat 0 (pressed answers) at hfits
    by_cases hfit : VectorFrom v.iov_len.toNat 0 (pressed answers)
    · rw [and_iff_right hfit]
      obtain ⟨hle, ⟨rfl, hleft⟩ | ⟨got, rfl⟩⟩ := hroom hfit
      · -- The call waits for a key, and no answer is left for the other vectors.
        change leftOver v.iov_len.toNat 0 answers = [] at hleft
        rw [hleft]
        exact iff_of_true (readvLaw_cons.mpr ⟨hle, readvLaw_nil iov⟩) (vectorsFit_nil iov)
      · exact readvLaw_cons.trans ((and_iff_right hle).trans (hrest _ _ _))
    · refine iff_of_false (fun hlaw => hfit (hfits ?_)) fun h => hfit h.1
      cases res with
      | none => exact (readvLaw_cons.mp hlaw).1
      | some p => exact (readvLaw_cons.mp hlaw).1

/-- Neither call overruns a buffer, and `read` stores a part of the first line, exactly if no key comes that
is longer than the room that is left for it. -/
theorem stdin_iff {buf : Word} {memory' : Word → Byte} (hbuf : IsBuffer buf cnt)
    (hiov : ∀ v ∈ iov, IsBuffer v.iov_base v.iov_len) :
    ReadLaw buf cnt (pressed answers) memory (syscall_read_keys buf cnt answers memory) ∧
        ReadvLaw iov (syscall_readv_keys iov answers memory').2.1 ↔
      FitsFrom cnt.toNat 0 (pressed answers) ∧ VectorsFit iov answers :=
  and_congr (readLaw_keys_iff hbuf) (readvLaw_keys_iff hiov)

end Readv

/-- What the Finnish layout gives for some key codes. -/
def typed (codes : List Byte) : List (Option KeyText) := codes.map finnish.plain

/-- "å" fits into two bytes. -/
theorem stdin_iff_short : ReadLaw 0x1000 2 (pressed (typed [0x1A])) (fun _ => 0)
      (syscall_read_keys 0x1000 2 (typed [0x1A]) fun _ => 0) ∧
    ReadvLaw [⟨0x2000, 2⟩] (syscall_readv_keys [⟨0x2000, 2⟩] (typed [0x1A]) fun _ => 0).2.1 := by
  have htext : (finnish.plain 0x1A).map KeyText.text = some [0xC3, 0xA5] := by decide +kernel
  obtain ⟨key, hkey, hbytes⟩ := Option.map_eq_some_iff.mp htext
  have hlength : key.text.length = 2 := congrArg List.length hbytes
  have htyped : typed [0x1A] = [some key] := congrArg (fun k => [k]) hkey
  have hpressed : pressed (typed [0x1A]) = [key] := congrArg pressed htyped
  refine (stdin_iff (by decide) (by decide)).mpr ⟨?_, .inr ⟨?_, trivial⟩⟩
  · rw [hpressed]
    exact fitsFrom_cons.mpr ⟨fun h => absurd h (by decide), fun _ => fitsFrom_nil⟩
  · rw [hpressed]
    refine vectorFrom_cons.mpr fun _ => ⟨fun _ => ?_, vectorFrom_nil⟩
    rw [hlength]
    decide

def twoVectors : List IoVec := [⟨0x1000, 1⟩, ⟨0x2000, 1⟩]

/-- Behind "a" the two bytes of "å" do not fit into a buffer of two, nor into a vector of one. -/
theorem not_readLaw_long : (syscall_read_keys 0x1000 2 (typed [0x1E, 0x1A]) fun _ => 0).1 = some 3 ∧
    (syscall_read_keys 0x1000 2 (typed [0x1E, 0x1A]) fun _ => 0).2.stored = [0x61, 0xC3, 0xA5] ∧
    ¬ ReadLaw 0x1000 2 (pressed (typed [0x1E, 0x1A])) (fun _ => 0)
      (syscall_read_keys 0x1000 2 (typed [0x1E, 0x1A]) fun _ => 0) ∧
    ¬ ReadvLaw twoVectors (syscall_readv_keys twoVectors (typed [0x1E, 0x1A]) fun _ => 0).2.1 := by
  have hstored : (syscall_read_keys 0x1000 2 (typed [0x1E, 0x1A]) fun _ => 0).2.stored = [0x61, 0xC3, 0xA5] := by
    decide +kernel
  have hvectors : (syscall_readv_keys twoVectors (typed [0x1E, 0x1A]) fun _ => 0).2.1 = [[0x61], [0xC3, 0xA5]] := by
    decide +kernel
  refine ⟨by decide +kernel, hstored, fun hlaw => ?_, fun hlaw => ?_⟩
  · have hroom := hlaw.room
    rw [hstored] at hroom
    exact absurd hroom (by decide)
  · rw [hvectors] at hlaw
    exact absurd (hlaw _ (.tail _ (.head _))) (by decide)

end CxxKernel.Fs
