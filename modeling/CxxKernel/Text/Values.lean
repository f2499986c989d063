import CxxKernel.Text.Splitting
import Mathlib.Data.List.TakeWhile

/-! What a `String` holds, without its place in memory: the functions of `String` on these values, and that
they are what the functions on objects do. A result `none` says that the source follows a null pointer. -/
namespace CxxKernel.Text

/-- The characters in the buffer. Without a buffer `m_length` may be anything. -/
inductive Value
  | text (chars : List UInt8)
  | null (m_length : Word)
  deriving DecidableEq

namespace Value

def m_length : Value → Word
  | text chars => BitVec.ofNat 32 chars.length
  | null m_length => m_length

/-- The length as a number. -/
def length : Value → ℕ
  | text chars => chars.length
  | null m_length => m_length.toNat

/-- The characters that `init` takes. A length of 2 ^ 31 or more is negative there, so that they end at the
first NUL. -/
def measured (chars : List UInt8) : List UInt8 :=
  if chars.length < 2 ^ 31 then chars else chars.takeWhile (· ≠ 0)

/-- The copy constructor and `operator=`, in an object whose length was `m_length` before. -/
def init (m_length : Word) : Value → Value
  | text chars => text (measured chars)
  | null _ => null m_length

/-- `at`, which has the null character behind the end. -/
def at' (pos : ℕ) : Value → Option UInt8
  | text chars => some (if chars.length ≤ pos then 0 else chars.getD pos 0)
  | null m_length => if m_length.toNat ≤ pos then some 0 else none

/-- What the default constructor makes, with the characters added one after the other. -/
def ofChars : List UInt8 → Value
  | [] => null 0
  | c :: chars => text (c :: chars)

def right (index : ℕ) : Value → Option Value
  | text chars => some (ofChars (chars.drop index))
  | null m_length => if m_length.toNat ≤ index then some (null 0) else none

/-- `operator==`, which looks at the characters of two texts of one length. -/
def eq (v other : Value) : Option Bool :=
  if other.length ≠ v.length then some false
  else if v.length = 0 then some true
  else
    match v, other with
    | text chars, text chars' => some (chars = chars')
    | _, _ => none

/-- The value stands for the characters. -/
def Denotes (chars : List UInt8) : Value → Prop
  | text chars' => chars' = chars
  | null m_length => m_length = 0 ∧ chars = []

/-- There is a buffer, and a copy has the same characters in it. -/
def Whole : Value → Prop
  | text chars => chars.length < 2 ^ 31 ∨ 0 ∉ chars
  | null _ => False

instance : (v : Value) → Decidable v.Whole
  | text chars => inferInstanceAs (Decidable (chars.length < 2 ^ 31 ∨ 0 ∉ chars))
  | null _ => inferInstanceAs (Decidable False)

section Copies
variable {v w : Value} {chars : List UInt8} {raw : Word}

theorem takeWhile_eq_self_iff : chars.takeWhile (· ≠ 0) = chars ↔ 0 ∉ chars := by
  rw [List.takeWhile_eq_self_iff]
  constructor
  · intro h hmem
    simpa using h 0 hmem
  · intro h c hc
    have hne : c ≠ 0 := fun h0 => h (h0 ▸ hc)
    simpa using hne

theorem measured_eq_self_iff : measured chars = chars ↔ chars.length < 2 ^ 31 ∨ 0 ∉ chars := by
  unfold measured
  split_ifs with hshort
  · exact iff_of_true rfl (.inl hshort)
  · rw [takeWhile_eq_self_iff, or_iff_right hshort]

/-- A copy is the same value for every memory exactly if there is a buffer and the whole text is copied. -/
theorem init_eq_iff : (∀ raw, v.init raw = v) ↔ v.Whole := by
  cases v with
  | text chars =>
    exact Iff.trans ⟨fun h => text.inj (h 0), fun h _ => congrArg text h⟩ measured_eq_self_iff
  | null m_length =>
    refine iff_of_false (fun h => ?_) not_false
    have hzero := null.inj (h (m_length + 1))
    exact absurd hzero (by bv_omega)

theorem Whole.init (h : v.Whole) (raw : Word) : v.init raw = v := init_eq_iff.mpr h raw

theorem Whole.exists_text (h : v.Whole) : ∃ chars, v = text chars := by
  cases v with
  | text chars => exact ⟨chars, rfl⟩
  | null m_length => exact h.elim

theorem Whole.sublist {chars' : List UInt8} (h : (text chars).Whole) (hs : chars'.Sublist chars) :
    (text chars').Whole :=
  h.imp (Nat.lt_of_le_of_lt hs.length_le) fun hmem hmem' => hmem (hs.subset hmem')

theorem whole_measured (chars : List UInt8) : (text (measured chars)).Whole := by
  unfold Whole measured
  split_ifs with hshort
  · exact .inl hshort
  · refine .inr fun hmem => ?_
    simpa using List.mem_takeWhile_imp hmem

/-- A text is compared with the characters that another value stands for. -/
theorem eq_denotes {chars' : List UInt8} (h : v.Denotes chars') :
    (text chars).eq v = some (decide (chars = chars')) := by
  unfold eq
  cases v with
  | text chars₁ =>
    obtain rfl : chars₁ = chars' := h
    rw [length, length]
    split_ifs with hlength hzero
    · exact congrArg some (decide_eq_false fun heq => hlength (congrArg List.length heq.symm)).symm
    · have hzero' := not_not.mp hlength
      rw [hzero] at hzero'
      rw [List.length_eq_zero_iff.mp hzero, List.length_eq_zero_iff.mp hzero']
      rfl
    · rfl
  | null m_length =>
    obtain ⟨rfl, rfl⟩ := h
    rw [length, length]
    split_ifs with hlength hzero
    · exact congrArg some (decide_eq_false fun heq => hlength (by rw [heq]; rfl)).symm
    · rw [List.length_eq_zero_iff.mp hzero]
      rfl
    · exact absurd (not_not.mp hlength).symm hzero

theorem length_measured_le (chars : List UInt8) : (measured chars).length ≤ chars.length := by
  unfold measured
  split_ifs
  · exact Nat.le_refl _
  · exact (List.takeWhile_sublist _).length_le

theorem Denotes.unique {chars' : List UInt8} (h : v.Denotes chars) (h' : v.Denotes chars') : chars = chars' := by
  cases v with
  | text _ => exact h.symm.trans h'
  | null _ => exact h.2.trans h'.2.symm

theorem denotes_ofChars (chars : List UInt8) : (ofChars chars).Denotes chars := by
  cases chars with
  | nil => exact ⟨rfl, rfl⟩
  | cons c chars => rfl

theorem ofChars_of_ne_nil (h : chars ≠ []) : ofChars chars = text chars := by
  cases chars with
  | nil => exact absurd rfl h
  | cons c chars => rfl

end Copies

end Value

/-- The object holds the value. -/
def Stands (st : Store) (s : String) : Value → Prop
  | .text chars => s.m_str ≠ 0 ∧ Object st s chars
  | .null m_length => s.m_str = 0 ∧ s.m_length = m_length

/-- From `st` to `st'` the object whose buffer was `old` has come to hold the value. The other objects are as
they were, and share no block with it. -/
structure Became (st : Store) (old : Word) (st' : Store) (s : String) (v : Value) : Prop where
  wf : Wf st'.live
  stands : Stands st' s v
  others : ∀ o w, Stands st o w → (o.m_str ≠ 0 → o.m_str ≠ old) →
    Stands st' o w ∧ (o.m_str ≠ 0 → o.m_str ≠ s.m_str)

section Objects
variable {st st' : Store} {s str r : String} {v w : Value} {chars : List UInt8} {q : Word} {old : Word}

theorem Stands.m_length (h : Stands st s v) : s.m_length = v.m_length := by
  cases v with
  | text chars => exact h.2.length
  | null m_length => exact h.2

theorem Stands.length (h : Stands st s v) : s.m_length.toNat = v.length := by
  cases v with
  | text chars => exact h.2.denotes.length
  | null m_length => exact congrArg BitVec.toNat h.2

theorem Placed.became (h : Placed st st' old s chars) (hwf : Wf st.live) : Became st old st' s (.text chars) := by
  refine ⟨h.wf, ⟨h.nonnull, h.object⟩, fun o w ho hne => ?_⟩
  cases w with
  | text chars' =>
    obtain ⟨hnull, hobject⟩ := ho
    have hapart := (h.others _ (hobject.held.own hnull) (hne hnull)).2.1
    exact ⟨⟨hnull, hobject.kept hne h.kept hwf⟩, fun _ => hapart⟩
  | null m_length => exact ⟨ho, fun hnull => absurd ho.1 hnull⟩

theorem became_null (hwf : Wf st.live) (hs : s.m_str = 0) : Became st old st s (.null s.m_length) :=
  ⟨hwf, ⟨hs, rfl⟩, fun _ _ ho _ => ⟨ho, fun hnull => by rw [hs]; exact hnull⟩⟩

/-- The characters up to the first NUL, which is that behind the text at the latest. -/
theorem Object.cString_measured (h : Object st s chars) (hne : s.m_str ≠ 0) :
    CString st s.m_str (chars.takeWhile (· ≠ 0)) := by
  have hshort := h.short
  have hsplit : chars.takeWhile (· ≠ 0) ++ chars.dropWhile (· ≠ 0) = chars := List.takeWhile_append_dropWhile
  have hlength : (chars.takeWhile (· ≠ 0)).length + (chars.dropWhile (· ≠ 0)).length = chars.length := by
    rw [← List.length_append, hsplit]
  have hread := h.held.chars hne
  rw [← hlength, read_append] at hread
  obtain ⟨hfirst, hrest⟩ := List.append_inj (hread.trans hsplit.symm) (length_read ..)
  have hsize : (BitVec.ofNat 32 (chars.length + 1)).toNat = chars.length + 1 := toNat_ofNat_of_lt (by omega)
  refine ⟨hne, hfirst, ?_, fun hmem => by simpa using List.mem_takeWhile_imp hmem,
    ⟨_, h.held.own hne, Nat.le_refl _, by dsimp only; omega⟩⟩
  cases hdrop : chars.dropWhile (· ≠ 0) with
  | nil =>
    rw [hdrop, List.append_nil] at hsplit
    rw [hsplit, ← h.length]
    exact h.nul hne
  | cons c rest =>
    have hc : c = 0 := by
      have hhead := List.head?_dropWhile_not (fun c : UInt8 => decide (c ≠ 0)) chars
      rw [hdrop] at hhead
      simpa using hhead
    rw [hdrop, List.length_cons, read] at hrest
    exact (List.cons.inj hrest).1.trans hc

/-- `init` does to the object what it does to the value. -/
theorem init_became (hwf : Wf st.live) (hs : Stands st str v)
    (h : String.init st s str.m_str str.m_length q = some (st', r)) : Became st 0 st' r (v.init s.m_length) := by
  cases v with
  | null m_length =>
    rw [String.init, if_neg (not_not.mpr hs.1)] at h
    cases h
    exact became_null hwf rfl
  | text chars =>
    obtain ⟨hnull, hobject⟩ := hs
    have hshort := hobject.short
    have hstring := hobject.cString_measured hnull
    have hle := (List.takeWhile_sublist (l := chars) fun c => decide (c ≠ 0)).length_le
    by_cases hlong : chars.length < 2 ^ 31
    · have hlength : String.initLength st.byte str.m_str str.m_length = some (BitVec.ofNat 32 chars.length) := by
        rw [String.initLength, hobject.length, if_pos ((zero_sle_ofNat (by omega)).mpr hlong)]
      have hmeasured : Value.measured chars = chars := if_pos hlong
      rw [Value.init, hmeasured]
      exact (init_placed hwf hobject.held.source hnull (by omega) hlength h).became hwf
    · have hlength : String.initLength st.byte str.m_str str.m_length =
          some (BitVec.ofNat 32 (chars.takeWhile (· ≠ 0)).length) := by
        rw [String.initLength, hobject.length, if_neg (mt (zero_sle_ofNat (by omega)).mp hlong),
          hstring.length_eq (by omega)]
      have hmeasured : Value.measured chars = chars.takeWhile (· ≠ 0) := if_neg hlong
      rw [Value.init, hmeasured]
      exact (init_placed hwf hstring.source hnull (by omega) hlength h).became hwf

/-- A copy that is made with the copy constructor. -/
theorem ofString_became {raw : String} (hwf : Wf st.live) (hs : Stands st str v)
    (h : String.ofString st raw str q = some (st', r)) : Became st 0 st' r (v.init raw.m_length) :=
  init_became (s := { raw with m_null := 0 }) hwf hs h

theorem init_m_null {len p : Word} (h : String.init st s p len q = some (st', r)) : r.m_null = s.m_null := by
  unfold String.init at h
  split_ifs at h
  · obtain ⟨m_length, -, h⟩ := Option.bind_eq_some_iff.mp h
    obtain ⟨st₁, -, h⟩ := Option.bind_eq_some_iff.mp h
    cases h
    rfl
  · cases h
    rfl

theorem Grown.stands {s' : String} (h : Grown st s st' s' chars) (ho : Stands st r w)
    (hne : r.m_str ≠ 0 → r.m_str ≠ s.m_str) : Stands st' r w ∧ (r.m_str ≠ 0 → r.m_str ≠ s'.m_str) := by
  cases w with
  | text chars' =>
    obtain ⟨hkept, hne'⟩ := h.others r chars' ho.2 hne
    exact ⟨⟨ho.1, hkept⟩, hne'⟩
  | null m_length => exact ⟨ho, fun hnull => absurd ho.1 hnull⟩

theorem Grown.became (h : Grown st String.empty st' r chars) (hnull : chars = [] → r.m_str = 0) :
    Became st 0 st' r (.ofChars chars) := by
  refine ⟨h.wf, ?_, fun o w ho _ => h.stands ho id⟩
  cases chars with
  | nil => exact ⟨hnull rfl, h.object.length⟩
  | cons c chars => exact ⟨fun hr => List.cons_ne_nil _ _ (h.object.held.null hr), h.object⟩

/-- `right` does to the object what it does to the value, where that follows no null pointer. -/
theorem right_became {n : Word} {at' : Word → Word} (hwf : Wf st.live) (hs : Stands st s v)
    (hv : v.right n.toNat = some w) (h : String.right s at' st n = some (st', r)) : Became st 0 st' r w := by
  cases v with
  | text chars =>
    cases hv
    refine (right_grown hwf hs.2 h).became fun hnil => ?_
    have hend : ¬ n < s.m_length := by
      rw [BitVec.not_lt, BitVec.le_def, hs.2.denotes.length]
      exact List.drop_eq_nil_iff.mp hnil
    rw [String.right_end hend] at h
    cases h
    rfl
  | null m_length =>
    rw [Value.right] at hv
    by_cases hle : m_length.toNat ≤ n.toNat
    · rw [if_pos hle] at hv
      cases hv
      have hend : ¬ n < s.m_length := by
        rw [BitVec.not_lt, BitVec.le_def, hs.2]
        exact hle
      rw [String.right_end hend] at h
      cases h
      exact became_null hwf rfl
    · rw [if_neg hle] at hv
      cases hv

theorem at'_value {p : Word} {c : UInt8} (hs : Stands st s v) (hnull : s.m_null = 0)
    (hv : v.at' p.toNat = some c) : s.at' st.byte p = c := by
  rw [String.at']
  cases v with
  | text chars =>
    have hlength := hs.2.denotes.length
    rw [Value.at', ← hlength] at hv
    by_cases hend : s.m_length ≤ p
    · rw [if_pos (BitVec.le_def.mp hend)] at hv
      rw [if_pos hend, hnull]
      exact Option.some.inj hv
    · have hp : p < s.m_length := BitVec.not_le.mp hend
      have hget := (hs.2.denotes.chars p hp).2
      rw [String.at', if_neg hend] at hget
      rw [if_neg (mt BitVec.le_def.mpr hend), List.getD_eq_getElem?_getD, hget] at hv
      rw [if_neg hend]
      exact Option.some.inj hv
  | null m_length =>
    rw [Value.at', ← hs.2] at hv
    by_cases hend : s.m_length ≤ p
    · rw [if_pos (BitVec.le_def.mp hend)] at hv
      rw [if_pos hend, hnull]
      exact Option.some.inj hv
    · rw [if_neg (mt BitVec.le_def.mpr hend)] at hv
      cases hv

theorem sameChars_iff {byte : Bytes} {p p' : Word} {n : ℕ} :
    String.sameChars byte p p' n = true ↔ read byte p n = read byte p' n := by
  rw [String.sameChars, List.all_eq_true]
  constructor
  · intro h
    exact read_congr fun i hi => of_decide_eq_true (h i (List.mem_range.mpr hi))
  · intro h i hi
    have hi' := List.mem_range.mp hi
    have hget : (read byte p n)[i]? = some (byte (p + BitVec.ofNat 32 i)) := getElem?_read hi'
    rw [h, getElem?_read hi'] at hget
    exact decide_eq_true (Option.some.inj hget).symm

/-- `operator==` on objects, where that on the values follows no null pointer. -/
theorem eq_value {o : String} {b : Bool} (hs : Stands st s v) (ho : Stands st o w) (hb : v.eq w = some b) :
    s.eq st.byte o = b := by
  unfold Value.eq at hb
  rw [← hs.length, ← ho.length] at hb
  rw [String.eq]
  by_cases hlength : o.m_length = s.m_length
  · rw [if_neg (not_not.mpr (congrArg BitVec.toNat hlength))] at hb
    rw [if_neg (not_not.mpr hlength)]
    by_cases hzero : s.m_length.toNat = 0
    · rw [if_pos hzero] at hb
      rw [hzero]
      exact Option.some.inj hb
    · rw [if_neg hzero] at hb
      cases v with
      | null m_length => cases hb
      | text chars =>
        cases w with
        | null m_length => cases hb
        | text chars' =>
          have hcount : chars'.length = chars.length := by
            rw [← ho.2.denotes.length, hlength, hs.2.denotes.length]
          have hread := ho.2.held.chars ho.1
          rw [hcount] at hread
          rw [hs.2.denotes.length, Bool.eq_iff_iff, sameChars_iff, hs.2.held.chars hs.1, hread,
            ← Option.some.inj hb, decide_eq_true_iff]
  · rw [if_pos fun h => hlength (BitVec.eq_of_toNat_eq h)] at hb
    rw [if_pos hlength]
    exact Option.some.inj hb

theorem Stands.destroy {tmp : String} (h : Stands st s v) (hwf : Wf st.live)
    (hne : s.m_str ≠ 0 → s.m_str ≠ tmp.m_str) : Stands (String.destroy st tmp) s v := by
  rw [String.destroy]
  split_ifs
  · cases v with
    | text chars =>
      exact ⟨h.1, h.2.kept hne (fun e he hother => ⟨mem_free.mpr ⟨he, hother⟩, fun _ _ => rfl⟩) hwf⟩
    | null m_length => exact h
  · exact h

theorem Became.through {st₁ : Store} {tmp : String} (h : Became st old st₁ tmp v) (h' : Became st₁ 0 st' r w) :
    Became st old (String.destroy st' tmp) r w := by
  have hapart := (h'.others tmp v h.stands id).2
  refine ⟨?_, h'.stands.destroy h'.wf ?_, fun o u ho hne => ?_⟩
  · rw [String.destroy]
    split_ifs
    · exact h'.wf.free _
    · exact h'.wf
  · intro hr heq
    exact hapart (heq ▸ hr) heq.symm
  · obtain ⟨ho₁, hne₁⟩ := h.others o u ho hne
    obtain ⟨ho', hne'⟩ := h'.others o u ho₁ id
    exact ⟨ho'.destroy h'.wf hne₁, hne'⟩

theorem Became.trans {st₁ : Store} (h : Became st old st₁ s v) (h' : Became st₁ s.m_str st' r w) :
    Became st old st' r w := by
  refine ⟨h'.wf, h'.stands, fun o u ho hne => ?_⟩
  obtain ⟨ho₁, hne₁⟩ := h.others o u ho hne
  exact h'.others o u ho₁ hne₁

theorem Became.of_new (h : Became st 0 st' r w) (old : Word) : Became st old st' r w :=
  ⟨h.wf, h.stands, fun o u ho _ => h.others o u ho id⟩

end Objects

end CxxKernel.Text
