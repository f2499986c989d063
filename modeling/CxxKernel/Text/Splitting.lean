import CxxKernel.Text.ValueSemantics

/-! `String::left` and `String::right`, which build their answers character by character. -/
namespace CxxKernel.Text

namespace String
variable (s : String) (q : Word → Word)

/-- The loop of `right`, each round of which takes a character. `q` gives the answers of the allocator by
the position of the character. -/
def rightLoop : ℕ → Word → Store → String → Option (Store × String)
  | 0, _, st, res => some (st, res)
  | fuel + 1, i, st, res =>
    if i < s.m_length then
      (addChar st res (st.byte (s.m_str + i)) (q i)).bind fun (st, res) => rightLoop fuel (i + 1) st res
    else some (st, res)

def right (st : Store) (index : Word) : Option (Store × String) :=
  rightLoop s q s.m_length.toNat index st empty

/-- The loop of `left`, which counts up `index` instead of `cnt`. -/
def leftLoop (cnt : Word) : ℕ → Word → Word → Store → String → Option (Store × String)
  | 0, _, _, st, res => some (st, res)
  | fuel + 1, i, index, st, res =>
    if i < s.m_length then
      (addChar st res (st.byte (s.m_str + i)) (q i)).bind fun (st, res) =>
        if index ≤ cnt then some (st, res) else leftLoop cnt fuel (i + 1) (index + 1) st res
    else some (st, res)

def left (st : Store) (index : Word) : Option (Store × String) :=
  leftLoop s q 0 s.m_length.toNat 0 index st empty

/-- The characters of an object. -/
def contents (byte : Bytes) : List UInt8 := read byte s.m_str s.m_length.toNat

end String

/-- From `st` to `st'` the object `old` has become `s`, which stands for the text. The other objects are
as they were, and share no block with it. -/
structure Grown (st : Store) (old : String) (st' : Store) (s : String) (text : List UInt8) : Prop where
  wf : Wf st'.live
  object : Object st' s text
  others : ∀ o t, Object st o t → (o.m_str ≠ 0 → o.m_str ≠ old.m_str) →
    Object st' o t ∧ (o.m_str ≠ 0 → o.m_str ≠ s.m_str)

/-- What `left` and `right` should come to at `n`. -/
def SplitLaw (st st' : Store) (s l r : String) (n : Word) : Prop :=
  l.m_length = n ∧ l.contents st'.byte ++ r.contents st'.byte = s.contents st.byte

section Loops
variable {st st' : Store} {s res r l : String} {text part : List UInt8} {q : Word → Word} {fuel : ℕ}
  {i index n : Word}

theorem Object.contents (h : Object st s text) : s.contents st.byte = text := by
  rw [String.contents, h.denotes.length]
  by_cases hnull : s.m_str = 0
  · rw [h.held.null hnull]
    rfl
  · exact h.held.chars hnull

theorem object_empty (st : Store) : Object st String.empty [] := ⟨rfl, Held.empty rfl, fun hne => absurd rfl hne⟩

theorem grown_refl (hwf : Wf st.live) (h : Object st s text) : Grown st s st s text :=
  ⟨hwf, h, fun _ _ ho hne => ⟨ho, hne⟩⟩

theorem Grown.trans {st₁ : Store} {t : String} {text' : List UInt8} (h : Grown st s st₁ t text)
    (h' : Grown st₁ t st' r text') : Grown st s st' r text' := by
  refine ⟨h'.wf, h'.object, fun o u ho hne => ?_⟩
  obtain ⟨ho', hne'⟩ := h.others o u ho hne
  exact h'.others o u ho' hne'

theorem addChar_grown {c : UInt8} {p : Word} (hwf : Wf st.live) (hres : Object st res part)
    (h : String.addChar st res c p = some (st', r)) : Grown st res st' r (part ++ [c]) := by
  have hshort := hres.short
  have hplaced := addChar_placed hwf hres.held hres.length (by omega) h
  refine ⟨hplaced.wf, hplaced.object, fun o t ho hne => ⟨ho.kept hne hplaced.kept hwf, fun hnull => ?_⟩⟩
  exact (hplaced.others _ (ho.held.own hnull) (hne hnull)).2.1

/-- The character at a position of the loop is the first one of the rest. -/
theorem Object.drop_eq (h : Object st s text) (hi : i < s.m_length) :
    text.drop i.toNat = st.byte (s.m_str + i) :: text.drop (i.toNat + 1) := by
  have hchar := (h.denotes.chars i hi).2
  rw [String.at', if_neg (BitVec.not_le.mpr hi)] at hchar
  obtain ⟨hlt, hget⟩ := List.getElem?_eq_some_iff.mp hchar
  rw [List.drop_eq_getElem_cons hlt, hget]

theorem toNat_succ_of_lt (hi : i < n) : (i + 1).toNat = i.toNat + 1 := by
  have hone : (1 : Word).toNat = 1 := rfl
  have hlt : i.toNat < n.toNat := hi
  rw [BitVec.toNat_add, hone]
  omega

theorem Object.drop_end (h : Object st s text) (hi : ¬ i < s.m_length) : text.drop i.toNat = [] := by
  rw [BitVec.lt_def, h.denotes.length] at hi
  exact List.drop_eq_nil_of_le (Nat.le_of_not_lt hi)

/-- The loop puts all characters from its position on behind the result. -/
theorem rightLoop_grown (hfuel : text.length ≤ i.toNat + fuel) (hwf : Wf st.live) (hs : Object st s text)
    (hres : Object st res part) (hne : s.m_str ≠ 0 → s.m_str ≠ res.m_str)
    (h : String.rightLoop s q fuel i st res = some (st', r)) :
    Grown st res st' r (part ++ text.drop i.toNat) := by
  induction fuel generalizing i st res part with
  | zero =>
    cases h
    rw [Nat.add_zero] at hfuel
    rw [List.drop_eq_nil_of_le hfuel, List.append_nil]
    exact grown_refl hwf hres
  | succ fuel ih =>
    rw [String.rightLoop] at h
    by_cases hi : i < s.m_length
    · rw [if_pos hi] at h
      obtain ⟨⟨st₁, res₁⟩, hadd, hrest⟩ := Option.bind_eq_some_iff.mp h
      have hgrown := addChar_grown hwf hres hadd
      obtain ⟨hs₁, hne₁⟩ := hgrown.others s text hs hne
      have hloop := ih (by rw [toNat_succ_of_lt hi]; omega) hgrown.wf hs₁ hgrown.object hne₁ hrest
      rw [toNat_succ_of_lt hi, List.append_assoc, List.singleton_append, ← hs.drop_eq hi] at hloop
      exact hgrown.trans hloop
    · rw [if_neg hi] at h
      cases h
      rw [hs.drop_end hi, List.append_nil]
      exact grown_refl hwf hres

theorem String.right_end (hi : ¬ n < s.m_length) : String.right s q st n = some (st, String.empty) := by
  rw [String.right]
  cases s.m_length.toNat with
  | zero => rfl
  | succ fuel => rw [String.rightLoop, if_neg hi]

/-- The loop of `left` ends where the index that it counts up is zero, or with the text. -/
theorem leftLoop_grown (hfuel : text.length ≤ i.toNat + fuel) (hwf : Wf st.live) (hs : Object st s text)
    (hres : Object st res part) (hne : s.m_str ≠ 0 → s.m_str ≠ res.m_str)
    (h : String.leftLoop s q 0 fuel i index st res = some (st', r)) :
    Grown st res st' r (part ++ (text.drop i.toNat).take ((-index).toNat + 1)) := by
  induction fuel generalizing i index st res part with
  | zero =>
    cases h
    rw [Nat.add_zero] at hfuel
    rw [List.drop_eq_nil_of_le hfuel, List.take_nil, List.append_nil]
    exact grown_refl hwf hres
  | succ fuel ih =>
    rw [String.leftLoop] at h
    by_cases hi : i < s.m_length
    · rw [if_pos hi] at h
      obtain ⟨⟨st₁, res₁⟩, hadd, hrest⟩ := Option.bind_eq_some_iff.mp h
      have hgrown := addChar_grown hwf hres hadd
      rw [hs.drop_eq hi, List.take_succ_cons]
      by_cases hstop : index ≤ 0
      · have hzero : (-index).toNat = 0 := by bv_omega
        dsimp only at hrest
        rw [if_pos hstop] at hrest
        cases hrest
        rw [hzero, List.take_zero]
        exact hgrown
      · obtain ⟨hs₁, hne₁⟩ := hgrown.others s text hs hne
        have hcount : (-(index + 1)).toNat + 1 = (-index).toNat := by bv_omega
        dsimp only at hrest
        rw [if_neg hstop] at hrest
        have hloop := ih (by rw [toNat_succ_of_lt hi]; omega) hgrown.wf hs₁ hgrown.object hne₁ hrest
        rw [toNat_succ_of_lt hi, hcount, List.append_assoc, List.singleton_append] at hloop
        exact hgrown.trans hloop
    · rw [if_neg hi] at h
      cases h
      rw [hs.drop_end hi, List.take_nil, List.append_nil]
      exact grown_refl hwf hres

theorem right_grown (hwf : Wf st.live) (hs : Object st s text) (h : String.right s q st n = some (st', r)) :
    Grown st String.empty st' r (text.drop n.toNat) :=
  rightLoop_grown (by rw [← hs.denotes.length]; omega) hwf hs (object_empty st) id h

theorem left_grown (hwf : Wf st.live) (hs : Object st s text) (h : String.left s q st n = some (st', l)) :
    Grown st String.empty st' l (text.take ((-n).toNat + 1)) :=
  leftLoop_grown (by rw [← hs.denotes.length]; omega) hwf hs (object_empty st) id h

theorem take_append_drop_iff (hn : n.toNat ≤ text.length)
    (hroom : (text.take ((-n).toNat + 1)).length + text.length < 2 ^ 32) :
    (text.take ((-n).toNat + 1)).length = n.toNat ∧ text.take ((-n).toNat + 1) ++ text.drop n.toNat = text ↔
      n.toNat = text.length := by
  have hneg : n.toNat = 0 ∧ (-n).toNat = 0 ∨ n.toNat + (-n).toNat = 2 ^ 32 := by bv_omega
  rw [List.length_take] at hroom ⊢
  constructor
  · rintro ⟨hlength, -⟩
    omega
  · intro hfull
    have htake : text.take ((-n).toNat + 1) = text := List.take_of_length_le (by omega)
    refine ⟨by omega, ?_⟩
    rw [htake, hfull, List.drop_length, List.append_nil]

/-- `left` takes the whole text from every place but its end: the two parts are the text split at `n`
exactly if `n` is its length. -/
theorem split_iff {st₁ st₂ : Store} {q₁ q₂ : Word → Word} (hwf : Wf st.live) (hs : Object st s text)
    (hn : n ≤ s.m_length) (hleft : String.left s q₁ st n = some (st₁, l))
    (hright : String.right s q₂ st₁ n = some (st₂, r)) : SplitLaw st st₂ s l r n ↔ n = s.m_length := by
  have hl := left_grown hwf hs hleft
  obtain ⟨hs₁, hapart⟩ := hl.others s text hs id
  have hr := right_grown hl.wf hs₁ hright
  have hl₂ := (hr.others l _ hl.object id).1
  have hlength := hs.denotes.length
  have hcount := hl₂.denotes.length
  have hle : n.toNat ≤ text.length := by
    rw [← hlength]
    exact hn
  have hroom := hs₁.held.sum_lt hl.object.held hl.wf hapart
  rw [SplitLaw, hs.contents, hl₂.contents, hr.object.contents]
  have hcut : l.m_length = n ↔ (text.take ((-n).toNat + 1)).length = n.toNat := by
    rw [← hcount]
    exact ⟨congrArg BitVec.toNat, BitVec.eq_of_toNat_eq⟩
  have hend : n = s.m_length ↔ n.toNat = text.length := by
    rw [← hlength]
    exact ⟨congrArg BitVec.toNat, BitVec.eq_of_toNat_eq⟩
  rw [hcut, hend]
  exact take_append_drop_iff hle (by omega)

end Loops

def twoChars : Store := ⟨[(0x1000, 3)], fun x => if x = 0x1000 then 0x61 else if x = 0x1001 then 0x62 else 0⟩

def ab : String := ⟨2, 0x1000, 0⟩

theorem twoChars_wf : Wf twoChars.live := by
  refine ⟨List.forall_mem_singleton.mpr (by decide), List.forall_mem_singleton.mpr (by decide), by decide, ?_⟩
  intro e he e' he' hne
  obtain rfl := List.mem_singleton.mp he
  obtain rfl := List.mem_singleton.mp he'
  exact absurd rfl hne

theorem object_ab : Object twoChars ab [0x61, 0x62] := by
  refine ⟨rfl, ⟨by decide, fun _ => by decide, fun _ => by decide, fun _ => by decide⟩, fun _ => by decide⟩

/-- Where the allocator puts the parts. -/
def lower (i : Word) : Word := 0x2000 + 16 * i

def upper (i : Word) : Word := 0x3000 + 16 * i

/-- Both parts of "ab", and the store after each. -/
def parts (n : Word) : Option ((Store × String) × Store × String) :=
  (String.left ab lower twoChars n).bind fun left => (String.right ab upper left.1 n).map fun right => (left, right)

theorem exists_of_parts {n : Word} {left right : Store × String} (h : parts n = some (left, right)) :
    String.left ab lower twoChars n = some (left.1, left.2) ∧
      String.right ab upper left.1 n = some (right.1, right.2) := by
  obtain ⟨left', hleft, h⟩ := Option.bind_eq_some_iff.mp h
  obtain ⟨right', hright, heq⟩ := Option.map_eq_some_iff.mp h
  cases heq
  exact ⟨hleft, hright⟩

theorem split_iff_two : ∃ st₁ l st₂ r, String.left ab lower twoChars 2 = some (st₁, l) ∧
    String.right ab upper st₁ 2 = some (st₂, r) ∧ SplitLaw twoChars st₂ ab l r 2 := by
  obtain ⟨⟨left, right⟩, hparts⟩ := Option.isSome_iff_exists.mp (by decide +kernel : (parts 2).isSome = true)
  obtain ⟨hleft, hright⟩ := exists_of_parts hparts
  exact ⟨_, _, _, _, hleft, hright, (split_iff twoChars_wf object_ab (by decide) hleft hright).mpr rfl⟩

/-- The first character of "ab" comes back as "ab". -/
theorem not_split_one : Object twoChars ab [0x61, 0x62] ∧ ∃ st₁ l st₂ r,
    String.left ab lower twoChars 1 = some (st₁, l) ∧ String.right ab upper st₁ 1 = some (st₂, r) ∧
    1 ≤ ab.m_length ∧ l.contents st₂.byte = [0x61, 0x62] ∧
    r.contents st₂.byte = [0x62] ∧ ¬ SplitLaw twoChars st₂ ab l r 1 := by
  have hread : (parts 1).map (fun p => (p.1.2.m_length, p.1.2.contents p.2.1.byte, p.2.2.contents p.2.1.byte)) =
      some (2, [0x61, 0x62], [0x62]) := by decide +kernel
  obtain ⟨⟨left, right⟩, hparts, heq⟩ := Option.map_eq_some_iff.mp hread
  obtain ⟨hleft, hright⟩ := exists_of_parts hparts
  obtain ⟨hlength, hcontents⟩ := Prod.mk.inj heq
  obtain ⟨hl, hr⟩ := Prod.mk.inj hcontents
  refine ⟨object_ab, _, _, _, _, hleft, hright, by decide, hl, hr, ?_⟩
  intro hlaw
  exact absurd (hlength.symm.trans hlaw.1) (by decide)

end CxxKernel.Text
