import CxxKernel.Text.String

/-! What the functions of `String` do to the store: the text of the object is where its buffer is, and no
other block in use has changed. -/
namespace CxxKernel.Text

/-- A C string in memory that is in use. -/
structure CString (st : Store) (str : Word) (text : List UInt8) : Prop where
  nonnull : str ≠ 0
  chars : read st.byte str text.length = text
  nul : st.byte (str + BitVec.ofNat 32 text.length) = 0
  noNul : 0 ∉ text
  block : ∃ e ∈ st.live, e.1.toNat ≤ str.toNat ∧ str.toNat + text.length + 1 ≤ e.1.toNat + e.2.toNat

/-- The bytes of a text in a block in use; an empty text may be anywhere. -/
structure Source (st : Store) (str : Word) (text : List UInt8) : Prop where
  chars : read st.byte str text.length = text
  block : text ≠ [] → str ≠ 0 ∧ ∃ e ∈ st.live, e.1.toNat ≤ str.toNat ∧
    str.toNat + text.length ≤ e.1.toNat + e.2.toNat

/-- The object has its text in a block of its own, behind it a NUL. `old` is the block that it had before. -/
structure Placed (st st' : Store) (old : Word) (s : String) (text : List UInt8) : Prop where
  wf : Wf st'.live
  length : s.m_length = BitVec.ofNat 32 text.length
  nonnull : s.m_str ≠ 0
  held : Held st' s.m_str text
  nul : st'.byte (s.m_str + s.m_length) = 0
  others : ∀ e ∈ st.live, e.1 ≠ old → e ∈ st'.live ∧ e.1 ≠ s.m_str ∧ ∀ x, Within x e → st'.byte x = st.byte x

section Length
variable {byte : Bytes} {str tmp cnt w : Word} {text : List UInt8} {fuel : ℕ}

theorem lengthLoop_of_text (hchars : read byte tmp text.length = text)
    (hnul : byte (tmp + BitVec.ofNat 32 text.length) = 0)
    (hne : 0 ∉ text) (hfuel : text.length < fuel) :
    String.lengthLoop byte fuel tmp cnt = some (cnt + BitVec.ofNat 32 text.length) := by
  induction text generalizing tmp cnt fuel with
  | nil =>
    obtain ⟨fuel, rfl⟩ := Nat.exists_eq_add_of_lt hfuel
    rw [List.length_nil, BitVec.add_zero] at hnul
    rw [List.length_nil, Nat.zero_add, String.lengthLoop, if_pos hnul, BitVec.add_zero]
  | cons c text ih =>
    obtain ⟨fuel, rfl⟩ := Nat.exists_eq_succ_of_ne_zero (Nat.ne_zero_of_lt hfuel)
    rw [List.length_cons, read] at hchars
    obtain ⟨hfirst, hrest⟩ := List.cons.inj hchars
    rw [List.length_cons, add_ofNat_succ] at hnul
    have hc : byte tmp ≠ 0 := by
      rw [hfirst]
      rintro rfl
      exact hne List.mem_cons_self
    have htail : 0 ∉ text := fun hmem => hne (List.mem_cons_of_mem _ hmem)
    rw [Nat.succ_eq_add_one, String.lengthLoop, if_neg hc, ih hrest hnul htail (Nat.lt_of_succ_lt_succ hfuel),
      List.length_cons, add_ofNat_succ]

theorem lengthLoop_noNul {n : ℕ} (h : String.lengthLoop byte fuel tmp cnt = some (cnt + BitVec.ofNat 32 n))
    (hfuel : fuel ≤ 2 ^ 32) (hn : n < 2 ^ 32) : 0 ∉ read byte tmp n := by
  induction fuel generalizing tmp cnt n with
  | zero => cases h
  | succ fuel ih =>
    rw [String.lengthLoop] at h
    by_cases hc : byte tmp = 0
    · rw [if_pos hc] at h
      have hsame := Option.some.inj h
      have hzero : n = 0 := by
        have hword : BitVec.ofNat 32 n = 0 := by bv_omega
        have hnat := congrArg BitVec.toNat hword
        rw [BitVec.toNat_ofNat, Nat.mod_eq_of_lt hn] at hnat
        exact hnat
      rw [hzero]
      exact List.not_mem_nil
    · rw [if_neg hc] at h
      cases n with
      | zero => exact List.not_mem_nil
      | succ n =>
        rw [add_ofNat_succ] at h
        have hrest := ih h (by omega) (by omega)
        rw [read, List.mem_cons, not_or]
        exact ⟨fun he => hc he.symm, hrest⟩

theorem CString.length_eq {st : Store} (h : CString st str text) (hlen : text.length < 2 ^ 32) :
    String.length st.byte str = some (BitVec.ofNat 32 text.length) := by
  rw [String.length, if_neg h.nonnull, lengthLoop_of_text h.chars h.nul h.noNul hlen]
  exact congrArg some (BitVec.zero_add _)

end Length

section Placing
variable {st st' st₁ : Store} {p q tmp str : Word} {text src : List UInt8} {k : ℕ} {s s' : String}

/-- The end of every function that grows a text: `src` and a NUL go behind the text. -/
theorem Regrown.placed (h : Regrown st st₁ p text src.length tmp) {byte : Bytes}
    (hstr : s.m_str = tmp) (hlength : s.m_length = BitVec.ofNat 32 (text.length + src.length))
    (hsrc : read byte (tmp + BitVec.ofNat 32 text.length) src.length = src)
    (hnul : byte (tmp + BitVec.ofNat 32 (text.length + src.length)) = 0)
    (hout : ∀ x, ¬ (tmp.toNat + text.length ≤ x.toNat ∧ x.toNat ≤ tmp.toNat + text.length + src.length) →
      byte x = st₁.byte x) :
    Placed st ⟨st₁.live, byte⟩ p s (text ++ src) := by
  have hroom := h.room
  have hsize : (BitVec.ofNat 32 (text.length + src.length + 1)).toNat = text.length + src.length + 1 :=
    toNat_ofNat_of_lt (by omega)
  have hinside : tmp.toNat + (BitVec.ofNat 32 (text.length + src.length + 1)).toNat ≤ 2 ^ 32 :=
    h.wf.inside _ h.own
  rw [hsize] at hinside
  have hchars : read byte tmp text.length = text := by
    refine (read_congr ?_).trans h.chars
    intro i hi
    apply hout
    rw [toNat_add_ofNat hinside (by omega)]
    omega
  constructor
  case wf => exact h.wf
  case length => rw [hlength, List.length_append]
  case nonnull =>
    rw [hstr]
    exact h.wf.nonnull _ h.own
  case held =>
    rw [hstr]
    constructor
    · intro hz
      exact absurd hz (h.wf.nonnull _ h.own)
    · intro _
      rw [List.length_append]
      exact h.own
    · intro _
      rw [List.length_append, read_append, hchars, hsrc]
    · intro _
      rw [List.length_append]
      omega
  case nul =>
    rw [hstr, hlength]
    exact hnul
  case others =>
    intro e he hne
    obtain ⟨hlive, hother⟩ := h.others e he hne
    rw [hstr]
    refine ⟨hlive, hother, ?_⟩
    intro x hx
    rw [← h.kept e he x hx]
    apply hout
    have hclear := (h.wf.clear e hlive _ h.own hother).not_within hx
    rintro ⟨hlow, hhigh⟩
    apply hclear
    unfold Within
    rw [hsize]
    dsimp only
    omega

theorem CString.source (h : CString st str text) : Source st str text where
  chars := h.chars
  block _ := by
    obtain ⟨e, he, hlow, hhigh⟩ := h.block
    exact ⟨h.nonnull, e, he, hlow, by omega⟩

theorem Held.source (h : Held st p text) : Source st p text := by
  by_cases hp : p = 0
  · rw [h.null hp]
    exact ⟨rfl, fun hne => absurd rfl hne⟩
  · refine ⟨h.chars hp, fun _ => ⟨hp, _, h.own hp, Nat.le_refl _, ?_⟩⟩
    have hroom := h.room hp
    change p.toNat + text.length ≤ p.toNat + (BitVec.ofNat 32 (text.length + 1)).toNat
    rw [BitVec.toNat_ofNat, Nat.mod_eq_of_lt (by omega)]
    omega

/-- What both copy routines do behind the text. -/
def CopiesTo (tmp : Word) (m : ℕ) (str : Word) (k : ℕ) (byte moved : Bytes) : Prop :=
  ∀ x : Word, moved x =
    if (tmp + BitVec.ofNat 32 m).toNat ≤ x.toNat ∧ x.toNat < (tmp + BitVec.ofNat 32 m).toNat + k then
      byte (str + (x - (tmp + BitVec.ofNat 32 m)))
    else byte x

theorem copiesTo_zero {m : ℕ} {byte : Bytes} : CopiesTo tmp m str 0 byte byte := by
  intro x
  rw [if_neg (by omega)]

/-- The bytes that are copied behind the text come from a block in use, which the new one is clear of. -/
theorem Regrown.copied (h : Regrown st st₁ p text src.length tmp) (hwf : Wf st.live) (hsource : Source st str src)
    {moved : Bytes} (hmoved : CopiesTo tmp text.length str src.length st₁.byte moved)
    (hstr : s.m_str = tmp) (hlength : s.m_length = BitVec.ofNat 32 (text.length + src.length)) :
    Placed st ⟨st₁.live, Function.update moved (tmp + BitVec.ofNat 32 (text.length + src.length)) 0⟩ p s
    (text ++ src) := by
  have hroom := h.room
  have hinside : tmp.toNat + (BitVec.ofNat 32 (text.length + src.length + 1)).toNat ≤ 2 ^ 32 :=
    h.wf.inside _ h.own
  rw [toNat_ofNat_of_lt (by omega)] at hinside
  have hdest : (tmp + BitVec.ofNat 32 text.length).toNat = tmp.toNat + text.length :=
    toNat_add_ofNat hinside (by omega)
  have hend : (tmp + BitVec.ofNat 32 (text.length + src.length)).toNat = tmp.toNat + text.length + src.length := by
    rw [toNat_add_ofNat hinside (by omega)]
    omega
  unfold CopiesTo at hmoved
  rw [hdest] at hmoved
  apply h.placed hstr hlength
  · refine Eq.trans (read_congr ?_) hsource.chars
    intro i hi
    obtain ⟨-, e, he, hlow, hhigh⟩ := hsource.block (List.ne_nil_of_length_pos (by omega))
    have hend' := hwf.inside e he
    have haddr : (tmp + BitVec.ofNat 32 text.length + BitVec.ofNat 32 i).toNat = tmp.toNat + text.length + i := by
      rw [BitVec.toNat_add, hdest, BitVec.toNat_ofNat]
      omega
    have hne : tmp + BitVec.ofNat 32 text.length + BitVec.ofNat 32 i ≠
        tmp + BitVec.ofNat 32 (text.length + src.length) := by
      intro he
      have hnat := congrArg BitVec.toNat he
      omega
    have hback : str + (tmp + BitVec.ofNat 32 text.length + BitVec.ofNat 32 i -
        (tmp + BitVec.ofNat 32 text.length)) = str + BitVec.ofNat 32 i := by
      bv_omega
    rw [Function.update_of_ne hne, hmoved, haddr, if_pos (by omega), hback]
    apply h.kept e he
    unfold Within
    rw [toNat_add_ofNat (n := src.length) (by omega) hi]
    omega
  · exact Function.update_self _ _ _
  · intro x hx
    have hne : x ≠ tmp + BitVec.ofNat 32 (text.length + src.length) := by
      rintro rfl
      omega
    rw [Function.update_of_ne hne, hmoved, if_neg (by omega)]

theorem Regrown.copiesTo (h : Regrown st st₁ p text src.length tmp) (hwf : Wf st.live) (hsource : Source st str src) :
    CopiesTo tmp text.length str src.length st₁.byte
        (Mem.copy st₁.byte (tmp + BitVec.ofNat 32 text.length) str (BitVec.ofNat 32 src.length)) ∧
      CopiesTo tmp text.length str src.length st₁.byte
        (Mem.move st₁.byte (tmp + BitVec.ofNat 32 text.length) str (BitVec.ofNat 32 src.length)) := by
  by_cases hempty : src = []
  · rw [hempty]
    change CopiesTo tmp text.length str 0 st₁.byte (Mem.copy st₁.byte _ str 0) ∧
      CopiesTo tmp text.length str 0 st₁.byte (Mem.move st₁.byte _ str 0)
    rw [Mem.copy_zero, Mem.move_zero]
    exact ⟨copiesTo_zero, copiesTo_zero⟩
  · have hroom := h.room
    have hpos := List.length_pos_iff.mpr hempty
    obtain ⟨hstr, e, he, hlow, hhigh⟩ := hsource.block hempty
    have hend := hwf.inside e he
    have hinside : tmp.toNat + (BitVec.ofNat 32 (text.length + src.length + 1)).toNat ≤ 2 ^ 32 :=
      h.wf.inside _ h.own
    have hclear : tmp.toNat + (BitVec.ofNat 32 (text.length + src.length + 1)).toNat ≤ e.1.toNat ∨
        e.1.toNat + e.2.toNat ≤ tmp.toNat := h.clear (by omega) e he
    rw [toNat_ofNat_of_lt (by omega)] at hinside hclear
    have hdest : (tmp + BitVec.ofNat 32 text.length).toNat = tmp.toNat + text.length :=
      toNat_add_ofNat hinside (by omega)
    have hsize : (BitVec.ofNat 32 src.length).toNat = src.length := toNat_ofNat_of_lt (by omega)
    have htmp := h.wf.nonnull _ h.own
    have hdest0 : tmp + BitVec.ofNat 32 text.length ≠ 0 := by
      intro hz
      have hnat := congrArg BitVec.toNat hz
      rw [hdest] at hnat
      change tmp ≠ 0 at htmp
      have hpos' : tmp.toNat ≠ 0 := fun hz' => htmp (BitVec.eq_of_toNat_eq hz')
      have hzero : (0 : Word).toNat = 0 := rfl
      omega
    constructor
    · intro x
      rw [Mem.copy_apply hdest0 hstr (by omega) (by omega) (by omega), hsize]
    · intro x
      rw [Mem.move_apply hdest0 hstr (by omega) (by omega), hsize]

theorem ofNat_succ (n : ℕ) : BitVec.ofNat 32 n + 1 = BitVec.ofNat 32 (n + 1) := by
  rw [BitVec.ofNat_add]
  rfl

theorem init_placed {len : Word} (hwf : Wf st.live) (hsource : Source st str text) (hstr : str ≠ 0)
    (hroom : text.length + 1 < 2 ^ 32)
    (hlen : String.initLength st.byte str len = some (BitVec.ofNat 32 text.length))
    (h : String.init st s str len q = some (st', s')) : Placed st st' 0 s' text := by
  rw [String.init, if_pos hstr] at h
  obtain ⟨w, hw, h⟩ := Option.bind_eq_some_iff.mp h
  cases hlen.symm.trans hw
  obtain ⟨st₁, halloc, heq⟩ := Option.bind_eq_some_iff.mp h
  cases heq
  rw [ofNat_succ] at halloc
  have hgrown := alloc_regrown hwf hroom halloc
  have hcopies := (hgrown.copiesTo hwf hsource).1
  have hzero : q + BitVec.ofNat 32 ([] : List UInt8).length = q := BitVec.add_zero q
  rw [hzero] at hcopies
  have hlength : BitVec.ofNat 32 text.length = BitVec.ofNat 32 (([] : List UInt8).length + text.length) := by
    rw [List.length_nil, Nat.zero_add]
  have hplaced := hgrown.copied (s := ⟨BitVec.ofNat 32 text.length, q, s.m_null⟩) hwf hsource hcopies rfl hlength
  rw [← hlength] at hplaced
  exact hplaced

theorem Regrown.charPlaced (h : Regrown st st₁ p text 1 tmp) (c : UInt8) (hstr : s.m_str = tmp)
    (hlength : s.m_length = BitVec.ofNat 32 (text.length + 1)) :
    Placed st ⟨st₁.live, Function.update (Function.update st₁.byte (tmp + BitVec.ofNat 32 text.length) c)
      (tmp + BitVec.ofNat 32 (text.length + 1)) 0⟩ p s (text ++ [c]) := by
  have hroom := h.room
  have hinside : tmp.toNat + (BitVec.ofNat 32 (text.length + 1 + 1)).toNat ≤ 2 ^ 32 := h.wf.inside _ h.own
  rw [toNat_ofNat_of_lt (by omega)] at hinside
  have hplace : (tmp + BitVec.ofNat 32 text.length).toNat = tmp.toNat + text.length :=
    toNat_add_ofNat hinside (by omega)
  have hend : (tmp + BitVec.ofNat 32 (text.length + 1)).toNat = tmp.toNat + (text.length + 1) :=
    toNat_add_ofNat hinside (by omega)
  apply @Regrown.placed st st₁ p tmp text [c] s h _ hstr hlength
  · have hne : tmp + BitVec.ofNat 32 text.length ≠ tmp + BitVec.ofNat 32 (text.length + 1) := by
      intro he
      have hnat := congrArg BitVec.toNat he
      omega
    change [_] = [c]
    rw [Function.update_of_ne hne, Function.update_self]
  · exact Function.update_self _ _ _
  · intro x hx
    rw [List.length_singleton] at hx
    have hne : x ≠ tmp + BitVec.ofNat 32 (text.length + 1) := by
      rintro rfl
      omega
    have hne' : x ≠ tmp + BitVec.ofNat 32 text.length := by
      rintro rfl
      omega
    rw [Function.update_of_ne hne, Function.update_of_ne hne']

theorem ofChar_placed {c : UInt8} (hwf : Wf st.live) (h : String.ofChar st c q = some (st', s')) :
    Placed st st' 0 s' [c] := by
  obtain ⟨st₁, halloc, heq⟩ := Option.bind_eq_some_iff.mp h
  cases heq
  have hgrown : Regrown st st₁ 0 [] 1 q := alloc_regrown hwf (by omega) halloc
  have hplaced := hgrown.charPlaced (s := ⟨1, q, 0⟩) c rfl rfl
  have hzero : q + BitVec.ofNat 32 ([] : List UInt8).length = q := BitVec.add_zero q
  rw [hzero] at hplaced
  exact hplaced

/-- Behind the text of an object `append` puts the bytes of any block in use, its own included. -/
theorem appendBytes_placed (hwf : Wf st.live) (hheld : Held st s.m_str text)
    (hlength : s.m_length = BitVec.ofNat 32 text.length) (hsource : Source st str src)
    (hroom : text.length + src.length + 1 < 2 ^ 32)
    (h : String.appendBytes st s str (BitVec.ofNat 32 src.length) q = some (st', s')) :
    Placed st st' s.m_str s' (text ++ src) := by
  have hsum : s.m_length + BitVec.ofNat 32 src.length = BitVec.ofNat 32 (text.length + src.length) := by
    rw [hlength, BitVec.ofNat_add]
  rw [String.appendBytes, hsum, ofNat_succ] at h
  obtain ⟨⟨st₁, tmp⟩, hrealloc, heq⟩ := Option.bind_eq_some_iff.mp h
  cases heq
  have hgrown := realloc_regrown hwf hroom hheld hrealloc
  have hcopies := (hgrown.copiesTo hwf hsource).2
  rw [← hlength] at hcopies
  exact hgrown.copied hwf hsource hcopies rfl rfl

theorem addChar_placed {c : UInt8} (hwf : Wf st.live) (hheld : Held st s.m_str text)
    (hlength : s.m_length = BitVec.ofNat 32 text.length) (hroom : text.length + 2 < 2 ^ 32)
    (h : String.addChar st s c q = some (st', s')) : Placed st st' s.m_str s' (text ++ [c]) := by
  have hnext : s.m_length + 1 = BitVec.ofNat 32 (text.length + 1) := by rw [hlength, ofNat_succ]
  have hsize : s.m_length + 2 = BitVec.ofNat 32 (text.length + 1 + 1) := by
    rw [hlength, BitVec.ofNat_add, BitVec.ofNat_add, BitVec.add_assoc]
    rfl
  rw [String.addChar, hnext, hsize] at h
  obtain ⟨⟨st₁, tmp⟩, hrealloc, heq⟩ := Option.bind_eq_some_iff.mp h
  cases heq
  have hgrown : Regrown st st₁ s.m_str text 1 tmp := realloc_regrown hwf (by omega) hheld hrealloc
  have hplaced := hgrown.charPlaced (s := ⟨BitVec.ofNat 32 (text.length + 1), tmp, s.m_null⟩) c rfl rfl
  rw [← hlength] at hplaced
  exact hplaced

/-- A text whose block is not the one that may have gone is where it was. -/
theorem Held.kept (h : Held st q text) (hq : q ≠ p) (hkept : ∀ e ∈ st.live, e.1 ≠ p → e ∈ st'.live ∧
    ∀ x, Within x e → st'.byte x = st.byte x) (hwf : Wf st.live) : Held st' q text where
  null := h.null
  own hne := (hkept _ (h.own hne) hq).1
  chars hne := by
    have hroom := h.room hne
    have hinside : q.toNat + (BitVec.ofNat 32 (text.length + 1)).toNat ≤ 2 ^ 32 := hwf.inside _ (h.own hne)
    have hsize : (BitVec.ofNat 32 (text.length + 1)).toNat = text.length + 1 := toNat_ofNat_of_lt (by omega)
    rw [hsize] at hinside
    refine (read_congr ?_).trans (h.chars hne)
    intro i hi
    apply (hkept _ (h.own hne) hq).2
    unfold Within
    rw [hsize, toNat_add_ofNat hinside (by omega)]
    dsimp only
    omega
  room := h.room

/-- Two texts in blocks of their own leave room for a third block of both. -/
theorem Held.sum_lt (h : Held st p text) (h' : Held st q src) (hwf : Wf st.live) (hpq : p ≠ 0 → p ≠ q) :
    text.length + src.length + 1 < 2 ^ 32 := by
  by_cases hp : p = 0
  · rw [h.null hp, List.length_nil]
    by_cases hq : q = 0
    · rw [h'.null hq, List.length_nil]
      omega
    · have hroom := h'.room hq
      omega
  · by_cases hq : q = 0
    · rw [h'.null hq, List.length_nil]
      have hroom := h.room hp
      omega
    · have hroom := h.room hp
      have hroom' := h'.room hq
      have hinside := hwf.inside _ (h.own hp)
      have hinside' := hwf.inside _ (h'.own hq)
      have hclear := hwf.clear _ (h.own hp) _ (h'.own hq) (hpq hp)
      unfold Clear at hclear
      dsimp only at hinside hinside' hclear
      rw [toNat_ofNat_of_lt (by omega)] at hinside hinside' hclear
      rw [toNat_ofNat_of_lt (by omega)] at hclear
      have hpos : p.toNat ≠ 0 := fun hz => hp (BitVec.eq_of_toNat_eq hz)
      have hpos' : q.toNat ≠ 0 := fun hz => hq (BitVec.eq_of_toNat_eq hz)
      omega

theorem Placed.kept (h : Placed st st' p s text) : ∀ e ∈ st.live, e.1 ≠ p → e ∈ st'.live ∧
    ∀ x, Within x e → st'.byte x = st.byte x := by
  intro e he hne
  obtain ⟨hlive, -, hbyte⟩ := h.others e he hne
  exact ⟨hlive, hbyte⟩

theorem addCString_placed {raw : String} {q' : Word} (hwf : Wf st.live) (hheld : Held st s.m_str text)
    (hlength : s.m_length = BitVec.ofNat 32 text.length) (hsource : CString st str src)
    (hshort : src.length + 1 < 2 ^ 32) (h : String.addCString st s str raw q q' = some (st', s')) :
    Placed st st' s.m_str s' (text ++ src) := by
  obtain ⟨⟨st₁, tmp⟩, hinit, h⟩ := Option.bind_eq_some_iff.mp h
  obtain ⟨⟨st₂, s₂⟩, happend, heq⟩ := Option.bind_eq_some_iff.mp h
  cases heq
  have hneg : String.initLength st.byte str (-1) = some (BitVec.ofNat 32 src.length) := by
    rw [String.initLength, if_neg (by decide), hsource.length_eq (by omega)]
  have htmp : Placed st st₁ 0 tmp src := init_placed hwf hsource.source hsource.nonnull hshort hneg hinit
  have hheld₁ : Held st₁ s.m_str text := by
    by_cases hnull : s.m_str = 0
    · rw [hheld.null hnull]
      exact Held.empty hnull
    · exact hheld.kept hnull htmp.kept hwf
  have hother : s.m_str ≠ 0 → s.m_str ≠ tmp.m_str := by
    intro hne
    exact (htmp.others _ (hheld.own hne) hne).2.1
  have hroom := hheld₁.sum_lt htmp.held htmp.wf hother
  rw [String.append, htmp.length] at happend
  have hplaced := appendBytes_placed htmp.wf hheld₁ hlength htmp.held.source hroom happend
  have hdiffer : tmp.m_str ≠ s.m_str := by
    intro he
    by_cases hnull : s.m_str = 0
    · exact htmp.nonnull (he.trans hnull)
    · exact hother hnull he.symm
  have hgone := hplaced.others _ (htmp.held.own htmp.nonnull) hdiffer
  have hdestroy : String.destroy st₂ tmp = st₂.free tmp.m_str := if_pos htmp.nonnull
  rw [hdestroy]
  constructor
  case wf => exact hplaced.wf.free _
  case length => exact hplaced.length
  case nonnull => exact hplaced.nonnull
  case held =>
    have hheld₂ := hplaced.held
    exact ⟨hheld₂.null, fun hne => mem_free.mpr ⟨hheld₂.own hne, fun he => hgone.2.1 he.symm⟩, hheld₂.chars,
      hheld₂.room⟩
  case nul => exact hplaced.nul
  case others =>
    intro e he hne
    obtain ⟨hlive₁, hne₁, hbyte₁⟩ := htmp.others e he (hwf.nonnull e he)
    obtain ⟨hlive₂, hne₂, hbyte₂⟩ := hplaced.others e hlive₁ hne
    refine ⟨mem_free.mpr ⟨hlive₂, hne₁⟩, hne₂, ?_⟩
    intro x hx
    exact (hbyte₂ x hx).trans (hbyte₁ x hx)

end Placing

end CxxKernel.Text
