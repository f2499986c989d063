import CxxKernel.Lib.Runs
import CxxKernel.Text.Placed

/-! Runs on a set of `String` objects, and the texts that they stand for. -/
namespace CxxKernel.Text
open Runs

/-- The store, the objects that exist, and the text that each was last given. -/
structure State (Name : Type) where
  store : Store
  objs : Name → Option String
  texts : Name → List UInt8

/-- The operations; `raw` is the memory in which an object comes to be, `q` the answer of the allocator,
and `text` what a C string reads. -/
inductive Op (Name : Type)
  | empty (a : Name)
  | ofCString (a : Name) (str : Word) (text : List UInt8) (raw : String) (q : Word)
  | ofChar (a : Name) (c : UInt8) (q : Word)
  | ofString (a b : Name) (raw : String) (q : Word)
  | assign (a b : Name) (q : Word)
  | append (a b : Name) (q : Word)
  | appendCString (a : Name) (str : Word) (text : List UInt8) (q : Word)
  | addCString (a : Name) (str : Word) (text : List UInt8) (raw : String) (q q' : Word)
  | addChar (a : Name) (c : UInt8) (q : Word)
  | destroy (a : Name)

section Model
variable {Name : Type} [DecidableEq Name]

def State.put (t : State Name) (a : Name) (text : List UInt8) (r : Store × String) : State Name :=
  ⟨r.1, Function.update t.objs a (some r.2), Function.update t.texts a text⟩

/-- There is no answer when an object is missing or an allocation does not succeed. -/
def exec (t : State Name) : Op Name → Option (State Name)
  | .empty a => some (t.put a [] (t.store, String.empty))
  | .ofCString a str text raw q => (String.ofCString t.store raw str q).map (t.put a text)
  | .ofChar a c q => (String.ofChar t.store c q).map (t.put a [c])
  | .ofString a b raw q => do
    let s ← t.objs b
    (String.ofString t.store raw s q).map (t.put a (t.texts b))
  | .assign a b q =>
    if a = b then some t
    else do
      let s ← t.objs a
      let s' ← t.objs b
      (String.init t.store s s'.m_str s'.m_length q).map (t.put a (t.texts b))
  | .append a b q => do
    let s ← t.objs a
    let s' ← t.objs b
    (String.append t.store s s' q).map (t.put a (t.texts a ++ t.texts b))
  | .appendCString a str text q => do
    let s ← t.objs a
    (String.appendCString t.store s str q).map (t.put a (t.texts a ++ text))
  | .addCString a str text raw q q' => do
    let s ← t.objs a
    (String.addCString t.store s str raw q q').map (t.put a (t.texts a ++ text))
  | .addChar a c q => do
    let s ← t.objs a
    (String.addChar t.store s c q).map (t.put a (t.texts a ++ [c]))
  | .destroy a => do
    let s ← t.objs a
    some ⟨String.destroy t.store s, Function.update t.objs a none, t.texts⟩

/-- What a `const char *` may be: null, which counts as empty, or a C string. -/
def CText (st : Store) (str : Word) (text : List UInt8) : Prop := str = 0 ∧ text = [] ∨ CString st str text

/-- Objects come to be where there is none, and pointers to characters are C strings. -/
def Allowed (t : State Name) : Op Name → Prop
  | .empty a => t.objs a = none
  | .ofCString a str text _ _ => t.objs a = none ∧ CText t.store str text
  | .ofChar a _ _ => t.objs a = none
  | .ofString a _ _ _ => t.objs a = none
  | .appendCString _ str text _ => CText t.store str text
  | .addCString _ str text _ _ _ => CText t.store str text
  | _ => True

def Step (t : State Name) (op : Op Name) (t' : State Name) : Prop := Allowed t op ∧ exec t op = some t'

/-- The object stands for the text. -/
structure Denotes (byte : Bytes) (s : String) (text : List UInt8) : Prop where
  length : s.m_length.toNat = text.length
  null : s.m_str = 0 → text = []
  nul : s.m_str ≠ 0 → byte (s.m_str + s.m_length) = 0
  chars : ∀ pos < s.m_length, s.m_str ≠ 0 ∧ text[pos.toNat]? = some (s.at' byte pos)

/-- Every object stands for its text. -/
def Law (t : State Name) : Prop := ∀ a s, t.objs a = some s → Denotes t.store.byte s (t.texts a)

/-- A source without a buffer leaves `m_length` as it is, and a text of 2 ^ 31 characters is measured up
to its first NUL. -/
def Copies (s s' : String) (text : List UInt8) : Prop :=
  (s'.m_str = 0 → s.m_length = 0) ∧ (text.length < 2 ^ 31 ∨ 0 ∉ text)

/-- The condition on a step. -/
def Safe (t : State Name) (op : Op Name) (_ : State Name) : Prop :=
  match op with
  | .ofCString _ str _ raw _ => str = 0 → raw.m_length = 0
  | .ofString _ b raw _ => ∀ s', t.objs b = some s' → Copies raw s' (t.texts b)
  | .assign a b _ => a = b ∨ ∀ s s', t.objs a = some s → t.objs b = some s' → Copies s s' (t.texts b)
  | .append a b _ => (t.texts a).length + (t.texts b).length + 1 < 2 ^ 32
  | .appendCString a _ text _ => (t.texts a).length + text.length + 1 < 2 ^ 32
  | .addCString _ str _ raw _ _ => str = 0 → raw.m_length = 0
  | _ => True

/-- An object whose text is in a block of its own. -/
structure Object (st : Store) (s : String) (text : List UInt8) : Prop where
  length : s.m_length = BitVec.ofNat 32 text.length
  held : Held st s.m_str text
  nul : s.m_str ≠ 0 → st.byte (s.m_str + s.m_length) = 0

/-- No two objects share a block. -/
structure Inv (t : State Name) : Prop where
  wf : Wf t.store.live
  object : ∀ a s, t.objs a = some s → Object t.store s (t.texts a)
  distinct : ∀ a b s s', a ≠ b → t.objs a = some s → t.objs b = some s' → s.m_str ≠ 0 → s.m_str ≠ s'.m_str

end Model

section Objects
variable {st st' : Store} {p : Word} {s s' : String} {text : List UInt8}

theorem Object.short (h : Object st s text) : text.length + 21 < 2 ^ 32 := by
  by_cases hnull : s.m_str = 0
  · rw [h.held.null hnull, List.length_nil]
    omega
  · exact h.held.room hnull

theorem Object.denotes (h : Object st s text) : Denotes st.byte s text := by
  have hshort := h.short
  have hlength : s.m_length.toNat = text.length := by
    rw [h.length, BitVec.toNat_ofNat, Nat.mod_eq_of_lt (by omega)]
  constructor
  case length => exact hlength
  case null => exact h.held.null
  case nul => exact h.nul
  case chars =>
    intro pos hpos
    have hlt : pos.toNat < text.length := by
      rw [← hlength]
      exact hpos
    have hnonnull : s.m_str ≠ 0 := by
      intro hnull
      rw [h.held.null hnull] at hlt
      exact Nat.not_lt_zero _ hlt
    refine ⟨hnonnull, ?_⟩
    rw [String.at', if_neg (BitVec.not_le.mpr hpos)]
    conv_lhs => rw [← h.held.chars hnonnull]
    rw [getElem?_read hlt, BitVec.ofNat_toNat, BitVec.setWidth_eq]

theorem Placed.object (h : Placed st st' p s text) : Object st' s text := ⟨h.length, h.held, fun _ => h.nul⟩

/-- The terminating NUL is in the block of the text, so that it stays with it. -/
theorem Object.kept (h : Object st s text) (hs : s.m_str ≠ 0 → s.m_str ≠ p)
    (hkept : ∀ e ∈ st.live, e.1 ≠ p → e ∈ st'.live ∧ ∀ x, Within x e → st'.byte x = st.byte x) (hwf : Wf st.live) :
    Object st' s text := by
  refine ⟨h.length, ?_, ?_⟩
  · by_cases hnull : s.m_str = 0
    · rw [h.held.null hnull]
      exact Held.empty hnull
    · exact h.held.kept (hs hnull) hkept hwf
  · intro hne
    have hshort := h.short
    have hinside : s.m_str.toNat + (BitVec.ofNat 32 (text.length + 1)).toNat ≤ 2 ^ 32 := hwf.inside _ (h.held.own hne)
    have hsize : (BitVec.ofNat 32 (text.length + 1)).toNat = text.length + 1 := by
      exact toNat_ofNat_of_lt (by omega)
    rw [hsize] at hinside
    rw [← h.nul hne]
    apply (hkept _ (h.held.own hne) (hs hne)).2
    unfold Within
    rw [hsize, h.length, toNat_add_ofNat hinside (by omega)]
    dsimp only
    omega

theorem CString.short (h : CString st p text) (hwf : Wf st.live) : text.length + 1 < 2 ^ 32 := by
  obtain ⟨e, he, hlow, hhigh⟩ := h.block
  have hinside := hwf.inside e he
  have hpos : p.toNat ≠ 0 := fun hz => h.nonnull (BitVec.eq_of_toNat_eq hz)
  omega

theorem CText.source (h : CText st p text) : Source st p text := by
  rcases h with ⟨-, rfl⟩ | h
  · exact ⟨rfl, fun hne => absurd rfl hne⟩
  · exact h.source

theorem CText.short (h : CText st p text) (hwf : Wf st.live) : text.length + 1 < 2 ^ 32 := by
  rcases h with ⟨-, rfl⟩ | h
  · rw [List.length_nil]
    omega
  · exact h.short hwf

theorem CText.length_eq (h : CText st p text) (hwf : Wf st.live) :
    String.length st.byte p = some (BitVec.ofNat 32 text.length) := by
  have hshort := h.short hwf
  rcases h with ⟨hnull, rfl⟩ | h
  · exact if_pos hnull
  · exact h.length_eq (by omega)

end Objects

section Keeping
variable {Name : Type} [DecidableEq Name] {t t' : State Name} {a b : Name} {r : Store × String} {old : Word}
  {s : String} {text : List UInt8} {op : Op Name}

omit [DecidableEq Name] in
theorem Inv.law (h : Inv t) : Law t := fun a s hs => (h.object a s hs).denotes

@[simp] theorem State.put_objs_self : (t.put a text r).objs a = some r.2 := Function.update_self _ _ _

theorem State.put_objs_of_ne (hba : b ≠ a) : (t.put a text r).objs b = t.objs b := Function.update_of_ne hba _ _

@[simp] theorem State.put_texts_self : (t.put a text r).texts a = text := Function.update_self _ _ _

theorem State.put_texts_of_ne (hba : b ≠ a) : (t.put a text r).texts b = t.texts b := Function.update_of_ne hba _ _

theorem Inv.set (h : Inv t) (hwf : Wf r.1.live) (hobject : Object r.1 r.2 text)
    (hothers : ∀ b s, b ≠ a → t.objs b = some s → Object r.1 s (t.texts b))
    (hnew : ∀ b s, b ≠ a → t.objs b = some s → s.m_str ≠ 0 → s.m_str ≠ r.2.m_str) : Inv (t.put a text r) := by
  constructor
  case wf => exact hwf
  case object =>
    intro b s hs
    by_cases hba : b = a
    · subst hba
      rw [State.put_objs_self] at hs
      cases hs
      rw [State.put_texts_self]
      exact hobject
    · rw [State.put_objs_of_ne hba] at hs
      rw [State.put_texts_of_ne hba]
      exact hothers b s hba hs
  case distinct =>
    intro b c s s' hbc hs hs' hne
    by_cases hba : b = a
    · subst hba
      rw [State.put_objs_self] at hs
      rw [State.put_objs_of_ne hbc.symm] at hs'
      cases hs
      by_cases hnull : s'.m_str = 0
      · rw [hnull]
        exact hne
      · exact (hnew c s' hbc.symm hs' hnull).symm
    · rw [State.put_objs_of_ne hba] at hs
      by_cases hca : c = a
      · subst hca
        rw [State.put_objs_self] at hs'
        cases hs'
        exact hnew b s hba hs hne
      · rw [State.put_objs_of_ne hca] at hs'
        exact h.distinct b c s s' hbc hs hs' hne

/-- The object `a` gets a text, and no other object loses its block. -/
theorem Inv.put (h : Inv t) (hplaced : Placed t.store r.1 old r.2 text)
    (hold : ∀ b s, b ≠ a → t.objs b = some s → s.m_str ≠ 0 → s.m_str ≠ old) : Inv (t.put a text r) := by
  apply h.set hplaced.wf hplaced.object
  · intro b s hba hs
    exact (h.object b s hs).kept (hold b s hba hs) hplaced.kept h.wf
  · intro b s hba hs hne
    exact (hplaced.others _ ((h.object b s hs).held.own hne) (hold b s hba hs hne)).2.1

theorem Inv.putNew (h : Inv t) (hplaced : Placed t.store r.1 0 r.2 text) : Inv (t.put a text r) :=
  h.put hplaced fun _ _ _ _ hne => hne

theorem Inv.putOld (h : Inv t) (hs : t.objs a = some s) (hplaced : Placed t.store r.1 s.m_str r.2 text) :
    Inv (t.put a text r) := by
  apply h.put hplaced
  intro b s' hba hs' hne
  exact h.distinct b a s' s hba hs' hs hne

theorem Inv.putNull (h : Inv t) (hlength : s.m_length = 0) (hnull : s.m_str = 0) : Inv (t.put a [] (t.store, s)) := by
  have hobject : Object t.store s [] := ⟨hlength, Held.empty hnull, fun hne => absurd hnull hne⟩
  apply @Inv.set _ _ _ _ (t.store, s) _ h h.wf hobject
  · intro b s' _ hs'
    exact h.object b s' hs'
  · intro b s' _ _ hne
    change s'.m_str ≠ s.m_str
    rw [hnull]
    exact hne

theorem Inv.destroy (h : Inv t) (hs : t.objs a = some s) :
    Inv ⟨String.destroy t.store s, Function.update t.objs a none, t.texts⟩ := by
  have hleft : ∀ b s', Function.update t.objs a none b = some s' → b ≠ a ∧ t.objs b = some s' := by
    intro b s' hs'
    by_cases hba : b = a
    · rw [hba, Function.update_self] at hs'
      cases hs'
    · rw [Function.update_of_ne hba] at hs'
      exact ⟨hba, hs'⟩
  have hstore : Wf (String.destroy t.store s).live ∧ ∀ e ∈ t.store.live, e.1 ≠ s.m_str →
      e ∈ (String.destroy t.store s).live ∧ ∀ x, Within x e → (String.destroy t.store s).byte x = t.store.byte x := by
    unfold String.destroy
    split
    · exact ⟨h.wf.free _, fun e he hne => ⟨mem_free.mpr ⟨he, hne⟩, fun _ _ => rfl⟩⟩
    · exact ⟨h.wf, fun e he _ => ⟨he, fun _ _ => rfl⟩⟩
  constructor
  case wf => exact hstore.1
  case object =>
    intro b s' hs'
    obtain ⟨hba, hb⟩ := hleft b s' hs'
    exact (h.object b s' hb).kept (h.distinct b a s' s hba hb hs) hstore.2 h.wf
  case distinct =>
    intro b c s₁ s₂ hbc hs₁ hs₂ hne
    exact h.distinct b c s₁ s₂ hbc (hleft b s₁ hs₁).2 (hleft c s₂ hs₂).2 hne

theorem Object.cString {st : Store} (h : Object st s text) (hne : s.m_str ≠ 0) (hnul : 0 ∉ text) :
    CString st s.m_str text where
  nonnull := hne
  chars := h.held.chars hne
  nul := by
    rw [← h.length]
    exact h.nul hne
  noNul := hnul
  block := by
    have hshort := h.short
    have hsize : (BitVec.ofNat 32 (text.length + 1)).toNat = text.length + 1 := by
      exact toNat_ofNat_of_lt (by omega)
    refine ⟨_, h.held.own hne, Nat.le_refl _, ?_⟩
    dsimp only
    omega

theorem zero_sle_ofNat {n : ℕ} (hn : n < 2 ^ 32) : (0 : Word).sle (BitVec.ofNat 32 n) = true ↔ n < 2 ^ 31 := by
  rw [BitVec.sle, decide_eq_true_eq]
  change 0 ≤ (BitVec.ofNat 32 n).toInt ↔ n < 2 ^ 31
  rw [BitVec.toInt_eq_toNat_cond, BitVec.toNat_ofNat]
  split
  · omega
  · omega

theorem Inv.copy {s' : String} {q : Word} (h : Inv t) (hs' : t.objs b = some s')
    (hcopies : Copies s s' (t.texts b)) (hinit : String.init t.store s s'.m_str s'.m_length q = some r) :
    Inv (t.put a (t.texts b) r) := by
  have hobject := h.object b s' hs'
  obtain ⟨hnullSource, hmeasure⟩ := hcopies
  by_cases hnull : s'.m_str = 0
  · rw [String.init, if_neg (not_not.mpr hnull)] at hinit
    cases hinit
    rw [hobject.held.null hnull]
    exact h.putNull (hnullSource hnull) rfl
  · have hshort := hobject.short
    have hlength : String.initLength t.store.byte s'.m_str s'.m_length =
        some (BitVec.ofNat 32 (t.texts b).length) := by
      rw [String.initLength, hobject.length]
      by_cases hlong : (t.texts b).length < 2 ^ 31
      · rw [if_pos ((zero_sle_ofNat (by omega)).mpr hlong)]
      · rw [if_neg (mt (zero_sle_ofNat (by omega)).mp hlong)]
        exact (hobject.cString hnull (hmeasure.resolve_left hlong)).length_eq (by omega)
    obtain ⟨st', s₂⟩ := r
    exact h.putNew (init_placed h.wf hobject.held.source hnull (by omega) hlength hinit)

omit [DecidableEq Name] in
/-- The condition is needed: otherwise the length is another. -/
theorem Inv.copies_of_denotes {s' : String} {q : Word} (h : Inv t) (hs' : t.objs b = some s')
    (hinit : String.init t.store s s'.m_str s'.m_length q = some r)
    (hdenotes : Denotes r.1.byte r.2 (t.texts b)) : Copies s s' (t.texts b) := by
  have hobject := h.object b s' hs'
  have hshort := hobject.short
  have hlength := hdenotes.length
  constructor
  · intro hnull
    rw [String.init, if_neg (not_not.mpr hnull)] at hinit
    cases hinit
    rw [hobject.held.null hnull] at hlength
    exact BitVec.eq_of_toNat_eq hlength
  · by_contra hneither
    rw [not_or, not_not] at hneither
    obtain ⟨hlong, hmem⟩ := hneither
    have hnull : s'.m_str ≠ 0 := by
      intro hnull
      rw [hobject.held.null hnull] at hmem
      cases hmem
    rw [String.init, if_pos hnull] at hinit
    obtain ⟨w, hw, hinit⟩ := Option.bind_eq_some_iff.mp hinit
    obtain ⟨st₁, -, heq⟩ := Option.bind_eq_some_iff.mp hinit
    cases heq
    change w.toNat = (t.texts b).length at hlength
    have hw' : w = 0 + BitVec.ofNat 32 (t.texts b).length := by
      rw [← hlength]
      bv_omega
    rw [String.initLength, hobject.length, if_neg (mt (zero_sle_ofNat (by omega)).mp hlong), String.length,
      if_neg hnull, hw'] at hw
    have hfree := lengthLoop_noNul hw (Nat.le_refl _) (by omega)
    rw [hobject.held.chars hnull] at hfree
    exact hfree hmem

theorem Inv.append {src : List UInt8} {str q : Word} (h : Inv t) (hs : t.objs a = some s)
    (hsource : Source t.store str src)
    (hroom : (t.texts a).length + src.length + 1 < 2 ^ 32)
    (happend : String.appendBytes t.store s str (BitVec.ofNat 32 src.length) q = some r) :
    Inv (t.put a (t.texts a ++ src) r) := by
  have hobject := h.object a s hs
  obtain ⟨st', s'⟩ := r
  exact h.putOld hs (appendBytes_placed h.wf hobject.held hobject.length hsource hroom happend)

omit [DecidableEq Name] in
/-- No object can stand for a text of 2 ^ 32 - 1 characters or more. -/
theorem Inv.append_fits {src : List UInt8} {str q : Word} (h : Inv t) (hs : t.objs a = some s)
    (hshort : src.length + 1 < 2 ^ 32)
    (happend : String.appendBytes t.store s str (BitVec.ofNat 32 src.length) q = some r)
    (hdenotes : Denotes r.1.byte r.2 (t.texts a ++ src)) : (t.texts a).length + src.length + 1 < 2 ^ 32 := by
  have hobject := h.object a s hs
  have hlength := hdenotes.length
  rw [List.length_append] at hlength
  have hlt := r.2.m_length.isLt
  by_contra hfull
  have hsum : (t.texts a).length + src.length + 1 = 2 ^ 32 := by omega
  have hsize : s.m_length + BitVec.ofNat 32 src.length + 1 = 0 := by
    rw [hobject.length, ← BitVec.ofNat_add, ofNat_succ, hsum]
    rfl
  rw [String.appendBytes, hsize] at happend
  obtain ⟨⟨st₁, tmp⟩, hrealloc, heq⟩ := Option.bind_eq_some_iff.mp happend
  cases heq
  by_cases hnull : s.m_str = 0
  · rw [hobject.held.null hnull, List.length_nil] at hsum
    omega
  · -- `realloc` for no bytes has freed the buffer
    rw [Store.realloc, if_neg hnull, h.wf.lookup (hobject.held.own hnull)] at hrealloc
    cases hrealloc
    have hempty := hdenotes.null rfl
    rw [← List.length_eq_zero_iff, List.length_append] at hempty
    omega

/-- With a null pointer the temporary of `+=` is no more than its length. -/
theorem addCString_null {st : Store} {str q q' : Word} {raw : String} (hnull : str = 0) :
    String.addCString st s str raw q q' = String.appendBytes st s 0 raw.m_length q' := by
  rw [String.addCString, String.ofCString, String.init, if_neg (not_not.mpr hnull)]
  change (String.appendBytes st s 0 raw.m_length q').bind (fun r => some (String.destroy r.1 _, r.2)) = _
  have hkeep : ∀ r : Store × String, some (String.destroy r.1 { raw with m_str := 0, m_null := 0 }, r.2) =
      some r := by
    intro r
    rw [String.destroy, if_neg (not_not.mpr rfl)]
  cases String.appendBytes st s 0 raw.m_length q' with
  | none => rfl
  | some r => exact hkeep r

theorem Inv.step (h : Inv t) (hstep : Step t op t') (hsafe : Safe t op t') : Inv t' := by
  obtain ⟨hallow, hexec⟩ := hstep
  cases op with
  | empty a =>
    cases hexec
    exact h.putNull rfl rfl
  | ofCString a str text raw q =>
    obtain ⟨r, hinit, rfl⟩ := Option.map_eq_some_iff.mp hexec
    obtain ⟨-, ⟨hnull, rfl⟩ | hstring⟩ := hallow
    · rw [String.ofCString, String.init, if_neg (not_not.mpr hnull)] at hinit
      cases hinit
      exact h.putNull (hsafe hnull) rfl
    · have hshort := hstring.short h.wf
      have hlength : String.initLength t.store.byte str (-1) = some (BitVec.ofNat 32 text.length) := by
        rw [String.initLength, if_neg (by decide), hstring.length_eq (by omega)]
      obtain ⟨st', s'⟩ := r
      exact h.putNew (init_placed h.wf hstring.source hstring.nonnull hshort hlength hinit)
  | ofChar a c q =>
    obtain ⟨⟨st', s'⟩, hnew, rfl⟩ := Option.map_eq_some_iff.mp hexec
    exact h.putNew (ofChar_placed h.wf hnew)
  | ofString a b raw q =>
    obtain ⟨s', hs', hexec⟩ := Option.bind_eq_some_iff.mp hexec
    obtain ⟨r, hinit, rfl⟩ := Option.map_eq_some_iff.mp hexec
    have hcopies : Copies { raw with m_null := 0 } s' (t.texts b) := hsafe s' hs'
    exact h.copy hs' hcopies hinit
  | assign a b q =>
    rw [exec] at hexec
    split at hexec
    · cases hexec
      exact h
    · rename_i hab
      obtain ⟨s, hs, hexec⟩ := Option.bind_eq_some_iff.mp hexec
      obtain ⟨s', hs', hexec⟩ := Option.bind_eq_some_iff.mp hexec
      obtain ⟨r, hinit, rfl⟩ := Option.map_eq_some_iff.mp hexec
      exact h.copy hs' (hsafe.resolve_left hab s s' hs hs') hinit
  | append a b q =>
    obtain ⟨s, hs, hexec⟩ := Option.bind_eq_some_iff.mp hexec
    obtain ⟨s', hs', hexec⟩ := Option.bind_eq_some_iff.mp hexec
    obtain ⟨r, happend, rfl⟩ := Option.map_eq_some_iff.mp hexec
    have hobject := h.object b s' hs'
    rw [String.append, hobject.length] at happend
    exact h.append hs hobject.held.source hsafe happend
  | appendCString a str text q =>
    obtain ⟨s, hs, hexec⟩ := Option.bind_eq_some_iff.mp hexec
    obtain ⟨r, happend, rfl⟩ := Option.map_eq_some_iff.mp hexec
    obtain ⟨len, hlen, happend⟩ := Option.bind_eq_some_iff.mp happend
    cases (CText.length_eq hallow h.wf).symm.trans hlen
    exact h.append hs (CText.source hallow) hsafe happend
  | addCString a str text raw q q' =>
    obtain ⟨s, hs, hexec⟩ := Option.bind_eq_some_iff.mp hexec
    obtain ⟨r, hadd, rfl⟩ := Option.map_eq_some_iff.mp hexec
    have hobject := h.object a s hs
    have hshort := hobject.short
    obtain ⟨hnull, rfl⟩ | hstring := hallow
    · rw [addCString_null hnull, hsafe hnull] at hadd
      exact h.append hs ⟨rfl, fun hne => absurd rfl hne⟩ (by rw [List.length_nil]; omega) hadd
    · obtain ⟨st', s'⟩ := r
      exact h.putOld hs (addCString_placed h.wf hobject.held hobject.length hstring (hstring.short h.wf) hadd)
  | addChar a c q =>
    obtain ⟨s, hs, hexec⟩ := Option.bind_eq_some_iff.mp hexec
    obtain ⟨⟨st', s'⟩, hadd, rfl⟩ := Option.map_eq_some_iff.mp hexec
    have hobject := h.object a s hs
    have hshort := hobject.short
    exact h.putOld hs (addChar_placed h.wf hobject.held hobject.length (by omega) hadd)
  | destroy a =>
    obtain ⟨s, hs, hexec⟩ := Option.bind_eq_some_iff.mp hexec
    cases hexec
    exact h.destroy hs

/-- A step that keeps the law is safe. -/
theorem Inv.safe (h : Inv t) (hstep : Step t op t') (hlaw : Law t') : Safe t op t' := by
  obtain ⟨hallow, hexec⟩ := hstep
  have hput : ∀ {a : Name} {text : List UInt8} {r : Store × String}, Law (t.put a text r) →
      Denotes r.1.byte r.2 text := by
    intro a text r hlaw
    have hdenotes := hlaw a r.2 State.put_objs_self
    rwa [State.put_texts_self] at hdenotes
  cases op with
  | empty a => trivial
  | ofCString a str text raw q =>
    obtain ⟨r, hinit, rfl⟩ := Option.map_eq_some_iff.mp hexec
    intro hnull
    obtain ⟨-, ⟨-, rfl⟩ | hstring⟩ := hallow
    · rw [String.ofCString, String.init, if_neg (not_not.mpr hnull)] at hinit
      cases hinit
      exact BitVec.eq_of_toNat_eq (hput hlaw).length
    · exact absurd hnull hstring.nonnull
  | ofChar a c q => trivial
  | ofString a b raw q =>
    obtain ⟨s, hs, hexec⟩ := Option.bind_eq_some_iff.mp hexec
    obtain ⟨r, hinit, rfl⟩ := Option.map_eq_some_iff.mp hexec
    intro s' hs'
    cases hs.symm.trans hs'
    have hcopies : Copies { raw with m_null := 0 } s (t.texts b) := h.copies_of_denotes hs hinit (hput hlaw)
    exact hcopies
  | assign a b q =>
    rw [exec] at hexec
    split at hexec
    · exact .inl ‹_›
    · obtain ⟨s, hs, hexec⟩ := Option.bind_eq_some_iff.mp hexec
      obtain ⟨s', hs', hexec⟩ := Option.bind_eq_some_iff.mp hexec
      obtain ⟨r, hinit, rfl⟩ := Option.map_eq_some_iff.mp hexec
      refine .inr ?_
      intro s₁ s₂ hs₁ hs₂
      cases hs.symm.trans hs₁
      cases hs'.symm.trans hs₂
      exact h.copies_of_denotes hs' hinit (hput hlaw)
  | append a b q =>
    obtain ⟨s, hs, hexec⟩ := Option.bind_eq_some_iff.mp hexec
    obtain ⟨s', hs', hexec⟩ := Option.bind_eq_some_iff.mp hexec
    obtain ⟨r, happend, rfl⟩ := Option.map_eq_some_iff.mp hexec
    have hobject := h.object b s' hs'
    have hshort := hobject.short
    rw [String.append, hobject.length] at happend
    exact h.append_fits hs (by omega) happend (hput hlaw)
  | appendCString a str text q =>
    obtain ⟨s, hs, hexec⟩ := Option.bind_eq_some_iff.mp hexec
    obtain ⟨r, happend, rfl⟩ := Option.map_eq_some_iff.mp hexec
    obtain ⟨len, hlen, happend⟩ := Option.bind_eq_some_iff.mp happend
    cases (CText.length_eq hallow h.wf).symm.trans hlen
    exact h.append_fits hs (CText.short hallow h.wf) happend (hput hlaw)
  | addCString a str text raw q q' =>
    obtain ⟨s, hs, hexec⟩ := Option.bind_eq_some_iff.mp hexec
    obtain ⟨r, hadd, rfl⟩ := Option.map_eq_some_iff.mp hexec
    intro hnull
    obtain ⟨-, rfl⟩ | hstring := hallow
    · have hlength := (hput hlaw).length
      rw [addCString_null hnull] at hadd
      obtain ⟨⟨st₁, tmp⟩, -, heq⟩ := Option.bind_eq_some_iff.mp hadd
      cases heq
      rw [List.append_nil, ← (h.object a s hs).denotes.length] at hlength
      have hsum : s.m_length + raw.m_length = s.m_length := BitVec.eq_of_toNat_eq hlength
      bv_omega
    · exact absurd hnull hstring.nonnull
  | addChar a c q => trivial
  | destroy a => trivial

/-- No object exists; the blocks in use belong to others. -/
def start (st : Store) (texts : Name → List UInt8) : State Name := ⟨st, fun _ => none, texts⟩

/-- In every run every object always stands for its text exactly if every step is safe. -/
theorem valueSemantics_iff {st : Store} {texts : Name → List UInt8} {ops : List (Op Name)} (hwf : Wf st.live)
    (hrun : Run Step (start st texts) ops t) :
    Always Step Law (start st texts) ops t ↔ Run (Guarded Step Safe) (start st texts) ops t := by
  have hstart : Inv (start st texts) := ⟨hwf, nofun, nofun⟩
  exact always_iff_guarded (fun _ => Inv.law) (fun _ _ _ h hstep hsafe => h.step hstep hsafe)
    (fun _ _ _ h hstep hlaw => h.safe hstep hlaw) hstart hrun

end Keeping

/-- An object in memory that holds the number 7. -/
def stale : String := ⟨7, 7, 7⟩

def blank : State ℕ := start ⟨[], fun _ => 0⟩ fun _ => []

def State.next (t : State ℕ) (op : Op ℕ) : State ℕ := (exec t op).getD t

theorem State.exec_next {t : State ℕ} {op : Op ℕ} (h : (exec t op).isSome = true) : exec t op = some (t.next op) := by
  obtain ⟨t', ht'⟩ := Option.isSome_iff_exists.mp h
  rw [State.next, ht', Option.getD_some]

/-- A character, a copy of it, and the two together. -/
def doubled : List (Op ℕ) := [.ofChar 0 0x61 0x1000, .ofString 1 0 stale 0x1010, .append 0 1 0x1020]

theorem valueSemantics_iff_doubled : ∃ t, Run Step blank doubled t ∧ Always Step Law blank doubled t := by
  have hchar : Step blank (.ofChar 0 0x61 0x1000) (blank.next (.ofChar 0 0x61 0x1000)) :=
    ⟨rfl, State.exec_next (by decide +kernel)⟩
  generalize hone : blank.next (.ofChar 0 0x61 0x1000) = one at hchar
  have hcopy : Step one (.ofString 1 0 stale 0x1010) (one.next (.ofString 1 0 stale 0x1010)) := by
    subst hone
    have hfree : (blank.next (.ofChar 0 0x61 0x1000)).objs 1 = none := by decide +kernel
    exact ⟨hfree, State.exec_next (by decide +kernel)⟩
  generalize htwo : one.next (.ofString 1 0 stale 0x1010) = two at hcopy
  have happend : Step two (.append 0 1 0x1020) (two.next (.append 0 1 0x1020)) := by
    subst htwo hone
    exact ⟨trivial, State.exec_next (by decide +kernel)⟩
  have hsource : one.objs 0 = some ⟨1, 0x1000, 0⟩ ∧ one.texts 0 = [0x61] := by
    subst hone
    decide +kernel
  have hcopies : Safe one (.ofString 1 0 stale 0x1010) two := by
    intro s' hs'
    cases hsource.1.symm.trans hs'
    rw [hsource.2]
    exact ⟨fun hnull => absurd hnull (by decide), .inl (by decide)⟩
  have hroom : (two.texts 0).length + (two.texts 1).length + 1 < 2 ^ 32 := by
    subst htwo hone
    decide +kernel
  have hwf : Wf (⟨[], fun _ => 0⟩ : Store).live := ⟨nofun, nofun, List.nodup_nil, nofun⟩
  have hrun : Run Step blank doubled _ := .cons hchar (.cons hcopy (.single happend))
  refine ⟨_, hrun, (valueSemantics_iff hwf hrun).mpr ?_⟩
  exact .cons ⟨hchar, trivial⟩ (.cons ⟨hcopy, hcopies⟩ (.single ⟨happend, hroom⟩))

/-- A copy of an empty `String` has the length that its memory held, and reads through null. -/
theorem emptyCopy_garbage : ∃ t s, Run Step blank [.empty 0, .ofString 1 0 stale 0x1000] t ∧
    t.objs 1 = some s ∧ t.texts 1 = [] ∧ s.m_length = 7 ∧ s.m_str = 0 ∧ ¬ Law t := by
  refine ⟨_, _, .cons ⟨rfl, rfl⟩ (.single ⟨rfl, rfl⟩), rfl, rfl, rfl, rfl, ?_⟩
  intro hlaw
  exact absurd (hlaw 1 _ rfl).length (by decide)

end CxxKernel.Text
