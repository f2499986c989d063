import CxxKernel.Heap.Allocator

/-! The heap as its callers see it: the blocks in use and the bytes. Memory that belongs to no caller of
the heap, such as constant text, stands among the blocks. -/
namespace CxxKernel.Text

/-- A block in use, by its address and its size. -/
abbrev Block := Word × Word

structure Store where
  live : List Block
  byte : Bytes

def Within (x : Word) (e : Block) : Prop := e.1.toNat ≤ x.toNat ∧ x.toNat < e.1.toNat + e.2.toNat

def Clear (e e' : Block) : Prop := e.1.toNat + e.2.toNat ≤ e'.1.toNat ∨ e'.1.toNat + e'.2.toNat ≤ e.1.toNat

instance (e e' : Block) : Decidable (Clear e e') := inferInstanceAs (Decidable (_ ∨ _))

/-- What the answer of a successful allocation is. -/
def Fresh (live : List Block) (e : Block) : Prop :=
  e.1 ≠ 0 ∧ e.1.toNat + e.2.toNat ≤ 2 ^ 32 ∧ e.2 ≤ Heap.SIZEMASK - Heap.sizeofPtrInfo ∧
    ∀ e' ∈ live, e.1 ≠ e'.1 ∧ Clear e e'

instance (live : List Block) (e : Block) : Decidable (Fresh live e) :=
  -- by the list, not by all the addresses there are
  have : Decidable (∀ e' ∈ live, e.1 ≠ e'.1 ∧ Clear e e') := List.decidableBAll _ live
  inferInstanceAs (Decidable (_ ∧ _ ∧ _ ∧ ∀ e' ∈ live, e.1 ≠ e'.1 ∧ Clear e e'))

namespace Store

/-- `MM::alloc` when it succeeds with the answer `q`. -/
def alloc (st : Store) (n q : Word) : Option Store :=
  if Fresh st.live (q, n) then some { st with live := (q, n) :: st.live } else none

def free (st : Store) (p : Word) : Store := { st with live := st.live.filter (·.1 ≠ p) }

/-- `MM::realloc` when its allocation succeeds with the answer `q`. -/
def realloc (st : Store) (p n q : Word) : Option (Store × Word) :=
  if p = 0 then (st.alloc n q).map fun st => (st, q)
  else
    match st.live.lookup p with
    | none => none
    | some size =>
      if n = 0 then some (st.free p, 0)
      else if size = n then some (st, p)
      else (st.alloc n q).map fun st =>
        ({ st with byte := Mem.move st.byte q p (if n < size then n else size) }.free p, q)

def write (st : Store) (p : Word) (c : UInt8) : Store := { st with byte := Function.update st.byte p c }

end Store

def read (byte : Bytes) (p : Word) : ℕ → List UInt8
  | 0 => []
  | n + 1 => byte p :: read byte (p + 1) n

/-- The blocks in use are inside the address space and clear of each other. -/
structure Wf (live : List Block) : Prop where
  nonnull : ∀ e ∈ live, e.1 ≠ 0
  inside : ∀ e ∈ live, e.1.toNat + e.2.toNat ≤ 2 ^ 32
  nodup : (live.map Prod.fst).Nodup
  clear : ∀ e ∈ live, ∀ e' ∈ live, e.1 ≠ e'.1 → Clear e e'

section Blocks
variable {live : List Block} {e e' : Block} {x p q n : Word} {st st' : Store}

theorem Clear.symm (h : Clear e e') : Clear e' e := Or.symm h

theorem Clear.not_within (h : Clear e e') (hx : Within x e) : ¬ Within x e' := by
  rintro ⟨hlow, hhigh⟩
  obtain ⟨hlow', hhigh'⟩ := hx
  unfold Clear at h
  omega

theorem Wf.cons (h : Wf live) (hfresh : Fresh live e) : Wf (e :: live) := by
  obtain ⟨hnull, hinside, -, hclear⟩ := hfresh
  constructor
  · exact List.forall_mem_cons.mpr ⟨hnull, h.nonnull⟩
  · exact List.forall_mem_cons.mpr ⟨hinside, h.inside⟩
  · rw [List.map_cons, List.nodup_cons]
    refine ⟨?_, h.nodup⟩
    intro hmem
    obtain ⟨e', he', heq⟩ := List.mem_map.mp hmem
    exact (hclear e' he').1 heq.symm
  · intro a ha b hb hab
    rcases List.mem_cons.mp ha with rfl | ha'
    · rcases List.mem_cons.mp hb with rfl | hb'
      · exact absurd rfl hab
      · exact (hclear b hb').2
    · rcases List.mem_cons.mp hb with rfl | hb'
      · exact (hclear a ha').2.symm
      · exact h.clear a ha' b hb' hab

theorem mem_free : e ∈ (st.free p).live ↔ e ∈ st.live ∧ e.1 ≠ p := by
  rw [Store.free, List.mem_filter, decide_eq_true_eq]

theorem Wf.free (h : Wf st.live) (p : Word) : Wf (st.free p).live where
  nonnull e he := h.nonnull e (mem_free.mp he).1
  inside e he := h.inside e (mem_free.mp he).1
  nodup := h.nodup.sublist (List.filter_sublist.map _)
  clear e he e' he' := h.clear e (mem_free.mp he).1 e' (mem_free.mp he').1

theorem Wf.lookup (h : Wf live) (he : (p, n) ∈ live) : live.lookup p = some n := by
  have hnodup := h.nodup
  clear h
  induction live with
  | nil => cases he
  | cons e live ih =>
    obtain ⟨p', n'⟩ := e
    rw [List.map_cons, List.nodup_cons] at hnodup
    rcases List.mem_cons.mp he with heq | hmem
    · cases heq
      rw [List.lookup_cons_self]
    · have hne : p ≠ p' := by
        rintro rfl
        exact hnodup.1 (List.mem_map.mpr ⟨(p, n), hmem, rfl⟩)
      rw [List.lookup_cons, beq_false_of_ne hne]
      exact ih hmem hnodup.2

theorem alloc_eq (halloc : st.alloc n q = some st') : Fresh st.live (q, n) ∧ st' = ⟨(q, n) :: st.live, st.byte⟩ := by
  unfold Store.alloc at halloc
  split at halloc
  · exact ⟨‹_›, (Option.some.inj halloc).symm⟩
  · cases halloc

end Blocks

section Reading
variable {byte byte' : Bytes} {p q x : Word} {m n i : ℕ}

theorem add_ofNat_succ (p : Word) (i : ℕ) : p + BitVec.ofNat 32 (i + 1) = p + 1 + BitVec.ofNat 32 i := by
  rw [Nat.add_comm, BitVec.ofNat_add, ← BitVec.add_assoc]
  rfl

theorem getElem?_read (hi : i < n) : (read byte p n)[i]? = some (byte (p + BitVec.ofNat 32 i)) := by
  induction n generalizing p i with
  | zero => exact absurd hi (Nat.not_lt_zero i)
  | succ n ih =>
    cases i with
    | zero =>
      rw [BitVec.add_zero]
      rfl
    | succ i =>
      rw [read, List.getElem?_cons_succ, ih (Nat.lt_of_succ_lt_succ hi), add_ofNat_succ]

theorem length_read (byte : Bytes) (p : Word) (n : ℕ) : (read byte p n).length = n := by
  induction n generalizing p with
  | zero => rfl
  | succ n ih => rw [read, List.length_cons, ih]

theorem read_append : read byte p (m + n) = read byte p m ++ read byte (p + BitVec.ofNat 32 m) n := by
  induction m generalizing p with
  | zero =>
    rw [Nat.zero_add, BitVec.add_zero]
    rfl
  | succ m ih => rw [Nat.succ_add, read, read, ih, List.cons_append, add_ofNat_succ]

theorem read_congr (h : ∀ i < n, byte (p + BitVec.ofNat 32 i) = byte' (q + BitVec.ofNat 32 i)) :
    read byte p n = read byte' q n := by
  induction n generalizing p q with
  | zero => rfl
  | succ n ih =>
    have hfirst := h 0 (Nat.zero_lt_succ n)
    rw [BitVec.add_zero, BitVec.add_zero] at hfirst
    rw [read, read, hfirst, ih]
    intro i hi
    have hnext := h (i + 1) (Nat.succ_lt_succ hi)
    rwa [add_ofNat_succ, add_ofNat_succ] at hnext

theorem toNat_ofNat_of_lt (hn : n < 2 ^ 32) : (BitVec.ofNat 32 n).toNat = n := by
  rw [BitVec.toNat_ofNat, Nat.mod_eq_of_lt hn]

theorem toNat_add_ofNat (hp : p.toNat + n ≤ 2 ^ 32) (hi : i < n) : (p + BitVec.ofNat 32 i).toNat = p.toNat + i := by
  rw [BitVec.toNat_add, BitVec.toNat_ofNat]
  omega

end Reading

/-- The pointer is null and the text empty, or it names a block in use, just large enough for the text
and a NUL, that starts with the text. -/
structure Held (st : Store) (p : Word) (text : List UInt8) : Prop where
  null : p = 0 → text = []
  own : p ≠ 0 → (p, BitVec.ofNat 32 (text.length + 1)) ∈ st.live
  chars : p ≠ 0 → read st.byte p text.length = text
  room : p ≠ 0 → text.length + 21 < 2 ^ 32

/-- A block for `text` and `k` more bytes and a NUL, got for the block `p` that held the text, or for none
where `p` is null. No block that was in use has changed, but `p` may be free now. -/
structure Regrown (st st' : Store) (p : Word) (text : List UInt8) (k : ℕ) (tmp : Word) : Prop where
  wf : Wf st'.live
  own : (tmp, BitVec.ofNat 32 (text.length + k + 1)) ∈ st'.live
  room : text.length + k + 21 < 2 ^ 32
  chars : read st'.byte tmp text.length = text
  kept : ∀ e ∈ st.live, ∀ x, Within x e → st'.byte x = st.byte x
  others : ∀ e ∈ st.live, e.1 ≠ p → e ∈ st'.live ∧ e.1 ≠ tmp
  clear : k ≠ 0 → ∀ e ∈ st.live, Clear (tmp, BitVec.ofNat 32 (text.length + k + 1)) e

section Regrow
variable {st st' : Store} {p q tmp : Word} {text : List UInt8} {k : ℕ}

theorem Held.empty (hp : p = 0) : Held st p [] where
  null _ := rfl
  own hne := absurd hp hne
  chars hne := absurd hp hne
  room hne := absurd hp hne

theorem Fresh.room {live : List Block} {n : ℕ} (h : Fresh live (q, BitVec.ofNat 32 n)) (hn : n < 2 ^ 32) :
    n + 20 < 2 ^ 32 := by
  obtain ⟨-, -, hsize, -⟩ := h
  have hle : (BitVec.ofNat 32 n).toNat ≤ (Heap.SIZEMASK - Heap.sizeofPtrInfo).toNat := hsize
  have hmask : (Heap.SIZEMASK - Heap.sizeofPtrInfo).toNat = 2 ^ 32 - 21 := by decide
  rw [hmask, toNat_ofNat_of_lt hn] at hle
  omega

theorem alloc_regrown (h : Wf st.live) (hk : k + 1 < 2 ^ 32)
    (halloc : st.alloc (BitVec.ofNat 32 (k + 1)) q = some st') :
    Regrown st st' 0 [] k q := by
  obtain ⟨hfresh, rfl⟩ := alloc_eq halloc
  have hroom := hfresh.room hk
  have hwf := h.cons hfresh
  obtain ⟨-, -, -, hclear⟩ := hfresh
  constructor
  case wf => exact hwf
  case own =>
    rw [List.length_nil, Nat.zero_add]
    exact List.mem_cons_self
  case room =>
    rw [List.length_nil]
    omega
  case chars => rfl
  case kept =>
    intro e _ x _
    rfl
  case others =>
    intro e he _
    exact ⟨List.mem_cons_of_mem _ he, (hclear e he).1.symm⟩
  case clear =>
    intro _ e he
    rw [List.length_nil, Nat.zero_add]
    exact (hclear e he).2

/-- The new block is not smaller, so that the whole old one is copied. -/
theorem move_regrown (h : Wf st.live) (hk : text.length + k + 1 < 2 ^ 32) (hheld : Held st p text) (hp : p ≠ 0)
    (halloc : st.alloc (BitVec.ofNat 32 (text.length + k + 1)) q = some st') :
    Regrown st ({ st' with byte := Mem.move st'.byte q p (BitVec.ofNat 32 (text.length + 1)) }.free p) p
    text k q := by
  have hn := toNat_ofNat_of_lt hk
  have hm : (BitVec.ofNat 32 (text.length + 1)).toNat = text.length + 1 := toNat_ofNat_of_lt (by omega)
  obtain ⟨hfresh, rfl⟩ := alloc_eq halloc
  have hwf := h.cons hfresh
  have hroom := hfresh.room hk
  obtain ⟨hq, hinside, -, hclear⟩ := hfresh
  change q ≠ 0 at hq
  change q.toNat + (BitVec.ofNat 32 (text.length + k + 1)).toNat ≤ 2 ^ 32 at hinside
  have hpinside := h.inside _ (hheld.own hp)
  change p.toNat + (BitVec.ofNat 32 (text.length + 1)).toNat ≤ 2 ^ 32 at hpinside
  rw [hn] at hinside
  rw [hm] at hpinside
  have hmove : ∀ x, Mem.move st.byte q p (BitVec.ofNat 32 (text.length + 1)) x =
      if q.toNat ≤ x.toNat ∧ x.toNat < q.toNat + (text.length + 1) then st.byte (p + (x - q)) else st.byte x := by
    intro x
    rw [Mem.move_apply hq hp (by omega) (by omega), hm]
  constructor
  case wf => exact @Wf.free ⟨_, _⟩ hwf p
  case own => exact mem_free.mpr ⟨List.mem_cons_self, ((hclear _ (hheld.own hp)).1)⟩
  case room => omega
  case chars =>
    refine (read_congr ?_).trans (hheld.chars hp)
    intro i hi
    have haddr : (q + BitVec.ofNat 32 i).toNat = q.toNat + i := toNat_add_ofNat hinside (by omega)
    have hback : p + (q + BitVec.ofNat 32 i - q) = p + BitVec.ofNat 32 i := by bv_omega
    change Mem.move st.byte q p (BitVec.ofNat 32 (text.length + 1)) (q + BitVec.ofNat 32 i) = _
    rw [hmove, if_pos (by omega), hback]
  case kept =>
    intro e he x hx
    have hout := (hclear e he).2.symm.not_within hx
    change Mem.move st.byte q p (BitVec.ofNat 32 (text.length + 1)) x = st.byte x
    rw [hmove, if_neg]
    rintro ⟨hlow, hhigh⟩
    apply hout
    refine ⟨hlow, ?_⟩
    change x.toNat < q.toNat + (BitVec.ofNat 32 (text.length + k + 1)).toNat
    omega
  case others =>
    intro e he hep
    exact ⟨mem_free.mpr ⟨List.mem_cons_of_mem _ he, hep⟩, (hclear e he).1.symm⟩
  case clear =>
    intro _ e he
    exact (hclear e he).2

/-- The block that `realloc` gives for a text in a block of its own. -/
theorem realloc_regrown (h : Wf st.live) (hk : text.length + k + 1 < 2 ^ 32) (hheld : Held st p text)
    (hrealloc : st.realloc p (BitVec.ofNat 32 (text.length + k + 1)) q = some (st', tmp)) :
    Regrown st st' p text k tmp := by
  by_cases hp : p = 0
  · obtain rfl := hheld.null hp
    rw [Store.realloc, if_pos hp] at hrealloc
    obtain ⟨st₁, halloc, heq⟩ := Option.map_eq_some_iff.mp hrealloc
    cases heq
    rw [List.length_nil, Nat.zero_add] at halloc hk
    rw [hp]
    exact alloc_regrown h hk halloc
  · have hn := toNat_ofNat_of_lt hk
    have hm : (BitVec.ofNat 32 (text.length + 1)).toNat = text.length + 1 := toNat_ofNat_of_lt (by omega)
    have hne : BitVec.ofNat 32 (text.length + k + 1) ≠ 0 := by
      intro he
      rw [he] at hn
      exact absurd hn (Nat.succ_ne_zero _).symm
    rw [Store.realloc, if_neg hp, h.lookup (hheld.own hp)] at hrealloc
    dsimp only at hrealloc
    rw [if_neg hne] at hrealloc
    by_cases hsame : BitVec.ofNat 32 (text.length + 1) = BitVec.ofNat 32 (text.length + k + 1)
    · have hzero : k = 0 := by
        rw [hsame] at hm
        omega
      rw [if_pos hsame] at hrealloc
      cases hrealloc
      subst hzero
      constructor
      case wf => exact h
      case own => exact hheld.own hp
      case room => exact hheld.room hp
      case chars => exact hheld.chars hp
      case kept =>
        intro _ _ _ _
        rfl
      case others =>
        intro e he hep
        exact ⟨he, hep⟩
      case clear =>
        intro hk0
        exact absurd rfl hk0
    · have hfit : ¬ BitVec.ofNat 32 (text.length + k + 1) < BitVec.ofNat 32 (text.length + 1) := by
        rw [BitVec.lt_def, hn, hm]
        omega
      rw [if_neg hsame, if_neg hfit] at hrealloc
      obtain ⟨st₁, halloc, heq⟩ := Option.map_eq_some_iff.mp hrealloc
      cases heq
      exact move_regrown h hk hheld hp halloc

end Regrow

end CxxKernel.Text
