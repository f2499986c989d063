import CxxKernel.Clothes.DirRun

/-! The way of `addToMeta` along a chain of metadata blocks: it enters the entry, it extends the chain, or it
fails and leaves the blocks as they are. -/
namespace CxxKernel.Clothes
open Fallible

namespace ClothesFS

section Walk
variable (fs : ClothesFS) (d : Disk) (type : Word)

/-- `addToMeta` may look for an entry in the block. -/
structure Accepts (i : Word) : Prop where
  inside : fs.blockAt d i = some (d (sectorOf i))
  id : dataToNum (d (sectorOf i)) 0 2 = metadata_id
  valid : validType (dataToNum (d (sectorOf i)) 2 1) type = true

/-- The entry that `addToMeta` would fill in the block. -/
def entrySlot (i : Word) : Option Word := freeEntry (d (sectorOf i)) blocksize (addStart (d (sectorOf i)) type)

/-- The number of the block behind this one. -/
def nextMeta (i : Word) : Word := word (d (sectorOf i)) (blocksize - 4)

/-- A block without a free entry that another one continues. -/
structure Full (i : Word) : Prop where
  accepts : Accepts fs d type i
  slot : entrySlot d type i = none
  next : nextMeta d i ≠ 0

/-- From block `i` the search comes to block `t`. -/
inductive Leads : Word → Word → Prop
  | here (t : Word) : Leads t t
  | full {i t : Word} (h : Full fs d type i) (hrest : Leads (nextMeta d i) t) : Leads i t

end Walk

section AddToMeta
variable {fs : ClothesFS} {d d' : Disk} {type i t e n ptr : Word} {fuel j : ℕ} {free : List Word} {new : Block}

theorem Leads.snoc (h : Leads fs d type i t) (ht : Full fs d type t) : Leads fs d type i (nextMeta d t) := by
  induction h with
  | here t => exact .full ht (.here _)
  | full h _ ih => exact .full h (ih ht)

theorem Accepts.congr (h : Accepts fs d type i) (hsame : d' (sectorOf i) = d (sectorOf i)) :
    Accepts fs d' type i := by
  refine ⟨?_, ?_, ?_⟩
  · rw [blockAt_eq_some]
    exact ⟨(blockAt_eq_some.mp h.inside).1, rfl⟩
  · rw [hsame]
    exact h.id
  · rw [hsame]
    exact h.valid

theorem Full.congr (h : Full fs d type i) (hsame : d' (sectorOf i) = d (sectorOf i)) : Full fs d' type i := by
  refine ⟨h.accepts.congr hsame, ?_, ?_⟩
  · rw [entrySlot, hsame]
    exact h.slot
  · rw [nextMeta, hsame]
    exact h.next

theorem Leads.congr (h : Leads fs d type i t)
    (hsame : ∀ k, Full fs d type k → d' (sectorOf k) = d (sectorOf k)) : Leads fs d' type i t := by
  induction h with
  | here t => exact .here t
  | @full i t h _ ih =>
    have hi := hsame i h
    have hnext : nextMeta d' i = nextMeta d i := by rw [nextMeta, hi, nextMeta]
    refine .full (h.congr hi) ?_
    rw [hnext]
    exact ih

theorem Leads.update (h : Leads fs d type i t)
    (hj : dataToNum (d j) 0 2 = metadata_id → validType (dataToNum (d j) 2 1) type = true →
      word (d j) (blocksize - 4) = 0) : Leads fs (Function.update d j new) type i t := by
  apply h.congr
  intro k hk
  have hkj : sectorOf k ≠ j := by
    intro hkj
    rw [← hkj] at hj
    exact hk.next (hj hk.accepts.id hk.accepts.valid)
  exact Function.update_of_ne hkj new d

theorem exec_getBlock (h : fs.blockAt d i = some new) : Returns (fs.getBlock i) d new d :=
  returns_getBlock.mpr ⟨h, rfl⟩

/-- The search stops in front of a block that is none of its metadata. -/
theorem addToMeta_refused (h : ¬ Accepts fs d type i) (fuel : ℕ) : Fails (fs.addToMeta fuel i e type) d d := by
  cases fuel with
  | zero => exact fails_failure.mpr rfl
  | succ fuel =>
    rw [addToMeta]
    cases hload : fs.blockAt d i with
    | none => exact (fails_getBlock.mpr ⟨hload, rfl⟩).bind
    | some data =>
      have hdata := (blockAt_eq_some.mp hload).2
      subst hdata
      refine (exec_getBlock hload).bind.trans ?_
      by_cases hid : dataToNum (d (sectorOf i)) 0 2 = metadata_id
      · have hvalid : ¬ validType (dataToNum (d (sectorOf i)) 2 1) type = true :=
          fun hvalid => h ⟨hload, hid, hvalid⟩
        refine (returns_guard_of hid).bind.trans ?_
        exact (fails_guard_of hvalid).bind
      · exact (fails_guard_of hid).bind

theorem addToMeta_accepts (h : Accepts fs d type i) (fuel : ℕ) :
    exec (fs.addToMeta (fuel + 1) i e type) d = exec (match entrySlot d type i with
      | some ptr => fs.putBlock i (numToData e.toNat (d (sectorOf i)) ptr.toNat 4)
      | none =>
        if nextMeta d i ≠ 0 then fs.addToMeta fuel (nextMeta d i) e type
        else do
          let next ← fs.takeFreeBlock
          guard (next ≠ 0)
          fs.dirContinues i next
          fs.initMeta next
            (if type = META_FILE ∨ type = META_FILE_CONT then META_FILE_CONT else META_DIR_CONT)
          fs.addToMeta fuel next e type) d := by
  rw [addToMeta]
  refine (exec_getBlock h.inside).bind.trans ?_
  refine (returns_guard_of h.id).bind.trans ?_
  exact (returns_guard_of h.valid).bind

theorem addToMeta_slot (h : Accepts fs d type i) (hslot : entrySlot d type i = some ptr) (fuel : ℕ) :
    Returns (fs.addToMeta (fuel + 1) i e type) d ()
      (Function.update d (sectorOf i) (numToData e.toNat (d (sectorOf i)) ptr.toNat 4)) := by
  rw [Returns, addToMeta_accepts h, hslot]
  exact returns_putBlock.mpr ⟨(blockAt_eq_some.mp h.inside).1, rfl⟩

theorem addToMeta_full (h : Full fs d type i) (fuel : ℕ) :
    exec (fs.addToMeta (fuel + 1) i e type) d = exec (fs.addToMeta fuel (nextMeta d i) e type) d := by
  rw [addToMeta_accepts h.accepts, h.slot]
  dsimp only
  rw [if_pos h.next]

theorem addToMeta_leads (h : Leads fs d type i t) (e : Word) :
    ∃ steps, ∀ fuel, exec (fs.addToMeta (fuel + steps) i e type) d = exec (fs.addToMeta fuel t e type) d := by
  induction h with
  | here t => exact ⟨0, fun fuel => rfl⟩
  | full h _ ih =>
    obtain ⟨steps, hsteps⟩ := ih
    refine ⟨steps + 1, fun fuel => ?_⟩
    rw [← Nat.add_assoc, addToMeta_full h, hsteps]

theorem popHeader_nil (h : FreeInv fs d []) : popHeader d = d := by
  have hhead : word (d 0) 104 = 0 := h.head_eq
  have hzero : (0 : Word).toNat = 0 := rfl
  funext j
  by_cases hj : j = 0
  · rw [hj, popHeader, Function.update_self, hhead, hzero, h.header_end, hzero]
    funext q
    rw [numToData_apply]
    split_ifs with hq
    · have hbyte := word_eq_zero_iff.mp hhead (q - 104) (by omega)
      rw [Nat.add_sub_cancel' hq.1] at hbyte
      rw [hbyte, Nat.zero_shiftRight]
      rfl
    · rfl
  · exact popHeader_of_ne d hj

theorem addToMeta_exhausted (hs : fs.Small) (hfree : FreeInv fs d []) (h : Accepts fs d type i)
    (hslot : entrySlot d type i = none) (hnext : nextMeta d i = 0) (fuel : ℕ) :
    Fails (fs.addToMeta (fuel + 1) i e type) d d := by
  have htake := hfree.returns_take hs
  rw [popHeader_nil hfree] at htake
  rw [Fails, addToMeta_accepts h, hslot]
  dsimp only
  rw [if_neg (not_not.mpr hnext)]
  refine htake.bind.trans ?_
  exact (fails_guard_of (not_not.mpr rfl)).bind

theorem addToMeta_extend (hs : fs.Small) (hfree : FreeInv fs d (n :: free)) (h : Accepts fs d type i)
    (hslot : entrySlot d type i = none) (hnext : nextMeta d i = 0) (fuel : ℕ) :
    exec (fs.addToMeta (fuel + 1) i e type) d =
      exec (fs.addToMeta fuel n e type) (extended d (sectorOf i) n type) := by
  have hin := hfree.inside n List.mem_cons_self
  have hne := hfree.head_ne_zero
  have hzero : sectorOf i ≠ 0 := by
    intro hzero
    have hid := h.id
    rw [hzero, hfree.header_id] at hid
    cases hid
  have hload : fs.blockAt (popHeader d) i = some (d (sectorOf i)) :=
    blockAt_eq_some.mpr ⟨(blockAt_eq_some.mp h.inside).1, popHeader_of_ne d hzero⟩
  have hput : Returns (fs.dirContinues i n) (popHeader d) () (Function.update (popHeader d) (sectorOf i)
      (numToData n.toNat (d (sectorOf i)) (blocksize - 4) 4)) := by
    rw [dirContinues, Returns, (exec_getBlock hload).bind]
    exact returns_putBlock.mpr ⟨(blockAt_eq_some.mp h.inside).1, rfl⟩
  rw [addToMeta_accepts h, hslot]
  dsimp only
  rw [if_neg (not_not.mpr hnext)]
  refine (hfree.returns_take hs).bind.trans ?_
  refine (returns_guard_of hne).bind.trans ?_
  refine hput.bind.trans ?_
  exact ((hs.returns_initMeta (u := ()) hin.2).mpr rfl).bind

end AddToMeta

end ClothesFS

/-- A block of metadata in which nothing has been entered. -/
structure Blank (type : Word) (b : Block) : Prop where
  id : dataToNum b 0 2 = metadata_id
  valid : validType (dataToNum b 2 1) type = true
  first : word b 12 = 0
  rest : ∀ q, 16 ≤ q → word b q = 0

/-- The last block of a chain: the entry at byte `e` is the next one that is filled. -/
structure Tail (type : Word) (b : Block) (e : ℕ) : Prop where
  id : dataToNum b 0 2 = metadata_id
  valid : validType (dataToNum b 2 1) type = true
  start : (addStart b type).toNat ≤ e
  behind : 16 ≤ e
  mod : e % 4 = 0
  full : ∀ q, (addStart b type).toNat ≤ q → q + 4 ≤ e → q % 4 = 0 → q < blocksize - 4 → word b q ≠ 0
  rest : ∀ q, e ≤ q → q % 4 = 0 → q < blocksize - 4 → word b q = 0
  last : word b (blocksize - 4) = 0

section Tail
variable {type w ptr : Word} {b b' : Block} {e : ℕ}

theorem addStart_congr (h : word b 12 = word b' 12) (type : Word) : addStart b type = addStart b' type := by
  have hlen : dataToNum b (4 + 8) 4 = dataToNum b' (4 + 8) 4 := h
  rw [addStart, addStart, hlen]

theorem freeEntry_linked (h : freeEntry b blocksize (addStart b type) = none) (n : ℕ) :
    freeEntry (numToData n b (blocksize - 4) 4) blocksize (addStart (numToData n b (blocksize - 4) 4) type) =
      none := by
  have hlen : word (numToData n b (blocksize - 4) 4) 12 = word b 12 := word_numToData_ne (by decide)
  rw [addStart_congr hlen]
  rw [Option.eq_none_iff_forall_ne_some]
  intro ptr hptr
  obtain ⟨-, hlt, hzero, k, hk, -⟩ := freeEntry_some hptr
  have hmod := addStart_mod b type
  have hfuel : blocksize - 4 ≤ (addStart b type).toNat + 4 * blocksize := by
    unfold blocksize
    omega
  have hbefore := freeEntry_none h hfuel k (by omega)
  rw [word_numToData_ne (by unfold blocksize at hlt ⊢; omega), hk] at hzero
  exact hbefore hzero

/-- The first entry of a blank block stands where a name would have its length. -/
theorem Blank.slot (h : Blank type b) (htype : type = META_FILE ∨ type = META_DIR) :
    freeEntry b blocksize (addStart b type) = some 12 := by
  have hlen : dataToNum b (4 + 8) 4 = 0 := h.first
  have hstart : addStart b type = 12 := by
    rw [addStart, if_pos htype, hlen]
    decide
  have hlt : (12 : Word).toNat < blocksize - 4 := by decide
  have hzero : dataToNum b (12 : Word).toNat 4 = 0 := h.first
  change freeEntry b (511 + 1) (addStart b type) = some 12
  rw [hstart, freeEntry, if_pos hlt, if_pos hzero]

theorem Blank.filled (h : Blank type b) (htype : type = META_FILE ∨ type = META_DIR) (hw : w ≠ 0)
    (hlt : w.toNat + 15 < 2 ^ 32) : Tail type (numToData w.toNat b 12 4) ((w.toNat + 15) / 4 * 4) := by
  have hpos : 0 < w.toNat := Nat.pos_of_ne_zero fun hz => hw (BitVec.eq_of_toNat_eq hz)
  have hstart : (addStart (numToData w.toNat b 12 4) type).toNat = (w.toNat + 15) / 4 * 4 := by
    have hlen : dataToNum (numToData w.toNat b 12 4) (4 + 8) 4 = w := word_numToData w b 12
    have h12 : (4 + 8 : Word).toNat = 12 := rfl
    have hsum : (4 + 8 + w : Word).toNat = 12 + w.toNat := by
      rw [BitVec.toNat_add, h12, Nat.mod_eq_of_lt (by omega)]
    rw [addStart, if_pos htype, hlen, align_toNat (by omega), hsum]
    omega
  have hrest : ∀ q, 16 ≤ q → word (numToData w.toNat b 12 4) q = 0 := by
    intro q hq
    rw [word_numToData_ne (by omega)]
    exact h.rest q hq
  refine ⟨?_, ?_, Nat.le_of_eq hstart, by omega, by omega, fun q hq hqe => ?_, fun q hq _ _ => hrest q (by omega),
    hrest _ (by decide)⟩
  · rw [dataToNum_numToData_ne (by omega)]
    exact h.id
  · rw [dataToNum_numToData_ne (by omega)]
    exact h.valid
  · rw [hstart] at hq
    omega

theorem Tail.slot (h : Tail type b e) (hlt : e < blocksize - 4) :
    ∃ ptr, freeEntry b blocksize (addStart b type) = some ptr ∧ ptr.toNat = e := by
  have hstart := h.start
  have hmod := addStart_mod b type
  have hemod := h.mod
  have hzero := h.rest e (Nat.le_refl e) hemod hlt
  cases hslot : freeEntry b blocksize (addStart b type) with
  | some ptr =>
    obtain ⟨hge, hlt', hptr, k, hk, hbefore⟩ := freeEntry_some hslot
    have hle : e ≤ ptr.toNat := by
      by_contra hbelow
      exact h.full ptr.toNat hge (by omega) (by omega) hlt' hptr
    have heq : ptr.toNat = e := by
      by_contra hne
      have hi := hbefore ((e - (addStart b type).toNat) / 4) (by omega)
      rw [show (addStart b type).toNat + 4 * ((e - (addStart b type).toNat) / 4) = e by omega] at hi
      exact hi hzero
    exact ⟨ptr, rfl, heq⟩
  | none =>
    have hfuel : blocksize - 4 ≤ (addStart b type).toNat + 4 * blocksize := by
      unfold blocksize
      omega
    have hi := freeEntry_none hslot hfuel ((e - (addStart b type).toNat) / 4) (by omega)
    rw [show (addStart b type).toNat + 4 * ((e - (addStart b type).toNat) / 4) = e by omega] at hi
    exact absurd hzero hi

theorem Tail.slot_none (h : Tail type b e) (hge : blocksize - 4 ≤ e) :
    freeEntry b blocksize (addStart b type) = none := by
  rw [Option.eq_none_iff_forall_ne_some]
  intro ptr hptr
  obtain ⟨hstart, hlt, hzero, k, hk, -⟩ := freeEntry_some hptr
  have hmod := addStart_mod b type
  have hemod := h.mod
  exact h.full ptr.toNat hstart (by omega) (by omega) hlt hzero

theorem Tail.filled (h : Tail type b e) (hw : w ≠ 0) (hlt : e < blocksize - 4) :
    Tail type (numToData w.toNat b e 4) (e + 4) := by
  have hbehind := h.behind
  have hmod := h.mod
  have hlen : word (numToData w.toNat b e 4) 12 = word b 12 := word_numToData_ne (by omega)
  have hsame := addStart_congr hlen type
  have hstart := h.start
  refine ⟨?_, ?_, by rw [hsame]; omega, by omega, by omega, fun q hq hqe hqmod hqlt => ?_,
    fun q hq hqmod hqlt => ?_, ?_⟩
  · rw [dataToNum_numToData_ne (by omega)]
    exact h.id
  · rw [dataToNum_numToData_ne (by omega)]
    exact h.valid
  · by_cases hlast : q = e
    · rw [hlast, word_numToData]
      exact hw
    · rw [word_numToData_ne (by omega)]
      exact h.full q (hsame ▸ hq) (by omega) hqmod hqlt
  · rw [word_numToData_ne (by omega)]
    exact h.rest q (by omega) hqmod hqlt
  · rw [word_numToData_ne (by unfold blocksize at hlt ⊢; omega)]
    exact h.last

end Tail

theorem freshMeta_blank {type : Word} (htype : type = META_FILE ∨ type = META_DIR) :
    Blank type (freshMeta (contType type)) := by
  refine ⟨?_, ?_, word_freshMeta (by omega), fun q hq => word_freshMeta (by omega)⟩
  · rcases htype with rfl | rfl
    · rfl
    · rfl
  · rcases htype with rfl | rfl
    · rfl
    · rfl

namespace ClothesFS

section Enter
variable {fs : ClothesFS} {d : Disk} {type i t e n ptr : Word} {free : List Word}

theorem Accepts.not_free (h : Accepts fs d type t) (htype : type = META_FILE ∨ type = META_DIR)
    (hinv : FreeInv fs d free) : sectorOf t ≠ 0 ∧ ∀ b ∈ free, b.toNat ≠ sectorOf t := by
  constructor
  · intro hzero
    have hid := h.id
    rw [hzero, hinv.header_id] at hid
    cases hid
  · intro b hb hbt
    have hvalid := h.valid
    rw [← hbt, hinv.blank b hb] at hvalid
    rcases htype with rfl | rfl
    · exact absurd hvalid (by decide)
    · exact absurd hvalid (by decide)

theorem FreeInv.extended (hinv : FreeInv fs d (n :: free)) (h : Accepts fs d type t)
    (htype : type = META_FILE ∨ type = META_DIR) : FreeInv fs (extended d (sectorOf t) n type) free := by
  obtain ⟨hzero, hfree⟩ := h.not_free htype hinv
  exact (hinv.pop.write hzero fun b hb => hfree b (List.mem_cons_of_mem n hb)).write_taken
    (hinv.ne_zero List.mem_cons_self) hinv.head_notMem

theorem addToMeta_enter_room (hleads : Leads fs d type i t) (h : Accepts fs d type t)
    (hslot : entrySlot d type t = some ptr) (e : Word) :
    Settles (fun fuel => fs.addToMeta fuel i e type) d (some (),
      Function.update d (sectorOf t) (numToData e.toNat (d (sectorOf t)) ptr.toNat 4)) := by
  obtain ⟨steps, hsteps⟩ := addToMeta_leads hleads e
  refine Settles.add ?_ hsteps
  exact settles_of_succ fun fuel => addToMeta_slot h hslot fuel

theorem addToMeta_enter_full (hs : fs.Small) (htype : type = META_FILE ∨ type = META_DIR)
    (hinv : FreeInv fs d (n :: free)) (hleads : Leads fs d type i t) (h : Accepts fs d type t)
    (hslot : entrySlot d type t = none) (hnext : nextMeta d t = 0) (e : Word) :
    Settles (fun fuel => fs.addToMeta fuel i e type) d (some (),
      Function.update (extended d (sectorOf t) n type) n.toNat
        (numToData e.toNat (freshMeta (contType type)) 12 4)) := by
  obtain ⟨steps, hsteps⟩ := addToMeta_leads hleads e
  have hin := (hinv.inside n List.mem_cons_self).2
  have hblank := freshMeta_blank htype
  have hfresh : extended d (sectorOf t) n type (sectorOf n) = freshMeta (contType type) := by
    rw [hs.sector_eq hin, extended, Function.update_self]
  have haccepts : Accepts fs (extended d (sectorOf t) n type) type n := by
    refine ⟨?_, hfresh ▸ hblank.id, hfresh ▸ hblank.valid⟩
    rw [hs.blockAt_eq hin, hs.sector_eq hin]
  have hentry : entrySlot (extended d (sectorOf t) n type) type n = some 12 := by
    rw [entrySlot, hfresh]
    exact hblank.slot htype
  have henter := addToMeta_enter_room (.here n) haccepts hentry e
  rw [hfresh, hs.sector_eq hin] at henter
  refine Settles.add ?_ hsteps
  exact henter.add fun fuel => addToMeta_extend hs hinv h hslot hnext fuel

/-- Where the chain is full and no block is free, or where the search meets a block that is none of its metadata,
the entry is not made. -/
theorem addToMeta_enter_none (hs : fs.Small) (hleads : Leads fs d type i t)
    (h : ¬ Accepts fs d type t ∨
      Accepts fs d type t ∧ entrySlot d type t = none ∧ nextMeta d t = 0 ∧ FreeInv fs d []) (e : Word) :
    Settles (fun fuel => fs.addToMeta fuel i e type) d (none, d) := by
  obtain ⟨steps, hsteps⟩ := addToMeta_leads hleads e
  refine Settles.add ?_ hsteps
  rcases h with h | ⟨h, hslot, hnext, hinv⟩
  · exact settles_of_succ fun fuel => addToMeta_refused h (fuel + 1)
  · exact settles_of_succ fun fuel => addToMeta_exhausted hs hinv h hslot hnext fuel

end Enter

end ClothesFS

end CxxKernel.Clothes
