import CxxKernel.Clothes.MetaWalk

/-! The blocks that the contents of a file take: payload blocks, and the metadata that lists them. With blocks
enough `addData` succeeds, and else it uses up those that there are. -/
namespace CxxKernel.Clothes
open Fallible

/-- How many entries fit a continuation block behind its first one, which the writer takes for the length of
a name. -/
def contRoom (p : Word) : ℕ := (blocksize - 4 - (p.toNat + 15) / 4 * 4) / 4

/-- How many entries fit the first block of a file. Without a name its first entry is as in a continuation. -/
def nameRoom (len : ℕ) : Option ℕ := if len = 0 then none else some (capacity len)

/-- How many payload blocks `addData` writes: one at least. -/
def payloadCount (contents : List Byte) : ℕ := (contents.length - 1) / (blocksize - 4) + 1

/-- A payload block is taken and entered into metadata with the given room (`none` for a blank block): the room
and the free blocks that are left. -/
def enterPayload : Option ℕ → List Word → Option (Option ℕ × List Word)
  | none, p :: free => some (some (contRoom p), free)
  | some (room + 1), _ :: free => some (some room, free)
  | some 0, p :: _ :: free => some (some (contRoom p), free)
  | _, _ => none

/-- The free blocks suffice for `k` payload blocks. -/
def plan : ℕ → Option ℕ → List Word → Bool
  | 0, _, _ => true
  | k + 1, room, free =>
    match enterPayload room free with
    | none => false
    | some (room, free) => plan k room free

theorem enterPayload_nil (room : Option ℕ) : enterPayload room [] = none := by
  rcases room with _ | _ | room <;> rfl

theorem plan_succ {room room' : Option ℕ} {free free' : List Word}
    (h : enterPayload room free = some (room', free')) (k : ℕ) : plan (k + 1) room free = plan k room' free' := by
  rw [plan, h]

theorem plan_none {room : Option ℕ} {free : List Word} (h : enterPayload room free = none) (k : ℕ) :
    plan (k + 1) room free = false := by
  rw [plan, h]

theorem enterPayload_length {room room' : Option ℕ} {free free' : List Word}
    (h : enterPayload room free = some (room', free')) : free'.length < free.length := by
  match room, free, h with
  | none, p :: free, h =>
    cases h
    exact Nat.lt_succ_self _
  | some (room + 1), p :: free, h =>
    cases h
    exact Nat.lt_succ_self _
  | some 0, p :: c :: free, h =>
    cases h
    exact Nat.lt_succ_of_lt (Nat.lt_succ_self _)

theorem plan_le {k : ℕ} {room : Option ℕ} {free : List Word} (h : plan k room free = true) : k ≤ free.length := by
  induction k generalizing room free with
  | zero => exact Nat.zero_le _
  | succ k ih =>
    cases henter : enterPayload room free with
    | none =>
      rw [plan_none henter] at h
      cases h
    | some left =>
      rw [plan_succ henter] at h
      exact Nat.lt_of_le_of_lt (ih h) (enterPayload_length henter)

/-- The last metadata block of a file, and the entries that it has room for. -/
inductive Room (b : Block) : Option ℕ → Prop
  | blank (h : Blank META_FILE b) : Room b none
  | tail {e : ℕ} (h : Tail META_FILE b e) : Room b (some ((blocksize - 4 - e) / 4))

section Room
variable {b : Block} {room : Option ℕ} {name : CString} {size : ℕ}

theorem Room.accepted (h : Room b room) : dataToNum b 0 2 = metadata_id ∧
    validType (dataToNum b 2 1) META_FILE = true ∧ word b (blocksize - 4) = 0 := by
  cases h with
  | blank h => exact ⟨h.id, h.valid, h.rest _ (by decide)⟩
  | tail h => exact ⟨h.id, h.valid, h.last⟩

theorem Room.not_free (h : Room b room) : dataToNum b 2 1 ≠ META_FREE := by
  intro hfree
  have hvalid := h.accepted.2.1
  rw [hfree] at hvalid
  exact absurd hvalid (by decide)

theorem room_named (hfits : 16 + name.bytes.length ≤ blocksize - 4) (size : ℕ) :
    Room (named (freshMeta META_FILE) name size) (nameRoom name.bytes.length) := by
  have hid : dataToNum (named (freshMeta META_FILE) name size) 0 2 = metadata_id := named_head (by omega)
  have htype : dataToNum (named (freshMeta META_FILE) name size) 2 1 = META_FILE := named_head (by omega)
  have hvalid : validType (dataToNum (named (freshMeta META_FILE) name size) 2 1) META_FILE = true := by
    rw [htype]
    rfl
  have hlen : (word (named (freshMeta META_FILE) name size) 12).toNat = name.bytes.length := by
    unfold blocksize at hfits
    rw [word_named_len, BitVec.toNat_ofNat, Nat.mod_eq_of_lt (by omega)]
  by_cases hempty : name.bytes.length = 0
  · rw [nameRoom, if_pos hempty]
    refine .blank ⟨hid, hvalid, ?_, fun q hq => word_named_of_ge (by omega)⟩
    exact BitVec.eq_of_toNat_eq (hlen.trans hempty)
  · have hname : name.Fits := ⟨fun hnil => hempty (List.length_eq_zero_iff.mpr hnil), hfits⟩
    have hstart := addStart_toNat (.inl rfl : META_FILE = META_FILE ∨ META_FILE = META_DIR) hlen hfits
    have hpos : 20 ≤ entryPos name.bytes.length 0 ∧ entryPos name.bytes.length 0 % 4 = 0 := by
      unfold entryPos
      omega
    have htail : Tail META_FILE (named (freshMeta META_FILE) name size) (entryPos name.bytes.length 0) := by
      refine ⟨hid, hvalid, by omega, by omega, hpos.2, fun q hq hqe hmod _ => ?_, fun q hq _ _ => ?_,
        word_named_of_ge hfits⟩
      · have hlast : q = entryPos name.bytes.length 0 - 4 := by omega
        rw [hlast]
        exact named_last hname
      · apply word_named_of_ge
        unfold entryPos at hq
        omega
    rw [nameRoom, if_neg hempty]
    exact .tail htail

end Room

namespace ClothesFS

/-- The free blocks, and the metadata of a file from block `b` on. -/
structure FileChain (fs : ClothesFS) (d : Disk) (free : List Word) (b : Word) (room : Option ℕ) : Prop where
  inv : FreeInv fs d free
  ends : ∃ t : Word, t.toNat < fs.count ∧ Leads fs d META_FILE b t ∧ Room (d t.toNat) room

section FileChain
variable {fs : ClothesFS} {d d₁ : Disk} {free free' : List Word} {b p t : Word} {room room' : Option ℕ}
  {contents : List Byte} {data : Block}

theorem accepts_of_room (hs : fs.Small) (hin : t.toNat < fs.count) (h : Room (d t.toNat) room) :
    Accepts fs d META_FILE t := by
  obtain ⟨hid, hvalid, -⟩ := h.accepted
  rw [← hs.sector_eq hin] at hid hvalid
  refine ⟨?_, hid, hvalid⟩
  rw [hs.blockAt_eq hin, hs.sector_eq hin]

theorem FileChain.pop (h : FileChain fs d (p :: free) b room) : FileChain fs (popHeader d) free b room := by
  obtain ⟨t, hin, hleads, hroom⟩ := h.ends
  have hzero : t.toNat ≠ 0 := by
    intro hzero
    have hid := hroom.accepted.1
    rw [hzero, h.inv.header_id] at hid
    cases hid
  refine ⟨h.inv.pop, t, hin, hleads.update fun hid => ?_, ?_⟩
  · rw [h.inv.header_id] at hid
    cases hid
  · rw [popHeader_of_ne d hzero]
    exact hroom

theorem FileChain.write (h : FileChain fs d free b room) (hp : p.toNat ≠ 0) (hnot : p ∉ free)
    (hblank : dataToNum (d p.toNat) 2 1 = META_FREE) (data : Block) :
    FileChain fs (Function.update d p.toNat data) free b room := by
  obtain ⟨t, hin, hleads, hroom⟩ := h.ends
  have hrefused : ¬ validType (dataToNum (d p.toNat) 2 1) META_FILE = true := by
    rw [hblank]
    decide
  refine ⟨h.inv.write_taken hp hnot, t, hin, hleads.update fun _ hvalid => absurd hvalid hrefused, ?_⟩
  have htp : t.toNat ≠ p.toNat := fun htp => hroom.not_free (htp ▸ hblank)
  rw [Function.update_of_ne htp]
  exact hroom

theorem FileChain.filled (hs : fs.Small) (hinv : FreeInv fs d free) (hin : t.toNat < fs.count)
    (hleads : Leads fs d META_FILE b t) (hroom : Room (d t.toNat) room) (hnew : Room data room') :
    FileChain fs (Function.update d t.toNat data) free b room' := by
  have haccepts := accepts_of_room hs hin hroom
  have hnot := haccepts.not_free (.inl rfl) hinv
  rw [hs.sector_eq hin] at hnot
  refine ⟨hinv.write hnot.1 hnot.2, t, hin, hleads.update fun _ _ => hroom.accepted.2.2, ?_⟩
  rw [Function.update_self]
  exact hnew

/-- A block without room is continued by `c`, which has the entry `p`. -/
theorem FileChain.extended {c : Word} (hs : fs.Small) (hinv : FreeInv fs d (c :: free)) (hin : t.toNat < fs.count)
    (hleads : Leads fs d META_FILE b t) (hroom : Room (d t.toNat) room)
    (hslot : entrySlot d META_FILE t = none) (hp : p ≠ 0) (hlt : p.toNat < fs.count) :
    FileChain fs (Function.update (ClothesFS.extended d (sectorOf t) c META_FILE) c.toNat
      (numToData p.toNat (freshMeta (contType META_FILE)) 12 4)) free b (some (contRoom p)) := by
  have hc := hinv.inside c List.mem_cons_self
  have haccepts := accepts_of_room hs hin hroom
  have hct : c.toNat ≠ sectorOf t := (haccepts.not_free (.inl rfl) hinv).2 c List.mem_cons_self
  have hcount := hs.count_lt
  have hnew : Room (numToData p.toNat (freshMeta (contType META_FILE)) 12 4) (some (contRoom p)) :=
    .tail ((freshMeta_blank (.inl rfl)).filled (.inl rfl) hp (by omega))
  have hzero : c.toNat ≠ 0 := hinv.ne_zero List.mem_cons_self
  generalize numToData p.toNat (freshMeta (contType META_FILE)) 12 4 = data at hnew ⊢
  have hlinked : Function.update (ClothesFS.extended d (sectorOf t) c META_FILE) c.toNat data (sectorOf t) =
      numToData c.toNat (d (sectorOf t)) (blocksize - 4) 4 := by
    rw [ClothesFS.extended, Function.update_of_ne hct.symm, Function.update_of_ne hct.symm, Function.update_self]
  have hend : word (d t.toNat) (blocksize - 4) = 0 := hroom.accepted.2.2
  -- the blocks in front of `t` are linked already
  have hfront : Leads fs (Function.update (ClothesFS.extended d (sectorOf t) c META_FILE) c.toNat data)
      META_FILE b t := by
    apply hleads.congr
    intro k hk
    have hknot := hk.accepts.not_free (.inl rfl) hinv
    have hkt : sectorOf k ≠ sectorOf t := by
      intro hkt
      apply hk.next
      rw [nextMeta, hkt, hs.sector_eq hin]
      exact hend
    have hkc : sectorOf k ≠ c.toNat := (hknot.2 c List.mem_cons_self).symm
    rw [Function.update_of_ne hkc, ClothesFS.extended, Function.update_of_ne hkc, Function.update_of_ne hkt,
      popHeader_of_ne d hknot.1]
  have hnext : nextMeta (Function.update (ClothesFS.extended d (sectorOf t) c META_FILE) c.toNat data) t = c := by
    rw [nextMeta, hlinked, word_numToData]
  have hfull :
      Full fs (Function.update (ClothesFS.extended d (sectorOf t) c META_FILE) c.toNat data) META_FILE t := by
    refine ⟨⟨?_, ?_, ?_⟩, ?_, ?_⟩
    · exact blockAt_eq_some.mpr ⟨(blockAt_eq_some.mp haccepts.inside).1, rfl⟩
    · rw [hlinked, dataToNum_numToData_ne (by decide)]
      exact haccepts.id
    · rw [hlinked, dataToNum_numToData_ne (by decide)]
      exact haccepts.valid
    · rw [entrySlot, hlinked]
      exact freeEntry_linked hslot c.toNat
    · rw [hnext]
      exact hinv.head_ne_zero
  have hleads' := hfront.snoc hfull
  rw [hnext] at hleads'
  refine ⟨(hinv.extended haccepts (.inl rfl)).write_taken hzero hinv.head_notMem, c, hc.2, hleads', ?_⟩
  rw [Function.update_self]
  exact hnew

theorem enter_slot {ptr : Word} (hs : fs.Small) (hinv : FreeInv fs d free) (hin : t.toNat < fs.count)
    (hleads : Leads fs d META_FILE b t) (hroom : Room (d t.toNat) room)
    (hslot : freeEntry (d t.toNat) blocksize (addStart (d t.toNat) META_FILE) = some ptr)
    (hnew : Room (numToData p.toNat (d t.toNat) ptr.toNat 4) room')
    (hblank : dataToNum (d p.toNat) 2 1 = META_FREE) :
    ∃ d₁, Settles (fun fuel => fs.addToMeta fuel b p META_FILE) d (some (), d₁) ∧
      FileChain fs d₁ free b room' ∧ d₁ p.toNat = d p.toNat := by
  have hsector := hs.sector_eq hin
  have hentry : entrySlot d META_FILE t = some ptr := by
    rw [entrySlot, hsector]
    exact hslot
  have henter := addToMeta_enter_room hleads (accepts_of_room hs hin hroom) hentry p
  rw [hsector] at henter
  have hpt : p.toNat ≠ t.toNat := fun hpt => hroom.not_free (hpt ▸ hblank)
  exact ⟨_, henter, .filled hs hinv hin hleads hroom hnew, Function.update_of_ne hpt _ d⟩

theorem FileChain.enter (hs : fs.Small) (h : FileChain fs d free b room) (hp : p ≠ 0) (hlt : p.toNat < fs.count)
    (hblank : dataToNum (d p.toNat) 2 1 = META_FREE) (hnot : p ∉ free)
    (henter : enterPayload room (p :: free) = some (room', free')) :
    ∃ d₁, Settles (fun fuel => fs.addToMeta fuel b p META_FILE) d (some (), d₁) ∧
      FileChain fs d₁ free' b room' ∧ d₁ p.toNat = d p.toNat ∧ p ∉ free' := by
  obtain ⟨t, hin, hleads, hroom⟩ := h.ends
  have hcount := hs.count_lt
  cases hroom with
  | blank hb =>
    simp only [enterPayload, Option.some.injEq, Prod.mk.injEq] at henter
    obtain ⟨rfl, rfl⟩ := henter
    have hnew : Room (numToData p.toNat (d t.toNat) (12 : Word).toNat 4) (some (contRoom p)) :=
      .tail (hb.filled (.inl rfl) hp (by omega))
    obtain ⟨d₁, hadd, hchain, hsame⟩ :=
      enter_slot hs h.inv hin hleads (.blank hb) (hb.slot (.inl rfl)) hnew hblank
    exact ⟨d₁, hadd, hchain, hsame, hnot⟩
  | @tail e ht =>
    have hmod := ht.mod
    by_cases hlt' : e < blocksize - 4
    · obtain ⟨ptr, hslot, hptr⟩ := ht.slot hlt'
      have hnext : (blocksize - 4 - e) / 4 = (blocksize - 4 - (e + 4)) / 4 + 1 := by
        unfold blocksize at hlt' ⊢
        omega
      rw [hnext] at henter
      simp only [enterPayload, Option.some.injEq, Prod.mk.injEq] at henter
      obtain ⟨rfl, rfl⟩ := henter
      have hnew : Room (numToData p.toNat (d t.toNat) ptr.toNat 4) (some ((blocksize - 4 - (e + 4)) / 4)) := by
        rw [hptr]
        exact .tail (ht.filled hp hlt')
      obtain ⟨d₁, hadd, hchain, hsame⟩ := enter_slot hs h.inv hin hleads (.tail ht) hslot hnew hblank
      exact ⟨d₁, hadd, hchain, hsame, hnot⟩
    · have hfull : (blocksize - 4 - e) / 4 = 0 := by omega
      rw [hfull] at henter
      cases free with
      | nil => cases henter
      | cons c free =>
        simp only [enterPayload, Option.some.injEq, Prod.mk.injEq] at henter
        obtain ⟨rfl, rfl⟩ := henter
        have haccepts := accepts_of_room hs hin (.tail ht)
        have hsector := hs.sector_eq hin
        have hslot : entrySlot d META_FILE t = none := by
          rw [entrySlot, hsector]
          exact ht.slot_none (Nat.not_lt.mp hlt')
        have hend : nextMeta d t = 0 := by
          rw [nextMeta, hsector]
          exact ht.last
        have hpc : p.toNat ≠ c.toNat := fun hpc => hnot (BitVec.eq_of_toNat_eq hpc ▸ List.mem_cons_self)
        have hpt : p.toNat ≠ sectorOf t := by
          rw [hsector]
          exact fun hpt => (Room.tail ht).not_free (hpt ▸ hblank)
        have hzero : p.toNat ≠ 0 := fun hzero => hp (BitVec.eq_of_toNat_eq hzero)
        refine ⟨_, addToMeta_enter_full hs (.inl rfl) h.inv hleads haccepts hslot hend p,
          .extended hs h.inv hin hleads (.tail ht) hslot hp hlt, ?_,
          fun hmem => hnot (List.mem_cons_of_mem c hmem)⟩
        rw [Function.update_of_ne hpc, ClothesFS.extended, Function.update_of_ne hpc, Function.update_of_ne hpt,
          popHeader_of_ne d hzero]

theorem FileChain.enter_none (hs : fs.Small) (h : FileChain fs d free b room)
    (henter : enterPayload room (p :: free) = none) :
    free = [] ∧ Settles (fun fuel => fs.addToMeta fuel b p META_FILE) d (none, d) := by
  obtain ⟨t, hin, hleads, hroom⟩ := h.ends
  cases hroom with
  | blank hb => cases henter
  | @tail e ht =>
    have hsector := hs.sector_eq hin
    cases hfull : (blocksize - 4 - e) / 4 with
    | succ n =>
      rw [hfull] at henter
      cases henter
    | zero =>
      rw [hfull] at henter
      have hmod := ht.mod
      cases free with
      | cons c free => cases henter
      | nil =>
        refine ⟨rfl, addToMeta_enter_none hs hleads (.inr ⟨accepts_of_room hs hin (.tail ht), ?_, ?_, h.inv⟩) p⟩
        · rw [entrySlot, hsector]
          apply ht.slot_none
          unfold blocksize at hfull ⊢
          omega
        · rw [nextMeta, hsector]
          exact ht.last

/-- One round of `addData`: a block is taken, entered and written, and the rest of the contents goes on. -/
theorem FileChain.addData_round (hs : fs.Small) (h : FileChain fs d free b room)
    (henter : enterPayload room free = some (room', free')) (contents : List Byte) :
    ∃ d₁, FileChain fs d₁ free' b room' ∧ ∀ r,
      Settles (fun fuel => if contents.drop (blocksize - 4) ≠ [] then
        fs.addData fuel b (contents.drop (blocksize - 4)) else pure ()) d₁ r →
      Settles (fun fuel => fs.addData fuel b contents) d r := by
  obtain _ | ⟨p, free⟩ := free
  · rw [enterPayload_nil] at henter
    cases henter
  have hin := h.inv.inside p List.mem_cons_self
  have hp := h.inv.head_ne_zero
  have hzero := h.inv.ne_zero (b := p) List.mem_cons_self
  have hblank : dataToNum (popHeader d p.toNat) 2 1 = META_FREE := by
    rw [popHeader_of_ne d hzero]
    exact h.inv.blank p List.mem_cons_self
  obtain ⟨d₁, hadd, hchain, hsame, hnot⟩ :=
    h.pop.enter hs hp hin.2 hblank h.inv.head_notMem henter
  refine ⟨_, hchain.write hzero hnot (hsame ▸ hblank) (payloadBlock contents), fun r hrest => ?_⟩
  obtain ⟨bound, hadd⟩ := hadd
  obtain ⟨bound', hrest⟩ := hrest
  refine ⟨bound + bound' + 1, fun fuel hfuel => ?_⟩
  obtain ⟨fuel, rfl⟩ := Nat.exists_eq_add_of_le' (Nat.le_of_add_left_le hfuel)
  change exec (fs.addData (fuel + 1) b contents) d = r
  rw [addData]
  refine (h.inv.returns_take hs).bind.trans ?_
  refine (returns_guard_of hp).bind.trans ?_
  refine (Returns.bind (hadd fuel (by omega))).trans ?_
  refine (returns_initData hs hin.2 d₁).bind.trans ?_
  have hload := exec_getBlock (hs.blockAt_eq hin.2 (Function.update d₁ p.toNat
    (numToData 0 (numToData PAYLOAD_USED.toNat (numToData payload_id.toNat clearBuffer 0 2) 2 1) 3 1)))
  rw [Function.update_self] at hload
  refine hload.bind.trans ?_
  have hput := (hs.returns_putBlock (u := ()) hin.2).mpr (Function.update_idem
    (numToData 0 (numToData PAYLOAD_USED.toNat (numToData payload_id.toNat clearBuffer 0 2) 2 1) 3 1)
    (payloadBlock contents) d₁)
  refine hput.bind.trans ?_
  exact hrest fuel (by omega)

/-- Without a block for the next payload, or for the metadata that lists it, `addData` gives up. -/
theorem FileChain.addData_none (hs : fs.Small) (h : FileChain fs d free b room)
    (henter : enterPayload room free = none) (contents : List Byte) :
    ∃ d', Settles (fun fuel => fs.addData fuel b contents) d (none, d') ∧ FreeInv fs d' [] := by
  have htake := h.inv.returns_take hs
  cases free with
  | nil =>
    refine ⟨popHeader d, settles_of_succ fun fuel => ?_, h.inv.pop⟩
    rw [addData]
    refine htake.bind.trans ?_
    exact (fails_guard_of (not_not.mpr rfl)).bind
  | cons p free =>
    obtain ⟨rfl, bound, hadd⟩ := h.pop.enter_none hs henter
    have hp := h.inv.head_ne_zero
    refine ⟨popHeader d, ⟨bound + 1, fun fuel hfuel => ?_⟩, h.inv.pop⟩
    obtain ⟨fuel, rfl⟩ := Nat.exists_eq_add_of_le' (Nat.le_of_add_left_le hfuel)
    change exec (fs.addData (fuel + 1) b contents) d = _
    rw [addData]
    refine htake.bind.trans ?_
    refine (returns_guard_of hp).bind.trans ?_
    exact Fails.bind (hadd fuel (by omega))

end FileChain

theorem payloadCount_more {contents : List Byte} (h : contents.drop (blocksize - 4) ≠ []) :
    payloadCount contents = payloadCount (contents.drop (blocksize - 4)) + 1 := by
  have hlen := List.length_pos_iff.mpr h
  unfold payloadCount
  unfold blocksize at hlen ⊢
  rw [List.length_drop] at hlen ⊢
  omega

theorem payloadCount_last {contents : List Byte} (h : contents.drop (blocksize - 4) = []) :
    payloadCount contents = 1 := by
  have hlen := List.drop_eq_nil_iff.mp h
  unfold payloadCount
  unfold blocksize at hlen ⊢
  omega

section AddData
variable {fs : ClothesFS} {d : Disk} {free : List Word} {b : Word} {room : Option ℕ} {contents : List Byte}

/-- `addData` ends: with blocks enough it succeeds, and without them it fails when no block is free any more. -/
theorem FileChain.addData_settles (hs : fs.Small) (h : FileChain fs d free b room) :
    (plan (payloadCount contents) room free = true ∧
      ∃ d', Settles (fun fuel => fs.addData fuel b contents) d (some (), d')) ∨
    (plan (payloadCount contents) room free = false ∧
      ∃ d', Settles (fun fuel => fs.addData fuel b contents) d (none, d') ∧ FreeInv fs d' []) := by
  induction hk : payloadCount contents generalizing d free room contents with
  | zero => cases hk
  | succ k ih =>
    cases henter : enterPayload room free with
    | none => exact .inr ⟨plan_none henter k, h.addData_none hs henter contents⟩
    | some left =>
      obtain ⟨room', free'⟩ := left
      rw [plan_succ henter]
      obtain ⟨d₁, hchain, hround⟩ := h.addData_round hs henter contents
      by_cases hmore : contents.drop (blocksize - 4) ≠ []
      · have hcount : payloadCount (contents.drop (blocksize - 4)) = k :=
          Nat.succ_inj.mp ((payloadCount_more hmore).symm.trans hk)
        rcases ih hchain hcount with ⟨hplan, d', hrest⟩ | ⟨hplan, d', hrest, hinv⟩
        · refine .inl ⟨hplan, d', hround _ ?_⟩
          simp only [if_pos hmore]
          exact hrest
        · refine .inr ⟨hplan, d', hround _ ?_, hinv⟩
          simp only [if_pos hmore]
          exact hrest
      · -- the last payload block needs no more
        have hlast := payloadCount_last (not_not.mp hmore)
        obtain rfl : k = 0 := Nat.succ_inj.mp (hk.symm.trans hlast)
        refine .inl ⟨rfl, d₁, hround _ ?_⟩
        simp only [if_neg hmore]
        exact settles_of_exec rfl

theorem FileChain.addData_returns (hs : fs.Small) (h : FileChain fs d free b room)
    (hplan : plan (payloadCount contents) room free = true) :
    ∃ d', Settles (fun fuel => fs.addData fuel b contents) d (some (), d') := by
  rcases h.addData_settles hs with ⟨-, hsettles⟩ | ⟨hnot, -⟩
  · exact hsettles
  · rw [hplan] at hnot
    cases hnot

theorem FileChain.addData_fails (hs : fs.Small) (h : FileChain fs d free b room)
    (hplan : plan (payloadCount contents) room free = false) :
    ∃ d', Settles (fun fuel => fs.addData fuel b contents) d (none, d') ∧ FreeInv fs d' [] := by
  rcases h.addData_settles hs with ⟨hnot, -⟩ | ⟨-, hsettles⟩
  · rw [hplan] at hnot
    cases hnot
  · exact hsettles

end AddData

end ClothesFS

end CxxKernel.Clothes
