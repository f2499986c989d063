import CxxKernel.Clothes.Entries

/-! What `addToMeta` and `addData` may touch: the blocks of one family of metadata, and blocks
that were free. -/
namespace CxxKernel.Clothes
open Fallible

/-- A payload block that is in use. -/
def Payload (b : Block) : Prop := dataToNum b 0 2 = payload_id ∧ dataToNum b 2 1 = PAYLOAD_USED

/-- A metadata block that is in use. -/
def Tagged (b : Block) : Prop := dataToNum b 0 2 = metadata_id ∧ dataToNum b 2 1 ≠ META_FREE

/-- The type of the block that continues a block of type `type`. -/
def contType (type : Word) : Word :=
  if type = META_FILE ∨ type = META_FILE_CONT then META_FILE_CONT else META_DIR_CONT

namespace ClothesFS

/-- Metadata blocks, known by sector and content, that stay in the family when `addToMeta` fills an
entry or links a next block, and that a new continuation block from `lo` on joins. -/
structure Family (fs : ClothesFS) (type : Word) (lo : ℕ) (F : ℕ → Block → Prop) : Prop where
  tagged : ∀ j b, F j b → Tagged b
  entry : ∀ j b ptr (e : Word), F j b → e.toNat < fs.count →
    freeEntry b blocksize (addStart b type) = some ptr → F j (numToData e.toNat b ptr.toNat 4)
  next : ∀ j b (n : Word), lo ≤ n.toNat → n.toNat < fs.count → F j b →
    F j (numToData n.toNat b (blocksize - 4) 4)
  cont : ∀ j, lo ≤ j → j < fs.count → F j (freshMeta (contType type))

/-- The next block of a block of the family is one too. -/
def Closed (F : ℕ → Block → Prop) (d : Disk) : Prop :=
  ∀ k, F k (d k) → word (d k) (blocksize - 4) ≠ 0 →
    F (sectorOf (word (d k) (blocksize - 4))) (d (sectorOf (word (d k) (blocksize - 4))))

/-- From `d` with the free blocks `free` to `d'` with the free blocks `free'`, only blocks of the
family change, and blocks that are taken: into members of the family or payload. -/
structure Effect (fs : ClothesFS) (F : ℕ → Block → Prop) (d : Disk) (free : List Word) (d' : Disk)
    (free' : List Word) : Prop where
  suffix : free' <:+ free
  inv : FreeInv fs d' free'
  kept : ∀ j, j ≠ 0 → ¬ F j (d j) → (∀ b ∈ free, b.toNat ≠ j) → d' j = d j
  family : ∀ j, F j (d j) → F j (d' j)
  fresh : ∀ b ∈ free, b ∉ free' →
    d' b.toNat = d b.toNat ∨ F b.toNat (d' b.toNat) ∨ Payload (d' b.toNat)
  still : ∀ b ∈ free', d' b.toNat = d b.toNat

section Families
variable {fs : ClothesFS} {type : Word} {lo : ℕ} {F G : ℕ → Block → Prop} {d d' d'' : Disk}
  {free free' free'' : List Word} {j : ℕ} {b : Word} {new : Block}

theorem Family.ne_zero (hF : Family fs type lo F) (h : FreeInv fs d free) (hj : F j (d j)) :
    j ≠ 0 := by
  rintro rfl
  have hid := (hF.tagged 0 _ hj).1
  rw [h.header_id] at hid
  cases hid

theorem Family.not_blank (hF : Family fs type lo F) (h : FreeInv fs d free) (hb : b ∈ free) :
    ¬ F b.toNat (d b.toNat) :=
  fun hf => (hF.tagged _ _ hf).2 (h.blank b hb)

theorem Family.not_free (hF : Family fs type lo F) (h : FreeInv fs d free) (hj : F j (d j)) :
    ∀ b ∈ free, b.toNat ≠ j := by
  rintro b hb rfl
  exact hF.not_blank h hb hj

theorem Family.not_payload (hF : Family fs type lo F) (hp : Payload new) : ¬ F j new := by
  intro hf
  have hid := (hF.tagged j new hf).1
  rw [hp.1] at hid
  cases hid

namespace Effect

theorem refl (h : FreeInv fs d free) : Effect fs F d free d free :=
  ⟨List.suffix_refl free, h, fun _ _ _ _ => rfl, fun _ hf => hf, fun _ hb hb' => absurd hb hb',
    fun _ _ => rfl⟩

theorem trans (hF : Family fs type lo F) (h : FreeInv fs d free) (h₁ : Effect fs F d free d' free')
    (h₂ : Effect fs F d' free' d'' free'') : Effect fs F d free d'' free'' := by
  have hsub : ∀ b ∈ free', b ∈ free := fun b hb => h₁.suffix.subset hb
  refine ⟨h₂.suffix.trans h₁.suffix, h₂.inv, fun j hj hf hfree => ?_, fun j hf => ?_,
    fun b hb hb'' => ?_, fun b hb => ?_⟩
  · have hsame := h₁.kept j hj hf hfree
    rw [h₂.kept j hj (hsame ▸ hf) fun b hb => hfree b (hsub b hb), hsame]
  · exact h₂.family j (h₁.family j hf)
  · by_cases hb' : b ∈ free'
    · have hsame := h₁.still b hb'
      rw [← hsame]
      exact h₂.fresh b hb' hb''
    · have hother : ∀ c ∈ free', c.toNat ≠ b.toNat := fun c hc he =>
        hb' (BitVec.eq_of_toNat_eq he ▸ hc)
      have hne := h.ne_zero hb
      rcases h₁.fresh b hb hb' with hsame | hf | hp
      · have hnot : ¬ F b.toNat (d' b.toNat) := hsame ▸ hF.not_blank h hb
        exact .inl ((h₂.kept _ hne hnot hother).trans hsame)
      · exact .inr (.inl (h₂.family _ hf))
      · have hsame := h₂.kept _ hne (hF.not_payload hp) hother
        exact .inr (.inr (hsame ▸ hp))
  · rw [h₂.still b hb, h₁.still b (h₂.suffix.subset hb)]

theorem pop (hF : Family fs type lo F) (h : FreeInv fs d (b :: free)) :
    Effect fs F d (b :: free) (popHeader d) free := by
  refine ⟨List.suffix_cons b free, h.pop, fun j hj _ _ => popHeader_of_ne d hj, fun j hf => ?_,
    fun c hc _ => .inl (popHeader_of_ne d (h.ne_zero hc)),
    fun c hc => popHeader_of_ne d (h.ne_zero (List.mem_cons_of_mem b hc))⟩
  rw [popHeader_of_ne d (hF.ne_zero h hf)]
  exact hf

theorem change (hF : Family fs type lo F) (h : FreeInv fs d free) (hj : F j (d j)) (hnew : F j new) :
    Effect fs F d free (Function.update d j new) free := by
  have hnot := hF.not_free h hj
  refine ⟨List.suffix_refl free, h.write (hF.ne_zero h hj) hnot, fun i _ hf _ => ?_, fun i hf => ?_,
    fun b hb hb' => absurd hb hb', fun b hb => Function.update_of_ne (hnot b hb) new d⟩
  · have hij : i ≠ j := by
      rintro rfl
      exact hf hj
    exact Function.update_of_ne hij new d
  · by_cases hij : i = j
    · rw [hij, Function.update_self]
      exact hnew
    · rw [Function.update_of_ne hij]
      exact hf

theorem mono (h : Effect fs F d free d' free') (hsub : ∀ j b, F j b → G j b)
    (hG : ∀ j, G j (d j) → G j (d' j)) : Effect fs G d free d' free' :=
  ⟨h.suffix, h.inv, fun j hj hnot => h.kept j hj (mt (hsub j _) hnot), hG,
    fun b hb hb' => (h.fresh b hb hb').imp_right (Or.imp_left (hsub _ _)), h.still⟩

theorem foreign (hfree : FreeInv fs d free) (h : Effect fs F d free d' free') (hj : Tagged (d j))
    (hnot : ¬ F j (d j)) : d' j = d j := by
  apply h.kept j ?_ hnot
  · rintro b hb rfl
    exact hj.2 (hfree.blank b hb)
  · rintro rfl
    rw [Tagged, hfree.header_id] at hj
    cases hj.1

theorem tagged (hF : Family fs type lo F) (hfree : FreeInv fs d free)
    (h : Effect fs F d free d' free') (hj : Tagged (d j)) : Tagged (d' j) := by
  by_cases hf : F j (d j)
  · exact hF.tagged j _ (h.family j hf)
  · rw [h.foreign hfree hj hf]
    exact hj

theorem foreign_new (h : Effect fs F d free d' free') (hj : Tagged (d' j)) (hnot : ¬ F j (d' j)) :
    d' j = d j := by
  have hzero : j ≠ 0 := by
    rintro rfl
    rw [Tagged, h.inv.header_id] at hj
    cases hj.1
  by_cases hfree : ∃ b ∈ free, b.toNat = j
  · obtain ⟨b, hb, rfl⟩ := hfree
    by_cases hb' : b ∈ free'
    · exact h.still b hb'
    · rcases h.fresh b hb hb' with hsame | hf | hp
      · exact hsame
      · exact absurd hf hnot
      · rw [Tagged, hp.1] at hj
        cases hj.1
  · exact h.kept j hzero (fun hf => hnot (h.family j hf)) fun b hb he => hfree ⟨b, hb, he⟩

theorem fill (hF : Family fs type lo F) (h : FreeInv fs d free) (h₁ : Effect fs F d free d' free')
    (hb : b ∈ free) (hb' : b ∉ free') (hnew : F b.toNat new ∨ Payload new) :
    Effect fs F d free (Function.update d' b.toNat new) free' := by
  have hother : ∀ c, c ≠ b → Function.update d' b.toNat new c.toNat = d' c.toNat := fun c hc =>
    Function.update_of_ne (fun he => hc (BitVec.eq_of_toNat_eq he)) new d'
  have hne : ∀ c ∈ free', c ≠ b := fun c hc he => hb' (he ▸ hc)
  refine ⟨h₁.suffix, h₁.inv.write (h.ne_zero hb) fun c hc he =>
    hne c hc (BitVec.eq_of_toNat_eq he), fun j hj hf hfree => ?_, fun j hf => ?_,
    fun c hc hc' => ?_, fun c hc => ?_⟩
  · rw [Function.update_of_ne (Ne.symm (hfree b hb))]
    exact h₁.kept j hj hf hfree
  · have hj : j ≠ b.toNat := Ne.symm (hF.not_free h hf b hb)
    rw [Function.update_of_ne hj]
    exact h₁.family j hf
  · by_cases hcb : c = b
    · subst hcb
      rw [Function.update_self]
      exact .inr hnew
    · rw [hother c hcb]
      exact h₁.fresh c hc hc'
  · rw [hother c (hne c hc)]
    exact h₁.still c hc

end Effect

namespace Closed

theorem pop (hF : Family fs type lo F) (h : FreeInv fs d free) (hc : Closed F d) :
    Closed F (popHeader d) := by
  intro k hf hw
  have hk := hF.ne_zero h.pop hf
  rw [popHeader_of_ne d hk] at hf hw ⊢
  have ht := hc k hf hw
  rw [popHeader_of_ne d (hF.ne_zero h ht)]
  exact ht

theorem update (hc : Closed F d) (hnew : F j new)
    (hnext : word new (blocksize - 4) ≠ 0 → sectorOf (word new (blocksize - 4)) ≠ j →
      F (sectorOf (word new (blocksize - 4))) (d (sectorOf (word new (blocksize - 4))))) :
    Closed F (Function.update d j new) := by
  have hmember : ∀ t, (t ≠ j → F t (d t)) → F t (Function.update d j new t) := by
    intro t ht
    by_cases htj : t = j
    · rw [htj, Function.update_self]
      exact hnew
    · rw [Function.update_of_ne htj]
      exact ht htj
  intro k hf hw
  by_cases hkj : k = j
  · rw [hkj, Function.update_self] at hf hw ⊢
    exact hmember _ (hnext hw)
  · rw [Function.update_of_ne hkj] at hf hw ⊢
    exact hmember _ fun _ => hc k hf hw

theorem other (hc : Closed F d) (hold : ¬ F j (d j)) (hnew : ¬ F j new) :
    Closed F (Function.update d j new) := by
  intro k hf hw
  have hkj : k ≠ j := by
    rintro rfl
    rw [Function.update_self] at hf
    exact hnew hf
  rw [Function.update_of_ne hkj] at hf hw ⊢
  have ht := hc k hf hw
  have htj : sectorOf (word (d k) (blocksize - 4)) ≠ j := fun he => hold (he ▸ ht)
  rw [Function.update_of_ne htj]
  exact ht

theorem of_effect (hfree : FreeInv fs d free) (h : Effect fs F d free d' free') (hc : Closed G d)
    (hG : ∀ j b, G j b → Tagged b ∧ ¬ F j b) : Closed G d' := by
  intro k hk hw
  have hsame := h.foreign_new (hG k _ hk).1 (hG k _ hk).2
  rw [hsame] at hk hw ⊢
  have ht := hc k hk hw
  rw [h.foreign hfree (hG _ _ ht).1 (hG _ _ ht).2]
  exact ht

end Closed

end Families

section AddToMeta
variable {fs : ClothesFS} {type index e : Word} {lo fuel : ℕ} {F : ℕ → Block → Prop} {d d' : Disk}
  {free : List Word}

/-- The device after block `n` has been taken and linked behind the block in sector `j`. -/
def extended (d : Disk) (j : ℕ) (n type : Word) : Disk :=
  Function.update (Function.update (popHeader d) j (numToData n.toNat (d j) (blocksize - 4) 4))
    n.toNat (freshMeta (contType type))

/-- What one level of the recursion does: it fills an entry, goes on behind a block without a
free entry, or links a new block behind it first. -/
theorem addToMeta_step (hs : fs.Small) (h : FreeInv fs d free)
    (hr : Returns (fs.addToMeta (fuel + 1) index e type) d () d') :
    dataToNum (d (sectorOf index)) 0 2 = metadata_id ∧
    validType (dataToNum (d (sectorOf index)) 2 1) type = true ∧
    ((∃ ptr, freeEntry (d (sectorOf index)) blocksize (addStart (d (sectorOf index)) type) = some ptr ∧
        d' = Function.update d (sectorOf index) (numToData e.toNat (d (sectorOf index)) ptr.toNat 4)) ∨
      freeEntry (d (sectorOf index)) blocksize (addStart (d (sectorOf index)) type) = none ∧
        (word (d (sectorOf index)) (blocksize - 4) ≠ 0 ∧
          Returns (fs.addToMeta fuel (word (d (sectorOf index)) (blocksize - 4)) e type) d () d' ∨
        word (d (sectorOf index)) (blocksize - 4) = 0 ∧ ∃ n rest, free = n :: rest ∧
          Returns (fs.addToMeta fuel n e type) (extended d (sectorOf index) n type) () d')) := by
  simp only [addToMeta, returns_bind, returns_getBlock, returns_guard] at hr
  obtain ⟨data, _, ⟨hdata, rfl⟩, _, _, ⟨hid, rfl⟩, _, _, ⟨hvalid, rfl⟩, hr⟩ := hr
  obtain ⟨hpos, hdata⟩ := blockAt_eq_some.mp hdata
  change d (sectorOf index) = data at hdata
  rw [hdata]
  refine ⟨hid, hvalid, ?_⟩
  cases hslot : freeEntry data blocksize (addStart data type) with
  | some ptr =>
    rw [hslot] at hr
    obtain ⟨-, hput⟩ := returns_putBlock.mp hr
    exact .inl ⟨ptr, rfl, hput.symm⟩
  | none =>
    rw [hslot] at hr
    refine .inr ⟨rfl, ?_⟩
    by_cases hnext : word data (blocksize - 4) = 0
    · rw [if_neg (not_not.mpr hnext)] at hr
      simp only [returns_bind, returns_guard] at hr
      obtain ⟨n, d₁, htake, _, _, ⟨hne, rfl⟩, _, d₂, hlink, _, d₃, hinit, hr⟩ := hr
      obtain ⟨rest, rfl, rfl, hrest⟩ := h.take_cons hs htake hne
      have hzero : sectorOf index ≠ 0 := by
        intro hc
        rw [← hdata, hc, h.header_id] at hid
        cases hid
      simp only [dirContinues, returns_bind, returns_getBlock] at hlink
      obtain ⟨data', _, ⟨hdata', rfl⟩, hlink⟩ := hlink
      obtain ⟨-, hdata'⟩ := blockAt_eq_some.mp hdata'
      change popHeader d (sectorOf index) = data' at hdata'
      rw [popHeader_of_ne d hzero, hdata] at hdata'
      obtain ⟨-, hlink⟩ := returns_putBlock.mp hlink
      have hin := (h.inside n List.mem_cons_self).2
      rw [hs.returns_initMeta hin] at hinit
      refine .inr ⟨hnext, n, rest, rfl, ?_⟩
      rw [extended, hdata, hdata']
      subst hlink hinit
      exact hr
    · rw [if_pos hnext] at hr
      exact .inl ⟨hnext, hr⟩

theorem extended_effect {n : Word} {rest : List Word} {j : ℕ} (hF : Family fs type lo F)
    (h : FreeInv fs d (n :: rest)) (hlo : lo ≤ n.toNat) (hj : F j (d j)) :
    Effect fs F d (n :: rest) (extended d j n type) rest ∧
      F n.toNat (extended d j n type n.toNat) := by
  have hnew := hF.cont n.toNat hlo (h.inside n List.mem_cons_self).2
  have hpop : popHeader d j = d j := popHeader_of_ne d (hF.ne_zero h hj)
  have hlinked := hF.next j (d j) n hlo (h.inside n List.mem_cons_self).2 hj
  have hchange := Effect.change hF h.pop (hpop.symm ▸ hj) hlinked
  have heffect := (Effect.pop hF h).trans hF h hchange
  refine ⟨heffect.fill hF h List.mem_cons_self h.head_notMem (.inl hnew), ?_⟩
  rw [extended, Function.update_self]
  exact hnew

theorem Closed.extended {n : Word} {rest : List Word} {j : ℕ} (hs : fs.Small)
    (hF : Family fs type lo F) (h : FreeInv fs d (n :: rest)) (hlo : lo ≤ n.toNat)
    (hj : F j (d j)) (hc : Closed F d) : Closed F (extended d j n type) := by
  have hin := (h.inside n List.mem_cons_self).2
  have hnew := hF.cont n.toNat hlo hin
  have hlinked := hF.next j (d j) n hlo hin hj
  have hjn : j ≠ n.toNat := Ne.symm (hF.not_free h hj n List.mem_cons_self)
  have hend : word (freshMeta (contType type)) (blocksize - 4) = 0 := word_freshMeta (by decide)
  rw [ClothesFS.extended, Function.update_comm hjn]
  apply ((hc.pop hF h).update hnew fun hne => absurd hend hne).update hlinked
  intro _ _
  rw [word_numToData, hs.sector_eq hin, Function.update_self]
  exact hnew

theorem addToMeta_effect (hs : fs.Small) (hF : Family fs type lo F) (he : e.toNat < fs.count)
    (h : FreeInv fs d free) (hlo : ∀ b ∈ free, lo ≤ b.toNat)
    (hindex : F (sectorOf index) (d (sectorOf index))) (hc : Closed F d)
    (hr : Returns (fs.addToMeta fuel index e type) d () d') :
    ∃ free', Effect fs F d free d' free' ∧ Closed F d' := by
  induction fuel generalizing d free index with
  | zero => exact absurd hr returns_failure
  | succ fuel ih =>
    obtain ⟨-, -, ⟨ptr, hslot, rfl⟩ | ⟨-, ⟨hnext, hr⟩ | ⟨-, n, rest, rfl, hr⟩⟩⟩ :=
      addToMeta_step hs h hr
    · have hnew := hF.entry _ _ ptr e hindex he hslot
      refine ⟨free, Effect.change hF h hindex hnew, hc.update hnew ?_⟩
      rw [word_numToData_ne (.inr (freeEntry_le hslot).2)]
      exact fun hne _ => hc _ hindex hne
    · exact ih h hlo (hc _ hindex hnext) hc hr
    · have hn := hlo n List.mem_cons_self
      obtain ⟨heffect, hnew⟩ := extended_effect hF h hn hindex
      have hclosed := hc.extended hs hF h hn hindex
      have hin := (h.inside n List.mem_cons_self).2
      rw [← hs.sector_eq hin] at hnew
      obtain ⟨free', heffect', hclosed'⟩ :=
        ih heffect.inv (fun b hb => hlo b (List.mem_cons_of_mem n hb)) hnew hclosed hr
      exact ⟨free', heffect.trans hF h heffect', hclosed'⟩

end AddToMeta

/-- The payload block that `addData` writes for the front of `contents`. -/
def payloadBlock (contents : List Byte) : Block :=
  copyTo (numToData 0 (numToData PAYLOAD_USED.toNat (numToData payload_id.toNat clearBuffer 0 2) 2 1)
    3 1) 4 (contents.take (blocksize - 4))

theorem payloadBlock_payload (contents : List Byte) : Payload (payloadBlock contents) := by
  constructor
  · have hsame : dataToNum (payloadBlock contents) 0 2 = dataToNum (payloadBlock []) 0 2 :=
      dataToNum_congr fun i hi => by
        rw [payloadBlock, payloadBlock, copyTo_of_notMem (by omega), copyTo_of_notMem (by omega)]
    rw [hsame]
    rfl
  · have hsame : dataToNum (payloadBlock contents) 2 1 = dataToNum (payloadBlock []) 2 1 :=
      dataToNum_congr fun i hi => by
        rw [payloadBlock, payloadBlock, copyTo_of_notMem (by omega), copyTo_of_notMem (by omega)]
    rw [hsame]
    rfl

section AddData
variable {fs : ClothesFS} {index : Word} {lo fuel : ℕ} {F : ℕ → Block → Prop} {d d' : Disk}
  {free : List Word} {contents : List Byte}

theorem returns_initData (hs : fs.Small) {n : Word} (hin : n.toNat < fs.count) (d : Disk) :
    Returns (fs.initData n PAYLOAD_USED 0) d 4 (Function.update d n.toNat
      (numToData 0 (numToData PAYLOAD_USED.toNat (numToData payload_id.toNat clearBuffer 0 2) 2 1) 3 1)) := by
  rw [initData, returns_orElse]
  left
  exact returns_bind.mpr ⟨(), _, (hs.returns_putBlock hin).mpr rfl, returns_pure.mpr ⟨rfl, rfl⟩⟩

theorem addData_step (hs : fs.Small) (h : FreeInv fs d free)
    (hr : Returns (fs.addData (fuel + 1) index contents) d () d') :
    ∃ n rest d₁, free = n :: rest ∧
      Returns (fs.addToMeta fuel index n META_FILE) (popHeader d) () d₁ ∧
      (contents.drop (blocksize - 4) = [] ∧
          d' = Function.update d₁ n.toNat (payloadBlock contents) ∨
        Returns (fs.addData fuel index (contents.drop (blocksize - 4)))
          (Function.update d₁ n.toNat (payloadBlock contents)) () d') := by
  simp only [addData, returns_bind, returns_guard] at hr
  obtain ⟨n, _, htake, _, _, ⟨hne, rfl⟩, _, d₁, hadd, pos, d₂, hinit, data, _, hget, _, d₃, hput, hr⟩ := hr
  obtain ⟨rest, rfl, rfl, hrest⟩ := h.take_cons hs htake hne
  have hin := (h.inside n List.mem_cons_self).2
  obtain ⟨rfl, rfl⟩ := (returns_initData hs hin d₁).unique hinit
  rw [returns_getBlock, hs.blockAt_eq hin, Function.update_self] at hget
  obtain ⟨hget, rfl⟩ := hget
  obtain rfl := Option.some.inj hget
  rw [hs.returns_putBlock hin, Function.update_idem] at hput
  subst hput
  refine ⟨n, rest, d₁, rfl, hadd, ?_⟩
  by_cases hmore : contents.drop (blocksize - 4) = []
  · left
    change Returns (if contents.drop (blocksize - 4) ≠ [] then _ else _) _ () d' at hr
    rw [if_neg (not_not.mpr hmore), returns_pure] at hr
    exact ⟨hmore, hr.2.symm⟩
  · right
    change Returns (if contents.drop (blocksize - 4) ≠ [] then _ else _) _ () d' at hr
    rw [if_pos hmore] at hr
    exact hr

/-- One payload block: it is taken, entered into the metadata and written. -/
theorem payload_effect {n : Word} {rest : List Word} {d₁ : Disk} (hs : fs.Small)
    (hF : Family fs META_FILE lo F) (h : FreeInv fs d (n :: rest))
    (hlo : ∀ b ∈ n :: rest, lo ≤ b.toNat) (hindex : F (sectorOf index) (d (sectorOf index)))
    (hc : Closed F d) (hr : Returns (fs.addToMeta fuel index n META_FILE) (popHeader d) () d₁)
    (contents : List Byte) :
    ∃ free', Effect fs F d (n :: rest) (Function.update d₁ n.toNat (payloadBlock contents)) free' ∧
      Closed F (Function.update d₁ n.toNat (payloadBlock contents)) := by
  have hin := (h.inside n List.mem_cons_self).2
  have hnot : n ∉ rest := h.head_notMem
  have hpop := Effect.pop hF h
  obtain ⟨free', heffect, hclosed⟩ := addToMeta_effect hs hF hin hpop.inv
    (fun b hb => hlo b (List.mem_cons_of_mem n hb)) (hpop.family _ hindex)
    (hc.pop hF h) hr
  have hpayload := payloadBlock_payload contents
  refine ⟨free', (hpop.trans hF h heffect).fill hF h List.mem_cons_self
    (fun hb => hnot (heffect.suffix.subset hb)) (.inr hpayload), hclosed.other ?_
    (hF.not_payload hpayload)⟩
  -- the block is still blank when `initData` writes it
  have hblank : popHeader d n.toNat = d n.toNat :=
    popHeader_of_ne d (h.ne_zero List.mem_cons_self)
  have hnotF : ¬ F n.toNat (popHeader d n.toNat) := by
    rw [hblank]
    exact hF.not_blank h List.mem_cons_self
  have hsame := heffect.kept n.toNat (h.ne_zero List.mem_cons_self) hnotF fun b hb he =>
    hnot (BitVec.eq_of_toNat_eq he ▸ hb)
  rw [hsame]
  exact hnotF

theorem addData_effect (hs : fs.Small) (hF : Family fs META_FILE lo F) (h : FreeInv fs d free)
    (hlo : ∀ b ∈ free, lo ≤ b.toNat) (hindex : F (sectorOf index) (d (sectorOf index)))
    (hc : Closed F d) (hr : Returns (fs.addData fuel index contents) d () d') :
    ∃ free', Effect fs F d free d' free' ∧ Closed F d' := by
  induction fuel generalizing d free contents with
  | zero => exact absurd hr returns_failure
  | succ fuel ih =>
    obtain ⟨n, rest, d₁, rfl, hadd, hr⟩ := addData_step hs h hr
    obtain ⟨free₁, heffect, hclosed⟩ := payload_effect hs hF h hlo hindex hc hadd contents
    rcases hr with ⟨-, rfl⟩ | hr
    · exact ⟨free₁, heffect, hclosed⟩
    · obtain ⟨free', heffect', hclosed'⟩ := ih heffect.inv
        (fun b hb => hlo b (heffect.suffix.subset hb)) (heffect.family _ hindex) hclosed hr
      exact ⟨free', heffect.trans hF h heffect', hclosed'⟩

end AddData

end ClothesFS

end CxxKernel.Clothes
