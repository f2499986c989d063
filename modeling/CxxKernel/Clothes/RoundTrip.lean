import CxxKernel.Clothes.Listing

/-! A file added to a formatted volume, and what the iterator reads of it. -/
namespace CxxKernel.Clothes
open Fallible Cursor

/-- The metadata block of a file whose bytes before `e` are settled: there is no free entry. -/
structure Settled (m : Block) (len e : ℕ) : Prop where
  id : dataToNum m 0 2 = metadata_id
  type : dataToNum m 2 1 = META_FILE
  namelen : (word m 12).toNat = len
  fits : 16 + len ≤ blocksize - 4
  le : e ≤ blocksize - 4
  mod : e % 4 = 0
  name_le : entryPos len 0 ≤ e
  full : ∀ q, entryPos len 0 - 4 ≤ q → q + 4 ≤ e → q % 4 = 0 → word m q ≠ 0

section Settled
variable {m b : Block} {len e : ℕ} {ptr : Word} {name : CString} {size n : ℕ}

theorem Settled.head_le (h : Settled m len e) : 16 ≤ e := by
  have hle := h.name_le
  unfold entryPos at hle
  omega

theorem Settled.tagged (h : Settled m len e) : Tagged m := by
  refine ⟨h.id, ?_⟩
  rw [h.type]
  decide

theorem Settled.congr (h : Settled m len e) (hsame : ∀ p < e, b p = m p) : Settled b len e := by
  have hhead := h.head_le
  have hword : ∀ q, q + 4 ≤ e → word b q = word m q := fun q hq =>
    word_congr fun i hi => hsame _ (by omega)
  refine ⟨?_, ?_, ?_, h.fits, h.le, h.mod, h.name_le, fun q hq hqe hmod => ?_⟩
  · rw [dataToNum_congr fun i hi => hsame _ (by omega)]
    exact h.id
  · rw [dataToNum_congr fun i hi => hsame _ (by omega)]
    exact h.type
  · rw [hword 12 (by omega)]
    exact h.namelen
  · rw [hword q hqe]
    exact h.full q hq hqe hmod

theorem Settled.freeEntry_ge (h : Settled m len e)
    (hslot : freeEntry m blocksize (addStart m META_FILE) = some ptr) : e ≤ ptr.toNat := by
  obtain ⟨hge, -, hzero, -⟩ := freeEntry_some hslot
  have hmod := (freeEntry_le hslot).1
  have hstart := addStart_toNat (.inl rfl) h.namelen h.fits
  have he := h.mod
  by_contra hlt
  exact h.full ptr.toNat (by omega) (by omega) hmod hzero

theorem settled_named (h : name.Fits) (size : ℕ) :
    Settled (named (freshMeta META_FILE) name size) name.bytes.length
      (entryPos name.bytes.length 0) := by
  have hfits := h.2
  have hstart : 12 ≤ entryPos name.bytes.length 0 - 4 := by
    unfold entryPos
    omega
  refine ⟨named_head (by omega), named_head (by omega), ?_, hfits, ?_, ?_, Nat.le_refl _,
    fun q hq hqe hmod => ?_⟩
  · unfold blocksize at hfits
    rw [word_named_len, BitVec.toNat_ofNat, Nat.mod_eq_of_lt (by omega)]
  · unfold entryPos
    unfold blocksize at hfits ⊢
    omega
  · unfold entryPos
    omega
  · have hlast : q = entryPos name.bytes.length 0 - 4 := by omega
    rw [hlast]
    exact named_last h

theorem Settled.filled (h : Settled m len (entryPos len 0)) {w : Word} (hw : w ≠ 0)
    (hlt : entryPos len 0 < blocksize - 4) :
    Settled (numToData w.toNat m (entryPos len 0) 4) len (entryPos len 0 + 4) := by
  have hhead := h.head_le
  have hmod := h.mod
  refine ⟨?_, ?_, ?_, h.fits, ?_, by omega, Nat.le_add_right _ 4, fun q hq hqe hqmod => ?_⟩
  · rw [dataToNum_numToData_ne (by omega)]
    exact h.id
  · rw [dataToNum_numToData_ne (by omega)]
    exact h.type
  · rw [word_numToData_ne (by omega)]
    exact h.namelen
  · unfold blocksize at hlt ⊢
    omega
  · by_cases hqe' : q = entryPos len 0
    · rw [hqe', word_numToData]
      exact hw
    · rw [word_numToData_ne (by omega)]
      exact h.full q hq (by omega) hqmod

end Settled

namespace ClothesFS

/-- The metadata of a file in block 2, and blocks that continue it. -/
def FileAt (fs : ClothesFS) (m : Block) (e j : ℕ) (b : Block) : Prop :=
  j < fs.count ∧
    (j = 2 ∧ (∀ p < e, b p = m p) ∧
        (word b (blocksize - 4) = 0 ∨ 3 ≤ sectorOf (word b (blocksize - 4))) ∨
      j ≠ 2 ∧ ContBlock META_FILE_CONT fs.count b)

section Writing
variable {fs : ClothesFS} {d d' d₁ : Disk} {m : Block} {len e fuel : ℕ} {rest : List Word}
  {contents : List Byte} {name : CString} {volid : Option CString}

theorem family_fileAt (hs : fs.Small) (hm : Settled m len e) :
    Family fs META_FILE 3 (fs.FileAt m e) where
  tagged j b h := by
    rcases h.2 with ⟨-, hsame, -⟩ | ⟨-, hc⟩
    · exact (hm.congr hsame).tagged
    · obtain ⟨hid, htype⟩ := id_of_tag (by decide) hc.head
      refine ⟨hid, ?_⟩
      rw [htype]
      decide
  entry j b ptr w h hw hslot := by
    refine ⟨h.1, ?_⟩
    have hle := freeEntry_le hslot
    rcases h.2 with ⟨hj, hsame, hnext⟩ | ⟨hj, hc⟩
    · have hge := (hm.congr hsame).freeEntry_ge hslot
      refine .inl ⟨hj, fun p hp => ?_, ?_⟩
      · rw [numToData_of_notMem (by omega)]
        exact hsame p hp
      · rw [word_numToData_ne (by omega)]
        exact hnext
    · exact .inr ⟨hj, hc.filled hs.count_lt (.inl rfl) hw hslot⟩
  next j b n hn hin h := by
    refine ⟨h.1, ?_⟩
    have hle := hm.le
    rcases h.2 with ⟨hj, hsame, hnext⟩ | ⟨hj, hc⟩
    · refine .inl ⟨hj, fun p hp => ?_, ?_⟩
      · rw [numToData_of_notMem (by omega)]
        exact hsame p hp
      · rw [word_numToData, hs.sector_eq hin]
        exact .inr hn
    · exact .inr ⟨hj, hc.linked n.toNat⟩
  cont j hj hcount := ⟨hcount, .inr ⟨by omega, .fresh rfl (by omega)⟩⟩

/-- The metadata of a file stands in block 2, and no block continues it. -/
structure FileStart (fs : ClothesFS) (m : Block) (rest : List Word) (d : Disk) : Prop where
  chain : FreeInv fs d rest
  behind : ∀ b ∈ rest, 3 ≤ b.toNat
  inside : 2 < fs.count
  file : d 2 = m
  alone : ∀ k, k ≠ 0 → k ≠ 2 → k < fs.count → dataToNum (d k) 0 2 = metadata_id →
    dataToNum (d k) 2 1 ≠ META_FILE_CONT

theorem FileStart.fileAt (h : FileStart fs m rest d) (hend : word m (blocksize - 4) = 0) :
    fs.FileAt m e 2 (d 2) :=
  ⟨h.inside, .inl ⟨rfl, fun p _ => by rw [h.file], .inl (by rw [h.file, hend])⟩⟩

theorem FileStart.closed (h : FileStart fs m rest d) (hs : fs.Small) (hm : Settled m len e)
    (hend : word m (blocksize - 4) = 0) : Closed (fs.FileAt m e) d := by
  intro k hk hnext
  have hzero := (family_fileAt hs hm).ne_zero h.chain hk
  rcases hk.2 with ⟨rfl, -⟩ | ⟨hk2, hc⟩
  · rw [h.file, hend] at hnext
    exact absurd rfl hnext
  · obtain ⟨hid, htype⟩ := id_of_tag (by decide) hc.head
    exact absurd htype (h.alone k hzero hk2 hk.1 hid)

theorem freshFree_eq (hthree : 3 ≤ fs.count) :
    fs.freshFree = 2 :: (List.range' 3 (fs.count - 3)).map (BitVec.ofNat 32) := by
  have hsucc : fs.count - 2 = fs.count - 3 + 1 := by omega
  rw [freshFree, hsucc, List.range'_succ]
  rfl

theorem addFile_start (hs : fs.Small) (h : Fresh fs volid d)
    (hr : Returns (fs.addFile fuel 1 name contents) d () d') :
    ∃ rest d₃, FileStart fs (named (freshMeta META_FILE) name contents.length) rest d₃ ∧
      Returns (fs.addData fuel 2 contents) d₃ () d' ∧ Returns fs.takeFreeBlock d 2 (popHeader d) := by
  simp only [addFile, returns_bind, returns_guard] at hr
  obtain ⟨_, _, ⟨-, rfl⟩, b, d₁, htake, _, _, ⟨hne, rfl⟩, _, d₂, hadd, _, d₃, hinit, _, d₄, hupdate,
    hdata⟩ := hr
  have hthree : 3 ≤ fs.count := by
    rcases Nat.eq_or_lt_of_le h.two_le with htwo | hthree
    · exact absurd (h.take_two hs htwo.symm htake) hne
    · exact hthree
  have hchain := h.freeInv hs hthree
  obtain ⟨rest, hfree, rfl, hrest⟩ := hchain.take_cons hs htake hne
  obtain rfl : b = 2 := by
    rw [freshFree_eq hthree] at hfree
    exact (List.cons.inj hfree).1.symm
  have htwo : (2 : Word).toNat = 2 := rfl
  have hin : (2 : Word).toNat < fs.count := hthree
  have hbehind : ∀ c ∈ rest, 3 ≤ c.toNat := by
    intro c hc
    have hge := (hrest.inside c hc).1
    have hnodup := hchain.nodup
    rw [hfree] at hnodup
    have hne2 : c ≠ 2 := fun he => (List.nodup_cons.mp hnodup).1 (he ▸ hc)
    have hnat : c.toNat ≠ 2 := fun he => hne2 (BitVec.eq_of_toNat_eq he)
    omega
  have hroot : DirBlock (popHeader d 1) 1 [] := by
    rw [popHeader_of_ne d Nat.one_ne_zero]
    exact h.rootOk.block
  -- the root directory has room for the entry
  obtain ⟨root, hd₂, hroot₂⟩ : ∃ root, d₂ = Function.update (popHeader d) 1 root ∧
      dataToNum root 2 1 = META_DIR := by
    cases fuel with
    | zero => exact absurd hadd returns_failure
    | succ fuel =>
      have hstep := (addToMeta_step hs hrest hadd).2.2
      have hsector : sectorOf 1 = 1 := rfl
      rw [hsector] at hstep
      rcases hstep with ⟨ptr, hslot, hd₂⟩ | ⟨hslot, -⟩
      · exact ⟨_, hd₂, (hroot.filled (by decide) hslot).type⟩
      · exact absurd (hroot.freeEntry_none hslot) (by decide)
  have hwritten := updateMeta_fresh hs hin hinit hupdate
  rw [htwo, hd₂] at hwritten
  have hnot : ∀ j < 3, ∀ c ∈ rest, c.toNat ≠ j := by
    intro j hj c hc
    have hge := hbehind c hc
    omega
  have hchain₂ : FreeInv fs (Function.update (popHeader d) 1 root) rest :=
    hrest.write Nat.one_ne_zero (hnot 1 (by omega))
  refine ⟨rest, d₄, ⟨?_, hbehind, hthree, ?_, fun k hzero hk hcount _ => ?_⟩, hdata, htake⟩
  · rw [hwritten]
    exact hchain₂.write (by omega) (hnot 2 (by omega))
  · rw [hwritten, Function.update_self]
  · rw [hwritten, Function.update_of_ne hk]
    by_cases hk1 : k = 1
    · rw [hk1, Function.update_self, hroot₂]
      decide
    · rw [Function.update_of_ne hk1, popHeader_of_ne d hzero, h.free k (by omega) hcount,
        freeBlock_type]
      decide

/-- The name fills the metadata block: the payload is entered behind it. -/
theorem addData_behind (hs : fs.Small) (h : FileStart fs m rest d) (hm : Settled m len (blocksize - 4))
    (hend : word m (blocksize - 4) = 0) (hr : Returns (fs.addData fuel 2 contents) d () d') :
    (∀ p < blocksize - 4, d' 2 p = m p) ∧ (word (d' 2) (blocksize - 4) ≠ 0 →
      ContBlock META_FILE_CONT fs.count (d' (sectorOf (word (d' 2) (blocksize - 4))))) := by
  have hfamily := family_fileAt hs hm
  have hsector : sectorOf 2 = 2 := rfl
  have hself : fs.FileAt m (blocksize - 4) (sectorOf 2) (d (sectorOf 2)) := by
    rw [hsector]
    exact h.fileAt hend
  obtain ⟨free', heffect, hclosed⟩ := addData_effect hs hfamily h.chain h.behind hself
    (h.closed hs hm hend) hr
  have hfile := heffect.family 2 (h.fileAt hend)
  obtain ⟨-, hsame, hnext⟩ := hfile.2.resolve_right fun hc => hc.1 rfl
  refine ⟨hsame, fun hne => ?_⟩
  have hcont := hclosed 2 hfile hne
  rcases hcont.2 with ⟨htwo, -⟩ | ⟨-, hc⟩
  · have hge := hnext.resolve_left hne
    omega
  · exact hc

/-- There is room for an entry: the first payload block is entered right behind the name. -/
theorem addToMeta_first (hs : fs.Small) (hchain : FreeInv fs d rest) (hm : d 2 = m)
    (hset : Settled m len (entryPos len 0)) (hlt : entryPos len 0 < blocksize - 4)
    (hzero : word m (entryPos len 0) = 0) {n : Word}
    (hr : Returns (fs.addToMeta fuel 2 n META_FILE) d () d') :
    d' = Function.update d 2 (numToData n.toNat m (entryPos len 0) 4) := by
  have hstart := addStart_toNat (.inl rfl) hset.namelen hset.fits
  have hsector : sectorOf 2 = 2 := rfl
  have hpos : (addStart m META_FILE).toNat + 4 * 1 = entryPos len 0 := by
    have hle := hset.head_le
    omega
  cases fuel with
  | zero => exact absurd hr returns_failure
  | succ fuel =>
    have hstep := (addToMeta_step hs hchain hr).2.2
    rw [hsector, hm] at hstep
    rcases hstep with ⟨ptr, hslot, rfl⟩ | ⟨hslot, -⟩
    · have hge := hset.freeEntry_ge hslot
      obtain ⟨-, -, -, k, hk, hbefore⟩ := freeEntry_some hslot
      have hptr : ptr.toNat = entryPos len 0 := by
        by_contra hne
        have hfull := hbefore 1 (by omega)
        rw [hpos] at hfull
        exact hfull hzero
      rw [hptr]
    · have hfuel : blocksize - 4 ≤ (addStart m META_FILE).toNat + 4 * blocksize := by
        unfold blocksize
        omega
      have hfull := freeEntry_none hslot hfuel 1 (by omega)
      rw [hpos] at hfull
      exact absurd hzero hfull

theorem addData_first (hs : fs.Small) (h : FileStart fs m rest d)
    (hm : Settled m len (entryPos len 0)) (hlt : entryPos len 0 < blocksize - 4)
    (hzero : ∀ p, entryPos len 0 ≤ p → word m p = 0)
    (hr : Returns (fs.addData fuel 2 contents) d () d') :
    (∀ p < entryPos len 0, d' 2 p = m p) ∧ ∃ n : Word, word (d' 2) (entryPos len 0) = n ∧ n ≠ 0 ∧
      n.toNat < fs.count ∧ Payload (d' n.toNat) := by
  cases fuel with
  | zero => exact absurd hr returns_failure
  | succ fuel =>
    obtain ⟨n, rest', d₁, rfl, hadd, hr⟩ := addData_step hs h.chain hr
    have hn := h.behind n List.mem_cons_self
    have hin := (h.chain.inside n List.mem_cons_self).2
    have hne : n ≠ 0 := by
      rintro rfl
      exact absurd hn (by decide)
    have hm₂ : popHeader d 2 = m := by
      rw [popHeader_of_ne d (by omega), h.file]
    have hd₁ := addToMeta_first hs h.chain.pop hm₂ hm hlt (hzero _ (Nat.le_refl _)) hadd
    have hset := hm.filled hne hlt
    have hpayload := payloadBlock_payload contents
    have hn2 : (2 : ℕ) ≠ n.toNat := by omega
    have hend : word (numToData n.toNat m (entryPos len 0) 4) (blocksize - 4) = 0 := by
      have hle := hset.le
      rw [word_numToData_ne (by omega)]
      exact hzero _ (by omega)
    have hbytes : ∀ p < entryPos len 0, numToData n.toNat m (entryPos len 0) 4 p = m p :=
      fun p hp => numToData_of_notMem (.inl hp)
    have hstart : FileStart fs (numToData n.toNat m (entryPos len 0) 4) rest'
        (Function.update d₁ n.toNat (payloadBlock contents)) := by
      refine ⟨?_, fun b hb => h.behind b (List.mem_cons_of_mem n hb), h.inside, ?_,
        fun k hk hk2 hcount hid => ?_⟩
      · rw [hd₁]
        have htwo : ∀ b ∈ rest', b.toNat ≠ 2 := by
          intro b hb
          have hge := h.behind b (List.mem_cons_of_mem n hb)
          omega
        exact (h.chain.pop.write (by omega) htwo).write_taken (by omega) h.chain.head_notMem
      · rw [Function.update_of_ne hn2, hd₁, Function.update_self]
      · by_cases hkn : k = n.toNat
        · rw [hkn, Function.update_self, hpayload.1] at hid
          cases hid
        · rw [Function.update_of_ne hkn, hd₁, Function.update_of_ne hk2, popHeader_of_ne d hk] at hid ⊢
          exact h.alone k hk hk2 hcount hid
    rcases hr with ⟨-, rfl⟩ | hr
    · rw [hstart.file]
      refine ⟨hbytes, n, word_numToData n m _, hne, hin, ?_⟩
      rw [Function.update_self]
      exact hpayload
    · have hfamily := family_fileAt hs hset
      have hfile := hstart.fileAt (e := entryPos len 0 + 4) hend
      have hsector : sectorOf 2 = 2 := rfl
      obtain ⟨free', heffect, -⟩ := addData_effect hs hfamily hstart.chain hstart.behind
        (hsector.symm ▸ hfile) (hstart.closed hs hset hend) hr
      obtain ⟨-, hsame, -⟩ := (heffect.family 2 hfile).2.resolve_right fun hc => hc.1 rfl
      refine ⟨fun p hp => (hsame p (by omega)).trans (hbytes p hp), n, ?_, hne, hin, ?_⟩
      · rw [word_congr fun i hi => hsame _ (by omega)]
        exact word_numToData n m _
      · rw [heffect.kept n.toNat (by omega), Function.update_self]
        · exact hpayload
        · rw [Function.update_self]
          exact hfamily.not_payload hpayload
        · exact fun b hb he => h.chain.head_notMem (BitVec.eq_of_toNat_eq he ▸ hb)

end Writing

/-- The iterator before read `i`, when read `i` asks for `counts i` bytes. -/
def reading (fs : ClothesFS) (d : Disk) (counts : ℕ → ℕ) (it : Iterator) : ℕ → Iterator
  | 0 => it
  | i + 1 => (fs.read d (reading fs d counts it i) (counts i)).1

/-- The bytes that read `i` copies. -/
def readAt (fs : ClothesFS) (d : Disk) (counts : ℕ → ℕ) (it : Iterator) (i : ℕ) : List Byte :=
  (fs.read d (fs.reading d counts it i) (counts i)).2

section Reading
variable {fs : ClothesFS} {d : Disk} {it : Iterator} {len cnt : ℕ} {n : Word} {m : Block}

theorem reading_inv {P : Iterator → Prop} {counts : ℕ → ℕ} (hcounts : ∀ i, 0 < counts i)
    (hstep : ∀ it cnt, 0 < cnt → P it → P (fs.read d it cnt).1) (h : P it) (i : ℕ) :
    P (fs.reading d counts it i) := by
  induction i with
  | zero => exact h
  | succ i ih => exact hstep _ _ (hcounts i) ih

theorem four_zero_add (w : Word) : 4 * 0 + w = w := by
  simp

/-- The iterator opens a payload block, and will open the same one again. -/
structure AtFirst (fs : ClothesFS) (d : Disk) (len : ℕ) (n : Word) (it : Iterator) : Prop where
  type : dataToNum it.data 2 1 = META_FILE
  namelen : (word it.data 12).toNat = len
  first : word it.data (entryPos len 0) = n
  index : it.data_index = 0
  closed : it.pos = 0 → it.data_block = 0

theorem openPayload_first (hs : fs.Small) (hne : n ≠ 0) (hin : n.toNat < fs.count)
    (hp : Payload (d n.toNat)) {pos : Word} {p : ℕ} (hpos : pos.toNat = p)
    (hword : word it.data p = n) :
    fs.openPayload d it pos =
      ({ it with data_block := n, content := d n.toNat, pos := 4 }, true) := by
  have hentry : dataToNum it.data pos.toNat 4 = n := hpos ▸ hword
  rw [openPayload]
  simp only [hentry, if_neg hne, hs.blockAt_eq hin, hp.1, hp.2]
  rfl

theorem copyOut_length (it : Iterator) (cnt : ℕ) :
    (it.copyOut cnt).2.length = min cnt (blocksize - it.pos) := by
  rw [Iterator.copyOut, List.length_map, List.length_range]

theorem read_first (hs : fs.Small) (hfits : 16 + len ≤ blocksize - 4)
    (hlt : entryPos len 0 < blocksize - 4) (hne : n ≠ 0) (hin : n.toNat < fs.count)
    (hp : Payload (d n.toNat)) (h : AtFirst fs d len n it) (hcnt : 0 < cnt) :
    (fs.read d it cnt).2 ≠ [] ∧ AtFirst fs d len n (fs.read d it cnt).1 := by
  have hstart : (4 * it.data_index + readStart it.data (dataToNum it.data 2 1)).toNat =
      entryPos len 0 := by
    rw [h.index, h.type, readStart, if_pos rfl, four_zero_add]
    exact align_name_toNat h.namelen hfits
  have hnonempty : ∀ it' : Iterator, it'.pos < blocksize → (it'.copyOut cnt).2 ≠ [] := by
    intro it' hpos hnil
    have hlen := copyOut_length it' cnt
    rw [hnil, List.length_nil] at hlen
    omega
  rw [read]
  split_ifs with hopen
  · have hend : ¬ blocksize - 4 ≤ entryPos len 0 := Nat.not_le.mpr hlt
    simp only [openPayload_first hs hne hin hp hstart h.first, hstart, if_neg hend, if_true]
    exact ⟨hnonempty _ (by decide : 4 < blocksize), h.type, h.namelen, h.first, h.index,
      fun hz => absurd hz (by simp [Iterator.copyOut])⟩
  · have hpos : it.pos ≠ 0 := fun hz => hopen (.inl ⟨hz, h.closed hz⟩)
    have hle : it.pos < blocksize := Nat.not_le.mp fun hge => hopen (.inr hge)
    refine ⟨hnonempty it hle, h.type, h.namelen, h.first, h.index, fun hz => ?_⟩
    have hsum : it.pos + min cnt (blocksize - it.pos) = 0 := hz
    omega

/-- The iterator has no payload to open. -/
structure AtEnd (fs : ClothesFS) (m : Block) (it : Iterator) : Prop where
  pos : it.pos = 0
  data_block : it.data_block = 0
  index : it.data_index = 0
  data : it.data = m ∨ ContBlock META_FILE_CONT fs.count it.data

theorem openPayload_zero (it : Iterator) {pos : Word} {p : ℕ} (hpos : pos.toNat = p)
    (hword : word it.data p = 0) : fs.openPayload d it pos = ({ it with data_block := 0 }, false) := by
  have hentry : dataToNum it.data pos.toNat 4 = 0 := hpos ▸ hword
  rw [openPayload]
  simp only [hentry, if_pos]

/-- A read behind a metadata block without room for entries: the word that is taken for the first
entry of the continuation block is zero. -/
theorem read_end (htype : dataToNum m 2 1 = META_FILE) (hlen : (word m 12).toNat = len)
    (hfits : 16 + len ≤ blocksize - 4) (hfull : blocksize - 4 ≤ entryPos len 0)
    (hnext : word m (blocksize - 4) ≠ 0 →
      ContBlock META_FILE_CONT fs.count (d (sectorOf (word m (blocksize - 4)))))
    (h : AtEnd fs m it) : (fs.read d it cnt).2 = [] ∧ AtEnd fs m (fs.read d it cnt).1 := by
  rw [read, if_pos (.inl ⟨h.pos, h.data_block⟩), h.index, four_zero_add]
  rcases h.data with hdata | hcont
  · have hstart : (readStart it.data (dataToNum it.data 2 1)).toNat = entryPos len 0 := by
      rw [hdata, htype, readStart, if_pos rfl]
      exact align_name_toNat hlen hfits
    simp only [hstart, if_pos hfull]
    split
    · exact ⟨rfl, h⟩
    · rename_i hne
      have hne' : word m (blocksize - 4) ≠ 0 := hdata ▸ hne
      split
      · exact ⟨rfl, h⟩
      · rename_i data hload
        obtain ⟨-, hblock⟩ := blockAt_eq_some.mp hload
        have hcont : ContBlock META_FILE_CONT fs.count data := by
          have hc := hnext hne'
          rw [← hdata] at hc
          exact hblock ▸ hc
        have hpos : (4 : Word).toNat = 4 := rfl
        rw [openPayload_zero { it with data, data_index := 0 } hpos hcont.second]
        exact ⟨rfl, h.pos, rfl, rfl, .inr hcont⟩
  · have htype' : dataToNum it.data 2 1 = META_FILE_CONT := (id_of_tag (by decide) hcont.head).2
    have hstart : readStart it.data META_FILE_CONT = 4 := by
      rw [readStart, if_neg (by decide)]
    have hpos : (4 : Word).toNat = 4 := rfl
    have hlt : ¬ blocksize - 4 ≤ (4 : Word).toNat := by decide
    simp only [htype', hstart, if_neg hlt, openPayload_zero it hpos hcont.second]
    exact ⟨rfl, h.pos, rfl, h.index, .inr hcont⟩

theorem list_first (hs : fs.Small) {dir e : Word} {es : List Word}
    (hok : DirOk fs d dir len (e :: es)) (hne : dir ≠ 0) (hcap : 0 < capacity len) :
    fs.list d dir = ⟨true, e, 0, 0, 0, 0, d dir.toNat, d e.toNat, clearBuffer⟩ := by
  let it : Iterator := ⟨false, dir, 0, 0, 0, 0, d dir.toNat, clearBuffer, clearBuffer⟩
  have hblock : DirBlock it.parent len (e :: es) := hok.block
  have hindex : it.index.toNat = 0 := rfl
  obtain ⟨pos, hpos, hcur⟩ := getCurrent_inside fs d hblock hindex hcap
  have hword := hblock.entry 0 e rfl ((entryPos_lt_iff hblock.fits 0).mpr hcap)
  have hload := loadEntry_of_word hs d it hpos hword (hblock.nonzero e List.mem_cons_self)
    (hok.entries e List.mem_cons_self)
  have hgot : fs.getCurrent d ⟨false, dir, 0, 0, 0, 0, d dir.toNat, clearBuffer, clearBuffer⟩ = _ :=
    hcur.trans hload
  rw [list, if_neg hne, hs.blockAt_eq hok.inside]
  dsimp only
  rw [hgot]
  rfl

/-- The iterator reports the name that was written. -/
theorem name_eq {name : CString} {size : ℕ} (hname : name.Fits)
    (hsame : ∀ p < entryPos name.bytes.length 0,
      it.data p = named (freshMeta META_FILE) name size p) : it.name = name.bytes := by
  have hfits := hname.2
  unfold blocksize at hfits
  apply name_of_named (by omega)
  intro p hp
  apply hsame
  unfold entryPos
  omega

theorem size_eq_zero {name : CString} {e : ℕ} (he : 16 ≤ e)
    (hsame : ∀ p < e, it.data p = named (freshMeta META_FILE) name 0 p) : it.size = 0 := by
  have hzero : ∀ i < 8, it.data (4 + i) = clearBuffer (4 + i) := by
    intro i hi
    rw [hsame _ (by omega), named, numToData_of_notMem (by omega), copyTo_of_notMem (by omega),
      numToData_apply, if_pos (by omega), Nat.zero_shiftRight]
    rfl
  rw [Iterator.size, dataToNum_congr hzero]
  rfl

end Reading

/-- The iterator over the root directory stands on the file: it reports its name and its size, and
repeated reads yield its contents, and then nothing. -/
structure RoundTrip (fs : ClothesFS) (d : Disk) (name : CString) (contents : List Byte) : Prop where
  ok : (fs.list d 1).ok = true
  name : (fs.list d 1).name = name.bytes
  size : (fs.list d 1).size.toNat = contents.length
  reads : ∀ counts : ℕ → ℕ, (∀ i, 0 < counts i) →
    ∃ n, (List.range n).flatMap (fs.readAt d counts (fs.list d 1)) = contents ∧
      ∀ i, n ≤ i → fs.readAt d counts (fs.list d 1) i = []

/-- The reads never end while the metadata block has an entry: every one opens the same block. -/
theorem not_roundTrip_first {fs : ClothesFS} (hs : fs.Small) {d : Disk} {name : CString}
    {contents : List Byte} {len : ℕ} {n : Word} (hfits : 16 + len ≤ blocksize - 4)
    (hlt : entryPos len 0 < blocksize - 4) (hne : n ≠ 0) (hin : n.toNat < fs.count)
    (hp : Payload (d n.toNat)) (hat : fs.AtFirst d len n (fs.list d 1)) :
    ¬ fs.RoundTrip d name contents := by
  intro h
  have hcounts : ∀ _ : ℕ, 0 < 1 := fun _ => Nat.one_pos
  have hread : ∀ it cnt, 0 < cnt → fs.AtFirst d len n it →
      (fs.read d it cnt).2 ≠ [] ∧ fs.AtFirst d len n (fs.read d it cnt).1 :=
    fun it cnt hcnt h => read_first hs hfits hlt hne hin hp h hcnt
  obtain ⟨k, -, hnil⟩ := h.reads (fun _ => 1) hcounts
  have hkeep := reading_inv hcounts (fun it cnt hcnt h => (hread it cnt hcnt h).2) hat k
  exact (hread _ 1 Nat.one_pos hkeep).1 (hnil k (Nat.le_refl k))

theorem roundTrip_end {fs : ClothesFS} {d : Disk} {name : CString} (hname : name.Fits)
    {contents : List Byte} (hend : entryPos name.bytes.length 0 = blocksize - 4)
    (hm : Settled (named (freshMeta META_FILE) name contents.length) name.bytes.length (blocksize - 4))
    (hsame : ∀ p < blocksize - 4, d 2 p = named (freshMeta META_FILE) name contents.length p)
    (hnext : word (d 2) (blocksize - 4) ≠ 0 →
      ContBlock META_FILE_CONT fs.count (d (sectorOf (word (d 2) (blocksize - 4)))))
    (hlist : fs.list d 1 = ⟨true, 2, 0, 0, 0, 0, d 1, d 2, clearBuffer⟩) :
    fs.RoundTrip d name contents ↔ contents = [] := by
  have hsettled := hm.congr hsame
  have hat : fs.AtEnd (d 2) (fs.list d 1) := by
    rw [hlist]
    exact ⟨rfl, rfl, rfl, .inl rfl⟩
  have hread : ∀ it cnt, fs.AtEnd (d 2) it →
      (fs.read d it cnt).2 = [] ∧ fs.AtEnd (d 2) (fs.read d it cnt).1 :=
    fun it cnt h => read_end hsettled.type hsettled.namelen hname.2 (Nat.le_of_eq hend.symm) hnext h
  have hnil : ∀ counts, (∀ i, 0 < counts i) → ∀ i, fs.readAt d counts (fs.list d 1) i = [] :=
    fun counts hcounts i =>
      (hread _ _ (reading_inv hcounts (fun it cnt _ h => (hread it cnt h).2) hat i)).1
  constructor
  · intro h
    have hcounts : ∀ _ : ℕ, 0 < 1 := fun _ => Nat.one_pos
    obtain ⟨k, hcontents, -⟩ := h.reads (fun _ => 1) hcounts
    rw [← hcontents, List.flatMap_eq_nil_iff]
    exact fun i _ => hnil _ hcounts i
  · rintro rfl
    refine ⟨by rw [hlist], ?_, ?_, fun counts hcounts => ⟨0, rfl, fun i _ => hnil counts hcounts i⟩⟩
    · apply name_eq hname
      rw [hlist, hend]
      exact hsame
    · rw [size_eq_zero hm.head_le (by rw [hlist]; exact hsame)]
      rfl

/-- Only an empty file whose name fills the metadata block is read as it was written. -/
theorem roundTrip_iff {fs : ClothesFS} (hs : fs.Small) {volid : Option CString} {d₀ d d' : Disk}
    (hformat : Returns (fs.format volid) d₀ () d) {name : CString} (hname : name.Fits) {fuel : ℕ}
    {contents : List Byte} (hadd : Returns (fs.addFile fuel 1 name contents) d () d') :
    fs.RoundTrip d' name contents ↔ contents = [] ∧ 489 ≤ name.bytes.length := by
  have hfresh := fresh_of_format hs hformat
  obtain ⟨rest, d₃, hstart, hdata, htake⟩ := addFile_start hs hfresh hadd
  have hset := settled_named hname contents.length
  have hfits := hname.2
  have hzero : ∀ p, entryPos name.bytes.length 0 ≤ p →
      word (named (freshMeta META_FILE) name contents.length) p = 0 := by
    intro p hp
    apply word_named_of_ge
    unfold entryPos at hp
    omega
  obtain ⟨free', htree, -⟩ := addFile_tree hs (hfresh.tree hs hstart.inside)
    (List.mem_singleton_self 1) hname htake hadd
  have hlist := list_first hs (htree.dir 1 (List.mem_singleton_self 1)) (by decide) (by decide)
  have hone : (1 : Word).toNat = 1 := rfl
  have htwo : (2 : Word).toNat = 2 := rfl
  rw [hone, htwo] at hlist
  by_cases hlt : entryPos name.bytes.length 0 < blocksize - 4
  · obtain ⟨hsame, n, hfirst, hne, hin, hp⟩ := addData_first hs hstart hset hlt hzero hdata
    have hsettled := hset.congr hsame
    have hat : fs.AtFirst d' name.bytes.length n (fs.list d' 1) := by
      rw [hlist]
      exact ⟨hsettled.type, hsettled.namelen, hfirst, rfl, fun _ => rfl⟩
    constructor
    · exact fun h => absurd h (not_roundTrip_first hs hfits hlt hne hin hp hat)
    · rintro ⟨-, hlong⟩
      unfold entryPos blocksize at hlt
      omega
  · have hend : entryPos name.bytes.length 0 = blocksize - 4 :=
      Nat.le_antisymm hset.le (Nat.not_lt.mp hlt)
    have hlong : 489 ≤ name.bytes.length := by
      unfold entryPos blocksize at hlt
      omega
    rw [hend] at hset hzero
    obtain ⟨hsame, hnext⟩ := addData_behind hs hstart hset (hzero _ (Nat.le_refl _)) hdata
    rw [roundTrip_end hname hend hset hsame hnext hlist]
    exact ⟨fun hempty => ⟨hempty, hlong⟩, And.left⟩

theorem roundTrip_longName : sixBlocks.RoundTrip
    (exec (sixBlocks.addFile 3 1 longName []) rootOnly.disk).2 longName [] := by
  obtain ⟨⟨volid, d, hformat⟩, -⟩ := rootOnly_start
  have hadd : (exec (sixBlocks.addFile 3 1 longName []) rootOnly.disk).1 = some () := by
    decide +kernel
  have hlong : 489 ≤ longName.bytes.length := Nat.le_of_eq longName_length.symm
  exact (roundTrip_iff sixBlocks_small hformat longName_fits (returns_of_fst hadd)).mpr ⟨rfl, hlong⟩

def fileAdded : Disk := (exec (sixBlocks.addFile 2 1 dirName [0x78]) rootOnly.disk).2

/-- A read copies the whole payload block, whatever the size of the file. -/
theorem not_roundTrip : Returns (sixBlocks.addFile 2 1 dirName [0x78]) rootOnly.disk () fileAdded ∧
    (sixBlocks.list fileAdded 1).size = 1 ∧
    (sixBlocks.readAt fileAdded (fun _ => 512) (sixBlocks.list fileAdded 1) 0).length = 508 ∧
    ¬ sixBlocks.RoundTrip fileAdded dirName [0x78] := by
  have hadd : (exec (sixBlocks.addFile 2 1 dirName [0x78]) rootOnly.disk).1 = some () := by
    decide +kernel
  have hsize : (sixBlocks.list fileAdded 1).size = 1 := by decide +kernel
  have hlen : (sixBlocks.readAt fileAdded (fun _ => 512) (sixBlocks.list fileAdded 1) 0).length =
      508 := by
    decide +kernel
  refine ⟨returns_of_fst hadd, hsize, hlen, fun h => ?_⟩
  obtain ⟨n, hcontents, -⟩ := h.reads (fun _ => 512) fun _ => by decide
  cases n with
  | zero => cases hcontents
  | succ n =>
    have hlength := congrArg List.length hcontents
    rw [List.range_succ_eq_map, List.flatMap_cons, List.length_append, hlen, List.length_singleton]
      at hlength
    omega

end ClothesFS

end CxxKernel.Clothes
