import CxxKernel.Clothes.DirRun

/-! The listing of a directory: the entries that fit its first block, and what the iterator takes
for an entry behind them. -/
namespace CxxKernel.Clothes
open Fallible Cursor Runs

theorem entryPos_lt_iff {len : ℕ} (h : 16 + len ≤ blocksize - 4) (i : ℕ) :
    entryPos len i < blocksize - 4 ↔ i < capacity len := by
  unfold entryPos capacity
  unfold blocksize at h ⊢
  omega

theorem DirBlock.next_zero_iff {b : Block} {len : ℕ} {es : List Word} (h : DirBlock b len es) :
    word b (blocksize - 4) = 0 ↔ es.length ≤ capacity len := by
  have hfits := h.fits
  rw [h.next]
  unfold entryPos capacity
  unfold blocksize at hfits ⊢
  omega

theorem align_name_toNat {b : Block} {len : ℕ} (hlen : (word b 12).toNat = len)
    (hfits : 16 + len ≤ blocksize - 4) :
    (align (4 + 8 + 4 + dataToNum b (4 + 8) 4)).toNat = entryPos len 0 := by
  have hlen' : (dataToNum b (4 + 8) 4).toNat = len := hlen
  have hsum : (4 + 8 + 4 + dataToNum b (4 + 8) 4).toNat = 16 + len := by
    have h16 : (4 + 8 + 4 : Word).toNat = 16 := rfl
    unfold blocksize at hfits
    rw [BitVec.toNat_add, h16, hlen', Nat.mod_eq_of_lt (by omega)]
  unfold blocksize at hfits
  rw [align_toNat (by omega), hsum]
  rfl

theorem DirBlock.listStart_toNat {b : Block} {len : ℕ} {es : List Word} (h : DirBlock b len es) :
    (listStart b (dataToNum b 2 1)).toNat = entryPos len 0 := by
  rw [listStart, if_pos (.inr h.type), align_name_toNat h.namelen h.fits]

theorem DirBlock.pos_toNat {b : Block} {len : ℕ} {es : List Word} (h : DirBlock b len es)
    {index : Word} {i : ℕ} (hindex : index.toNat = i) (hi : i ≤ capacity len) :
    (4 * index + listStart b (dataToNum b 2 1)).toNat = entryPos len i := by
  have hfits := h.fits
  have hstart := h.listStart_toNat
  have hfour : (4 : Word).toNat = 4 := rfl
  unfold entryPos at hstart ⊢
  unfold capacity at hi
  unfold blocksize at hfits hi
  rw [BitVec.toNat_add, BitVec.toNat_mul, hstart, hindex, hfour]
  omega

namespace ClothesFS

/-- What a listing yields. Behind the first block the iterator reads the first word of the
continuation block, where the block's own tag stands. -/
def listed (fs : ClothesFS) (len : ℕ) (es : List Word) : List Word :=
  es.take (capacity len) ++
    if capacity len < es.length ∧ (tag META_DIR_CONT).toNat < fs.count then [tag META_DIR_CONT]
    else []

section Listing
variable {fs : ClothesFS} {d : Disk} {dir : Word} {len : ℕ} {es : List Word} {it : Iterator}

theorem loadEntry_zero (fs : ClothesFS) (d : Disk) (it : Iterator) {pos : Word} {p : ℕ}
    (hpos : pos.toNat = p) (h : word it.parent p = 0) : (fs.loadEntry d it pos).2 = false := by
  have hblock : dataToNum it.parent pos.toNat 4 = 0 := hpos ▸ h
  rw [loadEntry, if_pos hblock]

theorem loadEntry_of_word (hs : fs.Small) (d : Disk) (it : Iterator) {pos e : Word} {p : ℕ}
    (hpos : pos.toNat = p) (h : word it.parent p = e) (hne : e ≠ 0) (hin : e.toNat < fs.count) :
    fs.loadEntry d it pos = ({ it with block := e, data := d e.toNat }, true) := by
  have hblock : dataToNum it.parent pos.toNat 4 = e := hpos ▸ h
  rw [loadEntry]
  simp only [hblock, if_neg hne, hs.blockAt_eq hin]

theorem loadEntry_outside (it : Iterator) {pos e : Word} {p : ℕ} (hpos : pos.toNat = p)
    (h : word it.parent p = e) (hne : e ≠ 0) (hout : fs.blockAt d e = none) :
    (fs.loadEntry d it pos).2 = false := by
  have hblock : dataToNum it.parent pos.toNat 4 = e := hpos ▸ h
  rw [loadEntry]
  simp only [hblock, if_neg hne, hout]

theorem getCurrent_inside (fs : ClothesFS) (d : Disk) (h : DirBlock it.parent len es) {i : ℕ}
    (hindex : it.index.toNat = i)
    (hi : i < capacity len) :
    ∃ pos : Word, pos.toNat = entryPos len i ∧ fs.getCurrent d it = fs.loadEntry d it pos := by
  have hpos := h.pos_toNat hindex (Nat.le_of_lt hi)
  refine ⟨_, hpos, ?_⟩
  have htype : dataToNum it.parent 2 1 ≠ 0 := by
    rw [h.type]
    decide
  have hlt : ¬ blocksize - 4 ≤ entryPos len i := Nat.not_le.mpr ((entryPos_lt_iff h.fits i).mpr hi)
  rw [getCurrent, if_neg htype]
  simp only [hpos, if_neg hlt]

theorem getCurrent_end (h : DirBlock it.parent len es) (hindex : it.index.toNat = capacity len)
    (hle : es.length ≤ capacity len) : (fs.getCurrent d it).2 = false := by
  have hpos := h.pos_toNat hindex (Nat.le_refl _)
  have htype : dataToNum it.parent 2 1 ≠ 0 := by
    rw [h.type]
    decide
  have hge : blocksize - 4 ≤ entryPos len (capacity len) :=
    Nat.not_lt.mp fun hlt => Nat.lt_irrefl _ ((entryPos_lt_iff h.fits _).mp hlt)
  have hnext : dataToNum it.parent (blocksize - 4) 4 = 0 := h.next_zero_iff.mpr hle
  rw [getCurrent, if_neg htype]
  simp only [hpos, if_pos hge, if_pos hnext]

/-- Behind the first block, the iterator starts at the first byte of the next one. -/
theorem getCurrent_cross (hok : DirOk fs d dir len es)
    (hparent : it.parent = d dir.toNat) (hindex : it.index.toNat = capacity len)
    (hlt : capacity len < es.length) :
    ∃ c, ContBlock META_DIR_CONT fs.count c ∧
      fs.getCurrent d it = fs.loadEntry d { it with parent := c, index := 0 } 0 := by
  have hblock : DirBlock it.parent len es := hparent ▸ hok.block
  have hpos := hblock.pos_toNat hindex (Nat.le_refl _)
  have htype : dataToNum it.parent 2 1 ≠ 0 := by
    rw [hblock.type]
    decide
  have hge : blocksize - 4 ≤ entryPos len (capacity len) :=
    Nat.not_lt.mp fun h => Nat.lt_irrefl _ ((entryPos_lt_iff hblock.fits _).mp h)
  have hnext : word it.parent (blocksize - 4) ≠ 0 := fun h =>
    absurd (hblock.next_zero_iff.mp h) (Nat.not_le.mpr hlt)
  have hcont := hok.next (hparent ▸ hnext)
  rw [← hparent] at hcont
  refine ⟨_, hcont.2, ?_⟩
  have hload : fs.blockAt d (dataToNum it.parent (blocksize - 4) 4) =
      some (d (sectorOf (word it.parent (blocksize - 4)))) := by
    rw [blockAt_eq_some]
    refine ⟨?_, rfl⟩
    have hin := hcont.1
    unfold sectorOf count blocksize at hin
    have hmul : blockPos (word it.parent (blocksize - 4)) % 512 = 0 := by
      have hsize : (BitVec.ofNat 32 blocksize).toNat = 512 := rfl
      rw [blockPos, BitVec.toNat_mul, hsize]
      omega
    unfold blocksize sectorSize at *
    simp only [word] at hin hmul
    omega
  have hnext' : ¬ dataToNum it.parent (blocksize - 4) 4 = 0 := hnext
  rw [getCurrent, if_neg htype]
  simp only [hpos, if_pos hge, if_neg hnext', hload]

theorem getCurrent_cont (it : Iterator) {count : ℕ} (h : ContBlock META_DIR_CONT count it.parent)
    (hindex : it.index = 1) : (fs.getCurrent d it).2 = false := by
  have htype : dataToNum it.parent 2 1 = META_DIR_CONT := (id_of_tag (by decide) h.head).2
  have hne : ¬ META_DIR_CONT = 0 := by decide
  have hstart : 4 * 1 + listStart it.parent META_DIR_CONT = 8 := by
    rw [listStart, if_neg (by decide)]
    rfl
  have hlt : ¬ blocksize - 4 ≤ (8 : Word).toNat := by decide
  rw [getCurrent, htype, if_neg hne]
  simp only [hindex, hstart, if_neg hlt]
  exact loadEntry_zero fs d it rfl h.third

/-- The iterator after `i` rounds over a directory. -/
structure ListAt (fs : ClothesFS) (d : Disk) (dir : Word) (len : ℕ) (es : List Word) (i : ℕ)
    (it : Iterator) : Prop where
  ok : it.ok = decide (i < (fs.listed len es).length)
  block : ∀ x, (fs.listed len es)[i]? = some x → it.block = x
  place : it.ok = true →
    (it.parent = d dir.toNat ∧ it.index.toNat = i ∧ i < capacity len) ∨
      (ContBlock META_DIR_CONT fs.count it.parent ∧ it.index = 0 ∧
        (fs.listed len es).length = i + 1)

theorem listed_get {i : ℕ} (hi : i < capacity len) : (fs.listed len es)[i]? = es[i]? := by
  by_cases hlt : i < es.length
  · have htake : i < (es.take (capacity len)).length := by
      rw [List.length_take]
      omega
    rw [listed, List.getElem?_append_left htake, List.getElem?_take_of_lt hi]
  · have hle : es.length ≤ capacity len := by omega
    rw [listed, if_neg (by omega), List.append_nil, List.getElem?_take_of_lt hi]

theorem length_listed : (fs.listed len es).length =
    if capacity len < es.length ∧ (tag META_DIR_CONT).toNat < fs.count then capacity len + 1
    else min (capacity len) es.length := by
  rw [listed, List.length_append, List.length_take]
  split_ifs with h
  · rw [List.length_singleton]
    omega
  · rfl

theorem listAt_stop {i : ℕ} (hlen : (fs.listed len es).length ≤ i) (hok : it.ok = false) :
    ListAt fs d dir len es i it := by
  refine ⟨?_, fun x hx => ?_, fun h => ?_⟩
  · rw [hok, decide_eq_false (Nat.not_lt.mpr hlen)]
  · rw [List.getElem?_eq_none hlen] at hx
    cases hx
  · rw [hok] at h
    cases h

theorem listAt_inside (hs : fs.Small) (hok : DirOk fs d dir len es) (it : Iterator)
    (hparent : it.parent = d dir.toNat) {i : ℕ} (hindex : it.index.toNat = i)
    (hcap : i < capacity len) :
    ListAt fs d dir len es i { (fs.getCurrent d it).1 with ok := (fs.getCurrent d it).2 } := by
  have hblock : DirBlock it.parent len es := hparent ▸ hok.block
  have hlength : (fs.listed len es).length = _ := length_listed
  obtain ⟨pos, hpos, hcur⟩ := getCurrent_inside fs d hblock hindex hcap
  have hinside := (entryPos_lt_iff hblock.fits i).mpr hcap
  rw [hcur]
  by_cases hlt : i < es.length
  · have hget : es[i]? = some es[i] := List.getElem?_eq_getElem hlt
    have hmem : es[i] ∈ es := List.getElem_mem hlt
    have hword := hblock.entry i _ hget hinside
    rw [loadEntry_of_word hs d it hpos hword (hblock.nonzero _ hmem) (hok.entries _ hmem)]
    have hsome : i < (fs.listed len es).length := by
      rw [hlength]
      split_ifs <;> omega
    refine ⟨?_, fun x hx => ?_, fun _ => .inl ⟨hparent, hindex, hcap⟩⟩
    · rw [decide_eq_true hsome]
    · rw [listed_get hcap, hget] at hx
      exact Option.some.inj hx
  · have hword := hblock.free i (Nat.not_lt.mp hlt) hinside
    apply listAt_stop
    · rw [hlength, if_neg (by omega)]
      omega
    · dsimp only
      rw [loadEntry_zero fs d it hpos hword]

/-- Behind the first block the iterator finds the tag of the continuation block, and takes it for
an entry when there is a block of that number. -/
theorem listAt_cross (hs : fs.Small) (hok : DirOk fs d dir len es) (it : Iterator)
    (hparent : it.parent = d dir.toNat) (hindex : it.index.toNat = capacity len)
    (hlt : capacity len < es.length) :
    ListAt fs d dir len es (capacity len)
      { (fs.getCurrent d it).1 with ok := (fs.getCurrent d it).2 } := by
  have hlength : (fs.listed len es).length = _ := length_listed
  obtain ⟨c, hc, hcur⟩ := getCurrent_cross hok hparent hindex hlt
  have hzero : (0 : Word).toNat = 0 := rfl
  have hne : tag META_DIR_CONT ≠ 0 := by decide
  rw [hcur]
  by_cases hin : (tag META_DIR_CONT).toNat < fs.count
  · rw [if_pos ⟨hlt, hin⟩] at hlength
    have hget : (fs.listed len es)[capacity len]? = some (tag META_DIR_CONT) := by
      rw [listed, if_pos ⟨hlt, hin⟩, List.getElem?_append_right (List.length_take_le _ _),
        List.length_take, Nat.min_eq_left (Nat.le_of_lt hlt), Nat.sub_self]
      rfl
    rw [loadEntry_of_word hs d { it with parent := c, index := 0 } hzero hc.head hne hin]
    refine ⟨?_, fun x hx => ?_, fun _ => .inr ⟨hc, rfl, hlength⟩⟩
    · rw [hlength, decide_eq_true (Nat.lt_succ_self _)]
    · rw [hget] at hx
      exact Option.some.inj hx
  · rw [if_neg fun h => hin h.2] at hlength
    apply listAt_stop (by omega)
    have hout : fs.blockAt d (tag META_DIR_CONT) = none := blockAt_eq_none (by decide) hin
    dsimp only
    rw [loadEntry_outside { it with parent := c, index := 0 } hzero hc.head hne hout]

theorem listAt_getCurrent (hs : fs.Small) (hok : DirOk fs d dir len es) (it : Iterator)
    (hparent : it.parent = d dir.toNat) {i : ℕ} (hindex : it.index.toNat = i)
    (hi : i ≤ capacity len) :
    ListAt fs d dir len es i { (fs.getCurrent d it).1 with ok := (fs.getCurrent d it).2 } := by
  rcases Nat.eq_or_lt_of_le hi with rfl | hcap
  · by_cases hlt : capacity len < es.length
    · exact listAt_cross hs hok it hparent hindex hlt
    · have hlength : (fs.listed len es).length = _ := length_listed
      rw [if_neg fun h => hlt h.1] at hlength
      apply listAt_stop (by omega)
      exact getCurrent_end (hparent ▸ hok.block) hindex (Nat.not_lt.mp hlt)
  · exact listAt_inside hs hok it hparent hindex hcap

theorem ListAt.congr {it' : Iterator} {i : ℕ} (h : ListAt fs d dir len es i it)
    (hok : it'.ok = it.ok) (hblock : it'.block = it.block) (hparent : it'.parent = it.parent)
    (hindex : it'.index = it.index) : ListAt fs d dir len es i it' := by
  refine ⟨hok ▸ h.ok, fun x hx => hblock ▸ h.block x hx, fun ht => ?_⟩
  rw [hparent, hindex]
  exact h.place (hok ▸ ht)

theorem listAt_next (hs : fs.Small) (hok : DirOk fs d dir len es) {i : ℕ}
    (h : ListAt fs d dir len es i it) (hit : it.ok = true) :
    ListAt fs d dir len es (i + 1) (fs.next d it) := by
  rcases h.place hit with ⟨hparent, hindex, hcap⟩ | ⟨hcont, hindex, hlen⟩
  · have hnext : (it.index + 1).toNat = i + 1 := by
      have hone : (1 : Word).toNat = 1 := rfl
      unfold capacity blocksize at hcap
      rw [BitVec.toNat_add, hindex, hone]
      omega
    have hat := listAt_getCurrent hs hok { it with index := it.index + 1 } hparent hnext hcap
    exact hat.congr rfl rfl rfl rfl
  · apply listAt_stop (by omega)
    have hone : it.index + 1 = 1 := by
      rw [hindex]
      rfl
    exact getCurrent_cont { it with index := it.index + 1 } hcont hone

theorem loadEntry_ok (fs : ClothesFS) (d : Disk) (it : Iterator) (pos : Word) :
    (fs.loadEntry d it pos).1.ok = it.ok := by
  unfold loadEntry
  dsimp only
  split
  · rfl
  · split <;> rfl

theorem getCurrent_ok (fs : ClothesFS) (d : Disk) (it : Iterator) :
    (fs.getCurrent d it).1.ok = it.ok := by
  unfold getCurrent
  dsimp only
  split
  · rfl
  · split
    · split
      · rfl
      · split
        · rfl
        · exact loadEntry_ok fs d _ 0
    · exact loadEntry_ok fs d it _

theorem listAt_list (hs : fs.Small) (hok : DirOk fs d dir len es) (hne : dir ≠ 0) :
    ListAt fs d dir len es 0 (fs.list d dir) := by
  have hat : ListAt fs d dir len es 0 _ := listAt_getCurrent hs hok
    ⟨false, dir, 0, 0, 0, 0, d dir.toNat, clearBuffer, clearBuffer⟩ rfl rfl (Nat.zero_le _)
  have hkeep := getCurrent_ok fs d
    ⟨false, dir, 0, 0, 0, 0, d dir.toNat, clearBuffer, clearBuffer⟩
  rw [list, if_neg hne, hs.blockAt_eq hok.inside]
  dsimp only
  split
  · rename_i hfound
    rwa [hfound] at hat
  · rename_i hfound
    refine hat.congr ?_ rfl rfl rfl
    rw [hkeep]
    exact (eq_false_of_ne_true hfound).symm

/-- A listing yields the entries that fit the first block of the directory, and at most one more
block, which need not be an entry. -/
theorem list_yields (hs : fs.Small) (hok : DirOk fs d dir len es) (hne : dir ≠ 0) :
    Yields (fs.visit d) (fs.list d dir) (fs.listed len es) := by
  refine @yields_all _ _ _ _ (ListAt fs d dir len es) _ (fun i it x hat hx => ?_) (fun it hat => ?_)
    (listAt_list hs hok hne)
  · have hlt : i < (fs.listed len es).length := (List.getElem?_eq_some_iff.mp hx).1
    have hit : it.ok = true := by rw [hat.ok, decide_eq_true hlt]
    rw [visit, if_pos hit, hat.block x hx]
    exact ⟨_, rfl, listAt_next hs hok hat hit⟩
  · rw [visit, if_neg]
    rw [hat.ok, decide_eq_false (Nat.lt_irrefl _)]
    decide

end Listing

/-- The iterator over the directory stops on exactly the entries added to it, in this order. -/
def Lists (fs : ClothesFS) (s : DirState) (dir : Word) : Prop :=
  Yields (fs.visit s.disk) (fs.list s.disk dir) (s.entries dir) ∧ (s.entries dir).Nodup

theorem DirInv.header_id {fs : ClothesFS} {s : DirState} (h : DirInv fs s) : dataToNum (s.disk 0) 0 2 = 0 := by
  rcases h.2.2 with ⟨volid, hfresh, -⟩ | ⟨free, htree⟩
  · rw [hfresh.header, Clothes.header_id]
  · exact htree.chain.header_id

theorem DirInv.dir_ne_zero {fs : ClothesFS} {s : DirState} (h : DirInv fs s) {dir : Word}
    (hdir : dir ∈ s.dirs) : dir ≠ 0 := by
  rintro rfl
  have hid : dataToNum (s.disk 0) 0 2 = metadata_id := (h.1 0 hdir).block.id
  rw [h.header_id] at hid
  cases hid

theorem lists_iff {fs : ClothesFS} (hs : fs.Small) {s : DirState}
    (h : Reachable fs.DirStep fs.DirStart s) {dir : Word} (hdir : dir ∈ s.dirs) :
    fs.Lists s dir ↔ (s.entries dir).length ≤ capacity (s.len dir) ∨
      (s.entries dir).length = capacity (s.len dir) + 1 ∧
        (s.entries dir).getLast? = some (tag META_DIR_CONT) := by
  have hinv := dirInv_of_reachable hs h
  have hok := hinv.1 dir hdir
  have hne := hinv.dir_ne_zero hdir
  have hyields := list_yields hs hok hne
  constructor
  · intro hlists
    have heq : fs.listed (s.len dir) (s.entries dir) = s.entries dir := hyields.unique hlists.1
    by_cases hle : (s.entries dir).length ≤ capacity (s.len dir)
    · exact .inl hle
    · have hlt : capacity (s.len dir) < (s.entries dir).length := Nat.not_le.mp hle
      have hlength := congrArg List.length heq
      rw [length_listed] at hlength
      split_ifs at hlength with hin
      · refine .inr ⟨hlength.symm, ?_⟩
        rw [← heq, listed, if_pos hin, List.getLast?_append]
        rfl
      · omega
  · intro hcase
    refine ⟨?_, (hinv.2.1 dir).1⟩
    suffices heq : fs.listed (s.len dir) (s.entries dir) = s.entries dir by rwa [heq] at hyields
    rcases hcase with hle | ⟨hlen, hlast⟩
    · rw [listed, if_neg (by omega), List.append_nil, List.take_of_length_le hle]
    · have hmem : tag META_DIR_CONT ∈ s.entries dir := List.mem_of_getLast? hlast
      obtain ⟨es, hes⟩ := List.getLast?_eq_some_iff.mp hlast
      have hcap : es.length = capacity (s.len dir) := by
        rw [hes, List.length_append, List.length_singleton] at hlen
        omega
      rw [listed, if_pos ⟨by omega, hok.entries _ hmem⟩, hes, ← hcap, List.take_left]

def sixBlocks : ClothesFS := ⟨6 * 512⟩

theorem sixBlocks_small : sixBlocks.Small := by
  change 6 * 512 < 2 ^ 32
  omega

/-- A name that fills its metadata block, so that no entry fits behind it. -/
def longName : CString :=
  ⟨List.replicate 489 0x61, fun h => absurd (List.mem_replicate.mp h).2 (by decide)⟩

theorem longName_length : longName.bytes.length = 489 := List.length_replicate

theorem longName_fits : longName.Fits := by
  have hlen := longName_length
  refine ⟨fun h => ?_, ?_⟩
  · rw [h] at hlen
    cases hlen
  · rw [hlen]
    decide

def dirName : CString := ⟨[0x61], by decide⟩

theorem dirName_fits : dirName.Fits := ⟨by simp [dirName], by decide⟩

def rootOnly : DirState :=
  ⟨(exec (sixBlocks.format none) fun _ => clearBuffer).2, [1], fun _ => 1, fun _ => []⟩

theorem rootOnly_start : sixBlocks.DirStart rootOnly :=
  ⟨⟨none, _, returns_of_fst (by decide +kernel)⟩, rfl, rfl, rfl⟩

/-- A directory with a long name is added to the root, and one to that directory. -/
def longAdded : DirState :=
  ⟨(exec (sixBlocks.addDir 1 1 longName) rootOnly.disk).2, [2, 1],
    Function.update rootOnly.len 2 longName.bytes.length, Function.update rootOnly.entries 1 [2]⟩

theorem longAdded_step : sixBlocks.DirStep rootOnly (.addDir 1 longName) longAdded := by
  have htake : (exec sixBlocks.takeFreeBlock rootOnly.disk).1 = some 2 := by decide +kernel
  have hadd : (exec (sixBlocks.addDir 1 1 longName) rootOnly.disk).1 = some () := by decide +kernel
  exact ⟨List.mem_singleton_self 1, longName_fits, 1, 2, _, returns_of_fst htake,
    returns_of_fst hadd, rfl, rfl, rfl⟩

/-- A directory is added to the one with the long name. -/
def hiddenAdded : DirState :=
  ⟨(exec (sixBlocks.addDir 2 2 dirName) longAdded.disk).2, [3, 2, 1],
    Function.update longAdded.len 3 1, Function.update longAdded.entries 2 [3]⟩

theorem hiddenAdded_step : sixBlocks.DirStep longAdded (.addDir 2 dirName) hiddenAdded := by
  have htake : (exec sixBlocks.takeFreeBlock longAdded.disk).1 = some 3 := by decide +kernel
  have hadd : (exec (sixBlocks.addDir 2 2 dirName) longAdded.disk).1 = some () := by decide +kernel
  have hr : Returns (sixBlocks.addDir 2 2 dirName) longAdded.disk () hiddenAdded.disk := by
    have h := returns_of_fst hadd
    unfold hiddenAdded
    dsimp only
    exact h
  have hdirs : (2 : Word) ∈ longAdded.dirs := List.mem_cons_self
  exact ⟨hdirs, dirName_fits, 2, 3, _, returns_of_fst htake, hr, rfl, rfl, rfl⟩

theorem hiddenAdded_reachable : Reachable sixBlocks.DirStep sixBlocks.DirStart hiddenAdded :=
  ⟨rootOnly, _, rootOnly_start, .cons longAdded_step (.cons hiddenAdded_step (.nil _))⟩

theorem lists_root : sixBlocks.Lists longAdded 1 := by
  have hreach : Reachable sixBlocks.DirStep sixBlocks.DirStart longAdded :=
    ⟨rootOnly, _, rootOnly_start, .cons longAdded_step (.nil _)⟩
  have hdir : (1 : Word) ∈ longAdded.dirs := List.mem_cons_of_mem 2 List.mem_cons_self
  exact (lists_iff sixBlocks_small hreach hdir).mpr (.inl (by decide))

/-- The only entry of a directory with a long name stands in its continuation block, and the
listing does not reach it. -/
theorem not_lists_hidden : Reachable sixBlocks.DirStep sixBlocks.DirStart hiddenAdded ∧
    2 ∈ hiddenAdded.dirs ∧ hiddenAdded.entries 2 = [3] ∧
    Yields (sixBlocks.visit hiddenAdded.disk) (sixBlocks.list hiddenAdded.disk 2) [] ∧
    ¬ sixBlocks.Lists hiddenAdded 2 := by
  have hmem : (2 : Word) ∈ hiddenAdded.dirs := List.mem_cons_of_mem 3 List.mem_cons_self
  have hentries : hiddenAdded.entries 2 = [3] := rfl
  have hlen : hiddenAdded.len 2 = 489 := longName_length
  have hinv := dirInv_of_reachable sixBlocks_small hiddenAdded_reachable
  have hyields := list_yields sixBlocks_small (hinv.1 2 hmem) (by decide)
  have hlisted : sixBlocks.listed (hiddenAdded.len 2) (hiddenAdded.entries 2) = [] := by
    rw [hlen, hentries]
    decide
  rw [hlisted] at hyields
  refine ⟨hiddenAdded_reachable, hmem, hentries, hyields, fun hlists => ?_⟩
  have heq := hyields.unique hlists.1
  rw [hentries] at heq
  cases heq

end ClothesFS

end CxxKernel.Clothes
