import CxxKernel.Fs.HostileWalk

/-! `Ustar::Iterator::read`: any number of reads deliver the data of the entry, one part after the other. -/
namespace CxxKernel.Fs
open Cursor Runs

namespace Ustar

/-- The next byte of the data, and the iterator behind it. -/
def peek (fs : Ustar) (it : Iterator) : Option (Byte × Iterator) :=
  if it.data_index.setWidth 64 < it.size ∧ it.data_block + it.data_index / blockSize < it.end_block then
    (fs.getBlock (it.data_block + it.data_index / blockSize)).map fun content =>
      (content (it.data_index % blockSize).toNat, { it with data_index := it.data_index + 1 })
  else none

section Bytes
variable {fs : Ustar} {it : Iterator} {cnt : BitVec 64} {content : Buffer}

theorem toNat_ite_lt {w : ℕ} (a b x y : BitVec w) :
    (if a < b then x else y).toNat = if a.toNat < b.toNat then x.toNat else y.toNat := by
  by_cases h : a < b
  · rw [if_pos h, if_pos (BitVec.lt_def.mp h)]
  · rw [if_neg h, if_neg (mt BitVec.lt_def.mpr h)]

theorem toNat_bcnt (cnt : BitVec 64) (hend : it.data_index.toNat < it.size.toNat) : (it.bcnt cnt).toNat =
    min (min (min cnt.toNat 512) (512 - it.data_index.toNat % 512)) (it.size.toNat - it.data_index.toNat) := by
  have hbs : (blockSize.setWidth 64).toNat = 512 := rfl
  have hbs' : blockSize.toNat = 512 := rfl
  have hoffset : (it.data_index % blockSize).toNat = it.data_index.toNat % 512 := by
    rw [BitVec.toNat_umod, hbs']
  have hindex : (it.data_index.setWidth 64).toNat = it.data_index.toNat := by
    rw [BitVec.toNat_setWidth]
    omega
  unfold Iterator.bcnt
  dsimp only
  generalize hfirst : (if blockSize.setWidth 64 < cnt then blockSize.setWidth 64 else cnt) = first
  have hfirst' : first.toNat = min cnt.toNat 512 := by
    rw [← hfirst, toNat_ite_lt, hbs]
    split_ifs <;> omega
  generalize hsecond : (if blockSize.setWidth 64 < (it.data_index % blockSize).setWidth 64 + first then
    (blockSize - it.data_index % blockSize).setWidth 64 else first) = second
  have hsecond' : second.toNat = min first.toNat (512 - it.data_index.toNat % 512) := by
    rw [← hsecond, toNat_ite_lt, hbs, BitVec.toNat_add, BitVec.toNat_setWidth, BitVec.toNat_setWidth,
      BitVec.toNat_sub, hoffset, hbs']
    split_ifs <;> omega
  have hsum : (it.data_index.toNat + second.toNat) % 2 ^ 64 = it.data_index.toNat + second.toNat := by
    refine Nat.mod_eq_of_lt ?_
    omega
  rw [← hfirst', ← hsecond', toNat_ite_lt, BitVec.toNat_add, BitVec.toNat_sub, hindex]
  clear hfirst' hsecond'
  split_ifs <;> omega

/-- A round copies at least a byte, no more than the count, and nothing behind the block or the file. -/
theorem bcnt_spec (hcnt : 0 < cnt.toNat) (hend : it.data_index.toNat < it.size.toNat) :
    0 < (it.bcnt cnt).toNat ∧ (it.bcnt cnt).toNat ≤ cnt.toNat ∧
      it.data_index.toNat % 512 + (it.bcnt cnt).toNat ≤ 512 ∧
      it.data_index.toNat + (it.bcnt cnt).toNat ≤ it.size.toNat := by
  rw [toNat_bcnt cnt hend]
  omega

theorem take_block {n : ℕ} (hroom : it.data_index.toNat % 512 + n ≤ 512)
    (hend : it.data_index.toNat + n ≤ it.size.toNat)
    (hblock : it.data_block + it.data_index / blockSize < it.end_block)
    (hload : fs.getBlock (it.data_block + it.data_index / blockSize) = some content) :
    take fs.peek n it = (field content (it.data_index % blockSize).toNat n,
      { it with data_index := it.data_index + BitVec.ofNat 32 n }) := by
  have hbs : blockSize.toNat = 512 := rfl
  have hone : (1 : Word).toNat = 1 := rfl
  induction n generalizing it with
  | zero => simp [field]
  | succ n ih =>
    have hlt : it.data_index.setWidth 64 < it.size := by
      rw [BitVec.lt_def, BitVec.toNat_setWidth]
      omega
    have hpeek : fs.peek it = some (content (it.data_index % blockSize).toNat,
        { it with data_index := it.data_index + 1 }) := by
      rw [peek, if_pos ⟨hlt, hblock⟩, hload]
      rfl
    rw [take_item hpeek, field_succ]
    cases n with
    | zero => simp [field]
    | succ n =>
      have hnext : (it.data_index + 1).toNat = it.data_index.toNat + 1 := by
        rw [BitVec.toNat_add, hone]
        omega
      have hsame : (it.data_index + 1) / blockSize = it.data_index / blockSize := by
        apply BitVec.eq_of_toNat_eq
        rw [BitVec.toNat_udiv, BitVec.toNat_udiv, hnext, hbs]
        omega
      have hoffset : ((it.data_index + 1) % blockSize).toNat = (it.data_index % blockSize).toNat + 1 := by
        rw [BitVec.toNat_umod, BitVec.toNat_umod, hnext, hbs]
        omega
      have hsum : it.data_index + 1 + BitVec.ofNat 32 (n + 1) = it.data_index + BitVec.ofNat 32 (n + 1 + 1) := by
        rw [BitVec.add_assoc, BitVec.add_comm 1, BitVec.ofNat_add (n + 1) 1]
        rfl
      have hrest := @ih { it with data_index := it.data_index + 1 } (by dsimp only; omega) (by dsimp only; omega)
        (by dsimp only; rw [hsame]; exact hblock) (by dsimp only; rw [hsame]; exact hload)
      rw [hrest]
      dsimp only
      rw [hoffset, hsum]

theorem exists_of_peek (h : fs.peek it ≠ none) : it.data_index.toNat < it.size.toNat ∧
    it.data_block + it.data_index / blockSize < it.end_block ∧
    ∃ content, fs.getBlock (it.data_block + it.data_index / blockSize) = some content := by
  rw [peek] at h
  split_ifs at h with hgo
  · obtain ⟨hlt, hblock⟩ := hgo
    rw [BitVec.lt_def, BitVec.toNat_setWidth, Nat.mod_eq_of_lt (by omega)] at hlt
    rw [ne_eq, Option.map_eq_none_iff] at h
    exact ⟨hlt, hblock, Option.ne_none_iff_exists'.mp h⟩
  · exact absurd rfl h

theorem readLoop_stop {fuel : ℕ} {readcnt : Word} (h : fs.peek it = none) :
    fs.readLoop it.end_block fuel cnt readcnt it = (readcnt, [], it) := by
  cases fuel with
  | zero => rfl
  | succ fuel =>
    rw [readLoop]
    split_ifs with hgo
    · dsimp only
      split_ifs with hblock
      · rfl
      · rw [peek, if_pos ⟨hgo.2, BitVec.not_le.mp hblock⟩, Option.map_eq_none_iff] at h
        rw [h]
    · rfl

theorem readLoop_round {fuel : ℕ} {readcnt : Word} (hcnt : 0 < cnt.toNat) (hend : it.data_index.toNat < it.size.toNat)
    (hblock : it.data_block + it.data_index / blockSize < it.end_block)
    (hload : fs.getBlock (it.data_block + it.data_index / blockSize) = some content) :
    fs.readLoop it.end_block (fuel + 1) cnt readcnt it =
      let part := field content (it.data_index % blockSize).toNat (it.bcnt cnt).toNat
      let r := fs.readLoop it.end_block fuel (cnt - it.bcnt cnt) (readcnt + (it.bcnt cnt).setWidth 32)
        { it with data_index := it.data_index + (it.bcnt cnt).setWidth 32 }
      (r.1, part ++ r.2.1, r.2.2) := by
  have hindex : it.data_index.setWidth 64 < it.size := by
    rw [BitVec.lt_def, BitVec.toNat_setWidth]
    omega
  have hpos : 0 < cnt := hcnt
  rw [readLoop, if_pos ⟨hpos, hindex⟩]
  dsimp only
  rw [if_neg (BitVec.not_le.mpr hblock), hload]

/-- The rounds of `read` deliver what the bytes one after another do. -/
theorem readLoop_eq {fuel : ℕ} {readcnt : Word} (hfuel : cnt.toNat ≤ fuel) :
    fs.readLoop it.end_block fuel cnt readcnt it =
      (readcnt + BitVec.ofNat 32 (take fs.peek cnt.toNat it).1.length, take fs.peek cnt.toNat it) := by
  induction fuel generalizing cnt readcnt it with
  | zero =>
    rw [Nat.le_zero.mp hfuel]
    simp [readLoop]
  | succ fuel ih =>
    by_cases hzero : cnt.toNat = 0
    · have hcnt : ¬ (0 < cnt ∧ it.data_index.setWidth 64 < it.size) := by
        rintro ⟨hpos, -⟩
        exact absurd hzero (Nat.ne_of_gt hpos)
      rw [readLoop, if_neg hcnt, hzero]
      simp
    by_cases hpeek : fs.peek it = none
    · rw [readLoop_stop hpeek, take_stop hpeek]
      simp
    obtain ⟨hend, hblock, content, hload⟩ := exists_of_peek hpeek
    obtain ⟨hpos, hle, hroom, hend'⟩ := bcnt_spec (Nat.pos_of_ne_zero hzero) hend
    have hpart := take_block hroom hend' hblock hload
    rw [BitVec.ofNat_toNat] at hpart
    have hleft : (cnt - it.bcnt cnt).toNat = cnt.toNat - (it.bcnt cnt).toNat := BitVec.toNat_sub_of_le hle
    have hsplit := take_add fs.peek (it.bcnt cnt).toNat (cnt - it.bcnt cnt).toNat it
    rw [hleft, Nat.add_sub_cancel' hle, hpart] at hsplit
    have hsame : ({ it with data_index := it.data_index + (it.bcnt cnt).setWidth 32 } : Iterator).end_block =
        it.end_block := rfl
    have hrest := @ih { it with data_index := it.data_index + (it.bcnt cnt).setWidth 32 } (cnt - it.bcnt cnt)
      (readcnt + (it.bcnt cnt).setWidth 32) (by omega)
    rw [hsame] at hrest
    rw [readLoop_round (Nat.pos_of_ne_zero hzero) hend hblock hload, hrest, hsplit, hleft]
    dsimp only
    rw [List.length_append, length_field, BitVec.ofNat_add, BitVec.add_assoc, BitVec.ofNat_toNat]

/-- `read` takes bytes up to the count. -/
theorem read_eq (it : Iterator) (cnt : BitVec 64) : fs.read it cnt =
    (BitVec.ofNat 32 (take fs.peek cnt.toNat it).1.length, take fs.peek cnt.toNat it) := by
  rw [read, readLoop_eq (Nat.le_refl _)]
  simp

end Bytes

/-- A call of `read`: the count, what it returns, and what is in the buffer then. -/
structure ReadCall where
  count : BitVec 64
  ret : Word
  bytes : List Byte

def ReadStep (fs : Ustar) (it : Iterator) (c : ReadCall) (it' : Iterator) : Prop :=
  fs.read it c.count = (c.ret, c.bytes, it')

/-- The calls deliver the first bytes of the data, as many as were asked for: each returns its count or
the bytes that are left. -/
structure Delivers (data : List Byte) (calls : List ReadCall) : Prop where
  bytes : (calls.map ReadCall.bytes).flatten = data.take (calls.map fun c => c.count.toNat).sum
  returns : ∀ pre c post, calls = pre ++ c :: post →
    c.bytes.length = min c.count.toNat (data.length - (pre.map fun c => c.count.toNat).sum) ∧
      c.ret.toInt = c.bytes.length

/-- The bytes that the call gets are less than 2 GiB, and end below 4 GiB. -/
def ReadsLow (e : Entry) (it : Iterator) (c : ReadCall) (_ : Iterator) : Prop :=
  let cnt := min c.count.toNat (e.size - it.data_index.toNat)
  cnt < 2 ^ 31 ∧ (0 < cnt → 512 * (e.block + 1) + it.data_index.toNat + cnt ≤ 2 ^ 32)

section Deliver
variable {fs : Ustar} {it it' : Iterator} {content : ℕ → Byte} {e : Entry} {data : List Byte} {c : ReadCall}
  {calls : List ReadCall} {n : ℕ}

theorem take_field (data : Buffer) (start len n : ℕ) :
    (field data start len).take n = field data start (min n len) := by
  rw [field, field, ← List.map_take, List.take_range]

theorem drop_field (data : Buffer) (start len n : ℕ) :
    (field data start len).drop n = field data (start + n) (len - n) := by
  apply List.ext_getElem
  · rw [List.length_drop, length_field, length_field]
  · intro i h _
    rw [List.length_drop, length_field] at h
    simp [field, Nat.add_assoc]

theorem Delivers.nil (data : List Byte) : Delivers data [] :=
  ⟨rfl, fun pre c post h => absurd h (by simp)⟩

theorem Delivers.cons (hbytes : c.bytes = data.take c.count.toNat) (hret : c.ret.toInt = c.bytes.length)
    (h : Delivers (data.drop c.count.toNat) calls) : Delivers data (c :: calls) := by
  constructor
  · rw [List.map_cons, List.flatten_cons, h.bytes, hbytes, List.map_cons, List.sum_cons, List.take_add]
  · intro pre d post hsplit
    cases pre with
    | nil =>
      obtain ⟨rfl, rfl⟩ := List.cons.inj hsplit
      refine ⟨?_, hret⟩
      rw [hbytes, List.length_take]
      rfl
    | cons d' pre =>
      obtain ⟨rfl, hrest⟩ := List.cons.inj hsplit
      have hreturns := h.returns pre d post hrest
      rw [List.length_drop, Nat.sub_sub] at hreturns
      exact hreturns

theorem peek_entry (hreads : fs.phys.Reads content) (hdata : 512 * e.behind ≤ fs.phys.size) (he : e.size < 2 ^ 32)
    (h : StandsOn it e) (hindex : it.data_index.toNat < e.size)
    (hlow : 512 * (e.block + 1) + it.data_index.toNat < 2 ^ 32) :
    fs.peek it = some (content (512 * (e.block + 1) + it.data_index.toNat),
      { it with data_index := it.data_index + 1 }) := by
  have hbs : blockSize.toNat = 512 := rfl
  have hbehind : e.behind = e.block + 1 + (e.size + 511) / 512 := rfl
  have hsize := h.size
  have hblock := h.block
  have hw : (it.data_block + it.data_index / blockSize).toNat = e.block + 1 + it.data_index.toNat / 512 := by
    rw [BitVec.toNat_add, BitVec.toNat_udiv, hbs, h.data_block]
    omega
  have hend : it.end_block.toNat = e.behind := by
    have hnat : it.end_block.toNat = it.behind := toNat_next_block_of_lt (by omega) (by omega)
    rw [hnat, Iterator.behind, hblock, hsize, hbehind]
  have hlt : it.data_index.setWidth 64 < it.size := by
    rw [BitVec.lt_def, BitVec.toNat_setWidth]
    omega
  have hinside : it.data_block + it.data_index / blockSize < it.end_block := by
    rw [BitVec.lt_def, hw, hend]
    omega
  have hpos : ((it.data_block + it.data_index / blockSize) * blockSize).toNat =
      512 * (e.block + 1 + it.data_index.toNat / 512) := by
    rw [toNat_blockPos, hw]
    omega
  obtain ⟨b, hread, hbytes⟩ := hreads (512 * (e.block + 1 + it.data_index.toNat / 512)) (by omega)
  have hoffset : (it.data_index % blockSize).toNat = it.data_index.toNat % 512 := by
    rw [BitVec.toNat_umod, hbs]
  have hplace : 512 * (e.block + 1 + it.data_index.toNat / 512) + it.data_index.toNat % 512 =
      512 * (e.block + 1) + it.data_index.toNat := by
    omega
  rw [peek, if_pos ⟨hlt, hinside⟩, getBlock, hpos, hread, Option.map_some, hoffset,
    hbytes _ (Nat.mod_lt _ (by decide)), hplace]

theorem take_entry (hreads : fs.phys.Reads content) (hdata : 512 * e.behind ≤ fs.phys.size) (he : e.size < 2 ^ 32)
    (h : StandsOn it e) (hindex : it.data_index.toNat + n ≤ e.size)
    (hlow : 0 < n → 512 * (e.block + 1) + it.data_index.toNat + n ≤ 2 ^ 32) :
    take fs.peek n it = (field content (512 * (e.block + 1) + it.data_index.toNat) n,
      { it with data_index := it.data_index + BitVec.ofNat 32 n }) := by
  have hone : (1 : Word).toNat = 1 := rfl
  induction n generalizing it with
  | zero => simp [field]
  | succ n ih =>
    have hpeek := peek_entry hreads hdata he h (by omega) (by omega)
    have hnext : (it.data_index + 1).toNat = it.data_index.toNat + 1 := by
      rw [BitVec.toNat_add, hone]
      omega
    have hsum : it.data_index + 1 + BitVec.ofNat 32 n = it.data_index + BitVec.ofNat 32 (n + 1) := by
      rw [BitVec.add_assoc, BitVec.add_comm 1, BitVec.ofNat_add n 1]
      rfl
    have hstands : StandsOn { it with data_index := it.data_index + 1 } e :=
      ⟨h.ok, h.block, h.index, h.size, h.data_block⟩
    have hrest := ih hstands (by dsimp only; omega) (by dsimp only; omega)
    rw [take_item hpeek, hrest, field_succ]
    dsimp only
    rw [hnext, hsum, Nat.add_assoc]

theorem read_entry (hreads : fs.phys.Reads content) (hdata : 512 * e.behind ≤ fs.phys.size) (he : e.size < 2 ^ 32)
    (h : StandsOn it e) (hindex : it.data_index.toNat ≤ e.size) (hstep : ReadStep fs it c it')
    (hlow : ReadsLow e it c it') :
    c.bytes = (field content (512 * (e.block + 1) + it.data_index.toNat) (e.size - it.data_index.toNat)).take
        c.count.toNat ∧
      c.ret.toInt = c.bytes.length ∧
      it' = { it with
        data_index := it.data_index + BitVec.ofNat 32 (min c.count.toNat (e.size - it.data_index.toNat)) } := by
  obtain ⟨hcnt, hend⟩ := hlow
  generalize hm : min c.count.toNat (e.size - it.data_index.toNat) = m at hcnt hend ⊢
  have hfirst := take_entry hreads hdata he h (by omega) hend
  have htake : take fs.peek c.count.toNat it = (field content (512 * (e.block + 1) + it.data_index.toNat) m,
      { it with data_index := it.data_index + BitVec.ofNat 32 m }) := by
    have hsplit := take_add fs.peek m (c.count.toNat - m) it
    rw [Nat.add_sub_cancel' (by omega), hfirst] at hsplit
    dsimp only at hsplit
    rw [hsplit]
    by_cases hall : c.count.toNat - m = 0
    · rw [hall, take_zero, List.append_nil]
    · -- the call asks for more than is left
      have hstop : fs.peek { it with data_index := it.data_index + BitVec.ofNat 32 m } = none := by
        rw [peek, if_neg]
        rintro ⟨hlt, -⟩
        rw [BitVec.lt_def, BitVec.toNat_setWidth, BitVec.toNat_add, BitVec.toNat_ofNat, h.size] at hlt
        omega
      rw [take_stop hstop, List.append_nil]
  rw [ReadStep, read_eq, htake] at hstep
  obtain ⟨hret, hrest⟩ := Prod.mk.inj hstep
  obtain ⟨hbytes, hit⟩ := Prod.mk.inj hrest
  refine ⟨?_, ?_, hit.symm⟩
  · rw [take_field, hm, hbytes]
  · have hnat : (BitVec.ofNat 32 m).toNat = m := by
      rw [BitVec.toNat_ofNat]
      omega
    rw [← hret, ← hbytes, length_field, BitVec.toInt_eq_toNat_of_lt (by omega), hnat]

/-- From any place in the data on, the calls of a run whose bytes lie low deliver the rest of the data. -/
theorem reads_deliver_from (hreads : fs.phys.Reads content) (hdata : 512 * e.behind ≤ fs.phys.size)
    (he : e.size < 2 ^ 32) (h : StandsOn it e) (hindex : it.data_index.toNat ≤ e.size)
    (hrun : Run (Guarded (ReadStep fs) (ReadsLow e)) it calls it') :
    Delivers (field content (512 * (e.block + 1) + it.data_index.toNat) (e.size - it.data_index.toNat)) calls := by
  induction hrun with
  | nil => exact Delivers.nil _
  | @cons it u t c calls hstep _ ih =>
    obtain ⟨hbytes, hret, rfl⟩ := read_entry hreads hdata he h hindex hstep.1 hstep.2
    have hnext : (it.data_index + BitVec.ofNat 32 (min c.count.toNat (e.size - it.data_index.toNat))).toNat =
        it.data_index.toNat + min c.count.toNat (e.size - it.data_index.toNat) := by
      rw [BitVec.toNat_add, BitVec.toNat_ofNat]
      omega
    have hrest := ih ⟨h.ok, h.block, h.index, h.size, h.data_block⟩ (by dsimp only; rw [hnext]; omega)
    dsimp only at hrest
    rw [hnext] at hrest
    apply Delivers.cons hbytes hret
    rw [drop_field]
    by_cases hle : c.count.toNat ≤ e.size - it.data_index.toNat
    · rw [Nat.min_eq_left hle, ← Nat.add_assoc, Nat.sub_add_eq] at hrest
      exact hrest
    · -- nothing is left
      have hzero : e.size - it.data_index.toNat - c.count.toNat = 0 := by omega
      have hzero' : e.size - (it.data_index.toNat + (e.size - it.data_index.toNat)) = 0 := by omega
      rw [Nat.min_eq_right (by omega), hzero'] at hrest
      rw [hzero]
      exact hrest

/-- The calls deliver the data of an entry from its start on, in each run whose bytes lie low. -/
theorem reads_deliver (hreads : fs.phys.Reads content) (hdata : 512 * e.behind ≤ fs.phys.size)
    (he : e.size < 2 ^ 32) (h : StandsOn it e) (hstart : it.data_index = 0)
    (hrun : Run (Guarded (ReadStep fs) (ReadsLow e)) it calls it') :
    Delivers (field content (512 * (e.block + 1)) e.size) calls := by
  have hfrom := reads_deliver_from hreads hdata he h (by rw [hstart]; exact Nat.zero_le _) hrun
  rw [hstart] at hfrom
  exact hfrom

end Deliver

/-- The first file is asked for five bytes, and has one. -/
theorem reads_deliver_twoFiles : Delivers (field twoFiles 512 1) [⟨5, 1, [0]⟩] := by
  have hstands : StandsOn (list ⟨twoFilesPhys⟩ 0) ⟨0, 1⟩ := by
    constructor <;> decide +kernel
  have hstart : (list ⟨twoFilesPhys⟩ 0).data_index = 0 := by decide +kernel
  have hret : (read ⟨twoFilesPhys⟩ (list ⟨twoFilesPhys⟩ 0) 5).1 = 1 := by decide +kernel
  have hbytes : (read ⟨twoFilesPhys⟩ (list ⟨twoFilesPhys⟩ 0) 5).2.1 = [0] := by decide +kernel
  have hstep : ReadStep ⟨twoFilesPhys⟩ (list ⟨twoFilesPhys⟩ 0) ⟨5, 1, [0]⟩
      (read ⟨twoFilesPhys⟩ (list ⟨twoFilesPhys⟩ 0) 5).2.2 :=
    Prod.ext hret (Prod.ext hbytes rfl)
  have hlow : ReadsLow ⟨0, 1⟩ (list ⟨twoFilesPhys⟩ 0) ⟨5, 1, [0]⟩
      (read ⟨twoFilesPhys⟩ (list ⟨twoFilesPhys⟩ 0) 5).2.2 := by
    unfold ReadsLow
    rw [hstart]
    decide
  have hlt : (⟨0, 1⟩ : Entry).size < 2 ^ 32 := by decide
  exact reads_deliver twoFilesPhys_reads (by decide) hlt hstands hstart (Run.single ⟨hstep, hlow⟩)

/-- An archive whose first file has 2 ^ 32 - 1024 bytes. The second file has one byte, at 4 GiB. -/
def bigArchive (i : ℕ) : Byte :=
  if i / 512 = 0 then
    if 124 ≤ i ∧ i < 135 then
      ([3, 7, 7, 7, 7, 7, 7, 6, 0, 0, 0].map digitChar).getD (i - 124) 0
    else headerByte 0x30 i
  else if i / 512 = 0x7FFFFF then headerByte 0x31 (i % 512)
  else if i = 0x100000000 then 0x37 else 0

def bigArchivePhys : FilesystemPhys :=
  ⟨0x100000200, fun pos => if pos + 512 ≤ 0x100000200 then some fun i => bigArchive (pos + i) else none⟩

theorem bigArchivePhys_reads : bigArchivePhys.Reads bigArchive := by
  intro pos hpos
  have hle : pos + 512 ≤ 0x100000200 := hpos
  refine ⟨fun i => bigArchive (pos + i), ?_, fun i _ => rfl⟩
  simp only [bigArchivePhys, if_pos hle]

/-- The position of the second file's data wraps to the start of the device. -/
theorem read_wraps :
    let it := next ⟨bigArchivePhys⟩ (list ⟨bigArchivePhys⟩ 0)
    bigArchivePhys.Reads bigArchive ∧ StandsOn it ⟨0x7FFFFF, 1⟩ ∧ it.data_index = 0 ∧
      512 * (⟨0x7FFFFF, 1⟩ : Entry).behind ≤ bigArchivePhys.size ∧
      ReadStep ⟨bigArchivePhys⟩ it ⟨1, 1, [0]⟩ (read ⟨bigArchivePhys⟩ it 1).2.2 ∧
      ¬ Delivers (field bigArchive (512 * (0x7FFFFF + 1)) 1) [⟨1, 1, [0]⟩] := by
  have hstands : StandsOn (next ⟨bigArchivePhys⟩ (list ⟨bigArchivePhys⟩ 0)) ⟨0x7FFFFF, 1⟩ := by
    constructor <;> decide +kernel
  have hret : (read ⟨bigArchivePhys⟩ (next ⟨bigArchivePhys⟩ (list ⟨bigArchivePhys⟩ 0)) 1).1 = 1 := by
    decide +kernel
  have hbytes : (read ⟨bigArchivePhys⟩ (next ⟨bigArchivePhys⟩ (list ⟨bigArchivePhys⟩ 0)) 1).2.1 = [0] := by
    decide +kernel
  refine ⟨bigArchivePhys_reads, hstands, by decide +kernel, by decide +kernel,
    Prod.ext hret (Prod.ext hbytes rfl), fun h => ?_⟩
  have hwrong : [0] = (field bigArchive (512 * (0x7FFFFF + 1)) 1).take 1 := h.bytes
  exact absurd hwrong (by decide +kernel)

end Ustar

end CxxKernel.Fs
