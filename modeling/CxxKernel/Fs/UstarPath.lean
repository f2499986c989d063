import CxxKernel.Fs.FindFile
import CxxKernel.Fs.Paths

/-! The paths in the headers of an archive, and the entry that `findFile` comes to. -/
namespace CxxKernel.Fs

/-- The characters of a field: those up to the first NUL, or all of them. -/
def chars (data : Buffer) (start len : ℕ) : Chars := (field data start len).takeWhile (· ≠ 0)

/-- `Iterator::name`: the C string that starts with the header. A header holds a NUL. -/
def nameString (data : Buffer) : Chars := chars data 0 512

/-- The path of an entry: the name behind the prefix, where there is one. -/
def fullPath (data : Buffer) : Chars :=
  if chars data 345 155 = [] then chars data 0 100 else chars data 345 155 ++ slash :: chars data 0 100

/-- The first entry whose path is the given one, or whose header starts with it as a string. -/
def firstMatch (content : ℕ → Byte) (es : List Entry) (path : Chars) : Option Entry :=
  es.find? fun e => fullPath (blockOf content e.block) = path ∨ nameString (blockOf content e.block) = path

/-- The block behind the entries that start with block `k`. -/
def endOf (k : ℕ) (es : List Entry) : ℕ := es.foldl (fun _ e => e.behind) k

namespace Ustar

/-- What the lookup has to read lies below 4 GiB: the archive up to the first match, or all of it. -/
def Near (content : ℕ → Byte) (es : List Entry) (path : Chars) : Prop :=
  match firstMatch content es path with
  | some e => 512 * e.block < 2 ^ 32
  | none => 512 * endOf 0 es < 2 ^ 32

end Ustar

section Names
variable {content : ℕ → Byte} {data data' : Buffer} {k n : ℕ}

theorem chars_congr {start len : ℕ} (hend : start + len ≤ 512) (h : ∀ i < 512, data i = data' i) :
    chars data start len = chars data' start len := by
  rw [chars, field_congr fun i _ hi => h i (by omega)]
  rfl

theorem nameString_congr (h : ∀ i < 512, data i = data' i) : nameString data = nameString data' :=
  chars_congr (Nat.le_refl 512) h

end Names

namespace Ustar

section Loaded
variable {content : ℕ → Byte} {fs : Ustar} {it it' : Iterator} {e : Entry}

/-- An iterator that is ok holds its block. -/
def Loaded (fs : Ustar) (it : Iterator) : Prop := it.ok = true → fs.getBlock it.block = some it.data

theorem loadEntry_data (it : Iterator) : (loadEntry it).1.data = it.data := by
  rw [loadEntry]
  split_ifs
  · rfl
  · rfl

theorem getCurrent_loaded (it : Iterator) (h : fs.getBlock it.block = some it.data)
    (hfound : (fs.getCurrent it).2 = true) :
    fs.getBlock (fs.getCurrent it).1.block = some (fs.getCurrent it).1.data := by
  rw [getCurrent] at hfound ⊢
  by_cases hend : fs.phys.size ≤ (it.index * blockSize).toNat
  · rw [if_pos hend] at hfound
    cases hfound
  rw [if_neg hend] at hfound ⊢
  by_cases hsame : it.block = it.index
  · rw [if_pos hsame, (loadEntry_block it).1, loadEntry_data]
    exact h
  rw [if_neg hsame] at hfound ⊢
  dsimp only at hfound ⊢
  generalize ((it.block.setWidth 64 + (it.size + blockSize.setWidth 64 - 1) / blockSize.setWidth 64 +
    1).setWidth 32 : Word) = next_block at hfound ⊢
  by_cases hback : next_block < it.index
  · rw [if_pos hback] at hfound
    cases hfound
  rw [if_neg hback] at hfound ⊢
  by_cases hend' : fs.phys.size ≤ (next_block * blockSize).toNat
  · rw [if_pos hend'] at hfound
    cases hfound
  rw [if_neg hend'] at hfound ⊢
  cases hload : fs.getBlock next_block with
  | none =>
    rw [hload] at hfound
    cases hfound
  | some data =>
    dsimp only
    rw [(loadEntry_block _).1, loadEntry_data]
    exact hload

theorem Loaded.next (h : Loaded fs it) (hok : it.ok = true) : Loaded fs (fs.next it) := fun hnext =>
  getCurrent_loaded { it with index := it.index + 1 } (h hok) hnext

theorem loaded_list (fs : Ustar) (parent : Word) : Loaded fs (fs.list parent) := by
  intro hok
  rw [list] at hok ⊢
  cases hload : fs.getBlock parent with
  | none =>
    rw [hload] at hok
    cases hok
  | some data =>
    rw [hload] at hok
    dsimp only at hok ⊢
    have hkeep := getCurrent_ok fs ⟨false, parent, 0, 0, 0, 0, 0, data⟩
    split at hok
    · rename_i hfound
      rw [if_pos hfound]
      exact getCurrent_loaded _ hload hfound
    · rw [hkeep] at hok
      cases hok

theorem Loaded.header (h : Loaded fs it) (hreads : fs.phys.Reads content) (hit : StandsOn it e)
    (hbelow : 512 * e.block < 2 ^ 32) (hroom : 512 * (e.block + 1) ≤ fs.phys.size) :
    ∀ i < 512, it.data i = blockOf content e.block i := by
  obtain ⟨b, hload, hdata⟩ := getBlock_inside hreads (hit.block.symm ▸ hbelow) (hit.block.symm ▸ hroom)
  rw [Option.some.inj ((h hit.ok).symm.trans hload), ← hit.block]
  exact hdata

end Loaded

section Lookup
variable {content : ℕ → Byte} {fs : Ustar} {it it' : Iterator} {k fuel size : ℕ} {es : List Entry}
  {name : Buffer → List Byte} {path : Chars}

theorem findLoop_stop (hok : it.ok = false) (hfuel : 0 < fuel) : fs.findLoop name path fuel it = some it := by
  obtain ⟨fuel, rfl⟩ := Nat.exists_eq_succ_of_ne_zero (Nat.ne_of_gt hfuel)
  rw [findLoop, if_neg (by rw [hok]; decide)]

theorem findLoop_found (hok : it.ok = true) (hname : name it.data = path) :
    fs.findLoop name path (fuel + 1) it = some it := by
  rw [findLoop, if_pos hok, if_pos hname]

theorem findLoop_other (hok : it.ok = true) (hname : name it.data ≠ path) (hfuel : 0 < fuel) :
    fs.findLoop name path (fuel + 1) it = fs.findLoop name path fuel (fs.next it) := by
  rw [findLoop, if_pos hok, if_neg hname]
  dsimp only
  by_cases hnext : (fs.next it).ok = true
  · rw [if_pos hnext]
  · rw [if_neg hnext, findLoop_stop (eq_false_of_ne_true hnext) hfuel]

/-- Where the loop ends: on the first entry with the name, or behind the archive. -/
def stopAt (content : ℕ → Byte) (k : ℕ) (es : List Entry) (path : Chars) : ℕ :=
  match es.find? fun e => nameString (blockOf content e.block) = path with
  | some e => e.block
  | none => endOf k es

theorem stopAt_cons_of_ne {e : Entry} (h : nameString (blockOf content e.block) ≠ path) :
    stopAt content e.block (e :: es) path = stopAt content e.behind es path := by
  rw [stopAt, List.find?_cons, decide_eq_false h]
  rfl

theorem le_stopAt (h : Archive content size k es) (path : Chars) : k ≤ stopAt content k es path := by
  induction h with
  | flush k h => exact Nat.le_refl k
  | other k h hmagic => exact Nat.le_refl k
  | entry e es hmagic hsize h hrest ih =>
    by_cases hname : nameString (blockOf content e.block) = path
    · rw [stopAt, List.find?_cons, decide_eq_true hname]
    · rw [stopAt_cons_of_ne hname]
      unfold Entry.behind at ih
      exact Nat.le_trans (by omega) ih

theorem findLoop_find (hreads : fs.phys.Reads content) (h : Archive content fs.phys.size k es)
    (harrived : Arrived es it) (hload : Loaded fs it) (hbelow : 512 * stopAt content k es path < 2 ^ 32) :
    ∃ it', (∀ fuel, es.length < fuel → fs.findLoop nameString path fuel it = some it') ∧
      match es.find? fun e => nameString (blockOf content e.block) = path with
      | some e => StandsOn it' e ∧ ∀ i < 512, it'.data i = blockOf content e.block i
      | none => it'.ok = false := by
  induction h generalizing it with
  | flush => exact ⟨it, fun fuel hfuel => findLoop_stop harrived hfuel, harrived⟩
  | other => exact ⟨it, fun fuel hfuel => findLoop_stop harrived hfuel, harrived⟩
  | entry e es hmagic hsize h hrest ih =>
    have hstands : StandsOn it e := harrived
    have hle := le_stopAt (.entry e es hmagic hsize h hrest) path
    have hroom : 512 * (e.block + 1) ≤ fs.phys.size := by
      unfold Entry.behind at h
      omega
    have hdata := hload.header hreads hstands (by omega) hroom
    have hsame := nameString_congr hdata
    by_cases hname : nameString (blockOf content e.block) = path
    · refine ⟨it, fun fuel hfuel => ?_, ?_⟩
      · obtain ⟨fuel, rfl⟩ := Nat.exists_eq_succ_of_ne_zero (n := fuel) (by omega)
        exact findLoop_found hstands.ok (hsame.trans hname)
      · rw [List.find?_cons, decide_eq_true hname]
        exact ⟨hstands, hdata⟩
    · rw [stopAt_cons_of_ne hname] at hbelow
      have hbehind := le_stopAt hrest path
      have harrived' := arrived_next hreads (by omega) hstands hrest
      obtain ⟨it', hloop, hit'⟩ := ih harrived' (hload.next hstands.ok) hbelow
      refine ⟨it', fun fuel hfuel => ?_, ?_⟩
      · rw [List.length_cons] at hfuel
        obtain ⟨fuel, rfl⟩ := Nat.exists_eq_succ_of_ne_zero (n := fuel) (by omega)
        rw [findLoop_other hstands.ok (hsame.symm ▸ hname) (by omega)]
        exact hloop fuel (by omega)
      · rwa [List.find?_cons, decide_eq_false hname]

/-- Below 4 GiB, `findFile` finds the first header that starts with the path as a string. -/
theorem findFile_find (hreads : fs.phys.Reads content) (h : Archive content fs.phys.size 0 es)
    (hbelow : 512 * stopAt content 0 es path < 2 ^ 32) :
    ∃ it, (∃ bound, ∀ fuel, bound ≤ fuel → fs.findFile nameString fuel path 0 0 = some it) ∧
      match es.find? fun e => nameString (blockOf content e.block) = path with
      | some e => StandsOn it e ∧ ∀ i < 512, it.data i = blockOf content e.block i
      | none => it.ok = false := by
  obtain ⟨it, hloop, hit⟩ := findLoop_find hreads h (arrived_list hreads h) (loaded_list fs 0) hbelow
  exact ⟨it, ⟨es.length + 1, fun fuel hfuel => hloop fuel hfuel⟩, hit⟩

end Lookup

section OneHeader
variable (name lead : Byte)

end OneHeader

end Ustar

end CxxKernel.Fs
