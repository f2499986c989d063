import CxxKernel.Clothes.Listing
import CxxKernel.Fs.Paths

/-! `ClothesFilesystem::findFile`: the way from the root directory along a path. -/
namespace CxxKernel.Clothes
open Fallible Cursor Runs
open Fs (Chars slash)
open Fs.Chars (pathParts pathPart)

/-- The name that an entry's block holds. -/
def nameIn (b : Block) : List Byte := (List.range (word b 12).toNat).map fun i => b (16 + i)

/-- `Iterator::type` and the test for a directory. -/
def Iterator.type (it : Iterator) : Word := baseType (dataToNum it.data 2 1)

def Iterator.empty : Iterator := ⟨false, 0, 0, 0, 0, 0, clearBuffer, clearBuffer, clearBuffer⟩

namespace ClothesFS

section Find
variable (fs : ClothesFS) (disk : Disk)

/-- The loop of `findFile`, with at most `fuel` entries. `descend` is the call of `findFile` for the next part. -/
def findLoop (path : Chars) (part : Word) (descend : Word → Option Iterator) :
    ℕ → Iterator → Option Iterator
  | 0, _ => none
  | fuel + 1, iter =>
    if iter.ok then
      let parts := pathParts path
      let rest :=
        let iter := fs.next disk iter
        if iter.ok then findLoop path part descend fuel iter else some iter
      if iter.name = pathPart path part then
        if part = parts - 1 ∨ part = parts then some iter
        else if part < parts - 1 then
          if iter.type &&& META_DIR ≠ 0 then descend iter.block else some iter
        else rest
      else rest
    else some iter

/-- `ClothesFilesystem::findFile` for a path with a buffer, of which each part is looked up. Its callers leave
`part` at 0 and `parent` at 1. -/
def findFile : ℕ → Chars → Word → Word → Option Iterator
  | 0, _, _, _ => none
  | fuel + 1, path, part, parent =>
    if pathParts path < part then some .empty
    else fs.findLoop disk path part (fun block => findFile fuel path (part + 1) block) fuel
      (fs.list disk parent)

end Find

/-- The block is that of a directory, as `findFile` tests it. -/
def IsDir (d : Disk) (e : Word) : Prop :=
  baseType (dataToNum (d (sectorOf e)) 2 1) &&& META_DIR ≠ 0

instance (d : Disk) (e : Word) : Decidable (IsDir d e) := inferInstanceAs (Decidable (_ ≠ _))

/-- The iterator stands on the entry in block `e`. -/
structure StandsOn (d : Disk) (it : Iterator) (e : Word) : Prop where
  ok : it.ok = true
  block : it.block = e
  data : it.data = d (sectorOf e)

/-- Why a path leads nowhere. -/
inductive Fault where
  | missing
  | notDirectory
  deriving DecidableEq

/-- A volume on which the directories list correctly: the iterator over a directory stops on its entries. -/
structure DirTree (fs : ClothesFS) (d : Disk) where
  dirs : List Word
  entries : Word → List Word
  root : 1 ∈ dirs
  yields : ∀ dir ∈ dirs, Yields (fs.visit d) (fs.list d dir) (entries dir)
  sub : ∀ dir ∈ dirs, ∀ e ∈ entries dir, IsDir d e → e ∈ dirs

/-- A relative path of non-empty components. Its length is a `size_t`. -/
structure RelPath where
  comps : List Chars
  nonempty : comps ≠ []
  parts : ∀ c ∈ comps, c ≠ [] ∧ slash ∉ c
  short : ([slash].intercalate comps).length < 2 ^ 32

/-- `c0/c1/.../ck`. -/
def RelPath.chars (p : RelPath) : Chars := [slash].intercalate p.comps

namespace DirTree
variable {fs : ClothesFS} {d : Disk} (t : DirTree fs d)

/-- The entry of a directory with the given name. -/
def lookup (dir : Word) (c : Chars) : Option Word :=
  (t.entries dir).find? fun e => nameIn (d (sectorOf e)) = c

/-- Each component is looked up in the directory that the components before it lead to. -/
def resolve : Word → List Chars → Except Fault Word
  | dir, [] => .ok dir
  | dir, c :: cs =>
    match t.lookup dir c with
    | none => .error .missing
    | some e => if cs = [] ∨ IsDir d e then resolve e cs else .error .notDirectory

/-- What `findFile` should return for a path. -/
def PathLaw (p : RelPath) : Prop :=
  ∃ it, (∃ bound, ∀ fuel, bound ≤ fuel → fs.findFile d fuel p.chars 0 1 = some it) ∧
    match t.resolve 1 p.comps with
    | .ok e => StandsOn d it e
    | .error _ => it.ok = false

/-- A single component; or a component before the last one is missing; or the whole path leads to the entry
to which it leads without its last component. -/
def Meets (p : RelPath) : Prop :=
  p.comps.length = 1 ∨ t.resolve 1 p.comps.dropLast = .error .missing ∨
    ∃ e, t.resolve 1 p.comps.dropLast = .ok e ∧ t.resolve 1 p.comps = .ok e

end DirTree

section Loaded
variable {fs : ClothesFS} {d : Disk} {it : Iterator} {dir : Word}

/-- An iterator that is ok has read the block of its entry. -/
def Loaded (fs : ClothesFS) (d : Disk) (it : Iterator) : Prop :=
  it.ok = true → fs.blockAt d it.block = some it.data

theorem loadEntry_loaded (it : Iterator) (pos : Word) (h : (fs.loadEntry d it pos).2 = true) :
    fs.blockAt d (fs.loadEntry d it pos).1.block = some (fs.loadEntry d it pos).1.data := by
  unfold loadEntry at h ⊢
  dsimp only at h ⊢
  split at h
  · cases h
  · rename_i hne
    rw [if_neg hne]
    split at h
    · cases h
    · rename_i data hdata
      rw [hdata]

theorem getCurrent_loaded (it : Iterator) (h : (fs.getCurrent d it).2 = true) :
    fs.blockAt d (fs.getCurrent d it).1.block = some (fs.getCurrent d it).1.data := by
  unfold getCurrent at h ⊢
  dsimp only at h ⊢
  by_cases htype : dataToNum it.parent 2 1 = 0
  · rw [if_pos htype] at h
    cases h
  rw [if_neg htype] at h ⊢
  generalize 4 * it.index + listStart it.parent (dataToNum it.parent 2 1) = pos at h ⊢
  by_cases hend : blocksize - 4 ≤ pos.toNat
  · rw [if_pos hend] at h ⊢
    generalize dataToNum it.parent (blocksize - 4) 4 = next_block at h ⊢
    by_cases hlast : next_block = 0
    · rw [if_pos hlast] at h
      cases h
    rw [if_neg hlast] at h ⊢
    cases hload : fs.blockAt d next_block with
    | none =>
      rw [hload] at h
      cases h
    | some parent =>
      rw [hload] at h
      dsimp only at h ⊢
      exact loadEntry_loaded { it with parent, index := 0 } 0 h
  · rw [if_neg hend] at h ⊢
    exact loadEntry_loaded it _ h

theorem loaded_next (it : Iterator) : Loaded fs d (fs.next d it) := fun hok =>
  getCurrent_loaded { it with index := it.index + 1 } hok

theorem loaded_list (fs : ClothesFS) (d : Disk) (dir : Word) : Loaded fs d (fs.list d dir) := by
  intro hok
  rw [list] at hok ⊢
  dsimp only at hok ⊢
  by_cases hzero : dir = 0
  · rw [if_pos hzero] at hok
    cases hok
  rw [if_neg hzero] at hok ⊢
  cases hload : fs.blockAt d dir with
  | none =>
    rw [hload] at hok
    cases hok
  | some data =>
    rw [hload] at hok
    dsimp only at hok ⊢
    have hkeep := getCurrent_ok fs d ⟨false, dir, 0, 0, 0, 0, data, clearBuffer, clearBuffer⟩
    split at hok
    · rename_i hfound
      rw [if_pos hfound]
      exact getCurrent_loaded _ hfound
    · rw [hkeep] at hok
      cases hok

theorem Loaded.data (h : Loaded fs d it) (hok : it.ok = true) : it.data = d (sectorOf it.block) :=
  (blockAt_eq_some.mp (h hok)).2.symm

theorem Loaded.name_eq (h : Loaded fs d it) (hok : it.ok = true) :
    it.name = nameIn (d (sectorOf it.block)) := by
  rw [← h.data hok]
  rfl

end Loaded

section Search
variable {fs : ClothesFS} {d : Disk} {it : Iterator} {path : Chars} {part : Word} {es : List Word}
  {descend : Word → Option Iterator} {fuel : ℕ}

theorem findLoop_stop (hok : it.ok = false) : fs.findLoop d path part descend (fuel + 1) it = some it := by
  rw [findLoop, if_neg (by rw [hok]; decide)]

theorem findLoop_other (hok : it.ok = true) (hname : it.name ≠ pathPart path part) (hfuel : 0 < fuel) :
    fs.findLoop d path part descend (fuel + 1) it = fs.findLoop d path part descend fuel (fs.next d it) := by
  rw [findLoop, if_pos hok]
  dsimp only
  rw [if_neg hname]
  by_cases hnext : (fs.next d it).ok = true
  · rw [if_pos hnext]
  · obtain ⟨fuel, rfl⟩ := Nat.exists_eq_succ_of_ne_zero (Nat.ne_of_gt hfuel)
    rw [if_neg hnext, findLoop_stop (eq_false_of_ne_true hnext)]

theorem findLoop_last (hok : it.ok = true) (hname : it.name = pathPart path part)
    (hlast : part = pathParts path - 1 ∨ part = pathParts path) :
    fs.findLoop d path part descend (fuel + 1) it = some it := by
  rw [findLoop, if_pos hok]
  dsimp only
  rw [if_pos hname, if_pos hlast]

/-- A component further in front: the search goes on in a directory, and ends on another entry. -/
theorem findLoop_descend (hok : it.ok = true) (hname : it.name = pathPart path part)
    (hlt : part < pathParts path - 1) (hne : part ≠ pathParts path) :
    fs.findLoop d path part descend (fuel + 1) it =
      if it.type &&& META_DIR ≠ 0 then descend it.block else some it := by
  have hlast : ¬ (part = pathParts path - 1 ∨ part = pathParts path) := by
    rintro (h | h)
    · exact absurd hlt (h ▸ BitVec.lt_irrefl part)
    · exact hne h
  rw [findLoop, if_pos hok]
  dsimp only
  rw [if_pos hname, if_neg hlast, if_pos hlt]

/-- The loop comes to the first entry with the name of the part, or to the end of the listing. -/
theorem findLoop_yields (hyields : Yields (fs.visit d) it es) (hload : Loaded fs d it) (path : Chars)
    (part : Word) :
    ∃ it',
      (match es.find? fun e => nameIn (d (sectorOf e)) = pathPart path part with
        | none => it'.ok = false
        | some e => StandsOn d it' e ∧ it'.name = pathPart path part) ∧
      ∀ descend fuel, es.length < fuel → ∃ left, fs.findLoop d path part descend fuel it =
        fs.findLoop d path part descend (left + 1) it' := by
  induction hyields with
  | @stop it hstop =>
    refine ⟨it, ?_, fun descend fuel hfuel => ⟨fuel - 1, ?_⟩⟩
    · rw [visit] at hstop
      split at hstop
      · cases hstop
      · rename_i hok
        exact eq_false_of_ne_true hok
    · rw [Nat.sub_add_cancel (Nat.lt_of_le_of_lt (Nat.zero_le _) hfuel)]
  | @item it it₁ e es hitem _ ih =>
    rw [visit] at hitem
    split at hitem
    · rename_i hok
      obtain ⟨rfl, rfl⟩ := Prod.mk.inj (Option.some.inj hitem)
      have hentry := hload.name_eq hok
      by_cases hname : it.name = pathPart path part
      · refine ⟨it, ?_, fun descend fuel hfuel => ⟨fuel - 1, ?_⟩⟩
        · have hfound : nameIn (d (sectorOf it.block)) = pathPart path part := hentry ▸ hname
          rw [List.find?_cons, decide_eq_true hfound]
          exact ⟨⟨hok, rfl, hload.data hok⟩, hname⟩
        · rw [Nat.sub_add_cancel (Nat.lt_of_le_of_lt (Nat.zero_le _) hfuel)]
      · obtain ⟨it', hit', hloop⟩ := ih (loaded_next it)
        refine ⟨it', ?_, fun descend fuel hfuel => ?_⟩
        · have hother : nameIn (d (sectorOf it.block)) ≠ pathPart path part := hentry ▸ hname
          rwa [List.find?_cons, decide_eq_false hother]
        · rw [List.length_cons] at hfuel
          obtain ⟨fuel, rfl⟩ := Nat.exists_eq_succ_of_ne_zero (n := fuel) (by omega)
          rw [findLoop_other hok hname (by omega)]
          exact hloop descend fuel (by omega)
    · cases hitem

end Search

namespace DirTree
variable {fs : ClothesFS} {d : Disk} (t : DirTree fs d) {path : Chars} {part dir : Word}

theorem type_of_standsOn {it : Iterator} {e : Word} (h : StandsOn d it e) :
    it.type &&& META_DIR ≠ 0 ↔ IsDir d e := by
  rw [Iterator.type, h.data]
  rfl

/-- One call of `findFile` on a directory: its loop comes to the entry with the name of the part, or to none, and
what follows from there with enough fuel is what the call returns. -/
theorem findFile_round (hle : ¬ pathParts path < part) (hdir : dir ∈ t.dirs) :
    ∃ it,
      (match t.lookup dir (pathPart path part) with
        | none => it.ok = false
        | some e => StandsOn d it e ∧ it.name = pathPart path part) ∧
      ∀ bound it', (∀ fuel left, bound ≤ fuel → fs.findLoop d path part
          (fun block => fs.findFile d fuel path (part + 1) block) (left + 1) it = some it') →
        ∃ bound', ∀ fuel, bound' ≤ fuel → fs.findFile d fuel path part dir = some it' := by
  obtain ⟨it, hit, hloop⟩ := findLoop_yields (t.yields dir hdir) (loaded_list fs d dir) path part
  refine ⟨it, hit, fun bound it' hbound => ⟨bound + (t.entries dir).length + 2, fun fuel hfuel => ?_⟩⟩
  obtain ⟨fuel, rfl⟩ := Nat.exists_eq_succ_of_ne_zero (n := fuel) (by omega)
  obtain ⟨left, hleft⟩ := hloop (fun block => fs.findFile d fuel path (part + 1) block) fuel (by omega)
  rw [findFile, if_neg hle]
  exact hleft.trans (hbound fuel left (by omega))

/-- `findFile` from a part on, up to the last but one: it finds what the components lead to, it finds nothing
when one is missing, and it stays on an entry that is no directory. -/
theorem findFile_resolve (hshort : path.length < 2 ^ 32) (target : List Chars) (hne : target ≠ [])
    (hpre : target <+: (path.splitOn slash).drop part.toNat)
    (hlen : part.toNat + target.length = max 1 (pathParts path).toNat) (hdir : dir ∈ t.dirs) :
    ∃ it, (∃ bound, ∀ fuel, bound ≤ fuel → fs.findFile d fuel path part dir = some it) ∧
      match t.resolve dir target with
      | .ok e => StandsOn d it e
      | .error .missing => it.ok = false
      | .error .notDirectory => it.ok = true := by
  induction target generalizing part dir with
  | nil => exact absurd rfl hne
  | cons c cs ih =>
    obtain ⟨rest, hrest⟩ := hpre
    have hpart : pathPart path part = c := by
      rw [Fs.Chars.pathPart_eq hshort, List.getD_eq_getElem?_getD, ← Nat.add_zero part.toNat, ← List.getElem?_drop,
        ← hrest]
      rfl
    have hle : ¬ pathParts path < part := by
      rw [BitVec.lt_def]
      rw [List.length_cons] at hlen
      omega
    obtain ⟨it, hit, hround⟩ := t.findFile_round hle hdir
    rw [hpart] at hit
    cases hlookup : t.lookup dir c with
    | none =>
      rw [hlookup] at hit
      refine ⟨it, hround 0 it fun fuel left _ => findLoop_stop hit, ?_⟩
      rw [resolve, hlookup]
      exact hit
    | some e =>
      rw [hlookup] at hit
      obtain ⟨hstands, hname⟩ := hit
      rw [← hpart] at hname
      cases cs with
      | nil =>
        have hlast : part = pathParts path - 1 ∨ part = pathParts path := by
          rw [List.length_singleton] at hlen
          bv_omega
        refine ⟨it, hround 0 it fun fuel left _ => findLoop_last hstands.ok hname hlast, ?_⟩
        rw [resolve, hlookup]
        exact hstands
      | cons c' cs =>
        rw [List.length_cons, List.length_cons] at hlen
        have hlt : part < pathParts path - 1 := by bv_omega
        have hother : part ≠ pathParts path := by
          rintro rfl
          omega
        have hnext : (part + 1).toNat = part.toNat + 1 := by bv_omega
        by_cases hdirectory : IsDir d e
        · have hmem : e ∈ t.entries dir := List.mem_of_find?_eq_some hlookup
          have hpre' : c' :: cs <+: (path.splitOn slash).drop (part + 1).toNat := by
            rw [hnext, ← List.tail_drop, ← hrest]
            exact List.prefix_append (c' :: cs) rest
          obtain ⟨it', ⟨bound, hbound⟩, hit'⟩ := ih (List.cons_ne_nil c' cs) hpre'
            (by rw [hnext, List.length_cons]; omega) (t.sub dir hdir e hmem hdirectory)
          refine ⟨it', hround bound it' fun fuel left hfuel => ?_, ?_⟩
          · rw [findLoop_descend hstands.ok hname hlt hother,
              if_pos ((type_of_standsOn hstands).mpr hdirectory), hstands.block]
            exact hbound fuel hfuel
          · rw [resolve, hlookup]
            dsimp only
            rw [if_pos (.inr hdirectory)]
            exact hit'
        · refine ⟨it, hround 0 it fun fuel left _ => ?_, ?_⟩
          · rw [findLoop_descend hstands.ok hname hlt hother,
              if_neg fun h => hdirectory ((type_of_standsOn hstands).mp h)]
          · have hneither : ¬ (c' :: cs = [] ∨ IsDir d e) := by
              rintro (h | h)
              · cases h
              · exact hdirectory h
            rw [resolve, hlookup]
            dsimp only
            rw [if_neg hneither]
            exact hstands.ok

theorem resolve_error {f : Fault} {cs : List Chars} (h : t.resolve dir cs = .error f) (cs' : List Chars) :
    t.resolve dir (cs ++ cs') = .error f := by
  induction cs generalizing dir with
  | nil => cases h
  | cons c cs ih =>
    rw [List.cons_append, resolve]
    rw [resolve] at h
    cases hlookup : t.lookup dir c with
    | none =>
      rw [hlookup] at h
      exact h
    | some e =>
      rw [hlookup] at h
      dsimp only at h ⊢
      by_cases hdirectory : IsDir d e
      · rw [if_pos (.inr hdirectory)] at h ⊢
        exact ih h
      · by_cases hlast : cs = []
        · rw [if_pos (.inl hlast), hlast] at h
          cases h
        · have hneither : ¬ (cs ++ cs' = [] ∨ IsDir d e) := by
            rintro (hnil | hdir)
            · exact hlast (List.append_eq_nil_iff.mp hnil).1
            · exact hdirectory hdir
          rw [if_neg fun h => h.elim hlast hdirectory] at h
          rw [if_neg hneither]
          exact h

theorem resolve_single (dir : Word) (c : Chars) : t.resolve dir [c] ≠ .error .notDirectory := by
  rw [resolve]
  cases t.lookup dir c with
  | none => exact fun h => by cases h
  | some e => exact fun h => by cases h

theorem pathLaw_of_returns {p : RelPath} {it : Iterator}
    (h : ∃ bound, ∀ fuel, bound ≤ fuel → fs.findFile d fuel p.chars 0 1 = some it) :
    t.PathLaw p ↔ match t.resolve 1 p.comps with
      | .ok e => StandsOn d it e
      | .error _ => it.ok = false := by
  refine ⟨fun hlaw => ?_, fun hit => ⟨it, h, hit⟩⟩
  obtain ⟨it', ⟨bound', hbound'⟩, hit'⟩ := hlaw
  obtain ⟨bound, hbound⟩ := h
  have hsame := (hbound (bound + bound') (by omega)).symm.trans (hbound' (bound + bound') (by omega))
  rwa [Option.some.inj hsame]

end DirTree

section Components
variable (p : RelPath)

theorem RelPath.length_chars : p.chars.length < 2 ^ 32 := p.short

theorem RelPath.splitOn_chars : p.chars.splitOn slash = p.comps :=
  List.splitOn_intercalate slash (fun c hc => (p.parts c hc).2) p.nonempty

theorem RelPath.pathParts_toNat : (pathParts p.chars).toNat + 1 = p.comps.length := by
  rw [Fs.Chars.pathParts_toNat p.length_chars, ← Fs.length_splitOn, p.splitOn_chars]

end Components

theorem DirTree.pathLaw_of_single {fs : ClothesFS} {d : Disk} (t : DirTree fs d) {p : RelPath}
    (hone : p.comps.length = 1) : t.PathLaw p := by
  obtain ⟨c, hc⟩ := List.length_eq_one_iff.mp hone
  have hparts := p.pathParts_toNat
  have hzero : (0 : Word).toNat = 0 := rfl
  have hfirst : p.comps <+: (p.chars.splitOn slash).drop (0 : Word).toNat := by
    change p.comps <+: p.chars.splitOn slash
    exact p.splitOn_chars.symm ▸ List.prefix_rfl
  obtain ⟨it, hreturns, hit⟩ := t.findFile_resolve p.length_chars p.comps p.nonempty hfirst (by omega) t.root
  have hsingle := t.resolve_single 1 c
  rw [← hc] at hsingle
  refine (t.pathLaw_of_returns hreturns).mpr ?_
  cases hresolve : t.resolve 1 p.comps with
  | ok e => rwa [hresolve] at hit
  | error f =>
    cases f with
    | missing => rwa [hresolve] at hit
    | notDirectory => exact absurd hresolve hsingle

/-- Where the directory of the last component is not found, neither is the path. -/
theorem DirTree.resolve_dropLast_error {fs : ClothesFS} {d : Disk} (t : DirTree fs d) (p : RelPath) (f : Fault)
    (h : t.resolve 1 p.comps.dropLast = .error f) : t.resolve 1 p.comps = .error f := by
  have hall := t.resolve_error h [p.comps.getLast p.nonempty]
  rwa [List.dropLast_append_getLast] at hall

/-- `findFile` finds what it should for these paths and for no others. -/
theorem DirTree.pathLaw_iff {fs : ClothesFS} {d : Disk} (t : DirTree fs d) (p : RelPath) :
    t.PathLaw p ↔ t.Meets p := by
  have hsplit := p.splitOn_chars
  have hparts := p.pathParts_toNat
  have hzero : (0 : Word).toNat = 0 := rfl
  by_cases hone : p.comps.length = 1
  · exact iff_of_true (t.pathLaw_of_single hone) (.inl hone)
  · have hpos : p.comps.length ≠ 0 := fun h => p.nonempty (List.length_eq_zero_iff.mp h)
    have hlength : p.comps.dropLast.length = p.comps.length - 1 := List.length_dropLast
    have hne : p.comps.dropLast ≠ [] := fun h => by
      rw [h, List.length_nil] at hlength
      omega
    obtain ⟨it, hreturns, hit⟩ := t.findFile_resolve p.length_chars p.comps.dropLast hne
      (by rw [hzero, List.drop_zero, hsplit]; exact List.dropLast_prefix p.comps) (by omega) t.root
    rw [t.pathLaw_of_returns hreturns, Meets]
    cases hresolve : t.resolve 1 p.comps.dropLast with
    | ok e =>
      rw [hresolve] at hit
      cases hall : t.resolve 1 p.comps with
      | ok e' =>
        constructor
        · intro hstands
          exact .inr (.inr ⟨e, rfl, by rw [← hstands.block, hit.block]⟩)
        · rintro (h | h | ⟨e₁, h₁, h₂⟩)
          · exact absurd h hone
          · cases h
          · cases h₁
            cases h₂
            exact hit
      | error f =>
        refine iff_of_false ?_ ?_
        · intro h
          exact Bool.false_ne_true (h.symm.trans hit.ok)
        · rintro (h | h | ⟨e₁, -, h₂⟩)
          · exact hone h
          · cases h
          · cases h₂
    | error f =>
      rw [hresolve] at hit
      rw [t.resolve_dropLast_error p f hresolve]
      cases f with
      | missing => exact iff_of_true hit (.inr (.inl rfl))
      | notDirectory =>
        refine iff_of_false ?_ ?_
        · intro h
          exact Bool.false_ne_true (h.symm.trans hit)
        · rintro (h | h | ⟨e, h, -⟩)
          · exact hone h
          · cases h
          · cases h

theorem addDir_named {fs : ClothesFS} (hs : fs.Small) {d d₁ d' : Disk} {b parent : Word} {name : CString} {fuel : ℕ}
    (htake : Returns fs.takeFreeBlock d b d₁) (hin : b.toNat < fs.count)
    (hr : Returns (fs.addDir fuel parent name) d () d') :
    d' b.toNat = named (freshMeta META_DIR) name 0 := by
  simp only [addDir, returns_bind, returns_guard] at hr
  obtain ⟨_, _, ⟨-, rfl⟩, b', _, htake', _, _, ⟨-, rfl⟩, _, d₂, -, _, d₃, hinit, hupdate⟩ := hr
  obtain ⟨rfl, rfl⟩ := htake.unique htake'
  obtain rfl := updateMeta_fresh hs hin hinit hupdate
  exact Function.update_self _ _ _

def dirAdded : DirState :=
  ⟨(exec (sixBlocks.addDir 1 1 dirName) rootOnly.disk).2, [2, 1], Function.update rootOnly.len 2 1,
    Function.update rootOnly.entries 1 [2]⟩

theorem dirAdded_take : (exec sixBlocks.takeFreeBlock rootOnly.disk).1 = some 2 := by decide +kernel

theorem dirAdded_add : (exec (sixBlocks.addDir 1 1 dirName) rootOnly.disk).1 = some () := by decide +kernel

theorem dirAdded_reachable : Reachable sixBlocks.DirStep sixBlocks.DirStart dirAdded := by
  have hstep : sixBlocks.DirStep rootOnly (.addDir 1 dirName) dirAdded :=
    ⟨List.mem_singleton_self 1, dirName_fits, 1, 2, _, returns_of_fst dirAdded_take,
      returns_of_fst dirAdded_add, rfl, rfl, rfl⟩
  exact ⟨rootOnly, _, rootOnly_start, .cons hstep (.nil _)⟩

theorem dirAdded_block : dirAdded.disk 2 = named (freshMeta META_DIR) dirName 0 :=
  addDir_named sixBlocks_small (returns_of_fst dirAdded_take) (by decide) (returns_of_fst dirAdded_add)

theorem dirAdded_dirs {dir : Word} (h : dir ∈ dirAdded.dirs) : dir = 2 ∨ dir = 1 :=
  (List.mem_cons.mp h).imp_right List.mem_singleton.mp

theorem dirAdded_short {dir : Word} (h : dir ∈ dirAdded.dirs) :
    (dirAdded.entries dir).length ≤ capacity (dirAdded.len dir) := by
  rcases dirAdded_dirs h with rfl | rfl
  · exact Nat.zero_le _
  · decide

theorem dirAdded_sub {dir e : Word} (h : dir ∈ dirAdded.dirs) (he : e ∈ dirAdded.entries dir) :
    e ∈ dirAdded.dirs := by
  rcases dirAdded_dirs h with rfl | rfl
  · cases he
  · rw [List.mem_singleton.mp he]
    exact List.mem_cons_self

/-- The directories of this volume list correctly. -/
def dirAddedTree : DirTree sixBlocks dirAdded.disk where
  dirs := dirAdded.dirs
  entries := dirAdded.entries
  root := List.mem_cons_of_mem 2 List.mem_cons_self
  yields _ hdir := ((lists_iff sixBlocks_small dirAdded_reachable hdir).mpr (.inl (dirAdded_short hdir))).1
  sub _ hdir _ he _ := dirAdded_sub hdir he

theorem pathInDir_parts : ∀ c ∈ [[0x61], [0x62]], c ≠ [] ∧ slash ∉ c := by decide

theorem pathInDir_short : ([slash].intercalate [[0x61], [0x62]]).length < 2 ^ 32 := by decide

def pathInDir : RelPath := ⟨[[0x61], [0x62]], List.cons_ne_nil _ _, pathInDir_parts, pathInDir_short⟩

/-- `a` is there and is empty, and the iterator for `a/b` stands on `a`. -/
theorem DirTree.not_pathLaw_inDir : ¬ dirAddedTree.PathLaw pathInDir ∧
    ∃ it, (∃ bound, ∀ fuel, bound ≤ fuel → sixBlocks.findFile dirAdded.disk fuel pathInDir.chars 0 1 = some it) ∧
      StandsOn dirAdded.disk it 2 := by
  have hsector : sectorOf 2 = 2 := by decide
  have hname : nameIn (dirAdded.disk (sectorOf 2)) = [0x61] := by
    rw [hsector, dirAdded_block]
    decide
  have hdir : IsDir dirAdded.disk 2 := by
    rw [IsDir, hsector, dirAdded_block]
    decide
  have hlookup : dirAddedTree.lookup 1 [0x61] = some 2 := by
    change ([2] : List Word).find? (fun e => nameIn (dirAdded.disk (sectorOf e)) = [0x61]) = some 2
    rw [List.find?_cons, decide_eq_true hname]
  have hparent : dirAddedTree.resolve 1 [[0x61]] = .ok 2 := by
    rw [resolve, hlookup]
    rfl
  have hpath : dirAddedTree.resolve 1 pathInDir.comps = .error .missing := by
    change dirAddedTree.resolve 1 [[0x61], [0x62]] = _
    rw [resolve, hlookup]
    dsimp only
    rw [if_pos (.inr hdir)]
    rfl
  have hpre : [[0x61]] <+: (pathInDir.chars.splitOn slash).drop (0 : Word).toNat := by
    rw [pathInDir.splitOn_chars]
    exact List.prefix_append [[0x61]] [[0x62]]
  have hlen := pathInDir.pathParts_toNat
  have htwo : pathInDir.comps.length = 2 := rfl
  have hzero : (0 : Word).toNat = 0 := rfl
  obtain ⟨it, hreturns, hit⟩ := dirAddedTree.findFile_resolve pathInDir.length_chars [[0x61]]
    (List.cons_ne_nil _ _) hpre (by rw [List.length_singleton]; omega) dirAddedTree.root
  rw [hparent] at hit
  refine ⟨?_, it, hreturns, hit⟩
  rw [dirAddedTree.pathLaw_of_returns hreturns, hpath]
  exact fun h => Bool.false_ne_true (h.symm.trans hit.ok)

end ClothesFS

end CxxKernel.Clothes
