import CxxKernel.Paging.RealMemory

/-! The frames of static memory, and the frames that `mapFrame` and `getPage` hand out. Static memory
is taken under a mutex of its own, so that each access to the bitmap is a step here. -/
namespace CxxKernel.Paging
open Runs PagingPrivate

/-- Who looks for a frame: `getPage`, or `mapFrame` for an entry. -/
inductive FrameUse
  | getPage
  | mapFrame (p : PagePtr) (type : MapType) (perms : MapPermissions)

/-- Where `allocStatic` is: behind `pageAlign`, with the frame in which static memory went on before, or
in the loop of `incFreePageAddress`, with its `i` and `target`. -/
inductive StaticPlace
  | aligned (size : Word) (start : ℕ)
  | marking (size : Word) (i target : ℕ)

/-- The paging state, the frame that `findUnset` has returned and that is not set yet, the call of
`allocStatic` that is under way, the frames that were handed out so far, and the regions of static
memory so far, each an address and a size. -/
structure StaticState where
  paging : PagingPrivate
  found : Option (FrameUse × ℕ)
  place : Option StaticPlace
  handed : List ℕ
  regions : List (Word × Word)

/-- `alloc` moves the heap address, and takes a table, if there is none, and a frame for each page. -/
inductive StaticOp
  | setHeap (flags addr : Word)
  | newTable (index : ℕ)
  | findUnset (use : FrameUse)
  | setFound
  | pageAlign (size : Word)
  | freePageAddress
  | markPage
  | moveCursor

def SIZEOF_PAGE_TABLE : Word := BitVec.ofNat 32 (4 * PAGES_PER_TABLE)

namespace PagingPrivate
variable (s : PagingPrivate)

/-- The frame where static memory goes on. -/
def cursor : ℕ := s.free_page_address.toNat / PAGE_SIZE

/-- The entry is free, so that `mapFrame` looks for a frame. -/
def Wants : FrameUse → Prop
  | .getPage => True
  | .mapFrame p _ _ => (s.directory.load p).isAvail = true

/-- What the two functions do with the frame that they have found. -/
def take (f : ℕ) : FrameUse → PagingPrivate
  | .getPage => { s with bits := s.bits.set f }
  | .mapFrame p type perms => { s with
      bits := s.bits.set f
      directory := s.directory.store p
        (mapped (s.directory.load p) (BitVec.ofNat 32 (f * PAGE_SIZE)) type perms) }

def newTable (index : ℕ) : PagingPrivate :=
  { s with directory := ⟨Function.update s.directory.tables index (some PageTable.new)⟩ }

/-- A round of the loop of `incFreePageAddress`. -/
def markPage (i : ℕ) : PagingPrivate := { s with bits := if s.bits.isSet i then s.bits else s.bits.set i }

end PagingPrivate

/-- `getPage` and `mapFrame` hold one mutex and `allocStatic` another, so that the steps of a call of
`allocStatic` may come anywhere between those of the others. -/
inductive StaticStep : StaticState → StaticOp → StaticState → Prop
  | setHeap {s : StaticState} {flags addr : Word} :
      StaticStep s (.setHeap flags addr) { s with paging := s.paging.setHeap flags addr }
  | newTable {s : StaticState} {index : ℕ} :
      StaticStep s (.newTable index) { s with paging := s.paging.newTable index }
  | findUnset {s : StaticState} {use : FrameUse} {f : ℕ} (hidle : s.found = none) (hwants : s.paging.Wants use)
      (h : s.paging.bits.findUnset.1 = some f) : StaticStep s (.findUnset use) { s with
        paging := { s.paging with bits := s.paging.bits.findUnset.2 }
        found := some (use, f) }
  | findUnset_none {s : StaticState} (hidle : s.found = none) (h : s.paging.bits.findUnset.1 = none) :
      StaticStep s (.findUnset .getPage) { s with
        paging := { s.paging with bits := s.paging.bits.findUnset.2 } }
  | setFound {s : StaticState} {use : FrameUse} {f : ℕ} (h : s.found = some (use, f)) :
      StaticStep s .setFound { s with
        paging := s.paging.take f use
        found := none
        handed := f :: s.handed }
  | pageAlign {s : StaticState} {size : Word} (hidle : s.place = none) : StaticStep s (.pageAlign size) { s with
      paging := s.paging.pageAlign
      place := some (.aligned size s.paging.cursor) }
  | freePageAddress {s : StaticState} {size : Word} {start : ℕ} (h : s.place = some (.aligned size start)) :
      StaticStep s .freePageAddress { s with
        paging := s.paging.markPage s.paging.cursor
        place := some (.marking size s.paging.cursor ((s.paging.free_page_address + size).toNat / PAGE_SIZE)) }
  | markPage {s : StaticState} {size : Word} {i target : ℕ} (h : s.place = some (.marking size i target))
      (hle : i ≤ target) : StaticStep s .markPage { s with
        paging := s.paging.markPage i
        place := some (.marking size (i + 1) target) }
  | moveCursor {s : StaticState} {size : Word} {i target : ℕ} (h : s.place = some (.marking size i target))
      (hlt : target < i) : StaticStep s .moveCursor { s with
        paging := { s.paging with free_page_address := s.paging.free_page_address + size }
        place := none
        regions := (s.paging.free_page_address, size) :: s.regions }

/-- The region has an address in the frame. -/
def Overlaps (f : ℕ) (r : Word × Word) : Prop :=
  ∃ a, r.1.toNat ≤ a ∧ a < r.1.toNat + r.2.toNat ∧ a / PAGE_SIZE = f

/-- No frame that was handed out is in a region of static memory. -/
def Apart (s : StaticState) : Prop := ∀ f ∈ s.handed, ∀ r ∈ s.regions, ¬ Overlaps f r

/-- Static memory may come to the frame: it lies below `e`, or it is free and not one that has been found
and is not set yet. -/
def MayMark (e : ℕ) (s : StaticState) (f : ℕ) : Prop :=
  e ≤ f → s.paging.bits.isSet f = false ∧ ∀ use, s.found ≠ some (use, f)

section Invariant
variable {s s' : StaticState} {op : StaticOp} {e cnt c f : ℕ} {size : Word}

/-- A frame of static memory: it is marked, if it exists, and was not handed out. -/
def IsStatic (s : StaticState) (f : ℕ) : Prop :=
  0xA0 ≤ f ∧ (f < s.paging.bits.cnt → s.paging.bits.marked f = true) ∧ f ∉ s.handed

/-- Where static memory goes on is static memory, and so is what a call of `allocStatic` has marked so far. -/
def PlaceInv (s : StaticState) : Option StaticPlace → Prop
  | none => IsStatic s s.paging.cursor
  | some (.aligned size start) => IsStatic s start ∧ start ≤ s.paging.cursor ∧
      s.paging.free_page_address.toNat % PAGE_SIZE = 0 ∧ s.paging.free_page_address.toNat + size.toNat < 2 ^ 32
  | some (.marking size i target) => (∀ f, s.paging.cursor ≤ f → f < i ∨ f = s.paging.cursor → IsStatic s f) ∧
      s.paging.cursor ≤ i ∧ i ≤ target + 1 ∧ target = (s.paging.free_page_address.toNat + size.toNat) / PAGE_SIZE ∧
      s.paging.free_page_address.toNat + size.toNat < 2 ^ 32

/-- The frames from 0xA0 up to `e` are marked, the rest is either static memory or handed out, and a frame
that has been found is still free. -/
structure StaticInv (cnt e : ℕ) (s : StaticState) : Prop where
  frames : FrameInv cnt ⟨s.paging, s.handed⟩
  below : ∀ f, 0xA0 ≤ f → f < e → f < cnt → s.paging.bits.marked f = true
  handed : ∀ f ∈ s.handed, f < cnt ∧ (f < 0xA0 ∨ e ≤ f)
  found : ∀ use f, s.found = some (use, f) → f < cnt ∧ s.paging.bits.marked f = false
  place : PlaceInv s s.place
  regions : ∀ r ∈ s.regions, ∀ f, Overlaps f r → IsStatic s f

/-- No mark is lost in a step, and a frame that is handed out was not marked. -/
structure Kept (s s' : StaticState) : Prop where
  ok : s'.paging.bits.Ok
  cnt : s'.paging.bits.cnt = s.paging.bits.cnt
  marked : ∀ f, s.paging.bits.marked f = true → s'.paging.bits.marked f = true
  handed : ∀ f ∈ s'.handed, f ∈ s.handed ∨
    f < s.paging.bits.cnt ∧ s.paging.bits.marked f = false ∧ s'.paging.bits.marked f = true

theorem Kept.isStatic (h : Kept s s') (hf : IsStatic s f) : IsStatic s' f := by
  obtain ⟨hlow, hmarked, hhanded⟩ := hf
  refine ⟨hlow, fun hlt => ?_, fun hmem => ?_⟩
  · rw [h.cnt] at hlt
    exact h.marked f (hmarked hlt)
  · rcases h.handed f hmem with hold | ⟨hlt, hunmarked, -⟩
    · exact hhanded hold
    · rw [hmarked hlt] at hunmarked
      cases hunmarked

theorem StaticInv.kept (h : StaticInv cnt e s) (hk : Kept s s')
    (hfound : ∀ use f, s'.found = some (use, f) → f < cnt ∧ s'.paging.bits.marked f = false)
    (hplace : PlaceInv s' s'.place)
    (hregions : ∀ r ∈ s'.regions, r ∈ s.regions ∨ ∀ f, Overlaps f r → IsStatic s' f) :
    StaticInv cnt e s' := by
  have hcnt : s.paging.bits.cnt = cnt := h.frames.cnt
  constructor
  · refine ⟨hk.ok, hk.cnt.trans hcnt, fun f hf => ?_⟩
    rcases hk.handed f hf with hold | ⟨-, -, hmarked⟩
    · exact hk.marked f (h.frames.live f hold)
    · exact hmarked
  · exact fun f hlow hlt hf => hk.marked f (h.below f hlow hlt hf)
  · intro f hf
    rcases hk.handed f hf with hold | ⟨hlt, hunmarked, -⟩
    · exact h.handed f hold
    · rw [hcnt] at hlt
      refine ⟨hlt, ?_⟩
      by_contra hmid
      push Not at hmid
      rw [h.below f hmid.1 hmid.2 hlt] at hunmarked
      cases hunmarked
  · exact hfound
  · exact hplace
  · intro r hr f hf
    rcases hregions r hr with hold | hnew
    · exact hk.isStatic (h.regions r hold f hf)
    · exact hnew f hf

theorem PlaceInv.kept {place : Option StaticPlace} (h : PlaceInv s place) (hk : Kept s s')
    (hfree : s'.paging.free_page_address = s.paging.free_page_address) : PlaceInv s' place := by
  have hcursor : s'.paging.cursor = s.paging.cursor := by
    unfold cursor
    rw [hfree]
  cases place with
  | none =>
    unfold PlaceInv at h ⊢
    rw [hcursor]
    exact hk.isStatic h
  | some place =>
    cases place with
    | aligned size start =>
      obtain ⟨hstart, hle, hmod, hend⟩ := h
      unfold PlaceInv
      rw [hcursor, hfree]
      exact ⟨hk.isStatic hstart, hle, hmod, hend⟩
    | marking size i target =>
      obtain ⟨hstatic, hrest⟩ := h
      unfold PlaceInv
      rw [hcursor, hfree]
      exact ⟨fun f hge hf => hk.isStatic (hstatic f hge hf), hrest⟩

theorem kept_of_marked (hok : s'.paging.bits.Ok)
    (hcnt : s'.paging.bits.cnt = s.paging.bits.cnt)
    (hmarked : ∀ f, s'.paging.bits.marked f = s.paging.bits.marked f) (hhanded : s'.handed = s.handed) :
    Kept s s' := by
  refine ⟨hok, hcnt, fun f hf => (hmarked f).trans hf, fun f hf => ?_⟩
  rw [hhanded] at hf
  exact Or.inl hf

theorem StaticInv.idle (h : StaticInv cnt e s) (hbits : s'.paging.bits = s.paging.bits)
    (hfree : s'.paging.free_page_address = s.paging.free_page_address) (hfound : s'.found = s.found)
    (hplace : s'.place = s.place) (hhanded : s'.handed = s.handed) (hregions : s'.regions = s.regions) :
    StaticInv cnt e s' := by
  have hk : Kept s s' := by
    refine kept_of_marked ?_ ?_ ?_ hhanded
    · rw [hbits]
      exact h.frames.ok
    · rw [hbits]
    · rw [hbits]
      exact fun f => rfl
  refine h.kept hk ?_ ?_ fun r hr => ?_
  · rw [hfound, hbits]
    exact h.found
  · rw [hplace]
    exact h.place.kept hk hfree
  · rw [hregions] at hr
    exact Or.inl hr

theorem StaticInv.findUnset {use : FrameUse} (h : StaticInv cnt e s) (hfind : s.paging.bits.findUnset.1 = some f)
    (hroom : FrameRoom ⟨s.paging, s.handed⟩ .getPage ⟨s.paging, s.handed⟩) :
    StaticInv cnt e { s with
      paging := { s.paging with bits := s.paging.bits.findUnset.2 }
      found := some (use, f) } := by
  have hlaw := (frameLaw_iff_room h.frames).mpr hroom
  obtain ⟨hlt, hunset, -⟩ := hlaw f hfind
  rw [Bits.isSet_eq, decide_eq_true hlt, Bool.true_and] at hunset
  have hk : Kept s { s with
      paging := { s.paging with bits := s.paging.bits.findUnset.2 }
      found := some (use, f) } :=
    kept_of_marked h.frames.ok.findUnset (Bits.findUnset_cnt _) (Bits.findUnset_marked _) rfl
  refine h.kept hk ?_ (h.place.kept hk rfl) fun r hr => Or.inl hr
  rintro use' g heq
  cases heq
  have hcnt : s.paging.bits.cnt = cnt := h.frames.cnt
  exact ⟨hcnt ▸ hlt, (Bits.findUnset_marked _ f).trans hunset⟩

theorem StaticInv.findUnset_none (h : StaticInv cnt e s) (hidle : s.found = none) : StaticInv cnt e { s with
    paging := { s.paging with bits := s.paging.bits.findUnset.2 } } := by
  have hk : Kept s { s with paging := { s.paging with bits := s.paging.bits.findUnset.2 } } :=
    kept_of_marked h.frames.ok.findUnset (Bits.findUnset_cnt _) (Bits.findUnset_marked _) rfl
  refine h.kept hk ?_ (h.place.kept hk rfl) fun r hr => Or.inl hr
  intro use f heq
  cases hidle.symm.trans heq

theorem take_bits (p : PagingPrivate) (f : ℕ) (use : FrameUse) : (p.take f use).bits = p.bits.set f := by
  cases use <;> rfl

theorem take_free (p : PagingPrivate) (f : ℕ) (use : FrameUse) :
    (p.take f use).free_page_address = p.free_page_address := by
  cases use <;> rfl

theorem StaticInv.setFound {use : FrameUse} (h : StaticInv cnt e s) (hfound : s.found = some (use, f)) :
    StaticInv cnt e { s with
      paging := s.paging.take f use
      found := none
      handed := f :: s.handed } := by
  obtain ⟨hlt, hunmarked⟩ := h.found use f hfound
  have hcnt : s.paging.bits.cnt = cnt := h.frames.cnt
  have hmarks := Bits.marks_set s.paging.bits f
  rw [← take_bits s.paging f use] at hmarks
  have hk : Kept s { s with paging := s.paging.take f use, found := none, handed := f :: s.handed } := by
    refine ⟨hmarks.ok h.frames.ok, hmarks.cnt, fun g hg => (hmarks.marked g).mpr (Or.inl hg), fun g hg => ?_⟩
    rcases List.mem_cons.mp hg with rfl | hold
    · rw [hcnt]
      exact Or.inr ⟨hlt, hunmarked, (hmarks.marked g).mpr (Or.inr ⟨by rw [hcnt]; exact hlt, rfl⟩)⟩
    · exact Or.inl hold
  exact h.kept hk (fun _ _ heq => nomatch heq) (h.place.kept hk (take_free ..)) fun r hr => Or.inl hr

theorem StaticInv.notHanded (h : StaticInv cnt e s) (hlow : 0xA0 ≤ c) (hmay : IsStatic s c ∨ MayMark e s c) :
    c ∉ s.handed ∧ ∀ use, s.found ≠ some (use, c) := by
  have hcnt : s.paging.bits.cnt = cnt := h.frames.cnt
  -- a marked frame is not one that has been found
  have hother : (c < cnt → s.paging.bits.marked c = true) → ∀ use, s.found ≠ some (use, c) := by
    intro hmarked use heq
    obtain ⟨hlt, hunmarked⟩ := h.found use c heq
    rw [hmarked hlt] at hunmarked
    cases hunmarked
  rcases hmay with ⟨-, hmarked, hnot⟩ | hmay
  · rw [hcnt] at hmarked
    exact ⟨hnot, hother hmarked⟩
  by_cases he : e ≤ c
  · obtain ⟨hunset, hfound⟩ := hmay he
    refine ⟨fun hmem => ?_, hfound⟩
    obtain ⟨hlt, -⟩ := h.handed c hmem
    rw [Bits.isSet_eq, h.frames.live c hmem, decide_eq_true (hcnt ▸ hlt)] at hunset
    cases hunset
  · have hlt : c < e := Nat.not_le.mp he
    refine ⟨fun hmem => ?_, hother fun hc => h.below c hlow hlt hc⟩
    obtain ⟨-, hside⟩ := h.handed c hmem
    omega

theorem StaticInv.marks (h : StaticInv cnt e s) {paging : PagingPrivate} (place : Option StaticPlace)
    {P : ℕ → Prop} (hmarks : Bits.Marks s.paging.bits paging.bits P) (hP : ∀ f, P f → f = c) (hlow : 0xA0 ≤ c)
    (hmay : IsStatic s c ∨ MayMark e s c) :
    Kept s { s with paging, place } ∧
      ∀ use f, s.found = some (use, f) → f < cnt ∧ paging.bits.marked f = false := by
  refine ⟨⟨hmarks.ok h.frames.ok, hmarks.cnt, fun f hf => (hmarks.marked f).mpr (Or.inl hf), fun f hf => Or.inl hf⟩,
    fun use f heq => ?_⟩
  obtain ⟨hlt, hunmarked⟩ := h.found use f heq
  refine ⟨hlt, ?_⟩
  rw [← Bool.not_eq_true, hmarks.marked, hunmarked]
  rintro (hold | ⟨-, hf⟩)
  · cases hold
  · exact (h.notHanded hlow hmay).2 use (hP f hf ▸ heq)

theorem marks_markPage (p : PagingPrivate) (i : ℕ) : Bits.Marks p.bits (p.markPage i).bits (· = i) :=
  Bits.marks_ite p.bits i

theorem StaticInv.isStatic (h : StaticInv cnt e s) {place : Option StaticPlace} (hlow : 0xA0 ≤ c)
    (hmay : IsStatic s c ∨ MayMark e s c) : IsStatic { s with paging := s.paging.markPage c, place } c := by
  have hmarks := marks_markPage s.paging c
  refine ⟨hlow, fun hlt => ?_, (h.notHanded hlow hmay).1⟩
  dsimp only at hlt
  rw [hmarks.cnt] at hlt
  exact (hmarks.marked c).mpr (Or.inr ⟨hlt, rfl⟩)

theorem StaticInv.pageAlign (h : StaticInv cnt e s) (hidle : s.place = none)
    (hend : pageUp s.paging.free_page_address.toNat + size.toNat < 2 ^ 32) : StaticInv cnt e { s with
      paging := s.paging.pageAlign
      place := some (.aligned size s.paging.cursor) } := by
  have hpage : PAGE_SIZE = 4096 := rfl
  have hstatic : IsStatic s s.paging.cursor := by
    have hplace := h.place
    rw [hidle] at hplace
    exact hplace
  have hup : pageUp s.paging.free_page_address.toNat ≤ s.paging.free_page_address.toNat + PAGE_SIZE := by
    unfold pageUp
    omega
  obtain ⟨hfree, hmarks⟩ := pageAlignLoop_spec (s := s.paging) (by omega) hup
  obtain ⟨hk, hfound⟩ := h.marks (some (.aligned size s.paging.cursor)) hmarks (fun f hf => hf.2) hstatic.1
    (Or.inl hstatic)
  refine h.kept hk hfound ⟨hk.isStatic hstatic, ?_, ?_, ?_⟩ fun r hr => Or.inl hr
  · unfold cursor
    dsimp only
    rw [PagingPrivate.pageAlign, hfree, hpage]
    unfold pageUp
    omega
  · dsimp only
    rw [PagingPrivate.pageAlign, hfree, hpage]
    unfold pageUp
    omega
  · dsimp only
    rw [PagingPrivate.pageAlign, hfree]
    exact hend

theorem StaticInv.freePageAddress (h : StaticInv cnt e s) {start : ℕ} (hplace : s.place = some (.aligned size start))
    (hmay : s.paging.cursor ≠ start → MayMark e s s.paging.cursor) : StaticInv cnt e { s with
      paging := s.paging.markPage s.paging.cursor
      place := some (.marking size s.paging.cursor ((s.paging.free_page_address + size).toNat / PAGE_SIZE)) } := by
  have hp := h.place
  rw [hplace] at hp
  obtain ⟨hstart, hle, hmod, hend⟩ := hp
  have hlow := Nat.le_trans hstart.1 hle
  have hmay' : IsStatic s s.paging.cursor ∨ MayMark e s s.paging.cursor := by
    by_cases heq : s.paging.cursor = start
    · rw [heq]
      exact Or.inl hstart
    · exact Or.inr (hmay heq)
  obtain ⟨hk, hfound⟩ := h.marks (some (.marking size s.paging.cursor
    ((s.paging.free_page_address + size).toNat / PAGE_SIZE))) (marks_markPage s.paging s.paging.cursor)
    (fun f hf => hf) hlow hmay'
  have hsum : (s.paging.free_page_address + size).toNat = s.paging.free_page_address.toNat + size.toNat := by
    rw [BitVec.toNat_add]
    omega
  refine h.kept hk hfound ⟨fun f hge hf => ?_, Nat.le_refl _, ?_, congrArg (· / PAGE_SIZE) hsum, hend⟩
    fun r hr => Or.inl hr
  · have heq : f = s.paging.cursor := by
      rcases hf with hlt | heq
      · exact absurd hge (Nat.not_le.mpr hlt)
      · exact heq
    rw [heq]
    exact h.isStatic hlow hmay'
  · have hdiv := Nat.div_le_div_right (c := PAGE_SIZE)
      (Nat.le_add_right s.paging.free_page_address.toNat size.toNat)
    rw [hsum]
    exact Nat.le_succ_of_le hdiv

theorem StaticInv.markPage (h : StaticInv cnt e s) {i target : ℕ} (hplace : s.place = some (.marking size i target))
    (hle : i ≤ target) (hmay : i ≠ s.paging.cursor → MayMark e s i) : StaticInv cnt e { s with
      paging := s.paging.markPage i
      place := some (.marking size (i + 1) target) } := by
  have hp := h.place
  rw [hplace] at hp
  obtain ⟨hstatic, hge, -, htarget, hend⟩ := hp
  have hcursor := hstatic _ (Nat.le_refl _) (Or.inr rfl)
  have hlow := Nat.le_trans hcursor.1 hge
  have hmay' : IsStatic s i ∨ MayMark e s i := by
    by_cases heq : i = s.paging.cursor
    · rw [heq]
      exact Or.inl hcursor
    · exact Or.inr (hmay heq)
  obtain ⟨hk, hfound⟩ := h.marks (some (.marking size (i + 1) target)) (marks_markPage s.paging i)
    (fun f hf => hf) hlow hmay'
  refine h.kept hk hfound ⟨fun f hge hf => ?_, Nat.le_succ_of_le hge, Nat.succ_le_succ hle, htarget, hend⟩
    fun r hr => Or.inl hr
  by_cases heq : f = i
  · rw [heq]
    exact h.isStatic hlow hmay'
  · refine hk.isStatic (hstatic f hge ?_)
    rcases hf with hlt | hf
    · exact Or.inl (by omega)
    · exact Or.inr hf

theorem StaticInv.moveCursor (h : StaticInv cnt e s) {i target : ℕ} (hplace : s.place = some (.marking size i target))
    (hlt : target < i) : StaticInv cnt e { s with
      paging := { s.paging with free_page_address := s.paging.free_page_address + size }
      place := none
      regions := (s.paging.free_page_address, size) :: s.regions } := by
  have hp := h.place
  rw [hplace] at hp
  obtain ⟨hstatic, -, -, htarget, hend⟩ := hp
  have hsum : (s.paging.free_page_address + size).toNat = s.paging.free_page_address.toNat + size.toNat := by
    rw [BitVec.toNat_add]
    omega
  have hpage : PAGE_SIZE = 4096 := rfl
  have hk : Kept s { s with
      paging := { s.paging with free_page_address := s.paging.free_page_address + size }
      place := none
      regions := (s.paging.free_page_address, size) :: s.regions } :=
    kept_of_marked h.frames.ok rfl (fun f => rfl) rfl
  refine h.kept hk h.found (hk.isStatic (hstatic _ ?_ (Or.inl ?_))) fun r hr => ?_
  · unfold cursor
    dsimp only
    rw [hsum]
    exact Nat.div_le_div_right (Nat.le_add_right _ _)
  · unfold cursor
    dsimp only
    rw [hsum, ← htarget]
    exact hlt
  · rcases List.mem_cons.mp hr with rfl | hold
    · right
      rintro f ⟨a, hge, ha, rfl⟩
      dsimp only at hge ha
      refine hk.isStatic (hstatic _ ?_ (Or.inl ?_))
      · exact Nat.div_le_div_right hge
      · rw [htarget] at hlt
        exact Nat.lt_of_le_of_lt (Nat.div_le_div_right (Nat.le_of_lt ha)) hlt
    · exact Or.inl hold

theorem StaticInv.apart (h : StaticInv cnt e s) : Apart s :=
  fun f hf r hr hover => (h.regions r hr f hover).2.2 hf

end Invariant

section Calls
variable {s : StaticState} {e : ℕ}

theorem markPages_run {size : Word} {fuel i target : ℕ} (hfuel : i + fuel = target + 1 ∨ fuel = 0 ∧ target < i)
    (hplace : s.place = some (.marking size i target)) :
    ∃ ops j, Run StaticStep s ops { s with
      paging := { s.paging with bits := markPages fuel i s.paging.bits }
      place := some (.marking size j target) } ∧ target < j := by
  induction fuel generalizing s i with
  | zero =>
    refine ⟨[], i, ?_, by omega⟩
    rw [← hplace]
    exact Run.nil s
  | succ fuel ih =>
    have hstep := StaticStep.markPage hplace (by omega : i ≤ target)
    obtain ⟨ops, j, hrun, hj⟩ := ih (s := { s with
      paging := s.paging.markPage i
      place := some (.marking size (i + 1) target) }) (by omega) rfl
    exact ⟨_, j, Run.cons hstep hrun, hj⟩

theorem freePageAddress_eq (p : PagingPrivate) : p.freePageAddress.2 = p.markPage p.cursor := by
  unfold freePageAddress PagingPrivate.markPage cursor
  dsimp only
  split_ifs
  · rfl
  · rfl

theorem allocStatic_run (size : Word) (hplace : s.place = none) :
    ∃ ops, Run StaticStep s ops { s with
      paging := (s.paging.allocStatic size).2
      regions := ((s.paging.allocStatic size).1, size) :: s.regions } := by
  have halign : StaticStep s (.pageAlign size) _ := .pageAlign hplace
  have hmark := StaticStep.freePageAddress (s := { s with
    paging := s.paging.pageAlign
    place := some (.aligned size s.paging.cursor) }) rfl
  have hrounds : ∀ c target : ℕ, c + (target + 1 - c) = target + 1 ∨ target + 1 - c = 0 ∧ target < c := by omega
  obtain ⟨ops, j, hrun, hj⟩ := markPages_run (s := { s with
    paging := s.paging.pageAlign.markPage s.paging.pageAlign.cursor
    place := some (.marking size s.paging.pageAlign.cursor
      ((s.paging.pageAlign.free_page_address + size).toNat / PAGE_SIZE)) }) (hrounds _ _) rfl
  have hmove := StaticStep.moveCursor (s := { s with
    paging := { s.paging.pageAlign.markPage s.paging.pageAlign.cursor with
      bits := markPages ((s.paging.pageAlign.free_page_address + size).toNat / PAGE_SIZE + 1 -
        s.paging.pageAlign.cursor) s.paging.pageAlign.cursor
        (s.paging.pageAlign.markPage s.paging.pageAlign.cursor).bits }
    place := some (.marking size j ((s.paging.pageAlign.free_page_address + size).toNat / PAGE_SIZE)) }) rfl hj
  have hcall := (Run.cons halign (Run.single hmark)).append (hrun.append (Run.single hmove))
  refine ⟨[.pageAlign size, .freePageAddress] ++ (ops ++ [.moveCursor]), ?_⟩
  rw [PagingPrivate.allocStatic]
  dsimp only
  rw [freePageAddress_eq, hplace]
  exact hcall

/-- The state after `getPage`. -/
def StaticState.getPage (s : StaticState) : StaticState :=
  { s with
    paging := s.paging.getPage.2
    handed := (FrameOp.getPage.taken s.paging).toList ++ s.handed }

/-- Between two calls. -/
structure Quiet (s : StaticState) : Prop where
  found : s.found = none
  place : s.place = none

theorem mapFrame_run {p : PagePtr} {type : MapType} {perms : MapPermissions} {ok : Bool} {q : PagingPrivate}
    (hs : Quiet s) (h : s.paging.mapFrame (some p) type perms = some (ok, q)) :
    ∃ ops s', Run StaticStep s ops s' ∧ s'.paging = q ∧ Quiet s' := by
  unfold PagingPrivate.mapFrame at h
  dsimp only at h
  split_ifs at h with havail
  · split at h
    · cases h
    · rename_i f bits hpair
      obtain ⟨-, rfl⟩ := Prod.mk.inj (Option.some.inj h)
      have hfind : s.paging.bits.findUnset.1 = some f := by rw [hpair]
      have hbits : s.paging.bits.findUnset.2 = bits := by rw [hpair]
      have hfirst := @StaticStep.findUnset s (.mapFrame p type perms) f hs.found havail hfind
      have hset := StaticStep.setFound (s := { s with
        paging := { s.paging with bits := s.paging.bits.findUnset.2 }
        found := some (.mapFrame p type perms, f) }) rfl
      rw [← hbits]
      exact ⟨_, _, Run.cons hfirst (Run.single hset), rfl, rfl, hs.place⟩
  · obtain ⟨-, rfl⟩ := Prod.mk.inj (Option.some.inj h)
    exact ⟨[], s, Run.nil s, rfl, hs⟩

theorem dirGetPage_run (hs : Quiet s) (addr : Word) :
    ∃ ops s', Run StaticStep s ops s' ∧ s'.paging = (s.paging.dirGetPage addr .doReserve).2 ∧ Quiet s' := by
  obtain ⟨ops, hrun⟩ := allocStatic_run SIZEOF_PAGE_TABLE hs.place
  unfold dirGetPage
  dsimp only
  split
  · exact ⟨[], s, Run.nil s, rfl, hs⟩
  · split_ifs
    · exact ⟨ops, _, hrun, rfl, hs.found, hs.place⟩
    · have hnew := @StaticStep.newTable { s with
        paging := (s.paging.allocStatic SIZEOF_PAGE_TABLE).2
        regions := ((s.paging.allocStatic SIZEOF_PAGE_TABLE).1, SIZEOF_PAGE_TABLE) :: s.regions }
        (addr.toNat / PAGE_SIZE / PAGES_PER_TABLE)
      exact ⟨_, _, hrun.append (Run.single hnew), rfl, hs.found, hs.place⟩

theorem mapLoop_run {type : MapType} {cnt : ℕ} {i : Word} {ok : Bool} {p : PagingPrivate} (hs : Quiet s)
    (h : PagingPrivate.mapLoop type cnt i s.paging = some (ok, p)) :
    ∃ ops s', Run StaticStep s ops s' ∧ s'.paging = p ∧ Quiet s' := by
  induction cnt generalizing i s with
  | zero =>
    obtain ⟨-, rfl⟩ := Prod.mk.inj (Option.some.inj h)
    exact ⟨[], s, Run.nil s, rfl, hs⟩
  | succ cnt ih =>
    obtain ⟨ops, t, hrun, hpaging, ht⟩ := dirGetPage_run hs i
    rw [PagingPrivate.mapLoop] at h
    generalize s.paging.dirGetPage i .doReserve = r at h hpaging
    obtain ⟨page, q⟩ := r
    obtain rfl : t.paging = q := hpaging
    cases page with
    | none =>
      obtain ⟨-, hp⟩ := Prod.mk.inj (Option.some.inj h)
      exact ⟨ops, t, hrun, hp, ht⟩
    | some page =>
      dsimp only at h
      split_ifs at h
      · cases hmap : t.paging.mapFrame (some page) type .rw with
        | none =>
          rw [hmap] at h
          cases h
        | some r =>
          obtain ⟨ok', q⟩ := r
          obtain ⟨ops', u, hframe, rfl, hu⟩ := mapFrame_run ht hmap
          have hboth := hrun.append hframe
          rw [hmap] at h
          cases ok' with
          | false =>
            obtain ⟨-, hp⟩ := Prod.mk.inj (Option.some.inj h)
            exact ⟨_, u, hboth, hp, hu⟩
          | true =>
            obtain ⟨ops'', s', hrest, hp, hs'⟩ := ih hu h
            exact ⟨_, s', hboth.append hrest, hp, hs'⟩
      · obtain ⟨-, hp⟩ := Prod.mk.inj (Option.some.inj h)
        exact ⟨ops, t, hrun, hp, ht⟩

theorem alloc_mapLoop {p q : PagingPrivate} {cnt ptr : Word} (h : p.alloc cnt = some (ptr, q)) :
    ∃ i addr ok, PagingPrivate.mapLoop (PagingPrivate.mapType PAGING_MAP_R0) cnt.toNat i
      (p.setHeap PAGING_MAP_R0 addr) = some (ok, q) := by
  refine ⟨PagingPrivate.alignAddress PAGE_SIZE (p.heap PAGING_MAP_R0), Nat.iterate
    (· + BitVec.ofNat 32 PAGE_SIZE) cnt.toNat (PagingPrivate.alignAddress PAGE_SIZE (p.heap PAGING_MAP_R0)), ?_⟩
  unfold PagingPrivate.alloc PagingPrivate.map at h
  dsimp only at h
  split at h
  · cases h
  · rename_i hmap
    split at hmap
    · cases hmap
    · cases hmap
    · rename_i hloop
      cases hmap
      cases h
      exact ⟨true, hloop⟩
  · rename_i hmap
    split at hmap
    · cases hmap
    · rename_i hloop
      cases hmap
      cases h
      exact ⟨false, hloop⟩
    · rename_i hloop
      cases hmap
      cases h
      exact ⟨true, hloop⟩

/-- A call of `alloc` without other steps between its own. -/
theorem alloc_run {cnt ptr : Word} {p : PagingPrivate} (hs : Quiet s) (h : s.paging.alloc cnt = some (ptr, p)) :
    ∃ ops s', Run StaticStep s ops s' ∧ s'.paging = p ∧ Quiet s' := by
  obtain ⟨i, addr, ok, hloop⟩ := alloc_mapLoop h
  have hstep : StaticStep s (.setHeap PAGING_MAP_R0 addr)
      { s with paging := s.paging.setHeap PAGING_MAP_R0 addr } := .setHeap
  obtain ⟨ops, s', hrun, hp, hs'⟩ :=
    mapLoop_run (s := { s with paging := s.paging.setHeap PAGING_MAP_R0 addr }) ⟨hs.found, hs.place⟩ hloop
  exact ⟨_, s', Run.cons hstep hrun, hp, hs'⟩

end Calls

section Start
variable {image : KernelImage} {mmap : List MemoryMap} {s₀ : PagingPrivate}

end Start

section Fronts
variable {image : KernelImage} {mmap : List MemoryMap} {s₀ : PagingPrivate} {s : StaticState}

end Fronts

end CxxKernel.Paging
