import CxxKernel.Lib.Runs
import CxxKernel.Paging.PagingX86

/-! The pages that `map` and `mapPhys` map, and the entries that they leave alone. -/
namespace CxxKernel.Paging
open Runs

namespace Page
variable {p : Page} {i k : ℕ} {is : Bool} {a : Word}

theorem getLsbD_setBit (hi : i < 32) :
    (p.setBit i is).val.getLsbD k = if k = i then is else p.val.getLsbD k := by
  have hone := @Bits.getLsbD_one_shift i k hi
  unfold setBit
  cases is
  · have hmask : (~~~((1 : Word) <<< i)).getLsbD k = (decide (k < 32) && !decide (k = i)) := by
      rw [BitVec.getLsbD_not, hone]
    simp only [Bool.false_eq_true, if_false, BitVec.getLsbD_and, hmask]
    by_cases hk : k = i
    · simp [hk]
    · by_cases hlt : k < 32
      · simp [hk, hlt]
      · simp [hk, BitVec.getLsbD_of_ge _ _ (Nat.not_lt.mp hlt)]
  · simp only [if_true, BitVec.getLsbD_or, hone]
    by_cases hk : k = i <;> simp [hk]

theorem and_one_ne_zero (w : Word) : decide (w &&& 1 ≠ 0) = w.getLsbD 0 := by
  have hbit : w &&& 1 = 0 ↔ w.getLsbD 0 = false := Bits.and_shift_eq_zero w (by decide : 0 < 32)
  rw [Bool.eq_iff_iff, decide_eq_true_eq, ne_eq, hbit, Bool.not_eq_false]

theorem getPresent_eq (p : Page) : p.getPresent = p.val.getLsbD 0 := and_one_ne_zero p.val

theorem getUserspace_eq (p : Page) : p.getUserspace = p.val.getLsbD 2 := by
  have hbit := and_one_ne_zero (p.val >>> 2)
  rwa [BitVec.getLsbD_ushiftRight] at hbit

theorem getLsbD_setAddress (hk : k < 12) : (p.setAddress a).val.getLsbD k = p.val.getLsbD k := by
  have hhigh : ∀ k < 12, (0xFFFFF000 : Word).getLsbD k = false := by decide
  have hlow : ∀ k < 12, (0xFFF : Word).getLsbD k = true := by decide
  simp only [setAddress, BitVec.getLsbD_or, BitVec.getLsbD_and, hhigh k hk, hlow k hk, Bool.and_false,
    Bool.and_true, Bool.false_or]

theorem not_avail_of_present (h : p.getPresent = true) : p.isAvail = false := by
  rw [isAvail, h]
  simp

theorem present_of_avail (h : p.isAvail = true) : p.getPresent = false := by
  by_contra hp
  rw [not_avail_of_present (eq_true_of_ne_false hp)] at h
  cases h

end Page

section Mapped
variable (page : Page) (addr : Word) (type : MapType) (perms : MapPermissions)

theorem mapped_present : (PagingPrivate.mapped page addr type perms).getPresent = true := by
  rw [PagingPrivate.mapped, Page.getPresent_eq, Page.getLsbD_setAddress (by decide), Page.setUserspace,
    Page.getLsbD_setBit (by decide), if_neg (by decide), Page.setRw, Page.getLsbD_setBit (by decide),
    if_neg (by decide), Page.setPresent, Page.getLsbD_setBit (by decide), if_pos rfl]

theorem mapped_userspace :
    (PagingPrivate.mapped page addr type perms).getUserspace = decide (type = .user) := by
  rw [PagingPrivate.mapped, Page.getUserspace_eq, Page.getLsbD_setAddress (by decide),
    Page.setUserspace, Page.getLsbD_setBit (by decide), if_pos rfl]

end Mapped

namespace PageDir
variable {d : PageDir} {p q : PagePtr} {page : Page} {v : ℕ}

/-- The pointer to the entry of page `v`. -/
def ptr (v : ℕ) : PagePtr := (v / PAGES_PER_TABLE, v % PAGES_PER_TABLE)

/-- The entry of page `v`. -/
def pageAt (d : PageDir) (v : ℕ) : Page := d.load (ptr v)

theorem ptr_inj {w : ℕ} (h : ptr v = ptr w) : v = w := by
  obtain ⟨hdiv, hmod⟩ := Prod.mk.inj h
  unfold PAGES_PER_TABLE at hdiv hmod
  omega

theorem load_store (h : d.tables p.1 ≠ none) : (d.store p page).load q = if q = p then page else d.load q := by
  obtain ⟨table, htable⟩ := Option.ne_none_iff_exists'.mp h
  rw [store, htable]
  unfold load
  by_cases hfst : q.1 = p.1
  · rw [hfst]
    dsimp only
    rw [Function.update_self, htable]
    by_cases hsnd : q.2 = p.2
    · rw [if_pos (Prod.ext hfst hsnd), hsnd]
      exact Function.update_self ..
    · have hne : q ≠ p := fun he => hsnd (congrArg Prod.snd he)
      rw [if_neg hne]
      exact Function.update_of_ne hsnd ..
  · have hne : q ≠ p := fun he => hfst (congrArg Prod.fst he)
    rw [if_neg hne]
    dsimp only
    rw [Function.update_of_ne hfst]

end PageDir

namespace PagingPrivate
variable {s s' : PagingPrivate}

theorem pageAlignLoop_directory (fuel : ℕ) (s : PagingPrivate) :
    (pageAlignLoop fuel s).directory = s.directory := by
  induction fuel generalizing s with
  | zero => rfl
  | succ fuel ih =>
    rw [pageAlignLoop]
    split_ifs
    · exact ih _
    · rfl

theorem allocStatic_directory (s : PagingPrivate) (size : Word) :
    (s.allocStatic size).2.directory = s.directory := by
  have halign := pageAlignLoop_directory PAGE_SIZE s
  change (s.pageAlign.freePageAddress).2.directory = _
  unfold freePageAddress
  dsimp only
  split_ifs
  · exact halign
  · exact halign

theorem dirGetPage_pageAt (s : PagingPrivate) (addr : Word) (reserve : PageReserve) (v : ℕ) :
    (s.dirGetPage addr reserve).2.directory.pageAt v = s.directory.pageAt v := by
  unfold dirGetPage
  dsimp only
  split
  · rfl
  · rename_i hnone
    cases reserve with
    | dontReserve => rfl
    | doReserve =>
      have hdir := allocStatic_directory s (BitVec.ofNat 32 (4 * PAGES_PER_TABLE))
      dsimp only
      split_ifs
      · rw [hdir]
      · unfold PageDir.pageAt PageDir.load
        dsimp only
        rw [hdir]
        by_cases hv : (PageDir.ptr v).1 = addr.toNat / PAGE_SIZE / PAGES_PER_TABLE
        · rw [hv, Function.update_self, hnone]
          rfl
        · rw [Function.update_of_ne hv]

theorem dirGetPage_of_table {addr : Word} (reserve : PageReserve)
    (h : s.directory.tables (addr.toNat / PAGE_SIZE / PAGES_PER_TABLE) ≠ none) :
    s.dirGetPage addr reserve = (some (PageDir.ptr (addr.toNat / PAGE_SIZE)), s) := by
  obtain ⟨table, htable⟩ := Option.ne_none_iff_exists'.mp h
  unfold dirGetPage
  dsimp only
  rw [htable]
  rfl

/-- Without a table static memory is taken once, and nothing but the directory changes beside. -/
theorem dirGetPage_of_none {addr : Word}
    (h : s.directory.tables (addr.toNat / PAGE_SIZE / PAGES_PER_TABLE) = none) :
    ∃ directory, (s.dirGetPage addr .doReserve).2 =
      { (s.allocStatic (BitVec.ofNat 32 (4 * PAGES_PER_TABLE))).2 with directory } := by
  unfold dirGetPage
  dsimp only
  rw [h]
  dsimp only
  split_ifs
  · exact ⟨_, rfl⟩
  · exact ⟨_, rfl⟩

/-- The pointer is the one to the entry of the page of the address, in a table that is there. -/
theorem dirGetPage_some {addr : Word} {reserve : PageReserve} {p : PagePtr}
    (h : s.dirGetPage addr reserve = (some p, s')) :
    p = PageDir.ptr (addr.toNat / PAGE_SIZE) ∧ s'.directory.tables p.1 ≠ none := by
  unfold dirGetPage at h
  dsimp only at h
  split at h
  · rename_i table htable
    obtain ⟨hp, rfl⟩ := Prod.mk.inj h
    obtain rfl := Option.some.inj hp
    refine ⟨rfl, ?_⟩
    rw [htable]
    simp
  · cases reserve with
    | dontReserve => cases h
    | doReserve =>
      dsimp only at h
      split_ifs at h
      · cases h
      · obtain ⟨hp, rfl⟩ := Prod.mk.inj h
        obtain rfl := Option.some.inj hp
        refine ⟨rfl, ?_⟩
        dsimp only
        rw [Function.update_self]
        simp

/-- The pages that were mapped are as before. -/
def Keeps (s s' : PagingPrivate) : Prop :=
  ∀ v, (s.directory.pageAt v).getPresent = true → s'.directory.pageAt v = s.directory.pageAt v

theorem Keeps.trans {s₁ s₂ s₃ : PagingPrivate} (h : Keeps s₁ s₂) (h' : Keeps s₂ s₃) : Keeps s₁ s₃ := by
  intro v hv
  have hsame := h v hv
  rw [h' v (hsame ▸ hv), hsame]

/-- A page that is mapped now. -/
structure Fresh (type : MapType) (s s' : PagingPrivate) (v : ℕ) : Prop where
  before : (s.directory.pageAt v).getPresent = false
  present : (s'.directory.pageAt v).getPresent = true
  userspace : (s'.directory.pageAt v).getUserspace = decide (type = .user)

/-- Only the entry of page `v` is written. -/
def Elsewhere (v : ℕ) (s s' : PagingPrivate) : Prop :=
  ∀ w ≠ v, s'.directory.pageAt w = s.directory.pageAt w

theorem Fresh.keeps_of_elsewhere {type : MapType} {v : ℕ} (h : Fresh type s s' v)
    (helse : Elsewhere v s s') : Keeps s s' := by
  intro w hw
  apply helse
  rintro rfl
  rw [h.before] at hw
  cases hw

theorem stored_fresh {addr : Word} {type : MapType} {perms : MapPermissions} {v : ℕ}
    (htable : s.directory.tables (PageDir.ptr v).1 ≠ none)
    (havail : (s.directory.pageAt v).isAvail = true)
    (hdir : s'.directory = s.directory.store (PageDir.ptr v)
      (mapped (s.directory.pageAt v) addr type perms)) :
    Fresh type s s' v ∧ Elsewhere v s s' := by
  have hpage : ∀ w, s'.directory.pageAt w =
      if w = v then mapped (s.directory.pageAt v) addr type perms else s.directory.pageAt w := by
    intro w
    rw [PageDir.pageAt, hdir, PageDir.load_store htable]
    by_cases hw : w = v
    · rw [if_pos (congrArg PageDir.ptr hw), if_pos hw]
    · rw [if_neg fun h => hw (PageDir.ptr_inj h), if_neg hw]
      rfl
  refine ⟨⟨Page.present_of_avail havail, ?_, ?_⟩, fun w hw => ?_⟩
  · rw [hpage, if_pos rfl, mapped_present]
  · rw [hpage, if_pos rfl, mapped_userspace]
  · rw [hpage, if_neg hw]

theorem mapFrame_fresh {type : MapType} {perms : MapPermissions} {v : ℕ} {ok : Bool}
    (htable : s.directory.tables (PageDir.ptr v).1 ≠ none)
    (havail : (s.directory.pageAt v).isAvail = true)
    (h : s.mapFrame (some (PageDir.ptr v)) type perms = some (ok, s')) :
    Fresh type s s' v ∧ Elsewhere v s s' := by
  have havail' : (s.directory.load (PageDir.ptr v)).isAvail = true := havail
  rw [mapFrame, if_pos havail'] at h
  split at h
  · cases h
  · obtain ⟨-, rfl⟩ := Prod.mk.inj (Option.some.inj h)
    exact stored_fresh htable havail rfl

/-- The numbers of `cnt` pages from address `base` on. Addresses wrap around. -/
def pagesFrom (base : Word) (cnt : ℕ) : List ℕ :=
  (List.range cnt).map fun k => (base + BitVec.ofNat 32 (k * PAGE_SIZE)).toNat / PAGE_SIZE

theorem pagesFrom_succ (base : Word) (cnt : ℕ) :
    pagesFrom base (cnt + 1) =
      base.toNat / PAGE_SIZE :: pagesFrom (base + BitVec.ofNat 32 PAGE_SIZE) cnt := by
  unfold pagesFrom
  rw [List.range_succ_eq_map, List.map_cons, List.map_map, Nat.zero_mul, BitVec.add_zero]
  apply congrArg (base.toNat / PAGE_SIZE :: ·)
  apply List.map_congr_left
  intro k _
  have hnext : (k + 1) * PAGE_SIZE = PAGE_SIZE + k * PAGE_SIZE := by
    rw [Nat.add_mul, Nat.one_mul, Nat.add_comm]
  rw [Function.comp, hnext, BitVec.ofNat_add, BitVec.add_assoc]

theorem keeps_of_pageAt (h : ∀ v, s'.directory.pageAt v = s.directory.pageAt v) : Keeps s s' :=
  fun v _ => h v

theorem Fresh.of_pageAt {s₁ : PagingPrivate} {type : MapType} {v : ℕ} (h : Fresh type s₁ s' v)
    (hsame : s₁.directory.pageAt v = s.directory.pageAt v) : Fresh type s s' v :=
  ⟨hsame ▸ h.before, h.present, h.userspace⟩

theorem Fresh.keeps {s₁ : PagingPrivate} {type : MapType} {v : ℕ} (h : Fresh type s s₁ v)
    (hkeep : Keeps s₁ s') : Fresh type s s' v := by
  have hsame := hkeep v h.present
  refine ⟨h.before, ?_, ?_⟩
  · rw [hsame, h.present]
  · rw [hsame, h.userspace]

/-- The loop of `map` keeps the pages that are mapped. When it succeeds, its pages are different
from one another and were not mapped. -/
theorem mapLoop_fresh {type : MapType} {cnt : ℕ} {i : Word} {ok : Bool}
    (h : mapLoop type cnt i s = some (ok, s')) :
    Keeps s s' ∧ (ok = true →
      (pagesFrom i cnt).Nodup ∧ ∀ v ∈ pagesFrom i cnt, Fresh type s s' v) := by
  induction cnt generalizing i s with
  | zero =>
    obtain ⟨-, rfl⟩ := Prod.mk.inj (Option.some.inj h)
    exact ⟨fun _ _ => rfl, fun _ => ⟨List.nodup_nil, fun v hv => absurd hv List.not_mem_nil⟩⟩
  | succ cnt ih =>
    have hpages := dirGetPage_pageAt s i .doReserve
    rw [mapLoop] at h
    cases hget : s.dirGetPage i .doReserve with
    | mk found s₁ =>
      rw [hget] at h hpages
      have hkeep₁ : Keeps s s₁ := keeps_of_pageAt hpages
      have hfail : some (false, s₁) = some (ok, s') → _ := fun hf =>
        Prod.mk.inj (Option.some.inj hf)
      cases found with
      | none =>
        obtain ⟨rfl, rfl⟩ := hfail h
        exact ⟨hkeep₁, fun hok => absurd hok (by decide)⟩
      | some p =>
        obtain ⟨rfl, htable⟩ := dirGetPage_some hget
        dsimp only at h
        split at h
        · rename_i havail
          split at h
          · cases h
          · rename_i s₂ hmap
            obtain ⟨rfl, rfl⟩ := Prod.mk.inj (Option.some.inj h)
            obtain ⟨hfresh, helse⟩ := mapFrame_fresh htable havail hmap
            exact ⟨hkeep₁.trans (hfresh.keeps_of_elsewhere helse), fun hok => absurd hok (by decide)⟩
          · rename_i s₂ hmap
            obtain ⟨hfresh, helse⟩ := mapFrame_fresh htable havail hmap
            have hkeep₂ := hfresh.keeps_of_elsewhere helse
            obtain ⟨hkeep₃, hrest⟩ := ih h
            have hfirst : Fresh type s s' (i.toNat / PAGE_SIZE) :=
              (hfresh.keeps hkeep₃).of_pageAt (hpages _)
            refine ⟨(hkeep₁.trans hkeep₂).trans hkeep₃, fun hok => ?_⟩
            obtain ⟨hnodup, hall⟩ := hrest hok
            -- the pages of the other rounds are not the one that is mapped now
            have hother : ∀ v ∈ pagesFrom (i + BitVec.ofNat 32 PAGE_SIZE) cnt,
                v ≠ i.toNat / PAGE_SIZE := by
              rintro v hv rfl
              have hbefore := (hall _ hv).before
              rw [hfresh.present] at hbefore
              cases hbefore
            rw [pagesFrom_succ]
            refine ⟨List.nodup_cons.mpr ⟨fun hmem => hother _ hmem rfl, hnodup⟩, fun v hv => ?_⟩
            rcases List.mem_cons.mp hv with rfl | hv
            · exact hfirst
            · have hsame := helse v (hother v hv)
              rw [hpages] at hsame
              exact (hall v hv).of_pageAt hsame
        · obtain ⟨rfl, rfl⟩ := hfail h
          exact ⟨hkeep₁, fun hok => absurd hok (by decide)⟩

theorem alignAddress_mod {fuel : ℕ} {addr : Word}
    (h : addr.toNat % PAGE_SIZE = 0 ∨ PAGE_SIZE ≤ addr.toNat % PAGE_SIZE + fuel) :
    (alignAddress fuel addr).toNat % PAGE_SIZE = 0 := by
  have hpos : 0 < PAGE_SIZE := by decide
  induction fuel generalizing addr with
  | zero =>
    rw [alignAddress]
    have hlt := Nat.mod_lt addr.toNat hpos
    omega
  | succ fuel ih =>
    rw [alignAddress]
    split_ifs with hmod
    · apply ih
      have hone : (1 : Word).toNat = 1 := rfl
      rw [BitVec.toNat_add, hone]
      unfold PAGE_SIZE at h hmod ⊢
      omega
    · omega

theorem alignAddress_aligned (addr : Word) : (alignAddress PAGE_SIZE addr).toNat % PAGE_SIZE = 0 :=
  alignAddress_mod (.inr (Nat.le_add_left ..))

@[simp] theorem setHeap_directory (s : PagingPrivate) (flags addr : Word) :
    (s.setHeap flags addr).directory = s.directory := by
  unfold setHeap
  split_ifs
  · rfl
  · rfl

theorem map_fresh {flags cnt : Word} {ok : Bool} {base : Option Word}
    (h : s.map flags cnt = some (ok, base, s')) :
    Keeps s s' ∧ (ok = true → ∃ b, base = some b ∧ b.toNat % PAGE_SIZE = 0 ∧
      (pagesFrom b cnt.toNat).Nodup ∧ ∀ v ∈ pagesFrom b cnt.toNat, Fresh (mapType flags) s s' v) := by
  unfold map at h
  dsimp only at h
  generalize hi : alignAddress PAGE_SIZE (s.heap flags) = i at h
  generalize hs : s.setHeap flags (Nat.iterate (· + BitVec.ofNat 32 PAGE_SIZE) cnt.toNat i) = s₁ at h
  have hdir : ∀ v, s₁.directory.pageAt v = s.directory.pageAt v := by
    intro v
    rw [← hs, setHeap_directory]
  have hkeep₁ : Keeps s s₁ := keeps_of_pageAt hdir
  split at h
  · cases h
  · rename_i hloop
    obtain ⟨rfl, -, rfl⟩ : false = ok ∧ none = base ∧ _ = s' := by simpa using h
    obtain ⟨hkeep, -⟩ := mapLoop_fresh hloop
    exact ⟨hkeep₁.trans hkeep, fun hok => absurd hok (by decide)⟩
  · rename_i hloop
    obtain ⟨rfl, rfl, rfl⟩ : true = ok ∧ some i = base ∧ _ = s' := by simpa using h
    obtain ⟨hkeep, hall⟩ := mapLoop_fresh hloop
    obtain ⟨hnodup, hfresh⟩ := hall rfl
    refine ⟨hkeep₁.trans hkeep, fun _ => ⟨i, rfl, ?_, hnodup, fun v hv => ?_⟩⟩
    · rw [← hi]
      exact alignAddress_aligned _
    · exact (hfresh v hv).of_pageAt (hdir v)

theorem mapPhys_fresh {phys flags : Word} {ok : Bool} {base : Option Word}
    (h : s.mapPhys phys flags = (ok, base, s')) :
    Keeps s s' ∧ (ok = true → ∃ b, base = some b ∧ b.toNat % PAGE_SIZE = 0 ∧
      Fresh (mapType flags) s s' (b.toNat / PAGE_SIZE)) := by
  unfold mapPhys at h
  dsimp only at h
  generalize hi : alignAddress PAGE_SIZE (s.heap flags) = i at h
  generalize hs : s.setHeap flags (i + BitVec.ofNat 32 PAGE_SIZE) = s₁ at h
  have hpages := dirGetPage_pageAt s₁ i .doReserve
  cases hget : s₁.dirGetPage i .doReserve with
  | mk found s₂ =>
    rw [hget] at h hpages
    have hdir : ∀ v, s₂.directory.pageAt v = s.directory.pageAt v := by
      intro v
      rw [hpages, ← hs, setHeap_directory]
    have hkeep : Keeps s s₂ := keeps_of_pageAt hdir
    cases found with
    | none =>
      obtain ⟨rfl, -, rfl⟩ : false = ok ∧ none = base ∧ s₂ = s' := by simpa using h
      exact ⟨hkeep, fun hok => absurd hok (by decide)⟩
    | some p =>
      obtain ⟨rfl, htable⟩ := dirGetPage_some hget
      dsimp only at h
      split_ifs at h with havail
      · obtain ⟨-, rfl, hend⟩ : _ = ok ∧ some i = base ∧ _ = s' := by simpa using h
        obtain ⟨hfresh, helse⟩ := stored_fresh htable havail (congrArg directory hend.symm)
        refine ⟨hkeep.trans (hfresh.keeps_of_elsewhere helse), fun _ => ⟨i, rfl, ?_, ?_⟩⟩
        · rw [← hi]
          exact alignAddress_aligned _
        · exact hfresh.of_pageAt (hdir _)
      · obtain ⟨rfl, -, rfl⟩ : false = ok ∧ none = base ∧ s₂ = s' := by simpa using h
        exact ⟨hkeep, fun hok => absurd hok (by decide)⟩

end PagingPrivate

/-- The paging state, and the pages that successful calls have returned. -/
structure MapState where
  paging : PagingPrivate
  pages : List ℕ

inductive MapOp
  | map (flags cnt : Word)
  | mapPhys (phys flags : Word)

namespace MapOp

def flags : MapOp → Word
  | .map flags _ => flags
  | .mapPhys _ flags => flags

def cnt : MapOp → ℕ
  | .map _ cnt => cnt.toNat
  | .mapPhys .. => 1

def call (s : PagingPrivate) : MapOp → Option (Bool × Option Word × PagingPrivate)
  | .map flags cnt => s.map flags cnt
  | .mapPhys phys flags => some (s.mapPhys phys flags)

def exec (s : MapState) (op : MapOp) : Option MapState :=
  match op.call s.paging with
  | none => none
  | some (true, some base, paging) => some ⟨paging, PagingPrivate.pagesFrom base op.cnt ++ s.pages⟩
  | some (_, _, paging) => some ⟨paging, s.pages⟩

end MapOp

/-- A call that returns. -/
def MapStep (s : MapState) (op : MapOp) (s' : MapState) : Prop := op.exec s = some s'

/-- The call keeps the pages that are mapped. If it succeeds, its pages were not mapped, and are
mapped now as asked. -/
def MapLaw (s : MapState) (op : MapOp) (s' : MapState) : Prop :=
  PagingPrivate.Keeps s.paging s'.paging ∧
    ∀ base, op.call s.paging = some (true, base, s'.paging) →
      ∃ b, base = some b ∧ b.toNat % PAGE_SIZE = 0 ∧
        ∀ v ∈ PagingPrivate.pagesFrom b op.cnt,
          PagingPrivate.Fresh (PagingPrivate.mapType op.flags) s.paging s'.paging v

section Runs
variable {s s' : MapState} {op : MapOp} {ops : List MapOp} {ok : Bool} {base : Option Word}
  {paging : PagingPrivate}
open PagingPrivate

/-- What a call does, whichever of the two functions it calls. -/
theorem call_fresh (h : op.call s.paging = some (ok, base, paging)) :
    Keeps s.paging paging ∧ (ok = true → ∃ b, base = some b ∧ b.toNat % PAGE_SIZE = 0 ∧
      (pagesFrom b op.cnt).Nodup ∧
      ∀ v ∈ pagesFrom b op.cnt, Fresh (mapType op.flags) s.paging paging v) := by
  cases op with
  | map flags cnt => exact map_fresh h
  | mapPhys phys flags =>
    obtain ⟨hkeep, hok⟩ := mapPhys_fresh (Option.some.inj h)
    refine ⟨hkeep, fun htrue => ?_⟩
    obtain ⟨b, hbase, hmod, hfresh⟩ := hok htrue
    have hone : pagesFrom b 1 = [b.toNat / PAGE_SIZE] := pagesFrom_succ b 0
    refine ⟨b, hbase, hmod, ?_, ?_⟩
    · change (pagesFrom b 1).Nodup
      rw [hone]
      exact List.nodup_cons.mpr ⟨List.not_mem_nil, List.nodup_nil⟩
    · change ∀ v ∈ pagesFrom b 1, _
      rw [hone]
      exact fun v hv => List.mem_singleton.mp hv ▸ hfresh

/-- The pages that were returned are different from one another, and are still mapped. -/
def MapInv (s : MapState) : Prop :=
  s.pages.Nodup ∧ ∀ v ∈ s.pages, (s.paging.directory.pageAt v).getPresent = true

theorem exec_cases (h : op.exec s = some s') :
    ∃ ok base, op.call s.paging = some (ok, base, s'.paging) ∧
      (s'.pages = s.pages ∨
        ∃ b, ok = true ∧ base = some b ∧ s'.pages = pagesFrom b op.cnt ++ s.pages) := by
  unfold MapOp.exec at h
  split at h
  · cases h
  · rename_i b paging hcall
    obtain rfl := Option.some.inj h
    exact ⟨true, some b, hcall, .inr ⟨b, rfl, rfl, rfl⟩⟩
  · rename_i ok base paging _ hcall
    obtain rfl := Option.some.inj h
    exact ⟨ok, base, hcall, .inl rfl⟩

theorem mapStep_law (h : MapStep s op s') : MapLaw s op s' := by
  obtain ⟨ok, base, hcall, -⟩ := exec_cases h
  refine ⟨(call_fresh hcall).1, fun base' hsuccess => ?_⟩
  obtain ⟨b, hb, hmod, -, hfresh⟩ := (call_fresh hsuccess).2 rfl
  exact ⟨b, hb, hmod, hfresh⟩

theorem mapStep_inv (hinv : MapInv s) (h : MapStep s op s') : MapInv s' := by
  obtain ⟨hnodup, hpresent⟩ := hinv
  obtain ⟨ok, base, hcall, hpages⟩ := exec_cases h
  obtain ⟨hkeep, hok⟩ := call_fresh hcall
  have hstill : ∀ v ∈ s.pages, (s'.paging.directory.pageAt v).getPresent = true := by
    intro v hv
    rw [hkeep v (hpresent v hv)]
    exact hpresent v hv
  rcases hpages with hsame | ⟨b, rfl, rfl, hmore⟩
  · unfold MapInv
    rw [hsame]
    exact ⟨hnodup, hstill⟩
  · obtain ⟨b', hb, -, hnew, hfresh⟩ := hok rfl
    obtain rfl := Option.some.inj hb
    unfold MapInv
    rw [hmore]
    constructor
    · refine List.nodup_append.mpr ⟨hnew, hnodup, fun v hv w hw hvw => ?_⟩
      -- a page that an earlier call returned is mapped, one that this call returns was not
      have hbefore := (hfresh v hv).before
      rw [hvw, hpresent w hw] at hbefore
      cases hbefore
    · intro v hv
      rcases List.mem_append.mp hv with hv | hv
      · exact (hfresh v hv).present
      · exact hstill v hv

/-- Every call of a run keeps the law, and no two of them return the same page. -/
theorem mapRun_law (h : Run MapStep s ops s') (hpages : s.pages = []) :
    Run (Guarded MapStep MapLaw) s ops s' ∧ s'.pages.Nodup := by
  have hinv : MapInv s := by
    unfold MapInv
    rw [hpages]
    exact ⟨List.nodup_nil, fun v hv => absurd hv List.not_mem_nil⟩
  constructor
  · exact h.guard fun op _ _ _ hstep => mapStep_law hstep
  · exact (h.invariant (fun s op s' hinv hstep => mapStep_inv hinv hstep) hinv).1

end Runs

/-- Page 3 is mapped where the kernel heap starts. -/
def mapStart : MapState where
  paging :=
    { bits := .new 40
      directory := ⟨fun k => if k = 0 then some fun i => if i = 3 then ⟨0x7001⟩ else ⟨0⟩ else none⟩
      free_page_address := 0x1000
      heap_address := 0x1001
      user_heap_address := 0xFFFFF000 }
  pages := []

/-- The first call stops at page 3. The user pages are the last one and page 0. -/
theorem mapRun_law_mapStart :
    ∃ s', Run (Guarded MapStep MapLaw) mapStart
        [.map 0 4, .mapPhys 0x5000 PAGING_MAP_USED, .map PAGING_MAP_USER 2] s' ∧ s'.pages.Nodup ∧
      s'.pages = [0xFFFFF, 0, 6] := by
  have hrun : (runAll (fun s op => MapOp.exec s op) mapStart
      [.map 0 4, .mapPhys 0x5000 PAGING_MAP_USED, .map PAGING_MAP_USER 2]).map MapState.pages =
        some [0xFFFFF, 0, 6] := by decide +kernel
  obtain ⟨s', hrun, hpages⟩ := Option.map_eq_some_iff.mp hrun
  obtain ⟨hlaw, hnodup⟩ := mapRun_law (run_of_runAll hrun) rfl
  exact ⟨s', hlaw, hnodup, hpages⟩

end CxxKernel.Paging
