import CxxKernel.Paging.RealMemory
import CxxKernel.Paging.FailedMap
import CxxKernel.Paging.Unmap

/-! Pages with a frame of their own: the addresses of such a page lead to bytes that no other address
leads to. -/
namespace CxxKernel.Paging

namespace Page
variable {p : Page} {a : Word}

theorem toNat_and_mask (a : Word) : (a &&& 0xFFFFF000).toNat = a.toNat / PAGE_SIZE * PAGE_SIZE := by
  have hmask : ∀ k < 32, (0xFFFFF000 : Word).getLsbD k = decide (12 ≤ k) := by decide
  have hshift : (a &&& (0xFFFFF000 : Word)) = a >>> 12 <<< 12 := by
    apply BitVec.eq_of_getLsbD_eq
    intro k hk
    rw [BitVec.getLsbD_and, hmask k hk, BitVec.getLsbD_shiftLeft, BitVec.getLsbD_ushiftRight]
    by_cases h12 : 12 ≤ k
    · have hk12 : ¬ k < 12 := Nat.not_lt.mpr h12
      simp [h12, hk, hk12]
    · have hk12 : k < 12 := Nat.lt_of_not_le h12
      simp [h12, hk12]
  have hlt := a.isLt
  rw [hshift, BitVec.toNat_shiftLeft, BitVec.toNat_ushiftRight, Nat.shiftLeft_eq, Nat.shiftRight_eq_div_pow]
  change a.toNat / 4096 * 4096 % 2 ^ 32 = a.toNat / 4096 * 4096
  omega

theorem getAddress_setAddress : (p.setAddress a).getAddress = a &&& 0xFFFFF000 := by
  have hmask : ∀ k < 32, (0xFFFFF000 : Word).getLsbD k = decide (12 ≤ k) := by decide
  have hlow : ∀ k < 32, (0xFFF : Word).getLsbD k = decide (k < 12) := by decide
  unfold getAddress setAddress
  apply BitVec.eq_of_getLsbD_eq
  intro k hk
  simp only [BitVec.getLsbD_and, BitVec.getLsbD_or, hmask k hk, hlow k hk]
  by_cases h12 : 12 ≤ k
  · have hk12 : ¬ k < 12 := Nat.not_lt.mpr h12
    simp [h12, hk12]
  · simp [h12]

end Page

namespace PagingPrivate
variable {s s' : PagingPrivate} {v w f : ℕ} {type : MapType} {perms : MapPermissions}

def present (s : PagingPrivate) (v : ℕ) : Bool := (s.directory.pageAt v).getPresent

/-- Where the processor finds the byte at an address. -/
def translate (s : PagingPrivate) (addr : Word) : Option ℕ :=
  let page := s.directory.pageAt (addr.toNat / PAGE_SIZE)
  if page.getPresent then some (page.getAddress.toNat + addr.toNat % PAGE_SIZE) else none

/-- Every frame that a page is mapped to is marked, if it exists. The bitmap has whole words, for all
frames of 32 bit addresses at most. -/
structure InOrder (s : PagingPrivate) : Prop where
  ok : s.bits.Ok
  small : s.bits.cnt < 2 ^ 20
  whole : s.bits.cnt % 32 = 0
  marked : ∀ v, s.present v = true → s.frameOf v < s.bits.cnt → s.bits.marked (s.frameOf v) = true

/-- The page is mapped to a frame of memory that no other page is mapped to. -/
structure Owned (s : PagingPrivate) (v : ℕ) : Prop where
  present : s.present v = true
  exists_frame : s.frameOf v < s.bits.cnt
  alone : ∀ w, w ≠ v → s.present w = true → s.frameOf w ≠ s.frameOf v

theorem frameOf_mapped {page : Page} {addr : Word} (h : s.directory.pageAt v = mapped page addr type perms) :
    s.frameOf v = addr.toNat / PAGE_SIZE := by
  have hpos : 0 < PAGE_SIZE := by decide
  unfold frameOf mapped at *
  rw [h, Page.getAddress_setAddress, Page.toNat_and_mask]
  exact Nat.mul_div_cancel _ hpos

theorem getAddress_eq (s : PagingPrivate) (v : ℕ) :
    (s.directory.pageAt v).getAddress.toNat = s.frameOf v * PAGE_SIZE := by
  have hpos : 0 < PAGE_SIZE := by decide
  unfold frameOf Page.getAddress
  rw [Page.toNat_and_mask, Nat.mul_div_cancel _ hpos]

theorem Owned.translate {a : Word} (h : Owned s (a.toNat / PAGE_SIZE)) :
    ∃ phys, s.translate a = some phys ∧ phys < s.bits.cnt * PAGE_SIZE ∧
      ∀ b, s.translate b = some phys → b = a := by
  have hpos : 0 < PAGE_SIZE := by decide
  have htranslate : s.translate a = some (s.frameOf (a.toNat / PAGE_SIZE) * PAGE_SIZE + a.toNat % PAGE_SIZE) := by
    rw [← getAddress_eq]
    exact if_pos h.present
  refine ⟨_, htranslate, ?_, fun b hb => ?_⟩
  · have hmod := Nat.mod_lt a.toNat hpos
    have hle := Nat.mul_le_mul_right PAGE_SIZE (Nat.succ_le_of_lt h.exists_frame)
    rw [Nat.succ_mul] at hle
    omega
  · unfold PagingPrivate.translate at hb
    dsimp only at hb
    split_ifs at hb with hpresent
    rw [getAddress_eq, Option.some.injEq] at hb
    have hmoda := Nat.mod_lt a.toNat hpos
    have hmodb := Nat.mod_lt b.toNat hpos
    have hframe : s.frameOf (b.toNat / PAGE_SIZE) = s.frameOf (a.toNat / PAGE_SIZE) := by
      have hdiv := congrArg (· / PAGE_SIZE) hb
      simpa [Nat.mul_add_div hpos, Nat.mul_comm, Nat.div_eq_of_lt hmoda, Nat.div_eq_of_lt hmodb] using hdiv
    have hpage : b.toNat / PAGE_SIZE = a.toNat / PAGE_SIZE := by
      by_contra hne
      exact h.alone _ hne hpresent hframe
    have hoffset : b.toNat % PAGE_SIZE = a.toNat % PAGE_SIZE := by
      rw [hframe] at hb
      exact Nat.add_left_cancel hb
    apply BitVec.eq_of_toNat_eq
    rw [← Nat.div_add_mod b.toNat PAGE_SIZE, hpage, hoffset, Nat.div_add_mod]

section Written

/-- From `s` to `s'` no entry changes, and marks are only added. -/
structure Unwritten (s s' : PagingPrivate) : Prop where
  pages : ∀ v, s'.directory.pageAt v = s.directory.pageAt v
  cnt : s'.bits.cnt = s.bits.cnt
  ok : s.bits.Ok → s'.bits.Ok
  marked : ∀ f, s.bits.marked f = true → s'.bits.marked f = true

/-- From `s` to `s'` the page `v` is mapped to the frame `f`, which is marked. -/
structure Written (v f : ℕ) (s s' : PagingPrivate) : Prop where
  elsewhere : Elsewhere v s s'
  frame : s'.frameOf v = f
  present : s'.present v = true
  cnt : s'.bits.cnt = s.bits.cnt
  ok : s.bits.Ok → s'.bits.Ok
  marked : ∀ g, s.bits.marked g = true → s'.bits.marked g = true
  marks : f < s.bits.cnt → s'.bits.marked f = true

theorem present_congr (h : s'.directory.pageAt v = s.directory.pageAt v) : s'.present v = s.present v := by
  rw [PagingPrivate.present, PagingPrivate.present, h]

theorem frameOf_congr (h : s'.directory.pageAt v = s.directory.pageAt v) : s'.frameOf v = s.frameOf v := by
  rw [frameOf, frameOf, h]

theorem Unwritten.inOrder (h : Unwritten s s') (hs : InOrder s) : InOrder s' where
  ok := h.ok hs.ok
  small := h.cnt ▸ hs.small
  whole := h.cnt ▸ hs.whole
  marked v hv hlt := by
    rw [frameOf_congr (h.pages v)] at hlt ⊢
    exact h.marked _ (hs.marked v (present_congr (h.pages v) ▸ hv) (h.cnt ▸ hlt))

theorem Unwritten.owned (h : Unwritten s s') (hv : Owned s v) : Owned s' v where
  present := (present_congr (h.pages v)).trans hv.present
  exists_frame := by
    rw [frameOf_congr (h.pages v), h.cnt]
    exact hv.exists_frame
  alone w hw hpresent := by
    rw [frameOf_congr (h.pages v), frameOf_congr (h.pages w)]
    exact hv.alone w hw (present_congr (h.pages w) ▸ hpresent)

theorem Written.inOrder (h : Written v f s s') (hs : InOrder s) : InOrder s' where
  ok := h.ok hs.ok
  small := h.cnt ▸ hs.small
  whole := h.cnt ▸ hs.whole
  marked w hw hlt := by
    by_cases hwv : w = v
    · rw [hwv, h.frame] at hlt ⊢
      exact h.marks (h.cnt ▸ hlt)
    · have hsame := h.elsewhere w hwv
      rw [frameOf_congr hsame] at hlt ⊢
      exact h.marked _ (hs.marked w (present_congr hsame ▸ hw) (h.cnt ▸ hlt))

/-- A page keeps its frame to itself when another page is mapped to a different one. -/
theorem Written.owned (h : Written v f s s') (hw : Owned s w) (hwv : w ≠ v) (hf : s.frameOf w ≠ f) : Owned s' w := by
  have hsame := h.elsewhere w hwv
  refine ⟨(present_congr hsame).trans hw.present, ?_, fun u hu hpresent => ?_⟩
  · rw [frameOf_congr hsame, h.cnt]
    exact hw.exists_frame
  · rw [frameOf_congr hsame]
    by_cases huv : u = v
    · rw [huv, h.frame]
      exact hf.symm
    · have hsame' := h.elsewhere u huv
      rw [frameOf_congr hsame']
      exact hw.alone u hu (present_congr hsame' ▸ hpresent)

theorem Written.owned_self (h : Written v f s s') (hs : InOrder s) (hlt : f < s.bits.cnt)
    (hf : s.bits.marked f = false) : Owned s' v := by
  refine ⟨h.present, ?_, fun u hu hpresent hframe => ?_⟩
  · rw [h.frame, h.cnt]
    exact hlt
  · have hsame := h.elsewhere u hu
    rw [frameOf_congr hsame, h.frame] at hframe
    have hmarked := hs.marked u (present_congr hsame ▸ hpresent) (hframe ▸ hlt)
    rw [hframe, hf] at hmarked
    cases hmarked

theorem Unwritten.trans {s₁ : PagingPrivate} (h : Unwritten s s₁) (h' : Unwritten s₁ s') : Unwritten s s' :=
  ⟨fun v => (h'.pages v).trans (h.pages v), h'.cnt.trans h.cnt, fun hok => h'.ok (h.ok hok),
    fun f hf => h'.marked f (h.marked f hf)⟩

end Written

section Calls

theorem pageAlignLoop_ok (fuel : ℕ) (s : PagingPrivate) (h : s.bits.Ok) : (pageAlignLoop fuel s).bits.Ok := by
  induction fuel generalizing s with
  | zero => exact h
  | succ fuel ih =>
    rw [pageAlignLoop]
    split_ifs
    · exact ih _ (h.set _)
    · exact h

theorem allocStatic_ok (s : PagingPrivate) (size : Word) (h : s.bits.Ok) : (s.allocStatic size).2.bits.Ok := by
  have halign := pageAlignLoop_ok PAGE_SIZE s h
  have hfree : s.pageAlign.freePageAddress.2.bits.Ok := by
    unfold freePageAddress
    dsimp only
    split_ifs
    · exact halign
    · exact halign.set _
  exact (Bits.marks_markPages ..).ok hfree

theorem dirGetPage_unwritten (s : PagingPrivate) (addr : Word) : Unwritten s (s.dirGetPage addr .doReserve).2 := by
  have hgrows := dirGetPage_grows s addr
  refine ⟨dirGetPage_pageAt s addr .doReserve, hgrows.cnt, fun hok => ?_, hgrows.marked⟩
  by_cases htable : s.directory.tables (addr.toNat / PAGE_SIZE / PAGES_PER_TABLE) = none
  · obtain ⟨directory, hnew⟩ := dirGetPage_of_none htable
    rw [hnew]
    exact allocStatic_ok s _ hok
  · rw [dirGetPage_of_table .doReserve htable]
    exact hok

theorem setHeap_unwritten (s : PagingPrivate) (flags addr : Word) : Unwritten s (s.setHeap flags addr) := by
  unfold setHeap
  split_ifs
  · exact ⟨fun _ => rfl, rfl, id, fun _ => id⟩
  · exact ⟨fun _ => rfl, rfl, id, fun _ => id⟩

/-- An entry that is written with the address of a frame that is marked. -/
theorem stored_written {addr : Word} {page : Page} (htable : s.directory.tables (PageDir.ptr v).1 ≠ none)
    (hdir : s'.directory = s.directory.store (PageDir.ptr v) (mapped page addr type perms))
    (hbits : s'.bits = s.bits.set (addr.toNat / PAGE_SIZE) ∨
      s'.bits = s.bits.findUnset.2.set (addr.toNat / PAGE_SIZE)) :
    Written v (addr.toNat / PAGE_SIZE) s s' := by
  have hpage : ∀ w, s'.directory.pageAt w = if w = v then mapped page addr type perms else s.directory.pageAt w := by
    intro w
    rw [PageDir.pageAt, hdir, PageDir.load_store htable]
    by_cases hw : w = v
    · rw [if_pos (congrArg PageDir.ptr hw), if_pos hw]
    · rw [if_neg fun h => hw (PageDir.ptr_inj h), if_neg hw]
      rfl
  have hset : s'.bits.cnt = s.bits.cnt ∧ (s.bits.Ok → s'.bits.Ok) ∧ ∀ g, s'.bits.marked g =
      (s.bits.marked g || decide (g = addr.toNat / PAGE_SIZE ∧ addr.toNat / PAGE_SIZE < s.bits.cnt)) := by
    rcases hbits with hbits | hbits
    · rw [hbits]
      exact ⟨Bits.set_cnt .., fun hok => hok.set _, fun g => Bits.marked_set ..⟩
    · rw [hbits]
      refine ⟨(Bits.set_cnt ..).trans (Bits.findUnset_cnt _), fun hok => hok.findUnset.set _, fun g => ?_⟩
      rw [Bits.marked_set, Bits.findUnset_marked, Bits.findUnset_cnt]
  obtain ⟨hcnt, hok, hmarked⟩ := hset
  refine ⟨fun w hw => ?_, frameOf_mapped ((hpage v).trans (if_pos rfl)), ?_, hcnt, hok, fun g hg => ?_, fun hlt => ?_⟩
  · rw [hpage, if_neg hw]
  · rw [present, hpage, if_pos rfl, mapped_present]
  · rw [hmarked, hg, Bool.true_or]
  · rw [hmarked, decide_eq_true ⟨rfl, hlt⟩, Bool.or_true]

theorem mapFrame_owned {ok : Bool} (hs : InOrder s) (htable : s.directory.tables (PageDir.ptr v).1 ≠ none)
    (havail : (s.directory.pageAt v).isAvail = true)
    (h : s.mapFrame (some (PageDir.ptr v)) type perms = some (ok, s')) :
    InOrder s' ∧ Owned s' v ∧ ∀ w, Owned s w → Owned s' w := by
  have havail' : (s.directory.load (PageDir.ptr v)).isAvail = true := havail
  have hnew : s.present v = false := Page.present_of_avail havail
  rw [mapFrame, if_pos havail'] at h
  split at h
  · cases h
  · rename_i i bits hfind
    obtain ⟨-, hend⟩ := Prod.mk.inj (Option.some.inj h)
    obtain ⟨⟨-, hsearched⟩, hunmarked⟩ := hs.ok.findUnset_searched (congrArg Prod.fst hfind)
    have hlt : i < s.bits.cnt := hsearched.resolve_right fun hbehind => hbehind.2 hs.whole
    have hframe : (BitVec.ofNat 32 (i * PAGE_SIZE)).toNat / PAGE_SIZE = i :=
      frame_address (Nat.lt_trans hlt hs.small)
    have hbits : s'.bits = s.bits.findUnset.2.set ((BitVec.ofNat 32 (i * PAGE_SIZE)).toNat / PAGE_SIZE) := by
      rw [hframe, hfind, ← hend]
    have hwritten : Written v i s s' := hframe ▸ stored_written htable (congrArg directory hend.symm) (.inr hbits)
    refine ⟨hwritten.inOrder hs, hwritten.owned_self hs hlt hunmarked, fun w hw => ?_⟩
    refine hwritten.owned hw ?_ ?_
    · rintro rfl
      cases hw.present.symm.trans hnew
    · rintro rfl
      cases (hs.marked w hw.present hw.exists_frame).symm.trans hunmarked

/-- The pages of a call of `map` that succeeds have frames of their own, and so have those that had one. -/
theorem mapLoop_owned {cnt : ℕ} {i : Word} {ok : Bool} (hs : InOrder s)
    (h : mapLoop type cnt i s = some (ok, s')) :
    InOrder s' ∧ (∀ w, Owned s w → Owned s' w) ∧ (ok = true → ∀ v ∈ pagesFrom i cnt, Owned s' v) := by
  induction cnt generalizing i s with
  | zero =>
    obtain ⟨-, rfl⟩ := Prod.mk.inj (Option.some.inj h)
    exact ⟨hs, fun _ => id, fun _ v hv => absurd hv List.not_mem_nil⟩
  | succ cnt ih =>
    have hunwritten := dirGetPage_unwritten s i
    rw [mapLoop] at h
    cases hget : s.dirGetPage i .doReserve with
    | mk found s₁ =>
      rw [hget] at h hunwritten
      have hs₁ := hunwritten.inOrder hs
      have hkeep₁ : ∀ w, Owned s w → Owned s₁ w := fun w hw => hunwritten.owned hw
      cases found with
      | none =>
        obtain ⟨rfl, rfl⟩ := Prod.mk.inj (Option.some.inj h)
        exact ⟨hs₁, hkeep₁, fun hok => absurd hok (by decide)⟩
      | some p =>
        obtain ⟨rfl, htable⟩ := dirGetPage_some hget
        dsimp only at h
        split at h
        · rename_i havail
          split at h
          · cases h
          · rename_i s₂ hmap
            obtain ⟨rfl, rfl⟩ := Prod.mk.inj (Option.some.inj h)
            obtain ⟨hs₂, -, hkeep₂⟩ := mapFrame_owned hs₁ htable havail hmap
            exact ⟨hs₂, fun w hw => hkeep₂ w (hkeep₁ w hw), fun hok => absurd hok (by decide)⟩
          · rename_i s₂ hmap
            obtain ⟨hs₂, hfirst, hkeep₂⟩ := mapFrame_owned hs₁ htable havail hmap
            obtain ⟨hs', hkeep₃, hrest⟩ := ih hs₂ h
            refine ⟨hs', fun w hw => hkeep₃ w (hkeep₂ w (hkeep₁ w hw)), fun hok v hv => ?_⟩
            rw [pagesFrom_succ] at hv
            rcases List.mem_cons.mp hv with rfl | hv
            · exact hkeep₃ _ hfirst
            · exact hrest hok v hv
        · obtain ⟨rfl, rfl⟩ := Prod.mk.inj (Option.some.inj h)
          exact ⟨hs₁, hkeep₁, fun hok => absurd hok (by decide)⟩

theorem map_owned {flags cnt : Word} {ok : Bool} {base : Option Word} (hs : InOrder s)
    (h : s.map flags cnt = some (ok, base, s')) :
    InOrder s' ∧ (∀ w, Owned s w → Owned s' w) ∧
      ∀ b, base = some b → ∀ v ∈ pagesFrom b cnt.toNat, Owned s' v := by
  unfold map at h
  dsimp only at h
  generalize alignAddress PAGE_SIZE (s.heap flags) = i at h
  have hunwritten := setHeap_unwritten s flags (Nat.iterate (· + BitVec.ofNat 32 PAGE_SIZE) cnt.toNat i)
  generalize s.setHeap flags (Nat.iterate (· + BitVec.ofNat 32 PAGE_SIZE) cnt.toNat i) = s₁ at h hunwritten
  have hkeep₁ : ∀ w, Owned s w → Owned s₁ w := fun w hw => hunwritten.owned hw
  split at h
  · cases h
  · rename_i hloop
    obtain ⟨-, rfl, rfl⟩ : false = ok ∧ none = base ∧ _ = s' := by simpa using h
    obtain ⟨hs', hkeep, -⟩ := mapLoop_owned (hunwritten.inOrder hs) hloop
    exact ⟨hs', fun w hw => hkeep w (hkeep₁ w hw), fun b hb => nomatch hb⟩
  · rename_i hloop
    obtain ⟨-, rfl, rfl⟩ : true = ok ∧ some i = base ∧ _ = s' := by simpa using h
    obtain ⟨hs', hkeep, hpages⟩ := mapLoop_owned (hunwritten.inOrder hs) hloop
    refine ⟨hs', fun w hw => hkeep w (hkeep₁ w hw), fun b hb => ?_⟩
    exact Option.some.inj hb ▸ hpages rfl

/-- A page keeps its frame to itself when `mapPhys` maps another frame. -/
theorem mapPhys_owned {phys flags : Word} {ok : Bool} {base : Option Word} (hs : InOrder s)
    (h : s.mapPhys phys flags = (ok, base, s')) :
    InOrder s' ∧ ∀ w, Owned s w → s.frameOf w ≠ phys.toNat / PAGE_SIZE → Owned s' w := by
  unfold mapPhys at h
  dsimp only at h
  generalize alignAddress PAGE_SIZE (s.heap flags) = i at h
  have hheap := setHeap_unwritten s flags (i + BitVec.ofNat 32 PAGE_SIZE)
  generalize s.setHeap flags (i + BitVec.ofNat 32 PAGE_SIZE) = s₁ at h hheap
  have hunwritten := hheap.trans (dirGetPage_unwritten s₁ i)
  cases hget : s₁.dirGetPage i .doReserve with
  | mk found s₂ =>
    rw [hget] at h hunwritten
    have hs₂ := hunwritten.inOrder hs
    have hkeep₂ : ∀ w, Owned s w → Owned s₂ w := fun w hw => hunwritten.owned hw
    cases found with
    | none =>
      obtain ⟨-, -, rfl⟩ : false = ok ∧ none = base ∧ s₂ = s' := by simpa using h
      exact ⟨hs₂, fun w hw _ => hkeep₂ w hw⟩
    | some p =>
      obtain ⟨rfl, htable⟩ := dirGetPage_some hget
      dsimp only at h
      split_ifs at h with havail
      · obtain ⟨-, -, hend⟩ : _ = ok ∧ some i = base ∧ _ = s' := by simpa using h
        have hwritten := @stored_written s₂ s' _ (mapType flags) .rw phys _ htable (congrArg directory hend.symm)
          (.inl (congrArg bits hend.symm))
        refine ⟨hwritten.inOrder hs₂, fun w hw hframe => hwritten.owned (hkeep₂ w hw) ?_ ?_⟩
        · rintro rfl
          cases (hkeep₂ _ hw).present.symm.trans (Page.present_of_avail havail)
        · rwa [frameOf_congr (hunwritten.pages w)]
      · obtain ⟨-, -, rfl⟩ : false = ok ∧ none = base ∧ s₂ = s' := by simpa using h
        exact ⟨hs₂, fun w hw _ => hkeep₂ w hw⟩

end Calls

section Init
variable {image : KernelImage} {mmap : List MemoryMap} {addr : Word}

theorem identityMapFrame_written (addr : Word) (htable : s.directory.tables (PageDir.ptr v).1 ≠ none) :
    Written v (addr.toNat / PAGE_SIZE) s (s.identityMapFrame (some (PageDir.ptr v)) addr type perms).2 :=
  stored_written htable rfl (.inl rfl)

theorem identityMap_inOrder (hs : InOrder s) (addr : Word) : InOrder (identityMap addr type perms s) := by
  have hunwritten := dirGetPage_unwritten s addr
  rw [PagingPrivate.identityMap]
  cases hget : s.dirGetPage addr .doReserve with
  | mk found s₁ =>
    rw [hget] at hunwritten
    cases found with
    | none => exact hunwritten.inOrder hs
    | some p =>
      obtain ⟨rfl, htable⟩ := dirGetPage_some hget
      exact (identityMapFrame_written addr htable).inOrder (hunwritten.inOrder hs)

/-- A page that is mapped is mapped after `identityMap`, and so is the page of the address when a table is
found for it. -/
theorem identityMap_present (s : PagingPrivate) (addr : Word) :
    (s.present v = true → (identityMap addr type perms s).present v = true) ∧
    ((s.dirGetPage addr .doReserve).1 ≠ none →
      (identityMap addr type perms s).present (addr.toNat / PAGE_SIZE) = true) := by
  have hunwritten := dirGetPage_unwritten s addr
  rw [PagingPrivate.identityMap]
  cases hget : s.dirGetPage addr .doReserve with
  | mk found s₁ =>
    rw [hget] at hunwritten
    cases found with
    | none => exact ⟨fun hv => (present_congr (hunwritten.pages v)).trans hv, fun hne => absurd rfl hne⟩
    | some p =>
      obtain ⟨rfl, htable⟩ := dirGetPage_some hget
      have hwritten := @identityMapFrame_written s₁ (addr.toNat / PAGE_SIZE) type perms addr htable
      refine ⟨fun hv => ?_, fun _ => hwritten.present⟩
      by_cases hva : v = addr.toNat / PAGE_SIZE
      · rw [hva]
        exact hwritten.present
      · exact (present_congr (hwritten.elsewhere v hva)).trans ((present_congr (hunwritten.pages v)).trans hv)

theorem initStatic_inOrder (image : KernelImage) (hwhole : pageCnt mmap % 32 = 0) :
    InOrder (initStatic image mmap).2 := by
  obtain ⟨-, b, -, -, hwalked⟩ := initStatic_walked image mmap
  refine ⟨hwalked.ok, hwalked.size ▸ pageCnt_le mmap, hwalked.size ▸ hwhole, fun v hv _ => ?_⟩
  -- there is no table yet
  have hnone : (initStatic image mmap).2.directory.tables (PageDir.ptr v).1 = none := by
    by_contra htable
    exact absurd ((hwalked.tables _).mp htable) List.not_mem_nil
  rw [present, PageDir.pageAt, PageDir.load, hnone] at hv
  dsimp only at hv
  exact absurd hv (by decide)

theorem reserved_walked (image : KernelImage) (mmap : List MemoryMap) :
    ∃ s₁ s₂ b, reservePages HEAP_START (HEAP_START + KERNEL_INIT_SIZE) (initStatic image mmap).2 = some s₁ ∧
      reservePages USER_HEAP_START (USER_HEAP_START + KERNEL_INIT_SIZE) s₁ = some s₂ ∧
      b ≤ directoryPage image (pageCnt mmap) ∧ Walked (pageCnt mmap) b (directoryPage image (pageCnt mmap)) [832, 192]
        (fun _ => False) s₂ := by
  obtain ⟨-, b, -, hb, h⟩ := initStatic_walked image mmap
  have hp := directoryPage_le image mmap
  generalize directoryPage image (pageCnt mmap) = p at *
  have hstop : (HEAP_START + KERNEL_INIT_SIZE).toNat = 0x300FFFFF := rfl
  have hustop : (USER_HEAP_START + KERNEL_INIT_SIZE).toNat = 0xD00FFFFF := rfl
  obtain ⟨s₁, h₁, hw₁⟩ := @Walked.reservePages _ (pageCnt mmap) b p 192 256 [] _ HEAP_START
    (HEAP_START + KERNEL_INIT_SIZE) 0x30000000 h (by omega) rfl (by omega) (by omega) (by omega) (by omega)
    (by omega) (by decide) (by rw [List.length_nil]; omega)
  obtain ⟨s₂, h₂, hw₂⟩ := @Walked.reservePages s₁ (pageCnt mmap) b p 832 256 [192] _ USER_HEAP_START
    (USER_HEAP_START + KERNEL_INIT_SIZE) 0xD0000000 hw₁ (by omega) rfl (by omega) (by omega) (by omega)
    (by omega) (by omega) (by decide) (by rw [List.length_singleton]; omega)
  exact ⟨s₁, s₂, b, h₁, h₂, hb, hw₂⟩

/-- After `init` the frames are in order, and page 0 is mapped. -/
theorem init_inOrder (hwhole : pageCnt mmap % 32 = 0) (h : init image mmap = some s) :
    InOrder s ∧ s.present 0 = true := by
  obtain ⟨t₁, t₂, b, ht₁, ht₂, hb, hwalked⟩ := reserved_walked image mmap
  have hp := directoryPage_le image mmap
  have hstatic := initStatic_inOrder image hwhole
  have hreserve : ∀ {start stop s s'}, reservePages start stop s = some s' → InOrder s → InOrder s' :=
    fun hloop hs => forPages_invariant (fun i s hs => (dirGetPage_unwritten s i).inOrder hs) hloop hs
  have hmap : ∀ {start stop s s'}, identityMapPages start stop s = some s' → InOrder s → InOrder s' :=
    fun hloop hs => forPages_invariant (fun i _ hs => identityMap_inOrder hs i) hloop hs
  have hzero : ∀ {start stop s s'}, identityMapPages start stop s = some s' → s.present 0 = true →
      s'.present 0 = true :=
    fun hloop hs => forPages_invariant (fun i s hs => (identityMap_present s i).1 hs) hloop hs
  unfold init at h
  generalize initStatic image mmap = r at *
  obtain ⟨directory, s₀⟩ := r
  dsimp only at h hstatic ht₁
  split_ifs at h
  obtain ⟨s₁, h₁, hrest₁⟩ := Option.bind_eq_some_iff.mp h
  obtain ⟨s₂, h₂, hrest₂⟩ := Option.bind_eq_some_iff.mp hrest₁
  obtain ⟨s₃, h₃, hrest₃⟩ := Option.bind_eq_some_iff.mp hrest₂
  obtain ⟨s₄, h₄, hrest₄⟩ := Option.bind_eq_some_iff.mp hrest₃
  obtain ⟨s₅, h₅, hrest₅⟩ := Option.bind_eq_some_iff.mp hrest₄
  obtain ⟨s₆, h₆, hrest₆⟩ := Option.bind_eq_some_iff.mp hrest₅
  obtain ⟨s₇, h₇, hrest₇⟩ := Option.bind_eq_some_iff.mp hrest₆
  obtain ⟨s₈, h₈, hrest₈⟩ := Option.bind_eq_some_iff.mp hrest₇
  obtain ⟨s₉, h₉, hrest₉⟩ := Option.bind_eq_some_iff.mp hrest₈
  obtain rfl := Option.some.inj (ht₁.symm.trans h₁)
  obtain rfl := Option.some.inj (ht₂.symm.trans h₂)
  have hfirst : s₃.present 0 = true := by
    have hindex : (1 : Word).toNat / 4096 / 1024 = 0 := rfl
    obtain ⟨q, s', hget, -⟩ := hwalked.dirGetPage (by omega) hindex
      (by rw [show [832, 192].length = 2 from rfl]; omega)
    have hone : (identityMap 1 .kernel .rw t₂).present 0 = true :=
      (identityMap_present (v := 0) t₂ 1).2 (by rw [hget]; simp)
    have hrounds : ROUNDS = 2 ^ 20 + 1 := by unfold ROUNDS; rfl
    rw [identityMapPages, hrounds, forPages, if_pos (by decide)] at h₃
    exact forPages_invariant (fun i s hs => (identityMap_present s i).1 hs) h₃ hone
  exact ⟨hmap hrest₉
    (hmap h₉ (hmap h₈ (hmap h₇ (hmap h₆ (hmap h₅ (hmap h₄ (hmap h₃ (hreserve h₂ (hreserve h₁ hstatic))))))))),
    hzero hrest₉ (hzero h₉ (hzero h₈ (hzero h₇ (hzero h₆ (hzero h₅ (hzero h₄ hfirst))))))⟩

end Init

end PagingPrivate
end CxxKernel.Paging
