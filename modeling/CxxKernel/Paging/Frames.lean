import CxxKernel.Lib.Runs
import CxxKernel.Paging.PagingX86

/-! The frames that `mapFrame` and `getPage` hand out. -/
namespace CxxKernel.Paging
open Runs

/-- The paging state, and the frames that are handed out and not freed. -/
structure FrameState where
  paging : PagingPrivate
  live : List ℕ

inductive FrameOp
  | mapFrame (p : Option PagePtr) (type : MapType) (perms : MapPermissions)
  | getPage
  | identityMapFrame (p : Option PagePtr) (addr : Word) (type : MapType) (perms : MapPermissions)
  | freePage (ptr : Word)

/-- The call asks the bitmap for a frame. -/
def FrameOp.asks (s : PagingPrivate) : FrameOp → Prop
  | .mapFrame (some p) _ _ => (s.directory.load p).isAvail = true
  | .getPage => True
  | _ => False

instance (s : PagingPrivate) (op : FrameOp) : Decidable (op.asks s) := by
  cases op with
  | mapFrame p type perms => cases p <;> unfold FrameOp.asks <;> infer_instance
  | _ => unfold FrameOp.asks; infer_instance

/-- The frame that a call hands out. -/
def FrameOp.taken (s : PagingPrivate) (op : FrameOp) : Option ℕ :=
  if op.asks s then s.bits.findUnset.1 else none

/-- `getPage` returns the address of the frame that it hands out. -/
theorem getPage_taken {s : PagingPrivate} {f : ℕ} (h : FrameOp.getPage.taken s = some f) :
    s.getPage.1 = BitVec.ofNat 32 (f * PAGE_SIZE) := by
  have hfind : s.bits.findUnset.1 = some f := h
  rw [PagingPrivate.getPage]
  split
  · rename_i hnone
    rw [hnone] at hfind
    cases hfind
  · rename_i hsome
    rw [hsome] at hfind
    rw [Option.some.inj hfind]

theorem mapFrame_taken {s s' : PagingPrivate} {p : PagePtr} {type : MapType} {perms : MapPermissions}
    {ok : Bool} {f : ℕ} (h : s.mapFrame (some p) type perms = some (ok, s'))
    (htaken : (FrameOp.mapFrame (some p) type perms).taken s = some f) :
    s'.directory = s.directory.store p
      (PagingPrivate.mapped (s.directory.load p) (BitVec.ofNat 32 (f * PAGE_SIZE)) type perms) := by
  unfold FrameOp.taken at htaken
  split_ifs at htaken with hasks
  have havail : (s.directory.load p).isAvail = true := hasks
  rw [PagingPrivate.mapFrame, if_pos havail] at h
  split at h
  · cases h
  · rename_i hsome
    rw [hsome] at htaken
    obtain rfl := Option.some.inj htaken
    rw [← (Prod.mk.inj (Option.some.inj h)).2]

/-- A call that returns. -/
def FrameStep (s : FrameState) (op : FrameOp) (s' : FrameState) : Prop :=
  match op with
  | .mapFrame p type perms => (∃ res, s.paging.mapFrame p type perms = some (res, s'.paging)) ∧
      s'.live = (op.taken s.paging).toList ++ s.live
  | .getPage => s'.paging = s.paging.getPage.2 ∧ s'.live = (op.taken s.paging).toList ++ s.live
  | .identityMapFrame p addr type perms =>
      s'.paging = (s.paging.identityMapFrame p addr type perms).2 ∧ s'.live = s.live
  | .freePage ptr => s'.paging = s.paging.freePage ptr ∧
      s'.live = s.live.filter (· ≠ ptr.toNat / PAGE_SIZE)

/-- The bitmap of `pageCnt` frames as the constructor leaves it, and any directory. -/
def FrameStart (pageCnt : ℕ) (s : FrameState) : Prop := s.paging.bits = .new pageCnt ∧ s.live = []

/-- A frame that is handed out exists, was not marked used, and nobody has it. -/
def FrameLaw (s : FrameState) (op : FrameOp) (_ : FrameState) : Prop :=
  ∀ f, op.taken s.paging = some f →
    f < s.paging.bits.cnt ∧ s.paging.bits.isSet f = false ∧ f ∉ s.live

/-- A call that asks for a frame finds one below the end of the bitmap, when the end is not the end
of a word or the last bit of a word. -/
def FrameRoom (s : FrameState) (op : FrameOp) (_ : FrameState) : Prop :=
  op.asks s.paging → s.paging.bits.cnt % 32 = 0 ∨ s.paging.bits.cnt % 32 = 31 ∨
    ∃ i < s.paging.bits.cnt, i % 32 ≠ 31 ∧ s.paging.bits.isSet i = false

section Steps
variable {s s' : FrameState} {op : FrameOp} {f pageCnt : ℕ} {b : Bits}

/-- What a call can do to the bitmap and to the frames that are handed out. -/
theorem frameStep_cases (h : FrameStep s op s') :
    (∃ f, op.taken s.paging = some f ∧ s.paging.bits.findUnset.1 = some f ∧
      s'.paging.bits = s.paging.bits.findUnset.2.set f ∧ s'.live = f :: s.live) ∨
    op.taken s.paging = none ∧
      ((s'.paging.bits = s.paging.bits ∨ s'.paging.bits = s.paging.bits.findUnset.2) ∧
          s'.live = s.live ∨
        (∃ i, s'.paging.bits = s.paging.bits.set i) ∧ s'.live = s.live ∨
        ∃ ptr : Word, op = .freePage ptr ∧ s'.paging.bits = s.paging.bits.clear (ptr.toNat / PAGE_SIZE) ∧
          s'.live = s.live.filter (· ≠ ptr.toNat / PAGE_SIZE)) := by
  cases op with
  | mapFrame p type perms =>
    obtain ⟨⟨res, hmap⟩, hlive⟩ := h
    cases p with
    | none =>
      obtain ⟨rfl, hs⟩ := Prod.mk.inj (Option.some.inj hmap)
      exact .inr ⟨rfl, .inl ⟨.inl (by rw [← hs]), hlive⟩⟩
    | some p =>
      by_cases havail : (s.paging.directory.load p).isAvail = true
      · have htaken : (FrameOp.mapFrame (some p) type perms).taken s.paging =
            s.paging.bits.findUnset.1 := if_pos havail
        rw [PagingPrivate.mapFrame, if_pos havail] at hmap
        cases hfind : s.paging.bits.findUnset with
        | mk found bits =>
          rw [hfind] at hmap htaken
          cases found with
          | none => cases hmap
          | some f =>
            obtain ⟨-, hs⟩ := Prod.mk.inj (Option.some.inj hmap)
            rw [htaken] at hlive
            refine .inl ⟨f, htaken, rfl, ?_, hlive⟩
            rw [← hs]
      · have htaken : (FrameOp.mapFrame (some p) type perms).taken s.paging = none := if_neg havail
        rw [PagingPrivate.mapFrame, if_neg havail] at hmap
        obtain ⟨-, hs⟩ := Prod.mk.inj (Option.some.inj hmap)
        rw [htaken] at hlive
        exact .inr ⟨htaken, .inl ⟨.inl (by rw [← hs]), hlive⟩⟩
  | getPage =>
    obtain ⟨hs, hlive⟩ := h
    have htaken : FrameOp.getPage.taken s.paging = s.paging.bits.findUnset.1 := if_pos trivial
    rw [PagingPrivate.getPage] at hs
    cases hfind : s.paging.bits.findUnset with
    | mk found bits =>
      rw [hfind] at hs htaken
      rw [htaken] at hlive
      cases found with
      | none => exact .inr ⟨htaken, .inl ⟨.inr (by rw [hs]), hlive⟩⟩
      | some f => exact .inl ⟨f, htaken, rfl, by rw [hs], hlive⟩
  | identityMapFrame p addr type perms =>
    obtain ⟨hs, hlive⟩ := h
    cases p with
    | none => exact .inr ⟨rfl, .inl ⟨.inl (by rw [hs]; rfl), hlive⟩⟩
    | some p => exact .inr ⟨rfl, .inr (.inl ⟨⟨_, by rw [hs]; rfl⟩, hlive⟩)⟩
  | freePage ptr =>
    obtain ⟨hs, hlive⟩ := h
    exact .inr ⟨rfl, .inr (.inr ⟨ptr, rfl, by rw [hs]; rfl, hlive⟩)⟩

/-- The bitmap is in order, and the frames that are handed out are marked. -/
structure FrameInv (pageCnt : ℕ) (s : FrameState) : Prop where
  ok : s.paging.bits.Ok
  cnt : s.paging.bits.cnt = pageCnt
  live : ∀ f ∈ s.live, s.paging.bits.marked f = true

theorem frameInv_of_start (h : FrameStart pageCnt s) : FrameInv pageCnt s := by
  obtain ⟨hbits, hlive⟩ := h
  refine ⟨?_, ?_, fun f hf => ?_⟩
  · rw [hbits]
    exact Bits.ok_new pageCnt
  · rw [hbits]
    rfl
  · rw [hlive] at hf
    cases hf

theorem taken_eq (h : op.taken s.paging = some f) : op.asks s.paging ∧ s.paging.bits.findUnset.1 = some f := by
  unfold FrameOp.taken at h
  split_ifs at h with hasks
  exact ⟨hasks, h⟩

/-- A frame that is handed out keeps the law exactly if there was room for it. -/
theorem frameLaw_iff_room (h : FrameInv pageCnt s) : FrameLaw s op s' ↔ FrameRoom s op s' := by
  have hlen := h.ok.len
  constructor
  · intro hlaw hasks
    by_cases hzero : s.paging.bits.cnt % 32 = 0
    · exact .inl hzero
    by_cases hlast : s.paging.bits.cnt % 32 = 31
    · exact .inr (.inl hlast)
    cases hfind : s.paging.bits.findUnset.1 with
    | none =>
      -- the first bit behind the frames would have been found
      have hmarked := h.ok.findUnset_none hfind (by omega) hlast
      rw [h.ok.behind _ (Nat.le_refl _)] at hmarked
      cases hmarked
    | some f =>
      have htaken : op.taken s.paging = some f := (if_pos hasks).trans hfind
      obtain ⟨hlt, hunset, -⟩ := hlaw f htaken
      exact .inr (.inr ⟨f, hlt, (h.ok.findUnset_some hfind).2.1, hunset⟩)
  · intro hroom f htaken
    obtain ⟨hasks, hfind⟩ := taken_eq htaken
    obtain ⟨hlt, hmod, hunmarked, hbefore⟩ := h.ok.findUnset_some hfind
    have hcnt : f < s.paging.bits.cnt := by
      rcases hroom hasks with hzero | hlast | ⟨i, hi, himod, hunset⟩
      · omega
      · omega
      · by_contra hge
        have hmarked := hbefore i (by omega) himod
        rw [Bits.isSet_eq, hmarked, decide_eq_true hi] at hunset
        cases hunset
    refine ⟨hcnt, ?_, fun hlive => ?_⟩
    · rw [Bits.isSet_eq, hunmarked, Bool.and_false]
    · rw [h.live f hlive] at hunmarked
      cases hunmarked

theorem frameStep_inv (h : FrameInv pageCnt s) (hstep : FrameStep s op s') (hlaw : FrameLaw s op s') :
    FrameInv pageCnt s' := by
  rcases frameStep_cases hstep with ⟨f, htaken, hfind, hbits, hlive⟩ |
    ⟨-, ⟨hbits, hlive⟩ | ⟨⟨i, hbits⟩, hlive⟩ | ⟨ptr, -, hbits, hlive⟩⟩
  · have hcnt := (hlaw f htaken).1
    refine ⟨?_, ?_, fun g hg => ?_⟩
    · rw [hbits]
      exact h.ok.findUnset.set f
    · rw [hbits, Bits.set_cnt, Bits.findUnset_cnt, h.cnt]
    · rw [hbits, Bits.marked_set, Bits.findUnset_marked, Bits.findUnset_cnt]
      rw [hlive] at hg
      rcases List.mem_cons.mp hg with rfl | hg
      · simp [hcnt]
      · rw [h.live g hg]
        rfl
  · have hsame : s'.paging.bits.Ok ∧ s'.paging.bits.cnt = pageCnt ∧
        ∀ f, s'.paging.bits.marked f = s.paging.bits.marked f := by
      rcases hbits with hbits | hbits
      · rw [hbits]
        exact ⟨h.ok, h.cnt, fun f => rfl⟩
      · rw [hbits, Bits.findUnset_cnt]
        exact ⟨h.ok.findUnset, h.cnt, Bits.findUnset_marked _⟩
    refine ⟨hsame.1, hsame.2.1, fun f hf => ?_⟩
    rw [hlive] at hf
    rw [hsame.2.2, h.live f hf]
  · refine ⟨?_, ?_, fun f hf => ?_⟩
    · rw [hbits]
      exact h.ok.set i
    · rw [hbits, Bits.set_cnt, h.cnt]
    · rw [hlive] at hf
      rw [hbits, Bits.marked_set, h.live f hf]
      rfl
  · refine ⟨?_, ?_, fun f hf => ?_⟩
    · rw [hbits]
      exact h.ok.clear _
    · rw [hbits, Bits.clear_cnt, h.cnt]
    · rw [hlive, List.mem_filter] at hf
      have hne : f ≠ ptr.toNat / PAGE_SIZE := of_decide_eq_true hf.2
      rw [hbits, Bits.marked_clear, h.live f hf.1]
      simp [hne]

/-- The frames handed out in a run exist and are handed out once, exactly if every call that asks
for a frame finds room. -/
theorem frameLaw_iff {ops : List FrameOp} (h : FrameStart pageCnt s) :
    Run (Guarded FrameStep FrameLaw) s ops s' ↔ Run (Guarded FrameStep FrameRoom) s ops s' := by
  have hiff : ∀ s op s', FrameInv pageCnt s → FrameStep s op s' →
      (FrameLaw s op s' ↔ FrameRoom s op s') := fun _ _ _ hinv _ => frameLaw_iff_room hinv
  have hkeep : ∀ s op s', FrameInv pageCnt s → FrameStep s op s' → FrameRoom s op s' →
      FrameInv pageCnt s' := fun _ _ _ hinv hstep hroom =>
    frameStep_inv hinv hstep ((frameLaw_iff_room hinv).mpr hroom)
  exact guarded_iff hiff hkeep (frameInv_of_start h)

end Steps

def FrameState.getPage (s : FrameState) : FrameState :=
  ⟨s.paging.getPage.2, (FrameOp.getPage.taken s.paging).toList ++ s.live⟩

theorem frameStep_getPage (s : FrameState) : FrameStep s .getPage s.getPage := ⟨rfl, rfl⟩

def oneFrame : FrameState where
  paging :=
    { bits := .new 1
      directory := ⟨fun _ => none⟩
      free_page_address := 0x1000
      heap_address := 0x30000000
      user_heap_address := 0xD0000000 }
  live := []

theorem frameLaw_iff_oneFrame : Run (Guarded FrameStep FrameLaw) oneFrame [.getPage] oneFrame.getPage := by
  have hstart : FrameStart 1 oneFrame := ⟨rfl, rfl⟩
  have hroom : FrameRoom oneFrame .getPage oneFrame.getPage :=
    fun _ => .inr (.inr ⟨0, by decide, by decide, by decide⟩)
  exact (frameLaw_iff hstart).mpr (.cons ⟨frameStep_getPage _, hroom⟩ (.nil _))

/-- Frame 1 is behind the end of the bitmap, and is handed out by the second call and by the third. -/
theorem not_frameLaw_oneFrame :
    FrameStart 1 oneFrame ∧
      Run FrameStep oneFrame [.getPage, .getPage, .getPage] oneFrame.getPage.getPage.getPage ∧
      oneFrame.getPage.getPage.getPage.live = [1, 1, 0] ∧
      ¬ Run (Guarded FrameStep FrameLaw) oneFrame [.getPage, .getPage, .getPage]
        oneFrame.getPage.getPage.getPage := by
  refine ⟨⟨rfl, rfl⟩, ?_, by decide +kernel, fun h => ?_⟩
  · exact .cons (frameStep_getPage _) (.cons (frameStep_getPage _) (.cons (frameStep_getPage _) (.nil _)))
  · obtain _ | ⟨⟨⟨hpaging, -⟩, -⟩, h⟩ := h
    obtain _ | ⟨⟨-, hlaw⟩, -⟩ := h
    have htaken : FrameOp.getPage.taken oneFrame.getPage.paging = some 1 := by decide +kernel
    rw [FrameLaw, hpaging] at hlaw
    have hlt := (hlaw 1 htaken).1
    exact absurd hlt (by decide +kernel)

end CxxKernel.Paging
