import CxxKernel.Paging.Frames
import CxxKernel.Paging.Init

/-! Which frames are handed out after `init`, and whether there is memory behind them. -/
namespace CxxKernel.Paging
open Runs

/-- A frame that `freePage` is called with was handed out, or is one of `freed`. -/
def FreedIn (freed : ℕ → Prop) (s : FrameState) : FrameOp → FrameState → Prop
  | .freePage ptr, _ => ptr.toNat / PAGE_SIZE ∈ s.live ∨ freed (ptr.toNat / PAGE_SIZE)
  | _, _ => True

/-- Some run from `s₀` hands out frame `f`. -/
def HandedOut (freed : ℕ → Prop) (s₀ : PagingPrivate) (f : ℕ) : Prop :=
  ∃ ops s, ∃ op : FrameOp,
    Run (Guarded FrameStep (FreedIn freed)) ⟨s₀, []⟩ ops s ∧ op.taken s.paging = some f

/-- The search for a frame gets to `f`: it leaves out bit 31 of each word, and finds the first bit
behind the end of the bitmap, if that is not the end of a word. -/
def Searched (cnt f : ℕ) : Prop := f % 32 ≠ 31 ∧ (f < cnt ∨ f = cnt ∧ cnt % 32 ≠ 0)

section HandedOut
variable {freed : ℕ → Prop} {s₀ : PagingPrivate} {s s' : FrameState} {op : FrameOp} {f cnt : ℕ}

/-- The frames that are not marked, and those that are handed out, were not marked at the start or
are freed. -/
structure HandInv (freed : ℕ → Prop) (s₀ : PagingPrivate) (s : FrameState) : Prop where
  ok : s.paging.bits.Ok
  cnt : s.paging.bits.cnt = s₀.bits.cnt
  unmarked : ∀ f, s.paging.bits.marked f = false → s₀.bits.marked f = false ∨ freed f
  live : ∀ f ∈ s.live, s₀.bits.marked f = false ∨ freed f

theorem Bits.Ok.findUnset_searched {b : Bits} (h : b.Ok) (hfind : b.findUnset.1 = some f) :
    Searched b.cnt f ∧ b.marked f = false := by
  obtain ⟨hlt, hmod, hunmarked, hbefore⟩ := h.findUnset_some hfind
  have hlen := h.len
  refine ⟨⟨hmod, ?_⟩, hunmarked⟩
  by_cases hf : f < b.cnt
  · exact .inl hf
  by_cases heq : f = b.cnt
  · exact .inr ⟨heq, by omega⟩
  -- the first bit behind the end would have been found
  have hmarked := hbefore b.cnt (by omega) (by omega)
  rw [h.behind _ (Nat.le_refl _)] at hmarked
  cases hmarked

theorem handInv_step (h : HandInv freed s₀ s) (hstep : Guarded FrameStep (FreedIn freed) s op s') :
    HandInv freed s₀ s' := by
  obtain ⟨hstep, hfreed⟩ := hstep
  rcases frameStep_cases hstep with ⟨f, htaken, hfind, hbits, hlive⟩ |
    ⟨-, ⟨hbits, hlive⟩ | ⟨⟨i, hbits⟩, hlive⟩ | ⟨ptr, rfl, hbits, hlive⟩⟩
  · obtain ⟨-, hunmarked⟩ := h.ok.findUnset_searched hfind
    refine ⟨?_, ?_, fun g hg => ?_, fun g hg => ?_⟩
    · rw [hbits]
      exact h.ok.findUnset.set f
    · rw [hbits, Bits.set_cnt, Bits.findUnset_cnt, h.cnt]
    · rw [hbits, Bits.marked_set, Bool.or_eq_false_iff, Bits.findUnset_marked] at hg
      exact h.unmarked g hg.1
    · rw [hlive] at hg
      rcases List.mem_cons.mp hg with rfl | hg
      · exact h.unmarked g hunmarked
      · exact h.live g hg
  · have hsame : s'.paging.bits.Ok ∧ s'.paging.bits.cnt = s.paging.bits.cnt ∧
        ∀ f, s'.paging.bits.marked f = s.paging.bits.marked f := by
      rcases hbits with hbits | hbits
      · rw [hbits]
        exact ⟨h.ok, rfl, fun f => rfl⟩
      · rw [hbits]
        exact ⟨h.ok.findUnset, Bits.findUnset_cnt _, Bits.findUnset_marked _⟩
    refine ⟨hsame.1, hsame.2.1.trans h.cnt, fun g hg => ?_, fun g hg => ?_⟩
    · rw [hsame.2.2] at hg
      exact h.unmarked g hg
    · rw [hlive] at hg
      exact h.live g hg
  · refine ⟨?_, ?_, fun g hg => ?_, fun g hg => ?_⟩
    · rw [hbits]
      exact h.ok.set i
    · rw [hbits, Bits.set_cnt, h.cnt]
    · rw [hbits, Bits.marked_set, Bool.or_eq_false_iff] at hg
      exact h.unmarked g hg.1
    · rw [hlive] at hg
      exact h.live g hg
  · refine ⟨?_, ?_, fun g hg => ?_, fun g hg => ?_⟩
    · rw [hbits]
      exact h.ok.clear _
    · rw [hbits, Bits.clear_cnt, h.cnt]
    · by_cases hgf : g = ptr.toNat / PAGE_SIZE
      · rw [hgf]
        rcases hfreed with hlive | hfreed
        · exact h.live _ hlive
        · exact .inr hfreed
      · rw [hbits, Bits.marked_clear] at hg
        simp only [hgf, false_and, decide_false, Bool.not_false, Bool.and_true] at hg
        exact h.unmarked g hg
    · rw [hlive, List.mem_filter] at hg
      exact h.live g hg.1

theorem frame_address {n : ℕ} (h : n < 2 ^ 20) : (BitVec.ofNat 32 (n * PAGE_SIZE)).toNat / PAGE_SIZE = n := by
  have hpage : PAGE_SIZE = 4096 := rfl
  rw [BitVec.toNat_ofNat, hpage]
  omega

theorem mark_below (freed : ℕ → Prop) (hok : s.paging.bits.Ok) (hcnt : s.paging.bits.cnt < 2 ^ 20) (n : ℕ)
    (hn : n ≤ s.paging.bits.cnt) :
    ∃ ops s', Run (Guarded FrameStep (FreedIn freed)) s ops s' ∧ s'.paging.bits.Ok ∧
      s'.paging.bits.cnt = s.paging.bits.cnt ∧
      ∀ f, s'.paging.bits.marked f = true ↔ s.paging.bits.marked f = true ∨ f < n := by
  induction n with
  | zero => exact ⟨[], s, .nil s, hok, rfl, fun f => by simp⟩
  | succ n ih =>
    obtain ⟨ops, s', hrun, hok', hcnt', hmarked⟩ := ih (by omega)
    have haddr : (BitVec.ofNat 32 (n * PAGE_SIZE)).toNat / PAGE_SIZE = n := frame_address (by omega)
    let next : FrameState :=
      ⟨(s'.paging.identityMapFrame (some (0, 0)) (BitVec.ofNat 32 (n * PAGE_SIZE)) .kernel .rw).2,
        s'.live⟩
    have hstep : Guarded FrameStep (FreedIn freed) s'
        (.identityMapFrame (some (0, 0)) (BitVec.ofNat 32 (n * PAGE_SIZE)) .kernel .rw) next :=
      ⟨⟨rfl, rfl⟩, trivial⟩
    have hbits : next.paging.bits =
        s'.paging.bits.set ((BitVec.ofNat 32 (n * PAGE_SIZE)).toNat / PAGE_SIZE) := rfl
    rw [haddr] at hbits
    refine ⟨_, next, hrun.append (.single hstep), ?_, ?_, fun f => ?_⟩
    · rw [hbits]
      exact hok'.set n
    · rw [hbits, Bits.set_cnt, hcnt']
    · rw [hbits, Bits.marked_set, Bool.or_eq_true, hmarked, decide_eq_true_eq, hcnt', or_assoc]
      apply or_congr_right
      omega

theorem getPage_taken_of_searched {b : Bits} (hok : b.Ok) (hf : Searched b.cnt f)
    (hunmarked : b.marked f = false) (hbefore : ∀ k < f, k % 32 ≠ 31 → b.marked k = true) :
    b.findUnset.1 = some f := by
  obtain ⟨hmod, hend⟩ := hf
  have hlen := hok.len
  cases hfind : b.findUnset.1 with
  | none =>
    have hmarked := hok.findUnset_none hfind (by omega) hmod
    rw [hunmarked] at hmarked
    cases hmarked
  | some g =>
    obtain ⟨-, hgmod, hzero, hfull⟩ := hok.findUnset_some hfind
    have hfg : ¬ f < g := fun hlt => by
      have hmarked := hfull f hlt hmod
      rw [hunmarked] at hmarked
      cases hmarked
    have hgf : ¬ g < f := fun hlt => by
      rw [hbefore g hlt hgmod] at hzero
      cases hzero
    rw [Nat.le_antisymm (Nat.not_lt.mp hfg) (Nat.not_lt.mp hgf)]

theorem handedOut_iff (hok : s₀.bits.Ok) (hcnt : s₀.bits.cnt < 2 ^ 20) :
    HandedOut freed s₀ f ↔ Searched s₀.bits.cnt f ∧ (s₀.bits.marked f = false ∨ freed f) := by
  constructor
  · rintro ⟨ops, s, op, hrun, htaken⟩
    have hstart : HandInv freed s₀ ⟨s₀, []⟩ :=
      ⟨hok, rfl, fun f => .inl, fun f hf => absurd hf List.not_mem_nil⟩
    have hinv := hrun.invariant (fun s op s' hinv hstep => handInv_step hinv hstep) hstart
    obtain ⟨hsearched, hunmarked⟩ := hinv.ok.findUnset_searched (taken_eq htaken).2
    rw [hinv.cnt] at hsearched
    exact ⟨hsearched, hinv.unmarked f hunmarked⟩
  · rintro ⟨hsearched, hmarked⟩
    have hle : f ≤ s₀.bits.cnt := by
      rcases hsearched.2 with hlt | ⟨heq, -⟩
      · exact Nat.le_of_lt hlt
      · exact Nat.le_of_eq heq
    -- the frame is freed first, if it is marked
    have hfirst : ∃ ops s, Run (Guarded FrameStep (FreedIn freed)) ⟨s₀, []⟩ ops s ∧
        s.paging.bits.Ok ∧ s.paging.bits.cnt = s₀.bits.cnt ∧ s.paging.bits.marked f = false := by
      rcases hmarked with hunmarked | hfreed
      · exact ⟨[], _, .nil _, hok, rfl, hunmarked⟩
      · obtain ⟨ptr, hptr⟩ : ∃ ptr : Word, ptr.toNat / PAGE_SIZE = f := ⟨_, frame_address (by omega)⟩
        let next : FrameState := ⟨s₀.freePage ptr, [].filter (· ≠ ptr.toNat / PAGE_SIZE)⟩
        have hstep : Guarded FrameStep (FreedIn freed) ⟨s₀, []⟩ (.freePage ptr) next :=
          ⟨⟨rfl, rfl⟩, .inr (hptr ▸ hfreed)⟩
        have hbits : next.paging.bits = s₀.bits.clear (ptr.toNat / PAGE_SIZE) := rfl
        rw [hptr] at hbits
        refine ⟨_, next, .single hstep, ?_, ?_, ?_⟩
        · rw [hbits]
          exact hok.clear f
        · rw [hbits, Bits.clear_cnt]
        · rw [hbits, Bits.marked_clear]
          by_cases hlt : f < s₀.bits.cnt
          · simp [hlt]
          · rw [hok.behind f (Nat.not_lt.mp hlt)]
            rfl
    obtain ⟨ops, s, hrun, hok₁, hcnt₁, hunmarked⟩ := hfirst
    obtain ⟨ops', s', hrun', hok', hcnt', hbelow⟩ := mark_below freed hok₁ (hcnt₁ ▸ hcnt) f (hcnt₁ ▸ hle)
    have hfind : s'.paging.bits.findUnset.1 = some f := by
      apply getPage_taken_of_searched hok'
      · rw [hcnt', hcnt₁]
        exact hsearched
      · apply eq_false_of_ne_true
        intro hm
        rcases (hbelow f).mp hm with hm | hm
        · rw [hunmarked] at hm
          cases hm
        · exact Nat.lt_irrefl f hm
      · exact fun k hk _ => (hbelow k).mpr (.inr hk)
    exact ⟨ops ++ ops', s', .getPage, hrun.append hrun', hfind⟩

end HandedOut

namespace MemoryMap

def base (r : MemoryMap) : ℕ := r.base_addr_high.toNat * 2 ^ 32 + r.base_addr_low.toNat
def length (r : MemoryMap) : ℕ := r.length_high.toNat * 2 ^ 32 + r.length_low.toNat
def Covers (r : MemoryMap) (a : ℕ) : Prop := r.base ≤ a ∧ a < r.base + r.length

end MemoryMap

/-- All addresses of the frame are in one region that is available, and none is in a region that is
reserved. -/
def Real (mmap : List MemoryMap) (f : ℕ) : Prop :=
  (∃ r ∈ mmap, r.type = MultibootMemoryAvailable ∧ ∀ a, a / PAGE_SIZE = f → r.Covers a) ∧
    ∀ r ∈ mmap, r.type = MultibootMemoryReserved → ∀ a, a / PAGE_SIZE = f → ¬ r.Covers a

/-- The frames that `init` leaves unmarked, and the first one behind the bitmap. -/
def LeftUnmarked (image : KernelImage) (mmap : List MemoryMap) (f : ℕ) : Prop :=
  0x10 ≤ f ∧ f < 0xA0 ∨ PagingPrivate.staticEnd image (pageCnt mmap) + 0x100 ≤ f ∨ f = pageCnt mmap

/-- The frames that are handed out after `init`, for each memory map. -/
theorem handedOut_init {image : KernelImage} {mmap : List MemoryMap} {freed : ℕ → Prop}
    {s : PagingPrivate} (h : PagingPrivate.init image mmap = some s) (f : ℕ) :
    HandedOut freed s f ↔
      Searched (pageCnt mmap) f ∧ (LeftUnmarked image mmap f ∨ freed f) := by
  obtain ⟨s', hinit, hok, hcnt, hmarked⟩ := PagingPrivate.init_spec image mmap
  obtain rfl := Option.some.inj (h.symm.trans hinit)
  rw [handedOut_iff hok (hcnt ▸ PagingPrivate.pageCnt_le mmap), hcnt]
  apply and_congr_right
  rintro ⟨-, hle⟩
  apply or_congr_left
  rw [← Bool.not_eq_true, hmarked]
  unfold LeftUnmarked
  omega

/-- Only real memory is handed out after `init`, exactly if there is memory behind all frames that
are not marked, and behind all that are freed. -/
theorem handedOut_real_iff (image : KernelImage) (mmap : List MemoryMap) (freed : ℕ → Prop) :
    (∃ s, PagingPrivate.init image mmap = some s ∧ ∀ f, HandedOut freed s f → Real mmap f) ↔
      ∀ f, Searched (pageCnt mmap) f → LeftUnmarked image mmap f ∨ freed f → Real mmap f := by
  obtain ⟨s, hinit, -⟩ := PagingPrivate.init_spec image mmap
  constructor
  · rintro ⟨s', hinit', hreal⟩ f hsearched hleft
    exact hreal f ((handedOut_init hinit' f).mpr ⟨hsearched, hleft⟩)
  · intro hreal
    refine ⟨s, hinit, fun f hf => ?_⟩
    obtain ⟨hsearched, hleft⟩ := (handedOut_init hinit f).mp hf
    exact hreal f hsearched hleft

/-- A memory map with a reserved region at the end of memory, as firmware leaves it. -/
def reservedTop : List MemoryMap :=
  [⟨0, 0, 0x9FC00, 0, 1⟩, ⟨0x9FC00, 0, 0x400, 0, 2⟩, ⟨0xF0000, 0, 0x10000, 0, 2⟩,
    ⟨0x100000, 0, 0x7EE0000, 0, 1⟩, ⟨0x7FE0000, 0, 0x20000, 0, 2⟩, ⟨0xFFFC0000, 0, 0x40000, 0, 2⟩]

def smallKernel : KernelImage where
  stack_bottom := 0x200000
  stack_top := 0x300000
  free_page_address := 0x500000
  bottom_le := by decide
  stack_le := by decide
  top_le := by decide
  free_le := by decide

/-- Frame 0x7FE0 is reserved, and is handed out when those below it are in use. -/
theorem not_handedOut_real :
    ∃ s, PagingPrivate.init smallKernel reservedTop = some s ∧
      HandedOut (fun _ => False) s 0x7FE0 ∧ ¬ Real reservedTop 0x7FE0 := by
  obtain ⟨s, hinit, -⟩ := PagingPrivate.init_spec smallKernel reservedTop
  have hcnt : pageCnt reservedTop = 0x8000 := by decide +kernel
  refine ⟨s, hinit, (handedOut_init hinit _).mpr ⟨?_, .inl (.inr (.inl ?_))⟩, fun hreal => ?_⟩
  · rw [hcnt]
    exact ⟨by decide, .inl (by decide)⟩
  · rw [hcnt]
    decide +kernel
  · -- its first address is in the reserved region
    apply hreal.2 ⟨0x7FE0000, 0, 0x20000, 0, 2⟩ (by decide) rfl 0x7FE0000 (by decide)
    exact ⟨by decide, by decide⟩

end CxxKernel.Paging
