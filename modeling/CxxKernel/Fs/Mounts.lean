import CxxKernel.Fs.Vfs
import Mathlib.Data.List.GetD

/-! What a path is resolved to by `VFS::access`, and what should be there. -/
namespace CxxKernel.Fs
open Containers Text

namespace Str

theorem startsWith_iff (s other : Str) : s.startsWith other ↔ other <+: s := by
  have hlt {i : ℕ} (hi : i < other.length) (hlen : other.length ≤ s.length) : i < s.length :=
    Nat.lt_of_lt_of_le hi hlen
  unfold startsWith
  dsimp only
  split_ifs with hlen
  · exact iff_of_false not_false fun h => Nat.not_le.mpr hlen h.length_le
  · rw [List.all_eq_true, List.prefix_iff_getElem?]
    have hlen' : other.length ≤ s.length := Nat.le_of_not_lt hlen
    constructor
    · intro h i hi
      have heq := of_decide_eq_true (h i (List.mem_range.mpr hi))
      rw [List.getD_eq_getElem _ _ (hlt hi hlen'), List.getD_eq_getElem _ _ hi] at heq
      rw [List.getElem?_eq_getElem (hlt hi hlen'), heq]
    · intro h i hi
      have hi' := List.mem_range.mp hi
      have heq := h i hi'
      rw [List.getElem?_eq_getElem (hlt hi' hlen')] at heq
      rw [List.getD_eq_getElem _ _ (hlt hi' hlen'), List.getD_eq_getElem _ _ hi', Option.some.inj heq]
      exact decide_eq_true rfl

end Str

/-- The path is the mountpoint, or continues it with a slash. -/
def Below (mountpoint path : Str) : Prop := path = mountpoint ∨ ∃ rest, path = mountpoint ++ 0x2F :: rest

instance (mountpoint path : Str) : Decidable (Below mountpoint path) :=
  decidable_of_iff (path = mountpoint ∨ mountpoint ++ [0x2F] <+: path)
    (or_congr_right (exists_congr fun rest => by rw [List.append_assoc, eq_comm]; rfl))

theorem Below.startsWith {mountpoint path : Str} (h : Below mountpoint path) :
    path.startsWith mountpoint := by
  apply (Str.startsWith_iff path mountpoint).mpr
  rcases h with rfl | ⟨rest, rfl⟩
  · exact List.prefix_refl _
  · exact List.prefix_append _ _

namespace VFS
variable {φ : Type} {v v' : VFS φ} {l : List φ} {fresh : Ptr}

/-- The loop ends at the first character that is no slash. Behind the last slash it assigns the `String` that
`right` leaves empty, whose buffer is null, to one of length 1. -/
theorem stripslashLoop_text {chars : Str} (hwhole : (Value.text chars).Whole) {fuel : ℕ}
    (hfuel : chars.length < fuel) :
    stripslashLoop fuel (.text chars) = if chars ≠ [] ∧ chars.dropWhile (· = 0x2F) = [] then none
      else some (.text (chars.dropWhile (· = 0x2F))) := by
  induction chars generalizing fuel with
  | nil =>
    obtain ⟨fuel, rfl⟩ := Nat.exists_eq_succ_of_ne_zero (Nat.ne_of_gt hfuel)
    rfl
  | cons c cs ih =>
    obtain ⟨fuel, rfl⟩ := Nat.exists_eq_succ_of_ne_zero (Nat.ne_of_gt (Nat.lt_of_le_of_lt (Nat.zero_le _) hfuel))
    have hfuel' : cs.length < fuel := Nat.lt_of_succ_lt_succ hfuel
    have hat : (Value.text (c :: cs)).at' 0 = some c := rfl
    have hright : (Value.text (c :: cs)).right 1 = some (.ofChars cs) := rfl
    rw [stripslashLoop, hat, Option.bind_some]
    by_cases hc : c = 0x2F
    · have hdrop : (c :: cs).dropWhile (· = 0x2F) = cs.dropWhile (· = 0x2F) :=
        List.dropWhile_cons_of_pos (decide_eq_true hc)
      rw [if_pos hc, hright, Option.bind_some, hdrop]
      cases cs with
      | nil =>
        rw [if_pos ⟨List.cons_ne_nil _ _, rfl⟩]
        cases fuel <;> rfl
      | cons c' cs =>
        have htail : (Value.text (c' :: cs)).Whole := hwhole.sublist (List.sublist_cons_self c _)
        have hloop := ih htail hfuel'
        simp only [ne_eq, reduceCtorEq, not_false_eq_true, true_and] at hloop ⊢
        rw [Value.ofChars, htail.init, hloop]
    · have hdrop : (c :: cs).dropWhile (· = 0x2F) = c :: cs := List.dropWhile_cons_of_neg (mt of_decide_eq_true hc)
      rw [if_neg hc, hdrop, if_neg fun h => List.cons_ne_nil _ _ h.2]

theorem stripslash_text (raw : Word) (chars : Str) : stripslash raw (.text chars) =
    if Value.measured chars ≠ [] ∧ (Value.measured chars).dropWhile (· = 0x2F) = [] then none
      else some (.text ((Value.measured chars).dropWhile (· = 0x2F))) :=
  stripslashLoop_text (Value.whole_measured chars) (Nat.lt_succ_of_le (Value.length_measured_le chars))

theorem mount_holds (h : v.m_mounts.Holds l) (hfresh : v.m_mounts.mem fresh = none) (A : φ) :
    ∃ v', v.mount fresh (some A) = some (true, v') ∧ v'.mountpoint = v.mountpoint ∧
      v'.m_mounts.Holds (l ++ [A]) := by
  obtain ⟨m_mounts, happend, hm⟩ := h.append hfresh A
  refine ⟨{ v with m_mounts }, ?_, rfl, hm⟩
  dsimp only [mount]
  rw [happend]
  rfl

/-- The first mount answers whose mountpoint the path starts with. -/
theorem access_eq (h : v.m_mounts.Holds l) (path : Str) :
    v.access path = some (l.find? fun A => path.startsWith (v.mountpoint A)) := by
  unfold access
  rw [h.findItem _ (by rw [h.size_toNat]; exact Nat.lt_succ_self _), List.find?_eq_findSome?_guard]
  rfl

/-- What is left for the mount is the path below it without leading slashes, whatever memory the copies are
made in. -/
def Strips (v : VFS φ) (path : Str) (A : φ) : Prop :=
  ∀ rest, path = v.mountpoint A ++ rest → ∀ raw, ∃ base, stripslash raw (v.basedir path (some A)) = some base ∧
    base.Denotes (rest.dropWhile (· = 0x2F))

/-- The right answer for a path: of the mounts that it is below, one with the longest mountpoint, and
what is left is the path below it. -/
def Resolves (v : VFS φ) (l : List φ) (path : Str) : Option φ → Prop
  | none => ∀ B ∈ l, ¬ Below (v.mountpoint B) path
  | some A => A ∈ l ∧ Below (v.mountpoint A) path ∧
      (∀ B ∈ l, Below (v.mountpoint B) path → (v.mountpoint B).length ≤ (v.mountpoint A).length) ∧ v.Strips path A

def MountLaw (v : VFS φ) (l : List φ) (path : Str) : Prop :=
  ∃ fs, v.access path = some fs ∧ v.Resolves l path fs

/-- Of the mounts whose mountpoint the path starts with, the first that was made. -/
def IsFirst (v : VFS φ) (path : Str) (pre : List φ) (A : φ) : Prop :=
  (∀ B ∈ pre, ¬ path.startsWith (v.mountpoint B)) ∧ path.startsWith (v.mountpoint A)

/-- The first mount has the path below it, and none that the path is below has a longer mountpoint. -/
def LongestFirst (v : VFS φ) (l : List φ) (path : Str) : Prop :=
  ∀ pre A post, l = pre ++ A :: post → v.IsFirst path pre A → Below (v.mountpoint A) path ∧
    ∀ B ∈ post, Below (v.mountpoint B) path → (v.mountpoint B).length ≤ (v.mountpoint A).length

/-- Behind the mountpoint and the character after it something is left that is no slash, and no text of 2 ^ 31
characters with a NUL in it. -/
def Leaves (mountpoint path : Str) : Prop :=
  let below := path.drop (mountpoint.length + 1)
  below.dropWhile (· = 0x2F) ≠ [] ∧ (below.length < 2 ^ 31 ∨ 0 ∉ below)

instance (mountpoint path : Str) : Decidable (Leaves mountpoint path) := inferInstanceAs (Decidable (_ ∧ _))

/-- The first mount leaves something of the path. -/
def LeavesPath (v : VFS φ) (l : List φ) (path : Str) : Prop :=
  ∀ pre A post, l = pre ++ A :: post → v.IsFirst path pre A → Leaves (v.mountpoint A) path

theorem measured_of_dropWhile {chars : Str}
    (h : (Value.measured chars).dropWhile (· = 0x2F) = chars.dropWhile (· = 0x2F)) :
    Value.measured chars = chars := by
  by_contra hne
  rw [Value.measured_eq_self_iff, not_or, not_not] at hne
  obtain ⟨hlong, hnul⟩ := hne
  have hkept : 0 ∈ chars.dropWhile (· = 0x2F) := by
    have hsplit : 0 ∈ chars.takeWhile (· = 0x2F) ++ chars.dropWhile (· = 0x2F) := by
      rwa [List.takeWhile_append_dropWhile]
    refine (List.mem_append.mp hsplit).resolve_left fun hmem => ?_
    have hslash := List.mem_takeWhile_imp hmem
    exact absurd (of_decide_eq_true hslash) (by decide)
  rw [← h] at hkept
  have hmem := (List.dropWhile_suffix _).subset hkept
  rw [Value.measured, if_neg hlong] at hmem
  have hchar := List.mem_takeWhile_imp hmem
  exact absurd rfl (of_decide_eq_true hchar)

theorem drop_mountpoint {mountpoint path rest : Str} (h : Below mountpoint path) (hrest : path = mountpoint ++ rest) :
    (path.drop (mountpoint.length + 1)).dropWhile (· = 0x2F) = rest.dropWhile (· = 0x2F) := by
  rcases h with h | ⟨below, h⟩
  · have hnil : rest = [] := List.append_cancel_left (by rw [← hrest, h, List.append_nil])
    rw [h, hnil, List.drop_of_length_le (Nat.le_succ _)]
  · have hcons : rest = 0x2F :: below := List.append_cancel_left (hrest.symm.trans h)
    rw [hrest, hcons, List.drop_append, List.drop_of_length_le (Nat.le_succ _), List.nil_append,
      Nat.add_sub_cancel_left]
    rfl

/-- What is left behind the mountpoint loses its slashes. -/
theorem stripslash_basedir {path : Str} {A : φ} (h : Leaves (v.mountpoint A) path) (raw : Word) :
    stripslash raw (v.basedir path (some A)) =
      some (.text ((path.drop ((v.mountpoint A).length + 1)).dropWhile (· = 0x2F))) := by
  obtain ⟨hne, hroom⟩ := h
  rw [basedir]
  generalize path.drop ((v.mountpoint A).length + 1) = below at hne hroom ⊢
  have hnil : below ≠ [] := by
    rintro rfl
    exact hne rfl
  rw [Value.ofChars_of_ne_nil hnil, stripslash_text, Value.measured_eq_self_iff.mpr hroom,
    if_neg fun hslashes => hne hslashes.2]

/-- With nothing left, `right` returns a `String` without a buffer, and its copy has any length. -/
theorem strips_iff {path : Str} {A : φ} (h : Below (v.mountpoint A) path) :
    v.Strips path A ↔ Leaves (v.mountpoint A) path := by
  constructor
  · intro hall
    obtain ⟨rest, hrest⟩ : ∃ rest, path = v.mountpoint A ++ rest := by
      rcases h with h | ⟨below, h⟩
      · exact ⟨[], h.trans (List.append_nil _).symm⟩
      · exact ⟨_, h⟩
    have hleft := hall rest hrest
    rw [← drop_mountpoint h hrest, basedir] at hleft
    rw [Leaves, ← Value.measured_eq_self_iff]
    generalize path.drop ((v.mountpoint A).length + 1) = below at hleft ⊢
    by_cases hnil : below = []
    · obtain ⟨base, hstrip, -⟩ := hleft 1
      have hnull : stripslash 1 (.ofChars []) = none := rfl
      rw [hnil, hnull] at hstrip
      cases hstrip
    · obtain ⟨base, hstrip, hdenotes⟩ := hleft 0
      rw [Value.ofChars_of_ne_nil hnil, stripslash_text] at hstrip
      split_ifs at hstrip with hslashes
      cases hstrip
      have hmeasured := measured_of_dropWhile hdenotes
      rw [hmeasured] at hslashes
      exact ⟨fun hempty => hslashes ⟨hnil, hempty⟩, hmeasured⟩
  · intro hleaves rest hrest raw
    exact ⟨_, stripslash_basedir hleaves raw, drop_mountpoint h hrest⟩

theorem find?_eq_some_iff_isFirst {path : Str} {A : φ} :
    (l.find? fun A => path.startsWith (v.mountpoint A)) = some A ↔
      ∃ pre post, l = pre ++ A :: post ∧ v.IsFirst path pre A := by
  rw [List.find?_eq_some_iff_append]
  constructor
  · rintro ⟨hA, pre, post, hl, hpre⟩
    exact ⟨pre, post, hl, fun B hB => by simpa using hpre B hB, hA⟩
  · rintro ⟨pre, post, hl, hpre, hA⟩
    exact ⟨hA, pre, post, hl, fun B hB => by simpa using hpre B hB⟩

theorem LongestFirst.mountLaw {path : Str} (hfirst : v.LongestFirst l path) (hleaves : v.LeavesPath l path)
    (h : v.m_mounts.Holds l) : v.MountLaw l path := by
  refine ⟨_, access_eq h path, ?_⟩
  cases hfind : l.find? fun A => path.startsWith (v.mountpoint A) with
  | none =>
    intro B hB hbelow
    exact List.find?_eq_none.mp hfind B hB hbelow.startsWith
  | some A =>
    obtain ⟨pre, post, rfl, hA⟩ := find?_eq_some_iff_isFirst.mp hfind
    obtain ⟨hbelow, hlongest⟩ := hfirst pre A post rfl hA
    refine ⟨by simp, hbelow, fun B hB hB' => ?_, (strips_iff hbelow).mpr (hleaves pre A post rfl hA)⟩
    rcases List.mem_append.mp hB with hB | hB
    · exact absurd hB'.startsWith (hA.1 B hB)
    · rcases List.mem_cons.mp hB with rfl | hB
      · exact Nat.le_refl _
      · exact hlongest B hB hB'

/-- A path is resolved to the longest mountpoint that it is below, with the path that is left there, exactly
when the first mount whose mountpoint it starts with is that one, and leaves something. -/
theorem mountLaw_iff (h : v.m_mounts.Holds l) (path : Str) :
    v.MountLaw l path ↔ v.LongestFirst l path ∧ v.LeavesPath l path := by
  refine ⟨?_, fun hboth => hboth.1.mountLaw hboth.2 h⟩
  rintro ⟨fs, haccess, hres⟩
  rw [access_eq h] at haccess
  have hanswer : ∀ pre A post, l = pre ++ A :: post → v.IsFirst path pre A → v.Resolves l path (some A) := by
    intro pre A post hl hA
    rw [find?_eq_some_iff_isFirst.mpr ⟨pre, post, hl, hA⟩] at haccess
    rwa [Option.some.inj haccess]
  constructor
  · intro pre A post hl hA
    obtain ⟨-, hbelow, hlongest, -⟩ := hanswer pre A post hl hA
    rw [hl] at hlongest
    exact ⟨hbelow, fun B hB => hlongest B (List.mem_append_right _ (List.mem_cons_of_mem _ hB))⟩
  · intro pre A post hl hA
    obtain ⟨-, hbelow, -, hstrips⟩ := hanswer pre A post hl hA
    exact (strips_iff hbelow).mp hstrips

/-- What is left of such a path is what `syscall_open` opens. -/
theorem syscall_open_leaves {path : Str} {A : φ} (haccess : v.access path = some (some A))
    (hleaves : Leaves (v.mountpoint A) path) (fsOpen : φ → Value → Word → Word) (raw : ℕ → Word) (flags : Word) :
    v.syscall_open fsOpen raw (some path) flags =
      some (fsOpen A (.text ((path.drop ((v.mountpoint A).length + 1)).dropWhile (· = 0x2F))) flags) := by
  have hwhole : (Value.text ((path.drop ((v.mountpoint A).length + 1)).dropWhile (· = 0x2F))).Whole :=
    Value.Whole.sublist hleaves.2 (List.dropWhile_sublist _)
  rw [VFS.syscall_open, haccess, Option.bind_some]
  dsimp only
  rw [stripslash_basedir hleaves, Option.map_some, hwhole.init]

/-- The path "/dev/tty" with one mount, at "/dev". -/
theorem mountLaw_iff_dev : ∃ v : VFS Str, v.m_mounts.Holds [[0x2F, 0x64, 0x65, 0x76]] ∧
    (v.MountLaw [[0x2F, 0x64, 0x65, 0x76]] [0x2F, 0x64, 0x65, 0x76, 0x2F, 0x74, 0x74, 0x79] ↔
      v.LongestFirst [[0x2F, 0x64, 0x65, 0x76]] [0x2F, 0x64, 0x65, 0x76, 0x2F, 0x74, 0x74, 0x79] ∧
        v.LeavesPath [[0x2F, 0x64, 0x65, 0x76]] [0x2F, 0x64, 0x65, 0x76, 0x2F, 0x74, 0x74, 0x79]) := by
  obtain ⟨v, -, -, hv⟩ := @mount_holds Str ⟨id, .new⟩ [] ⟨8, by decide⟩ LinkedList.holds_new rfl
    [0x2F, 0x64, 0x65, 0x76]
  exact ⟨v, hv, mountLaw_iff hv _⟩

/-- With one mount, at "/dev", the path "/device" is resolved to it. -/
theorem not_mountLaw_device : ∃ v : VFS Str, v.m_mounts.Holds [[0x2F, 0x64, 0x65, 0x76]] ∧
    ¬ v.MountLaw [[0x2F, 0x64, 0x65, 0x76]] [0x2F, 0x64, 0x65, 0x76, 0x69, 0x63, 0x65] := by
  obtain ⟨v, -, hpoint, hv⟩ := @mount_holds Str ⟨id, .new⟩ [] ⟨8, by decide⟩ LinkedList.holds_new rfl
    [0x2F, 0x64, 0x65, 0x76]
  refine ⟨v, hv, ?_⟩
  rintro ⟨fs, haccess, hres⟩
  rw [access_eq hv, hpoint] at haccess
  obtain rfl : some [0x2F, 0x64, 0x65, 0x76] = fs := Option.some.inj haccess
  have hbelow := hres.2.1
  rw [hpoint] at hbelow
  exact absurd hbelow (by decide)

end VFS

end CxxKernel.Fs
