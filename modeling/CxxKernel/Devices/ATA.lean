import CxxKernel.Devices.Enumeration
import Mathlib.Tactic.FinCases

/-! The loop of `ATA::init` over the controllers. The drives that it sets up are left out. -/
namespace CxxKernel.Devices
open Cursor PCI

namespace ATA
variable (put : Config → Word → BitVec 8 → Config) (mem : HeaderGeneric)

/-- What is written to the configuration space of a controller. A result `none` says that the source
follows a null pointer. -/
def initController (config : Config) (i : DeviceIterator) : Option Config :=
  let config := set config i put 0x3C 0xFE
  (getCurrent config mem i).bind fun h =>
    let bit (n : ℕ) := (1 : BitVec 16) <<< n
    let cmd := h.command &&& ~~~bit 10 ||| (bit 0 ||| bit 2)
    let config := if cmd ≠ h.command then set config i put 0x4 (cmd.setWidth 8) else config
    (getCurrent config mem i).map fun _ => config

/-- The do-while loop. A result `none` also says that the fuel is used up. -/
def initLoop : ℕ → Config → DeviceIterator → Option Config
  | 0, _, _ => none
  | fuel + 1, config, i =>
    match findNextDevice config mem i 0x1 0x1 with
    | (none, _) => some config
    | (some hdr, i) =>
      if hdr.headerType &&& 0x1F = 0 then
        (initController put mem config i).bind fun config => initLoop fuel config i
      else initLoop fuel config i

end ATA

namespace PCI
variable {config config' : Config} {mem : HeaderGeneric} {test : HeaderGeneric → Bool}
  {put : Config → Word → BitVec 8 → Config} {iter p : DeviceIterator} {hdr : HeaderGeneric} {multi : Bool}

theorem getPciAddr_setWidth (bus device func reg : Word) :
    (getPciAddr bus device func reg).setWidth 8 = (reg &&& 0xFC).setWidth 8 := by
  have hshift : ∀ (x : Word) (n : ℕ), 8 ≤ n → (x <<< n).setWidth 8 = 0 := by
    intro x n hn
    obtain ⟨m, rfl⟩ := Nat.exists_eq_add_of_le hn
    apply BitVec.eq_of_toNat_eq
    rw [BitVec.toNat_setWidth, BitVec.toNat_shiftLeft, Nat.shiftLeft_eq, Nat.pow_add]
    have hdvd : 2 ^ 8 ∣ x.toNat * (2 ^ 8 * 2 ^ m) % 2 ^ 32 :=
      (Nat.dvd_mod_iff (by decide)).mpr (Nat.dvd_mul_left_of_dvd (Nat.dvd_mul_right _ _) _)
    exact Nat.mod_eq_zero_of_dvd hdvd
  unfold getPciAddr
  rw [BitVec.setWidth_or, BitVec.setWidth_or, BitVec.setWidth_or, BitVec.setWidth_or, hshift _ 31 (by decide),
    hshift _ 16 (by decide), hshift _ 11 (by decide), hshift _ 8 (by decide)]
  exact BitVec.zero_or

/-- The two contents agree on what identifies a function. -/
def SameIds (config config' : Config) : Prop :=
  ∀ bus device func, ∀ reg ∈ [(0x0 : Word), 0x8, 0xC],
    getConfig config' bus device func reg = getConfig config bus device func reg

theorem SameIds.trans {config'' : Config} (h : SameIds config config') (h' : SameIds config' config'') :
    SameIds config config'' := fun bus device func reg hreg =>
  (h' bus device func reg hreg).trans (h bus device func reg hreg)

/-- A write to the interrupt line or to the command register changes no identification. -/
theorem sameIds_set (hput : ∀ config a val b, b ≠ a → put config a val b = config b) {reg : Word}
    (hreg : reg = 0x3C ∨ reg = 0x4) (val : BitVec 8) : SameIds config (PCI.set config iter put reg val) := by
  intro bus device func r hr
  apply hput
  intro heq
  have hlow := congrArg (BitVec.setWidth 8) heq
  rw [getPciAddr_setWidth, getPciAddr_setWidth] at hlow
  rcases hreg with rfl | rfl
  · fin_cases hr
    all_goals exact absurd hlow (by decide)
  · fin_cases hr
    all_goals exact absurd hlow (by decide)

/-- Whether a loop finds something, and the iterator it leaves. -/
def ends (r : Option HeaderGeneric × DeviceIterator) : Bool × DeviceIterator := (r.1.isSome, r.2)

theorem ends_devLoop (rounds : ℕ) : ends (devLoop config mem test (rounds + 1) iter) =
    let r := ends (funcLoop config mem test (0x8 - iter.func.toNat) false iter)
    if r.1 then r else ends (devLoop config mem test rounds { r.2 with func := 0, dev := r.2.dev + 1 }) := by
  rw [devLoop]
  rcases funcLoop config mem test (0x8 - iter.func.toNat) false iter with ⟨_ | hdr, q⟩
  · rfl
  · rfl

theorem ends_busLoop (rounds : ℕ) : ends (busLoop config mem test (rounds + 1) iter) =
    let r := ends (devLoop config mem test (0x20 - iter.dev.toNat) iter)
    if r.1 then r else ends (busLoop config mem test rounds { r.2 with dev := 0, bus := r.2.bus + 1 }) := by
  rw [busLoop]
  rcases devLoop config mem test (0x20 - iter.dev.toNat) iter with ⟨_ | hdr, q⟩
  · rfl
  · rfl

section Found

theorem funcLoop_found {rounds : ℕ} (h : funcLoop config mem test rounds multi iter = (some hdr, p)) :
    hdr = headerAt config mem p ∧ found config mem test p := by
  induction rounds generalizing multi iter with
  | zero => cases h
  | succ rounds ih =>
    by_cases hstop : 0 < iter.func ∧ multi = false
    · rw [funcLoop, if_pos hstop] at h
      cases h
    · rw [funcLoop_succ hstop] at h
      split_ifs at h with hfound
      · obtain ⟨hhdr, rfl⟩ := Prod.mk.inj h
        exact ⟨(Option.some.inj hhdr).symm, hfound⟩
      · exact ih h

theorem devLoop_found {rounds : ℕ} (h : devLoop config mem test rounds iter = (some hdr, p)) :
    hdr = headerAt config mem p ∧ found config mem test p := by
  induction rounds generalizing iter with
  | zero => cases h
  | succ rounds ih =>
    rw [devLoop] at h
    rcases hloop : funcLoop config mem test (0x8 - iter.func.toNat) false iter with ⟨_ | hdr', q⟩
    · rw [hloop] at h
      exact ih h
    · rw [hloop] at h
      exact funcLoop_found (hloop.trans h)

theorem search_stays (h : search config mem test iter = (some hdr, p)) :
    hdr = headerAt config mem p ∧ found config mem test p := by
  unfold search at h
  generalize 0x100 - iter.bus.toNat = rounds at h
  induction rounds generalizing iter with
  | zero => cases h
  | succ rounds ih =>
    rw [busLoop] at h
    rcases hloop : devLoop config mem test (0x20 - iter.dev.toNat) iter with ⟨_ | hdr', q⟩
    · rw [hloop] at h
      exact ih h
    · rw [hloop] at h
      exact devLoop_found (hloop.trans h)

theorem next_eq : next config mem test iter =
    let r := ends (search config mem test iter)
    if r.1 then some (r.2, r.2) else none := by
  unfold next call
  rcases hsearch : search config mem test iter with ⟨_ | hdr, q⟩
  · rfl
  · obtain ⟨rfl, -⟩ := search_stays hsearch
    rfl

end Found

section Congr
variable (hids : SameIds config config')
  (htest : ∀ p, test (headerAt config' mem p) = test (headerAt config mem p))

include hids in
theorem isDevice_congr : isDevice config' p.bus p.dev p.func = isDevice config p.bus p.dev p.func := by
  unfold isDevice getVendor
  rw [hids _ _ _ 0x0 List.mem_cons_self]

include hids in
theorem isMulti_congr : isMulti config' mem p = isMulti config mem p := by
  have hreg : (headerAt config' mem p).reg 3 = (headerAt config mem p).reg 3 :=
    hids p.bus p.dev p.func 0xC (by decide)
  unfold isMulti HeaderGeneric.headerType
  rw [isDevice_congr hids, hreg]

include hids in
theorem hasClass_congr (classcode subclass : BitVec 8) :
    hasClass classcode subclass (headerAt config' mem p) = hasClass classcode subclass (headerAt config mem p) := by
  have hreg : (headerAt config' mem p).reg 2 = (headerAt config mem p).reg 2 :=
    hids p.bus p.dev p.func 0x8 (by decide)
  unfold hasClass HeaderGeneric.classCode HeaderGeneric.subclass
  rw [hreg]

include hids htest in
theorem funcLoop_congr (rounds : ℕ) : ends (funcLoop config' mem test rounds multi iter) =
    ends (funcLoop config mem test rounds multi iter) := by
  induction rounds generalizing multi iter with
  | zero => rfl
  | succ rounds ih =>
    by_cases hstop : 0 < iter.func ∧ multi = false
    · rw [funcLoop, if_pos hstop, funcLoop, if_pos hstop]
    · have hfound : found config' mem test iter = found config mem test iter := by
        rw [found, isDevice_congr hids, htest]
        rfl
      rw [funcLoop_succ hstop, funcLoop_succ hstop, hfound, isMulti_congr hids]
      split_ifs
      · rfl
      · exact ih

include hids htest in
theorem devLoop_congr (rounds : ℕ) : ends (devLoop config' mem test rounds iter) =
    ends (devLoop config mem test rounds iter) := by
  induction rounds generalizing iter with
  | zero => rfl
  | succ rounds ih =>
    rw [ends_devLoop, ends_devLoop, funcLoop_congr hids htest]
    dsimp only
    rw [ih]

include hids htest in
/-- The calls find the same functions when the contents agree on what identifies them. -/
theorem next_congr : next config' mem test = next config mem test := by
  have hbus : ∀ rounds iter, ends (busLoop config' mem test rounds iter) =
      ends (busLoop config mem test rounds iter) := by
    intro rounds
    induction rounds with
    | zero => exact fun _ => rfl
    | succ rounds ih =>
      intro iter
      rw [ends_busLoop, ends_busLoop, devLoop_congr hids htest]
      dsimp only
      rw [ih]
  funext iter
  rw [next_eq, next_eq, search, search, hbus]

end Congr

end PCI

namespace ATA
variable {config config' : Config} {mem : HeaderGeneric} {put : Config → Word → BitVec 8 → Config}
  {i : DeviceIterator}

/-- A controller is set up without a null pointer, and stays what it is. -/
theorem initController_ids (hput : ∀ config a val b, b ≠ a → put config a val b = config b)
    (hdevice : isDevice config i.bus i.dev i.func) :
    ∃ config', initController put mem config i = some config' ∧ SameIds config config' := by
  have hcurrent : ∀ config', SameIds config config' → getCurrent config' mem i = some (headerAt config' mem i) := by
    intro config' hids
    have hthere : isDevice config' i.bus i.dev i.func := (isDevice_congr hids).trans hdevice
    exact if_pos (of_decide_eq_true hthere)
  have hline : SameIds config (PCI.set config i put 0x3C 0xFE) := sameIds_set hput (.inl rfl) _
  unfold initController
  dsimp only
  rw [hcurrent _ hline, Option.bind_some]
  split_ifs
  · have hcommand (val : BitVec 8) := hline.trans (@sameIds_set _ put i hput 0x4 (.inr rfl) val)
    rw [hcurrent _ (hcommand _)]
    exact ⟨_, rfl, hcommand _⟩
  · rw [hcurrent _ hline]
    exact ⟨_, rfl, hline⟩

/-- The loop of `ATA::init` goes on as long as the search finds something. -/
theorem initLoop_succ (hput : ∀ config a val b, b ≠ a → put config a val b = config b) (fuel : ℕ) :
    (next config mem (hasClass 0x1 0x1) i = none ∧ initLoop put mem (fuel + 1) config i = some config) ∨
      ∃ p config', next config mem (hasClass 0x1 0x1) i = some (p, p) ∧ SameIds config config' ∧
        initLoop put mem (fuel + 1) config i = initLoop put mem fuel config' p := by
  rw [initLoop, next, call, findNextDevice]
  rcases hsearch : search config mem (hasClass 0x1 0x1) i with ⟨_ | hdr, p⟩
  · exact .inl ⟨rfl, rfl⟩
  · obtain ⟨rfl, hfound⟩ := search_stays hsearch
    have hdevice := (Bool.and_eq_true_iff.mp hfound).1
    obtain ⟨config', hinit, hids⟩ := @initController_ids config mem put p hput hdevice
    refine .inr ?_
    dsimp only
    split_ifs
    · refine ⟨p, config', rfl, hids, ?_⟩
      rw [hinit, Option.bind_some]
    · exact ⟨p, config, rfl, fun _ _ _ _ _ => rfl, rfl⟩

/-- The loop of `ATA::init` ends exactly if the search does. -/
theorem initLoop_ends (hput : ∀ config a val b, b ≠ a → put config a val b = config b) :
    (∃ fuel, (initLoop put mem fuel config i).isSome) ↔
      ∃ xs, Yields (next config mem (hasClass 0x1 0x1)) i xs := by
  constructor
  · rintro ⟨fuel, hend⟩
    induction fuel generalizing config i with
    | zero => cases hend
    | succ fuel ih =>
      rcases initLoop_succ hput fuel with ⟨hnone, -⟩ | ⟨p, config', hsome, hids, hloop⟩
      · exact ⟨[], .stop hnone⟩
      · rw [hloop] at hend
        obtain ⟨xs, hxs⟩ := ih hend
        rw [next_congr hids fun p => hasClass_congr hids 0x1 0x1] at hxs
        exact ⟨p :: xs, .item hsome hxs⟩
  · rintro ⟨xs, hxs⟩
    refine ⟨xs.length + 1, ?_⟩
    induction xs generalizing config i with
    | nil =>
      rcases initLoop_succ hput 0 with ⟨-, hend⟩ | ⟨p, config', hsome, -, -⟩
      · rw [List.length_nil, hend]
        rfl
      · cases hxs with
        | stop h =>
          rw [hsome] at h
          cases h
    | cons x xs ih =>
      cases hxs with
      | item h hrest =>
        rcases initLoop_succ hput (xs.length + 1) with ⟨hnone, -⟩ | ⟨p, config', hsome, hids, hloop⟩
        · rw [hnone] at h
          cases h
        · obtain ⟨rfl, rfl⟩ := Prod.mk.inj (Option.some.inj (hsome.symm.trans h))
          rw [← next_congr hids fun p => hasClass_congr hids 0x1 0x1] at hrest
          rw [List.length_cons, hloop]
          exact ih hrest

end ATA

namespace PCI

/-- The calls of `findNextDevice` and of `findNextDeviceByVendor` find what they should exactly if no
function 0 is to be found and no two functions of one device. The loop of `ATA::init` ends exactly if
no function 0 is an IDE controller, whatever a write does to the register that it writes. -/
theorem search_iff (config : Config) (mem : HeaderGeneric) {put : Config → Word → BitVec 8 → Config}
    (hput : ∀ config a val b, b ≠ a → put config a val b = config b) :
    (∀ classcode subclass, EnumerationLaw (findNextDevice config mem · classcode subclass)
      (matching config mem (hasClass classcode subclass)) ↔
        OneBehindZero config mem (hasClass classcode subclass)) ∧
    (∀ vendor deviceid, EnumerationLaw (findNextDeviceByVendor config mem · vendor deviceid)
      (matching config mem (hasVendor vendor deviceid)) ↔
        OneBehindZero config mem (hasVendor vendor deviceid)) ∧
    ((∃ fuel, (ATA.initLoop put mem fuel config startIter).isSome) ↔
      ∀ bus < 0x100, ∀ dev < 0x20, found config mem (hasClass 0x1 0x1) (place bus dev 0) = false) := by
  refine ⟨fun _ _ => enumeration_iff, fun _ _ => enumeration_iff, ?_⟩
  rw [ATA.initLoop_ends hput]
  exact ends_iff

/-- A machine without devices. -/
theorem search_iff_empty :
    EnumerationLaw (findNextDevice (fun _ => 0xFFFFFFFF) ⟨fun _ => 0⟩ · 0x1 0x1)
      (matching (fun _ => 0xFFFFFFFF) ⟨fun _ => 0⟩ (hasClass 0x1 0x1)) ∧
      ∃ fuel, (ATA.initLoop (fun config a val => Function.update config a (val.setWidth 32)) ⟨fun _ => 0⟩ fuel
        (fun _ => 0xFFFFFFFF) startIter).isSome := by
  have hvendor : CONFIG_GET_VENDOR 0xFFFFFFFF = 0xFFFF := by decide
  have hnone : ∀ p, found (fun _ => 0xFFFFFFFF) ⟨fun _ => 0⟩ (hasClass 0x1 0x1) p = false := by
    intro p
    have hdevice : isDevice (fun _ => 0xFFFFFFFF) p.bus p.dev p.func = false :=
      decide_eq_false fun h => h hvendor
    rw [found, hdevice, Bool.false_and]
  have hput : ∀ (config : Config) a (val : BitVec 8) b, b ≠ a →
      Function.update config a (val.setWidth 32) b = config b := fun _ _ _ _ h => Function.update_of_ne h ..
  obtain ⟨hclass, -, hloop⟩ := search_iff (fun _ => 0xFFFFFFFF) ⟨fun _ => 0⟩ hput
  refine ⟨(hclass 0x1 0x1).mpr fun bus _ dev _ => ⟨hnone _, ?_⟩, hloop.mpr fun bus _ dev _ => hnone _⟩
  unfold functions
  rw [List.filter_eq_nil_iff.mpr fun p _ => Bool.eq_false_iff.mp (hnone p)]
  exact Nat.zero_le 1

/-- The configuration space of a machine whose first device is an IDE controller with function 0 only. -/
def ideConfig : Config := fun a =>
  if a = 0x80000000 then 0x70108086 else if a = 0x80000008 then 0x01018000
  else if a = 0x8000000C then 0 else 0xFFFFFFFF

theorem not_enumerationLaw_ide : ¬ EnumerationLaw (findNextDevice ideConfig ⟨fun _ => 0⟩ · 0x1 0x1)
    (matching ideConfig ⟨fun _ => 0⟩ (hasClass 0x1 0x1)) := by
  have hfound : found ideConfig ⟨fun _ => 0⟩ (hasClass 0x1 0x1) (device 0 0) := by decide
  exact not_yields (by decide) hfound (Nat.le_refl 0) _

end PCI

end CxxKernel.Devices
