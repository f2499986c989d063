import CxxKernel.Devices.PCI
import CxxKernel.Lib.Cursor

/-! What the search for a device finds call after call, and what it should find. -/
namespace CxxKernel.Devices.PCI
open Cursor

/-- The place of a function. -/
def place (bus dev func : ℕ) : DeviceIterator :=
  ⟨BitVec.ofNat 32 bus, BitVec.ofNat 32 dev, BitVec.ofNat 32 func⟩

section Spec
variable (config : Config) (mem : HeaderGeneric) (test : HeaderGeneric → Bool)

def headerAt (p : DeviceIterator) : HeaderGeneric := getHeader config mem p.bus p.dev p.func

/-- The function exists, and its header meets the test. -/
def found (p : DeviceIterator) : Bool := isDevice config p.bus p.dev p.func && test (headerAt config mem p)

/-- The function exists, and its header has the multi-function bit. -/
def isMulti (p : DeviceIterator) : Bool :=
  isDevice config p.bus p.dev p.func && CONFIG_IS_MULTI (headerAt config mem p).headerType

/-- The functions of a device that should be found: of function 0, and of functions 1 to 7 if function
0 has the multi-function bit. -/
def functions (bus dev : ℕ) : List DeviceIterator :=
  ((0 :: if isMulti config mem (place bus dev 0) then List.range' 1 7 else []).map (place bus dev)).filter
    (found config mem test)

/-- All that should be found, in the order of buses, devices and functions. -/
def matching : List DeviceIterator :=
  (List.range 0x100).flatMap fun bus => (List.range 0x20).flatMap (functions config mem test bus)

/-- A call: where the header that is found was read, and the iterator that the call leaves. -/
def call (find : DeviceIterator → Option HeaderGeneric × DeviceIterator) (iter : DeviceIterator) :
    Option (DeviceIterator × DeviceIterator) :=
  match find iter with
  | (some hdr, iter) => some (⟨hdr.bus, hdr.dev, hdr.func⟩, iter)
  | (none, _) => none

/-- The calls find what they should, each once and in order, and then nothing. -/
def EnumerationLaw (find : DeviceIterator → Option HeaderGeneric × DeviceIterator)
    (expected : List DeviceIterator) : Prop := Yields (call find) startIter expected

def next : DeviceIterator → Option (DeviceIterator × DeviceIterator) := call (search config mem test)

/-- No function 0 is to be found, and no two functions of one device. -/
def OneBehindZero : Prop :=
  ∀ bus < 0x100, ∀ dev < 0x20, found config mem test (place bus dev 0) = false ∧
    (functions config mem test bus dev).length ≤ 1

end Spec

variable {config : Config} {mem : HeaderGeneric} {test : HeaderGeneric → Bool} {bus dev n k : ℕ}
  {p : DeviceIterator} {multi : Bool} {rounds : ℕ}

theorem place_succ : { place bus dev k with func := (place bus dev k).func + 1 } = place bus dev (k + 1) := by
  unfold place
  rw [BitVec.ofNat_add]
  rfl

section Loops

theorem funcLoop_stop (hfunc : 0 < p.func) :
    funcLoop config mem test rounds false p = (none, p) := by
  cases rounds with
  | zero => rfl
  | succ rounds => exact if_pos ⟨hfunc, rfl⟩

theorem funcLoop_succ (hgo : ¬ (0 < p.func ∧ multi = false)) :
    funcLoop config mem test (rounds + 1) multi p =
      if found config mem test p then (some (headerAt config mem p), p)
      else funcLoop config mem test rounds (isMulti config mem p || multi) { p with func := p.func + 1 } := by
  rw [funcLoop, if_neg hgo]
  unfold found isMulti isDevice getVendor
  by_cases hdevice : CONFIG_GET_VENDOR (getConfig config p.bus p.dev p.func 0) ≠ 0xFFFF
  · rw [if_pos hdevice, decide_eq_true hdevice, Bool.true_and, Bool.true_and]
    unfold headerAt
    by_cases htest : test (getHeader config mem p.bus p.dev p.func)
    · rw [if_pos htest, if_pos htest]
    · rw [if_neg htest, if_neg htest]
      cases CONFIG_IS_MULTI (getHeader config mem p.bus p.dev p.func).headerType
      · rfl
      · rfl
  · rw [if_neg hdevice, decide_eq_false hdevice, Bool.false_and, if_neg Bool.false_ne_true, Bool.false_and,
      Bool.false_or]

/-- A loop over the functions of a device ends at the given place, or finds nothing on the device. -/
def EndsAt (config : Config) (mem : HeaderGeneric) (bus dev : ℕ) (r : Option HeaderGeneric × DeviceIterator) :
    Option DeviceIterator → Prop
  | some p => r = (some (headerAt config mem p), p)
  | none => ∃ k, r = (none, place bus dev k)

theorem funcLoop_multi (rounds k : ℕ) :
    EndsAt config mem bus dev (funcLoop config mem test rounds true (place bus dev k))
      (((List.range' k rounds).map (place bus dev)).find? (found config mem test)) := by
  induction rounds generalizing k with
  | zero => exact ⟨k, rfl⟩
  | succ rounds ih =>
    rw [funcLoop_succ (fun h => Bool.noConfusion h.2), List.range'_succ, List.map_cons, List.find?_cons,
      Bool.or_true, place_succ]
    cases found config mem test (place bus dev k) with
    | true => exact if_pos rfl
    | false => exact ih (k + 1)

/-- The loop over all functions of a device ends at the first that should be found. -/
theorem funcLoop_device :
    EndsAt config mem bus dev (funcLoop config mem test 8 false (place bus dev 0))
      (functions config mem test bus dev).head? := by
  have hstart : ¬ (0 : Word) < 0 := by decide
  have hbehind : (0 : Word) < 1 := by decide
  unfold functions
  rw [List.head?_filter, funcLoop_succ (fun h => hstart h.1), List.map_cons, List.find?_cons,
    place_succ, Bool.or_false]
  cases found config mem test (place bus dev 0) with
  | true => exact if_pos rfl
  | false =>
    dsimp only
    rw [if_neg Bool.false_ne_true]
    cases isMulti config mem (place bus dev 0) with
    | true => exact funcLoop_multi 7 1
    | false => exact ⟨1, funcLoop_stop hbehind⟩

/-- The devices in the order of the search: device `n % 0x20` on bus `n / 0x20`. -/
def device (n func : ℕ) : DeviceIterator := place (n / 0x20) (n % 0x20) func

theorem toNat_device (hn : n < 0x100 * 0x20) :
    (device n k).bus.toNat = n / 0x20 ∧ (device n k).dev.toNat = n % 0x20 := by
  constructor
  · exact Nat.mod_eq_of_lt (by omega)
  · exact Nat.mod_eq_of_lt (by omega)

theorem search_found {hdr : HeaderGeneric} {q : DeviceIterator} (hn : n < 0x100 * 0x20)
    (hloop : funcLoop config mem test (8 - (device n k).func.toNat) false (device n k) = (some hdr, q)) :
    search config mem test (device n k) = (some hdr, q) := by
  obtain ⟨hbus, hdev⟩ := toNat_device (k := k) hn
  obtain ⟨b, hb⟩ : ∃ b, 0x100 - n / 0x20 = b + 1 := ⟨0x100 - n / 0x20 - 1, by omega⟩
  obtain ⟨d, hd⟩ : ∃ d, 0x20 - n % 0x20 = d + 1 := ⟨0x20 - n % 0x20 - 1, by omega⟩
  rw [search, hbus, hb, busLoop, hdev, hd, devLoop, hloop]

theorem search_none {k' : ℕ} (hn : n < 0x100 * 0x20)
    (hloop : funcLoop config mem test (8 - (device n k).func.toNat) false (device n k) = (none, device n k')) :
    search config mem test (device n k) = search config mem test (device (n + 1) 0) := by
  obtain ⟨hbus, hdev⟩ := toNat_device (k := k) hn
  obtain ⟨b, hb⟩ : ∃ b, 0x100 - n / 0x20 = b + 1 := ⟨0x100 - n / 0x20 - 1, by omega⟩
  obtain ⟨d, hd⟩ : ∃ d, 0x20 - n % 0x20 = d + 1 := ⟨0x20 - n % 0x20 - 1, by omega⟩
  rw [search, hbus, hb, busLoop, hdev, hd, devLoop, hloop]
  dsimp only
  cases d with
  | zero =>
    -- the last device of the bus
    have hplace : device (n + 1) 0 = place (n / 0x20 + 1) 0 0 := by
      rw [device, show (n + 1) / 0x20 = n / 0x20 + 1 by omega, show (n + 1) % 0x20 = 0 by omega]
    have hnext : (place (n / 0x20 + 1) 0 0).bus.toNat = n / 0x20 + 1 := Nat.mod_eq_of_lt (by omega)
    rw [devLoop, hplace, search, hnext, show 0x100 - (n / 0x20 + 1) = b by omega]
    unfold device place
    rw [BitVec.ofNat_add]
    rfl
  | succ d =>
    have hplace : device (n + 1) 0 = place (n / 0x20) (n % 0x20 + 1) 0 := by
      rw [device, show (n + 1) / 0x20 = n / 0x20 by omega, show (n + 1) % 0x20 = n % 0x20 + 1 by omega]
    have hbus' : (place (n / 0x20) (n % 0x20 + 1) 0).bus.toNat = n / 0x20 := Nat.mod_eq_of_lt (by omega)
    have hdev' : (place (n / 0x20) (n % 0x20 + 1) 0).dev.toNat = n % 0x20 + 1 := Nat.mod_eq_of_lt (by omega)
    rw [hplace, search, hbus', hb, busLoop, hdev', show 0x20 - (n % 0x20 + 1) = d + 1 by omega]
    unfold device place
    rw [BitVec.ofNat_add]
    rfl

end Loops

section Calls

theorem functions_head (hp : (functions config mem test bus dev).head? = some p) :
    ∃ k < 8, p = place bus dev k ∧ found config mem test p := by
  obtain ⟨hmem, hfound⟩ := List.mem_filter.mp (List.mem_of_mem_head? hp)
  obtain ⟨k, hk, rfl⟩ := List.mem_map.mp hmem
  refine ⟨k, ?_, rfl, hfound⟩
  rcases List.mem_cons.mp hk with rfl | hk
  · decide
  · split_ifs at hk
    · have hlt := (List.mem_range'_1.mp hk).2
      omega
    · cases hk

theorem next_found (hn : n < 0x100 * 0x20)
    (hp : (functions config mem test (n / 0x20) (n % 0x20)).head? = some p) :
    next config mem test (device n 0) = some (p, p) := by
  have hends : EndsAt config mem (n / 0x20) (n % 0x20) (funcLoop config mem test 8 false (device n 0))
      (some p) := hp ▸ funcLoop_device
  have hloop : funcLoop config mem test (8 - (device n 0).func.toNat) false (device n 0) =
      (some (headerAt config mem p), p) := hends
  unfold next call
  rw [search_found hn hloop]
  rfl

theorem next_none (hn : n < 0x100 * 0x20) (hp : functions config mem test (n / 0x20) (n % 0x20) = []) :
    next config mem test (device n 0) = next config mem test (device (n + 1) 0) := by
  have hends : EndsAt config mem (n / 0x20) (n % 0x20) (funcLoop config mem test 8 false (device n 0)) none :=
    List.head?_eq_none_iff.mpr hp ▸ funcLoop_device
  obtain ⟨k, hk⟩ := hends
  have hloop : funcLoop config mem test (8 - (device n 0).func.toNat) false (device n 0) =
      (none, device n k) := hk
  unfold next call
  rw [search_none hn hloop]

/-- The flag is gone in the next call, so that the rest of the device is passed. -/
theorem next_behind (hn : n < 0x100 * 0x20) (hk : 0 < k) (hk' : k < 8) :
    next config mem test (device n k) = next config mem test (device (n + 1) 0) := by
  have hfunc : 0 < (device n k).func := by
    rw [BitVec.lt_def]
    exact Nat.lt_of_lt_of_eq hk (Nat.mod_eq_of_lt (by omega)).symm
  unfold next call
  rw [search_none hn (funcLoop_stop hfunc)]

theorem next_end : next config mem test (device (0x100 * 0x20) 0) = none := rfl

/-- In each device the calls find the first function only, as long as it is not function 0. -/
theorem yields_heads (hn : n ≤ 0x100 * 0x20)
    (hzero : ∀ m, n ≤ m → m < 0x100 * 0x20 → found config mem test (device m 0) = false) :
    Yields (next config mem test) (device n 0) ((List.range' n (0x100 * 0x20 - n)).flatMap fun m =>
      (functions config mem test (m / 0x20) (m % 0x20)).head?.toList) := by
  induction hrest : 0x100 * 0x20 - n generalizing n with
  | zero =>
    have hend : n = 0x100 * 0x20 := by omega
    rw [hend]
    exact .stop next_end
  | succ rest ih =>
    have hlt : n < 0x100 * 0x20 := by omega
    have htail := ih hlt (fun m hm => hzero m (by omega)) (by omega)
    rw [List.range'_succ, List.flatMap_cons]
    cases hp : (functions config mem test (n / 0x20) (n % 0x20)).head? with
    | none => exact htail.congr (next_none hlt (List.head?_eq_none_iff.mp hp)).symm
    | some p =>
      obtain ⟨k, hk, rfl, hfound⟩ := functions_head hp
      have hpos : 0 < k := by
        apply Nat.pos_of_ne_zero
        rintro rfl
        exact Bool.false_ne_true ((hzero n (Nat.le_refl n) hlt).symm.trans hfound)
      exact .item (next_found hlt hp) (htail.congr (next_behind hlt hpos hk).symm)

/-- Once a function 0 is found, all further calls find it. -/
theorem not_yields {m : ℕ} (hm : m < 0x100 * 0x20) (hfound : found config mem test (device m 0)) (hn : n ≤ m)
    (xs : List DeviceIterator) : ¬ Yields (next config mem test) (device n 0) xs := by
  induction hrest : m - n generalizing n xs with
  | zero =>
    have hend : n = m := by omega
    have hp : (functions config mem test (m / 0x20) (m % 0x20)).head? = some (device m 0) := by
      have hplace : found config mem test (place (m / 0x20) (m % 0x20) 0) := hfound
      unfold functions
      rw [List.map_cons, List.filter_cons_of_pos hplace]
      rfl
    rw [hend]
    exact not_yields_of_stays (next_found hm hp)
  | succ rest ih =>
    intro hyields
    have hlt : n < 0x100 * 0x20 := by omega
    cases hp : (functions config mem test (n / 0x20) (n % 0x20)).head? with
    | none =>
      exact ih (by omega) xs (by omega) (hyields.congr (next_none hlt (List.head?_eq_none_iff.mp hp)))
    | some p =>
      obtain ⟨k, hk, rfl, -⟩ := functions_head hp
      have hfirst := next_found hlt hp
      rcases Nat.eq_zero_or_pos k with rfl | hpos
      · exact not_yields_of_stays hfirst hyields
      · cases hyields with
        | stop h =>
          rw [hfirst] at h
          cases h
        | item h htail =>
          obtain ⟨-, rfl⟩ := Prod.mk.inj (Option.some.inj (hfirst.symm.trans h))
          exact ih (by omega) _ (by omega) (htail.congr (next_behind hlt hpos hk))

end Calls

section Law

theorem flatMap_devices {β : Type*} (f : ℕ → ℕ → List β) (buses : ℕ) :
    (List.range buses).flatMap (fun bus => (List.range 0x20).flatMap (f bus)) =
      (List.range (buses * 0x20)).flatMap fun n => f (n / 0x20) (n % 0x20) := by
  induction buses with
  | zero => rfl
  | succ buses ih =>
    rw [List.range_succ (n := buses), List.flatMap_append, List.flatMap_singleton, ih, Nat.succ_mul,
      List.range_add (n := buses * 0x20), List.flatMap_append, List.flatMap_map]
    congr 1
    refine List.flatMap_congr fun dev hdev => ?_
    have hlt := List.mem_range.mp hdev
    rw [show (buses * 0x20 + dev) / 0x20 = buses by omega, show (buses * 0x20 + dev) % 0x20 = dev by omega]

theorem matching_eq : matching config mem test = (List.range' 0 (0x100 * 0x20)).flatMap fun n =>
    functions config mem test (n / 0x20) (n % 0x20) := by
  rw [← List.range_eq_range']
  exact flatMap_devices _ 0x100

/-- Lists of which only the first items are kept, and nothing is lost, have one item at most. -/
theorem length_le_one_of_flatMap {α β : Type*} {f : α → List β} {l : List α}
    (h : l.flatMap f = l.flatMap fun a => (f a).head?.toList) : ∀ a ∈ l, (f a).length ≤ 1 := by
  have hle : ∀ l : List α, (l.flatMap fun a => (f a).head?.toList).length ≤ (l.flatMap f).length := by
    intro l
    induction l with
    | nil => exact Nat.le_refl 0
    | cons a l ih =>
      rw [List.flatMap_cons, List.flatMap_cons, List.length_append, List.length_append]
      apply Nat.add_le_add _ ih
      cases f a with
      | nil => exact Nat.le_refl 0
      | cons b bs => exact Nat.succ_le_succ (Nat.zero_le bs.length)
  induction l with
  | nil => exact fun a ha => absurd ha List.not_mem_nil
  | cons a l ih =>
    rw [List.flatMap_cons, List.flatMap_cons] at h
    have hlen := congrArg List.length h
    rw [List.length_append, List.length_append] at hlen
    have hrest := hle l
    have hone : (f a).length ≤ 1 ∧ (f a).head?.toList = f a := by
      cases hf : f a with
      | nil => exact ⟨Nat.zero_le 1, rfl⟩
      | cons b bs =>
        rw [hf, List.head?_cons, Option.toList_some, List.length_cons, List.length_singleton] at hlen
        have hbs : bs = [] := List.eq_nil_of_length_eq_zero (by omega)
        rw [hbs]
        exact ⟨Nat.le_refl 1, rfl⟩
    rw [hone.2] at h
    intro b hb
    rcases List.mem_cons.mp hb with rfl | hb
    · exact hone.1
    · exact ih (List.append_cancel_left h) b hb

/-- The calls come to an end exactly if no function 0 is found. -/
theorem ends_iff : (∃ xs, Yields (next config mem test) startIter xs) ↔
    ∀ bus < 0x100, ∀ dev < 0x20, found config mem test (place bus dev 0) = false := by
  constructor
  · rintro ⟨xs, hyields⟩ bus hbus dev hdev
    apply Bool.eq_false_iff.mpr
    intro hfound
    have hdevice : device (bus * 0x20 + dev) 0 = place bus dev 0 := by
      rw [device, show (bus * 0x20 + dev) / 0x20 = bus by omega, show (bus * 0x20 + dev) % 0x20 = dev by omega]
    exact not_yields (by omega) (hdevice ▸ hfound) (Nat.zero_le _) xs hyields
  · intro hzero
    exact ⟨_, yields_heads (Nat.zero_le _) fun m _ hm => hzero (m / 0x20) (by omega) (m % 0x20) (by omega)⟩

theorem enumeration_iff : EnumerationLaw (search config mem test) (matching config mem test) ↔
    OneBehindZero config mem test := by
  change Yields (next config mem test) startIter _ ↔ _
  rw [matching_eq]
  constructor
  · intro hyields bus hbus dev hdev
    have hzero := ends_iff.mp ⟨_, hyields⟩
    have hheads := yields_heads (Nat.zero_le _) fun m _ hm =>
      hzero (m / 0x20) (by omega) (m % 0x20) (by omega)
    have hone := length_le_one_of_flatMap (hyields.unique hheads) (bus * 0x20 + dev)
      (List.mem_range'_1.mpr (by omega))
    rw [show (bus * 0x20 + dev) / 0x20 = bus by omega, show (bus * 0x20 + dev) % 0x20 = dev by omega] at hone
    exact ⟨hzero bus hbus dev hdev, hone⟩
  · intro hone
    have hyields := yields_heads (Nat.zero_le _) fun m _ hm =>
      (hone (m / 0x20) (by omega) (m % 0x20) (by omega)).1
    have heads : ∀ n ∈ List.range' 0 (0x100 * 0x20),
        (functions config mem test (n / 0x20) (n % 0x20)).head?.toList =
          functions config mem test (n / 0x20) (n % 0x20) := by
      intro n hn
      have hlt := (List.mem_range'_1.mp hn).2
      have hlen := (hone (n / 0x20) (by omega) (n % 0x20) (by omega)).2
      match hf : functions config mem test (n / 0x20) (n % 0x20) with
      | [] => rfl
      | [p] => rfl
      | p :: q :: ps =>
        rw [hf, List.length_cons, List.length_cons] at hlen
        omega
    rw [List.flatMap_congr heads] at hyields
    exact hyields

end Law

end CxxKernel.Devices.PCI
