import CxxKernel.Devices.BlockAddress

/-! Drives that transfer data by the ports, and the driver over them: the blocks of the file systems are an
array of blocks. -/
namespace CxxKernel.Devices
open Fallible

namespace ATA

/-- The words of the sectors of the two drives of a channel. -/
abbrev Medium := DeviceType → ℕ → ℕ → Word

/-- What the drives hold: their sectors, the half words that wait to be read, and the place of the next word
that is written, in a transfer that starts at a sector. -/
structure Channel where
  sectors : Medium
  secCount : Byte
  reading : List (BitVec 16)
  writing : Option (DeviceType × ℕ × ℕ)

/-- A word goes over the port in two halves, the low one first. -/
def halves (w : Word) : List (BitVec 16) := [w.setWidth 16, (w >>> 16).setWidth 16]

namespace Channel

/-- A count of zero asks for 256 sectors. -/
def count (c : Channel) : ℕ := if c.secCount = 0 then 256 else c.secCount.toNat

/-- The drive takes a request. -/
def request (c : Channel) (q : Request) : Channel :=
  if q.write then { c with reading := [], writing := some (q.type, q.lba, 0) }
  else
    let words := (List.range (c.count * 128)).map fun i => c.sectors q.type (q.lba + i / 128) (i % 128)
    { c with reading := words.flatMap halves, writing := none }

/-- The drive takes a word. -/
def put (c : Channel) (val : Word) : Channel :=
  match c.writing with
  | none => c
  | some (type, lba, i) =>
    { c with
      sectors := fun t k j => if t = type ∧ k = lba + i / 128 ∧ j = i % 128 then val else c.sectors t k j
      writing := if i + 1 = c.count * 128 then none else some (type, lba, i + 1) }

def Pending (c : Channel) : Prop := c.reading ≠ [] ∨ c.writing ≠ none

/-- The words from the place `i` on have come to the sector. -/
def filled (c : Channel) (buffer : ℕ → Word) (type : DeviceType) (lba i : ℕ) : Channel :=
  { c with
    sectors := fun t k j => if t = type ∧ k = lba ∧ i ≤ j ∧ j < 128 then buffer j else c.sectors t k j
    writing := none }

end Channel

section Conforms
variable (heads sectors : ℕ)

/-- The drives after these accesses, with this on them before. -/
def channel (m : Medium) : List Access → Channel
  | [] => ⟨m, 0, [], none⟩
  | .portOut .secCount v :: log => { channel m log with secCount := v }
  | .portOut .command v :: log =>
    match asked heads sectors (regs log) v with
    | none => channel m log
    | some q => (channel m log).request q
  | .portOut32 .data v :: log => (channel m log).put v
  | .portIn16 .data :: log => { channel m log with reading := (channel m log).reading.tail }
  | _ :: log => channel m log

theorem channel_command {m : Medium} {v : Byte} {log : List Access} {q : Request}
    (h : asked heads sectors (regs log) v = some q) :
    channel heads sectors m (.portOut .command v :: log) = (channel heads sectors m log).request q := by
  rw [channel, h]

theorem channel_command_none {m : Medium} {v : Byte} {log : List Access}
    (h : asked heads sectors (regs log) v = none) :
    channel heads sectors m (.portOut .command v :: log) = channel heads sectors m log := by
  rw [channel, h]

def Busy (answer : BitVec 16) : Prop := answer.setWidth 8 &&& ATA_STATUS_BUSY ≠ 0

/-- No request is behind the end of the drive. -/
def InRange (size : ℕ) (log : List Access) : Prop := ∀ q ∈ requests heads sectors log, q.lba < size

/-- What the drives promise: they give the words of a transfer in order, are not busy for longer than the driver
waits, stay ready when they are looked at, and report no error while a transfer waits. -/
structure Conforms (m : Medium) (size : ℕ) (hw : Hardware) : Prop where
  data : ∀ log half rest, (channel heads sectors m log).reading = half :: rest → hw log .data = half
  patient : ∀ log, InRange heads sectors size log →
    ∃ k ≤ ATA_MAX_WAIT_CNT, ¬ Busy (hw (List.replicate k (.portIn status) ++ log) status)
  stays : ∀ log r, r = status ∨ r = altStatus → ¬ Busy (hw log status) → ¬ Busy (hw (.portIn r :: log) status)
  ready : ∀ log, InRange heads sectors size log → (channel heads sectors m log).Pending → ¬ Busy (hw log status) →
    (hw log status).setWidth 8 &&& ATA_STATUS_ERROR = 0 ∧ (hw log status).setWidth 8 &&& ATA_STATUS_DF = 0 ∧
      (hw log status).setWidth 8 &&& ATA_STATUS_DRQ ≠ 0

/-- The drive has not been busy when it was last looked at. -/
abbrev Ready (hw : Hardware) (s : Io) : Prop := ¬ Busy (hw s.log status)

/-- Nothing has happened but looks at the status. -/
structure Looks (m : Medium) (hw : Hardware) (s s' : Io) : Prop where
  quiet : DevicePrivate.Quiet heads sectors s s'
  channel : channel heads sectors m s'.log = channel heads sectors m s.log
  ready : Ready hw s → Ready hw s'

end Conforms

section Looks
variable {heads sectors size : ℕ} {m : Medium} {hw : Hardware} {s s' t : Io}

theorem Looks.refl (s : Io) : Looks heads sectors m hw s s := ⟨refl_of _ s, rfl, id⟩

theorem Looks.trans (h : Looks heads sectors m hw s t) (h' : Looks heads sectors m hw t s') :
    Looks heads sectors m hw s s' :=
  ⟨trans_of _ h.quiet h'.quiet, h'.channel.trans h.channel, fun hs => h'.ready (h.ready hs)⟩

theorem Looks.inRange (h : Looks heads sectors m hw s s') (hs : InRange heads sectors size s.log) :
    InRange heads sectors size s'.log := by
  rw [InRange, h.quiet.requests]
  exact hs

end Looks

namespace DevicePrivate
variable {heads sectors size : ℕ} {m : Medium} {hw : Hardware} {s s' t : Io}

section Waits
variable (hhw : Conforms heads sectors m size hw)
include hhw

theorem looks_read {r : Reg} (hr : r = status ∨ r = altStatus) :
    Looks heads sectors m hw s { s with log := .portIn r :: s.log } := ⟨⟨rfl, rfl, rfl⟩, rfl, hhw.stays s.log r hr⟩

theorem readTimes_ensures (n : ℕ) :
    Ensures (readTimes hw altStatus n) s fun _ s' => Looks heads sectors m hw s s' := by
  induction n generalizing s with
  | zero => exact ensures_pure (Looks.refl s)
  | succ n ih =>
    have hlook := @looks_read heads sectors size m hw s hhw altStatus (.inr rfl)
    have hread : Ensures (read hw altStatus) s fun _ s' => Looks heads sectors m hw s s' := ensures_step hlook
    apply hread.bind
    intro _ t ht
    exact ih.mono fun _ _ h => ht.trans h

theorem wait_ensures : Ensures (wait hw) s fun _ s' => Looks heads sectors m hw s s' := readTimes_ensures hhw 5

theorem waitBusy_ensures {n : ℕ} (hn : ∃ k < n, ¬ Busy (hw (List.replicate k (.portIn status) ++ s.log) status)) :
    Ensures (waitBusy hw n) s fun _ s' => Looks heads sectors m hw s s' ∧ Ready hw s' := by
  induction n generalizing s with
  | zero =>
    obtain ⟨k, hk, -⟩ := hn
    exact absurd hk (Nat.not_lt_zero k)
  | succ n ih =>
    have hlook := @looks_read heads sectors size m hw s hhw status (.inl rfl)
    have hread : Ensures (getStatus hw) s fun stat t =>
        stat = (hw s.log status).setWidth 8 ∧ t = { s with log := .portIn status :: s.log } := ensures_step ⟨rfl, rfl⟩
    apply hread.bind
    rintro _ _ ⟨rfl, rfl⟩
    by_cases hbusy : (hw s.log status).setWidth 8 &&& ATA_STATUS_BUSY ≠ 0
    · rw [if_pos hbusy]
      obtain ⟨k, hk, hfree⟩ := hn
      cases k with
      | zero => exact absurd hbusy hfree
      | succ k =>
        rw [List.replicate_succ', List.append_assoc] at hfree
        exact (ih ⟨k, Nat.lt_of_succ_lt_succ hk, hfree⟩).mono fun _ _ h => ⟨hlook.trans h.1, h.2⟩
    · rw [if_neg hbusy]
      exact ensures_pure ⟨hlook, hlook.ready hbusy⟩

theorem waitExtra_ensures {extra extra_val : Byte} (n : ℕ) (hready : Ready hw s)
    (hextra : (hw s.log status).setWidth 8 &&& extra = extra_val) :
    Ensures (waitExtra hw extra extra_val (n + 1)) s fun _ s' => Looks heads sectors m hw s s' ∧ Ready hw s' := by
  have hlook := @looks_read heads sectors size m hw s hhw status (.inl rfl)
  have hread : Ensures (getStatus hw) s fun stat t =>
      stat = (hw s.log status).setWidth 8 ∧ t = { s with log := .portIn status :: s.log } := ensures_step ⟨rfl, rfl⟩
  apply hread.bind
  rintro _ _ ⟨rfl, rfl⟩
  apply (wait_ensures hhw).bind
  intro _ t ht
  rw [if_neg (not_not.mpr hextra)]
  exact ensures_pure ⟨hlook.trans ht, (hlook.trans ht).ready hready⟩

theorem waitStatus_ensures {extra extra_val : Byte} (hrange : InRange heads sectors size s.log)
    (hextra : 0 < extra → ∀ t, Looks heads sectors m hw s t → Ready hw t →
      (hw t.log status).setWidth 8 &&& extra = extra_val) :
    Ensures (waitStatus hw extra extra_val) s fun _ s' => Looks heads sectors m hw s s' ∧ Ready hw s' := by
  obtain ⟨k, hk, hfree⟩ := hhw.patient s.log hrange
  apply (waitBusy_ensures hhw ⟨k, Nat.lt_succ_of_le hk, hfree⟩).bind
  rintro _ t ⟨ht, hready⟩
  by_cases hpos : 0 < extra
  · rw [if_pos hpos]
    exact (waitExtra_ensures hhw _ hready (hextra hpos t ht hready)).mono fun _ _ h => ⟨ht.trans h.1, h.2⟩
  · rw [if_neg hpos]
    exact ensures_pure ⟨ht, hready⟩

theorem waitIdle_ensures (hrange : InRange heads sectors size s.log) :
    Ensures (waitStatus hw 0 0) s fun _ s' => Looks heads sectors m hw s s' ∧ Ready hw s' :=
  waitStatus_ensures hhw hrange fun h => absurd h (by decide)

theorem poll_ensures {extra : Bool} (hrange : InRange heads sectors size s.log)
    (hpending : extra = true → (channel heads sectors m s.log).Pending) :
    Ensures (poll hw extra) s fun _ s' => Looks heads sectors m hw s s' := by
  apply (wait_ensures hhw).bind
  intro _ t ht
  apply (waitIdle_ensures hhw (ht.inRange hrange)).bind
  rintro _ u ⟨hu, hready⟩
  have hlooks : Looks heads sectors m hw s u := ht.trans hu
  cases extra with
  | false => exact ensures_pure hlooks
  | true =>
    have hwaits := hpending rfl
    rw [← hlooks.channel] at hwaits
    obtain ⟨herror, hfault, hdrq⟩ := hhw.ready u.log (hlooks.inRange hrange) hwaits hready
    have hread : Ensures (getStatus hw) u fun stat t =>
        stat = (hw u.log status).setWidth 8 ∧ t = { u with log := .portIn status :: u.log } := ensures_step ⟨rfl, rfl⟩
    rw [if_pos rfl]
    apply hread.bind
    rintro _ _ ⟨rfl, rfl⟩
    have hlook := hlooks.trans (looks_read hhw (.inl rfl))
    exact ⟨(), _, returns_bind.mpr ⟨(), _, returns_guard_of herror, returns_bind.mpr
      ⟨(), _, returns_guard_of hfault, returns_guard_of hdrq⟩⟩, hlook⟩

theorem reset_ensures (hrange : InRange heads sectors size s.log) : Ensures (reset hw) s fun _ s' =>
    channel heads sectors m s'.log = channel heads sectors m s.log ∧
      requests heads sectors s'.log = requests heads sectors s.log := by
  have hwrite : Ensures (write status 4 >>= fun _ => write status 0) s fun _ t => channel heads sectors m t.log =
      channel heads sectors m s.log ∧ requests heads sectors t.log = requests heads sectors s.log :=
    ⟨(), _, rfl, rfl, rfl⟩
  have hreset : reset hw = (write status 4 >>= fun _ => write status 0) >>= fun _ =>
      wait hw >>= fun _ => waitStatus hw 0 0 := (bind_assoc _ _ _).symm
  rw [hreset]
  apply hwrite.bind
  rintro _ t ⟨hchannel, hreq⟩
  have hrange' : InRange heads sectors size t.log := by
    rw [InRange, hreq]
    exact hrange
  apply (wait_ensures hhw).bind
  intro _ u hu
  apply (waitIdle_ensures hhw (hu.inRange hrange')).mono
  rintro _ s' ⟨hs', -⟩
  have hlooks := hu.trans hs'
  exact ⟨hlooks.channel.trans hchannel, hlooks.quiet.requests.trans hreq⟩

theorem readBuffer_ensures {ws : List Word} {rest : List (BitVec 16)}
    (hreading : (channel heads sectors m s.log).reading = ws.flatMap halves ++ rest) :
    Ensures (readBuffer hw .data ws.length) s fun words s' => words = ws ∧
      channel heads sectors m s'.log = { channel heads sectors m s.log with reading := rest } ∧
      requests heads sectors s'.log = requests heads sectors s.log := by
  induction ws generalizing s with
  | nil =>
    rw [List.flatMap_nil, List.nil_append] at hreading
    refine ensures_pure ⟨rfl, ?_, rfl⟩
    rw [← hreading]
  | cons w ws ih =>
    have hhalves : (channel heads sectors m s.log).reading =
        w.setWidth 16 :: (w >>> 16).setWidth 16 :: (ws.flatMap halves ++ rest) := hreading
    have hlow := hhw.data s.log _ _ hhalves
    have hsecond : (channel heads sectors m (.portIn16 .data :: s.log)).reading =
        (w >>> 16).setWidth 16 :: (ws.flatMap halves ++ rest) := congrArg List.tail hhalves
    have hhigh := hhw.data _ _ _ hsecond
    have hlast : (channel heads sectors m (.portIn16 .data :: .portIn16 .data :: s.log)).reading =
        ws.flatMap halves ++ rest := congrArg List.tail hsecond
    have hlow' : Ensures (read16 hw .data) s fun a t => a = w.setWidth 16 ∧
        t = { s with log := .portIn16 .data :: s.log } := ensures_step ⟨hlow, rfl⟩
    apply hlow'.bind
    rintro _ _ ⟨rfl, rfl⟩
    have hhigh' : Ensures (read16 hw .data) { s with log := .portIn16 .data :: s.log } fun b t =>
        b = (w >>> 16).setWidth 16 ∧ t = { s with log := .portIn16 .data :: .portIn16 .data :: s.log } :=
      ensures_step ⟨hhigh, rfl⟩
    apply hhigh'.bind
    rintro _ _ ⟨rfl, rfl⟩
    apply (ih hlast).bind
    rintro _ s' ⟨rfl, hchannel, hreq⟩
    have hword : (w.setWidth 16).setWidth 32 + ((w >>> 16).setWidth 16).setWidth 32 <<< 16 = w := by
      bv_omega
    refine ensures_pure ⟨?_, hchannel, hreq⟩
    rw [hword]

end Waits

section Buffers
variable {buffer : ℕ → Word} {type : DeviceType} {lba i n : ℕ} {c : Channel}

theorem filled_end (hi : 128 ≤ i) (hwriting : c.writing = none) : c.filled buffer type lba i = c := by
  have hsectors : (c.filled buffer type lba i).sectors = c.sectors := by
    funext t k j
    exact if_neg fun h => absurd (h.2.2.1.trans_lt h.2.2.2) (Nat.not_lt.mpr hi)
  have hchannel : c.filled buffer type lba i = { c with writing := none } :=
    congrArg (fun f => { c with sectors := f, writing := none }) hsectors
  rw [hchannel, ← hwriting]

theorem filled_put (hcount : c.count = 1) (hi : i < 128) (hwriting : c.writing = some (type, lba, i)) :
    (c.put (buffer i)).count = 1 ∧
      (c.put (buffer i)).writing = (if i + 1 = 128 then none else some (type, lba, i + 1)) ∧
      (c.put (buffer i)).filled buffer type lba (i + 1) = c.filled buffer type lba i := by
  have hput : c.put (buffer i) = { c with
      sectors := fun t k j => if t = type ∧ k = lba ∧ j = i then buffer i else c.sectors t k j
      writing := if i + 1 = 128 then none else some (type, lba, i + 1) } := by
    unfold Channel.put
    rw [hwriting, hcount]
    dsimp only
    rw [Nat.div_eq_of_lt hi, Nat.mod_eq_of_lt hi]
    rfl
  rw [hput]
  refine ⟨hcount, rfl, ?_⟩
  unfold Channel.filled
  congr 1
  funext t k j
  grind

theorem writeBuffer_ensures (hcount : (channel heads sectors m s.log).count = 1) (hi : i + n = 127)
    (hwriting : (channel heads sectors m s.log).writing = some (type, lba, i)) :
    Ensures (writeBuffer .data buffer i (n + 1)) s fun _ s' =>
      channel heads sectors m s'.log = (channel heads sectors m s.log).filled buffer type lba i ∧
        requests heads sectors s'.log = requests heads sectors s.log := by
  induction n generalizing i s with
  | zero =>
    obtain ⟨-, hnone, hfilled⟩ := @filled_put buffer _ _ _ _ hcount (by omega) hwriting
    rw [if_pos (by omega)] at hnone
    rw [filled_end (by omega) hnone] at hfilled
    exact ⟨(), _, rfl, hfilled, rfl⟩
  | succ n ih =>
    obtain ⟨hcount', hwriting', hfilled⟩ := @filled_put buffer _ _ _ _ hcount (by omega) hwriting
    rw [if_neg (by omega)] at hwriting'
    have hwrite : Ensures (write32 .data (buffer i)) s fun _ t =>
        t = { s with log := .portOut32 .data (buffer i) :: s.log } := ensures_step rfl
    apply hwrite.bind
    rintro _ _ rfl
    apply (@ih { s with log := .portOut32 .data (buffer i) :: s.log } (i + 1) hcount' (by omega) hwriting').mono
    rintro _ s' ⟨hchannel, hreq⟩
    exact ⟨hchannel.trans hfilled, hreq⟩

end Buffers

section Transfers
variable {addr addr_hi : Word} {n : BitVec 16}

theorem program_ensures (n : BitVec 16) (io_addr : List Byte) (lba48 : Bool) :
    Ensures (program n io_addr lba48) s fun _ s' =>
      channel heads sectors m s'.log = { channel heads sectors m s.log with secCount := n.setWidth 8 } := by
  cases lba48 with
  | false => exact ⟨(), _, rfl, rfl⟩
  | true => exact ⟨(), _, rfl, rfl⟩

theorem select_ensures (hhw : Conforms heads sectors m size hw) (head : Byte) :
    Ensures (DevicePrivate.select hw head) s fun _ s' =>
      channel heads sectors m s'.log = channel heads sectors m s.log ∧
        requests heads sectors s'.log = requests heads sectors s.log := by
  have hwrite :
      Ensures (getDev >>= fun d => write .devSel (ATA_DEVSEL_CONST ||| d.mode ||| typeBit d.type ||| head)) s
      fun _ t => channel heads sectors m t.log = channel heads sectors m s.log ∧
        requests heads sectors t.log = requests heads sectors s.log := ⟨(), _, rfl, rfl, rfl⟩
  have hselect : DevicePrivate.select hw head = (getDev >>= fun d =>
      write .devSel (ATA_DEVSEL_CONST ||| d.mode ||| typeBit d.type ||| head)) >>= fun _ => wait hw :=
    (bind_assoc _ _ _).symm
  rw [hselect]
  apply hwrite.bind
  rintro _ t ⟨hchannel, hreq⟩
  apply (wait_ensures hhw).mono
  intro _ s' hs'
  exact ⟨hs'.channel.trans hchannel, hs'.quiet.requests.trans hreq⟩

theorem prepareAccess_ensures (hhw : Conforms heads sectors m size hw)
    (hrange : InRange heads sectors size s.log) :
    Ensures (prepareAccess hw n addr addr_hi) s fun _ s' =>
      channel heads sectors m s'.log = { channel heads sectors m s.log with secCount := n.setWidth 8 } := by
  -- what every step but the last one leaves
  let Same (s s' : Io) : Prop := channel heads sectors m s'.log = channel heads sectors m s.log ∧
    requests heads sectors s'.log = requests heads sectors s.log
  have hstep : ∀ {α β : Type} {x : Prog Io α} {f : α → Prog Io β} {t : Io} {Q : β → Io → Prop}, Same s t →
      (InRange heads sectors size t.log → Ensures x t fun _ u => Same t u) →
      (∀ a u, Same s u → Ensures (f a) u Q) → Ensures (x >>= f) t Q := by
    intro α β x f t Q ht hx hf
    have hrange' : InRange heads sectors size t.log := by
      rw [InRange, ht.2]
      exact hrange
    exact (hx hrange').bind fun a u hu => hf a u ⟨hu.1.trans ht.1, hu.2.trans ht.2⟩
  have hidle : ∀ t, InRange heads sectors size t.log → Ensures (waitStatus hw 0 0) t fun _ u => Same t u :=
    fun t ht => (waitIdle_ensures hhw ht).mono fun _ _ h => ⟨h.1.channel, h.1.quiet.requests⟩
  apply hstep ⟨rfl, rfl⟩ fun _ => ensures_step ⟨rfl, rfl⟩
  intro _ t ht
  apply hstep ht fun h => reset_ensures hhw h
  intro _ t ht
  apply hstep ht fun _ => ensures_step ⟨rfl, rfl⟩
  intro d t ht
  apply hstep ht fun _ => ensures_step ⟨rfl, rfl⟩
  intro _ t ht
  apply hstep ht fun h => hidle _ h
  intro _ t ht
  apply hstep ht fun _ => select_ensures hhw _
  intro _ t ht
  apply hstep ht fun h => hidle _ h
  intro _ t ht
  apply (program_ensures n _ _).mono
  intro _ s' hs'
  rw [hs', ht.1]

theorem asked_of_prepared {write : Bool} {cmd : DevicePrivate → Byte} (hd : LbaMode s.dev)
    (hcmd : ∀ d f, asked heads sectors f (cmd d) = some ⟨if f.devSel.getLsbD 4 then .ATASlave else .ATAMaster, write,
      if d.lba48 then f.lba48 else f.lba28 heads sectors⟩)
    {u : Unit} (hprep : Returns (prepareAccess hw n addr addr_hi) s u s') :
    asked heads sectors (regs s'.log) (cmd s'.dev) = some ⟨s.dev.type, write, target addr addr_hi⟩ := by
  rcases haddr : s.dev.address addr addr_hi with ⟨io_addr, head, lba48⟩
  obtain ⟨hflag, hregs⟩ := prepareAccess_spec haddr hprep
  obtain ⟨htype, htarget⟩ := @Programmed.target_eq heads sectors _ _ _ _ _ _ _ hregs hd haddr
  have hdrive : (if (regs s'.log).devSel.getLsbD 4 then DeviceType.ATASlave else .ATAMaster) = s.dev.type := by
    cases hcase : s.dev.type with
    | ATAMaster => exact if_neg fun hc => by rw [htype.mp hc] at hcase; cases hcase
    | ATASlave => exact if_pos (htype.mpr hcase)
  rw [hcmd, hflag, htarget, hdrive]

theorem command_ensures {write : Bool} {cmd : DevicePrivate → Byte} (hhw : Conforms heads sectors m size hw)
    (hd : LbaMode s.dev) (hrange : InRange heads sectors size s.log) (htarget : target addr addr_hi < size)
    (hcmd : ∀ d f, asked heads sectors f (cmd d) = some ⟨if f.devSel.getLsbD 4 then .ATASlave else .ATAMaster, write,
      if d.lba48 then f.lba48 else f.lba28 heads sectors⟩) :
    Ensures (prepareAccess hw 1 addr addr_hi) s fun _ s' => s'.dev.dma = s.dev.dma ∧
      InRange heads sectors size (.portOut .command (cmd s'.dev) :: s'.log) ∧
      channel heads sectors m (.portOut .command (cmd s'.dev) :: s'.log) =
        { channel heads sectors m s.log with secCount := 1 }.request ⟨s.dev.type, write, target addr addr_hi⟩ := by
  have hidle := @idle_prepareAccess heads sectors hw 1 addr addr_hi
  apply ((prepareAccess_ensures hhw hrange).keeps hidle).returns.mono
  rintro _ s' ⟨hprep, hidle, hchannel⟩
  have hasked := asked_of_prepared hd hcmd hprep
  have hdma : s'.dev.dma = s.dev.dma := by rw [hidle.dev]
  refine ⟨hdma, ?_, ?_⟩
  · intro q hq
    have hq : q ∈ (asked heads sectors (regs s'.log) (cmd s'.dev)).toList ++ requests heads sectors s'.log := hq
    rw [hasked, hidle.requests] at hq
    rcases List.mem_cons.mp hq with rfl | hq
    · exact htarget
    · exact hrange q hq
  · rw [channel_command heads sectors hasked, hchannel]
    rfl

def sectorWords (c : Channel) (type : DeviceType) (lba : ℕ) : List Word := (List.range 128).map (c.sectors type lba)

theorem request_read (c : Channel) (type : DeviceType) (lba : ℕ) :
    { c with secCount := 1 }.request ⟨type, false, lba⟩ =
      { c with secCount := 1, reading := (sectorWords c type lba).flatMap halves, writing := none } := by
  have hwords : (List.range 128).map (fun i => c.sectors type (lba + i / 128) (i % 128)) =
      sectorWords c type lba := by
    apply List.map_congr_left
    intro i hi
    have hlt := List.mem_range.mp hi
    rw [Nat.div_eq_of_lt hlt, Nat.mod_eq_of_lt hlt, Nat.add_zero]
  rw [← hwords]
  rfl

theorem request_write (c : Channel) (type : DeviceType) (lba : ℕ) :
    { c with secCount := 1 }.request ⟨type, true, lba⟩ =
      { c with secCount := 1, reading := [], writing := some (type, lba, 0) } := rfl

theorem masked_ready {stat : Byte} (h : stat &&& ATA_STATUS_DRQ ≠ 0) : stat &&& ATA_STATUS_DRQ = ATA_STATUS_DRQ := by
  have hall : ∀ stat : Byte, stat &&& ATA_STATUS_DRQ ≠ 0 → stat &&& ATA_STATUS_DRQ = ATA_STATUS_DRQ := by
    decide +kernel
  exact hall stat h

/-- The driver waits for the words of a sector that it has asked for. -/
theorem waitData_ensures (hhw : Conforms heads sectors m size hw) (hrange : InRange heads sectors size s.log)
    (hpending : (channel heads sectors m s.log).Pending) :
    Ensures (waitStatus hw ATA_STATUS_ERROR 0 >>= fun _ => waitStatus hw ATA_STATUS_DRQ ATA_STATUS_DRQ) s
      fun _ s' => Looks heads sectors m hw s s' := by
  have hready : ∀ t, Looks heads sectors m hw s t → Ready hw t →
      (hw t.log status).setWidth 8 &&& ATA_STATUS_ERROR = 0 ∧
        (hw t.log status).setWidth 8 &&& ATA_STATUS_DRQ = ATA_STATUS_DRQ := by
    intro t ht hfree
    have hwaits := hpending
    rw [← ht.channel] at hwaits
    obtain ⟨herror, -, hdrq⟩ := hhw.ready t.log (ht.inRange hrange) hwaits hfree
    exact ⟨herror, masked_ready hdrq⟩
  apply (waitStatus_ensures hhw hrange fun _ t ht hfree => (hready t ht hfree).1).bind
  rintro _ t ⟨ht, -⟩
  apply (waitStatus_ensures hhw (ht.inRange hrange) fun _ u hu hfree => (hready u (ht.trans hu) hfree).2).mono
  rintro _ s' ⟨hs', -⟩
  exact ht.trans hs'

theorem pending_of_words {c : Channel} {ws : List Word} (hlen : ws.length = 128)
    (hreading : c.reading = ws.flatMap halves) : c.Pending := by
  refine .inl ?_
  rw [hreading]
  cases ws with
  | nil => cases hlen
  | cons w ws => exact List.cons_ne_nil _ _

theorem readLoop_ensures (hhw : Conforms heads sectors m size hw) (hrange : InRange heads sectors size s.log)
    {ws : List Word} (hlen : ws.length = 128)
    (hreading : (channel heads sectors m s.log).reading = ws.flatMap halves) :
    Ensures (readLoop hw 1) s fun words s' => words = ws ∧ InRange heads sectors size s'.log ∧
      (channel heads sectors m s'.log).sectors = (channel heads sectors m s.log).sectors := by
  apply (poll_ensures hhw hrange fun _ => pending_of_words hlen hreading).bind
  intro _ t ht
  rw [← ht.channel, ← List.append_nil (ws.flatMap halves)] at hreading
  rw [← hlen]
  apply (readBuffer_ensures hhw hreading).bind
  rintro _ u ⟨rfl, hchannel, hreq⟩
  refine ensures_pure ⟨List.append_nil _, ?_, ?_⟩
  · rw [InRange, hreq]
    exact ht.inRange hrange
  · rw [hchannel, ← ht.channel]

theorem readSector_ensures (hhw : Conforms heads sectors m size hw) (hd : LbaMode s.dev) (hdma : s.dev.dma = false)
    (hrange : InRange heads sectors size s.log) (htarget : target addr addr_hi < size) :
    Ensures (readSector hw 1 addr addr_hi) s fun words s' =>
      words = sectorWords (channel heads sectors m s.log) s.dev.type (target addr addr_hi) ∧
        InRange heads sectors size s'.log ∧
        (channel heads sectors m s'.log).sectors = (channel heads sectors m s.log).sectors := by
  let cmd (d : DevicePrivate) : Byte := if d.lba48 ∧ d.dma then ATA_CMD_READ_DMA_48 else if d.dma then
      ATA_CMD_READ_DMA
    else if d.lba48 ∧ ¬ d.dma then ATA_CMD_READ_48 else ATA_CMD_READ
  have hcmd :
      ∀ d f, asked heads sectors f (cmd d) = some ⟨if f.devSel.getLsbD 4 then .ATASlave else .ATAMaster, false,
      if d.lba48 then f.lba48 else f.lba28 heads sectors⟩ := by
    intro d f
    unfold cmd
    generalize d.lba48 = b, d.dma = c
    cases b <;> cases c <;> rfl
  apply (command_ensures hhw hd hrange htarget hcmd).bind
  rintro _ t ⟨hdma', hrange', hchannel⟩
  have hget : Ensures getDev t fun d u => d = t.dev ∧ t = u := ensures_step ⟨rfl, rfl⟩
  apply hget.bind
  rintro _ _ ⟨rfl, rfl⟩
  have hwrite : Ensures (write .command (cmd t.dev)) t fun _ u =>
      { t with log := .portOut .command (cmd t.dev) :: t.log } = u := ensures_step rfl
  apply hwrite.bind
  rintro _ _ rfl
  rw [request_read] at hchannel
  have hlen : (sectorWords (channel heads sectors m s.log) s.dev.type (target addr addr_hi)).length = 128 := by
    rw [sectorWords, List.length_map, List.length_range]
  have hreading := congrArg Channel.reading hchannel
  have hsectors := congrArg Channel.sectors hchannel
  have hpending := pending_of_words hlen hreading
  rw [← bind_assoc, if_neg (by rw [hdma', hdma]; exact Bool.false_ne_true)]
  apply (waitData_ensures hhw hrange' hpending).bind
  intro _ u hu
  rw [← hu.channel] at hreading hsectors
  apply (readLoop_ensures hhw (hu.inRange hrange') hlen hreading).bind
  rintro _ v ⟨rfl, hrange'', hsame⟩
  apply (wait_ensures hhw).bind
  intro _ s' hs'
  refine ensures_pure ⟨rfl, hs'.inRange hrange'', ?_⟩
  rw [hs'.channel, hsame, hsectors]

theorem writeLoop_ensures (hhw : Conforms heads sectors m size hw) (hrange : InRange heads sectors size s.log)
    {buffer : ℕ → Word} {type : DeviceType} {lba : ℕ} (hcount : (channel heads sectors m s.log).count = 1)
    (hwriting : (channel heads sectors m s.log).writing = some (type, lba, 0)) :
    Ensures (writeLoop hw buffer 0 1) s fun _ s' => InRange heads sectors size s'.log ∧
      channel heads sectors m s'.log = (channel heads sectors m s.log).filled buffer type lba 0 := by
  apply (poll_ensures hhw hrange fun h => absurd h Bool.false_ne_true).bind
  intro _ t ht
  rw [← ht.channel] at hcount hwriting ⊢
  apply (@writeBuffer_ensures _ _ _ _ buffer _ _ 0 127 hcount rfl hwriting).bind
  rintro _ u ⟨hchannel, hreq⟩
  refine ensures_pure ⟨?_, hchannel⟩
  rw [InRange, hreq]
  exact ht.inRange hrange

/-- The last command asks for no sector, and what becomes of it is not looked at. -/
theorem flush_ensures (hhw : Conforms heads sectors m size hw) (hrange : InRange heads sectors size s.log)
    {cmd : Byte} (hnone : ∀ f, asked heads sectors f cmd = none) :
    Ensures (write .command cmd >>= fun _ => (poll hw false <|> pure ())) s fun _ s' =>
      InRange heads sectors size s'.log ∧ channel heads sectors m s'.log = channel heads sectors m s.log := by
  have hrange' : InRange heads sectors size (.portOut .command cmd :: s.log) := by
    intro q hq
    have hq : q ∈ (asked heads sectors (regs s.log) cmd).toList ++ requests heads sectors s.log := hq
    rw [hnone] at hq
    exact hrange q hq
  have hwrite : Ensures (write .command cmd) s fun _ u => { s with log := .portOut .command cmd :: s.log } = u :=
    ensures_step rfl
  apply hwrite.bind
  rintro _ _ rfl
  have hpoll : Ensures (poll hw false) { s with log := .portOut .command cmd :: s.log } fun _ s' =>
      Looks heads sectors m hw { s with log := .portOut .command cmd :: s.log } s' :=
    poll_ensures hhw hrange' fun h => absurd h Bool.false_ne_true
  obtain ⟨u, s', hreturns, hs'⟩ := hpoll
  refine ⟨u, s', returns_orElse.mpr (.inl hreturns), hs'.inRange hrange', ?_⟩
  rw [hs'.channel, channel_command_none heads sectors (hnone _)]

/-- A sector is written, and the other ones stay. -/
theorem writeSector_ensures (hhw : Conforms heads sectors m size hw) (hd : LbaMode s.dev) (hdma : s.dev.dma = false)
    (hrange : InRange heads sectors size s.log) (htarget : target addr addr_hi < size) (buffer : ℕ → Word) :
    Ensures (writeSector hw buffer 1 addr addr_hi) s fun _ s' => InRange heads sectors size s'.log ∧
      (channel heads sectors m s'.log).sectors =
        ((channel heads sectors m s.log).filled buffer s.dev.type (target addr addr_hi) 0).sectors := by
  let cmd (d : DevicePrivate) : Byte := if d.lba48 ∧ d.dma then ATA_CMD_WRITE_DMA_48
    else if d.dma then ATA_CMD_WRITE_DMA else if d.lba48 ∧ ¬ d.dma then ATA_CMD_WRITE_48 else ATA_CMD_WRITE
  have hcmd : ∀ d f, asked heads sectors f (cmd d) = some ⟨if f.devSel.getLsbD 4 then .ATASlave else .ATAMaster, true,
      if d.lba48 then f.lba48 else f.lba28 heads sectors⟩ := by
    intro d f
    unfold cmd
    generalize d.lba48 = b, d.dma = c
    cases b <;> cases c <;> rfl
  apply (command_ensures hhw hd hrange htarget hcmd).bind
  rintro _ t ⟨hdma', hrange', hchannel⟩
  have hget : Ensures getDev t fun d u => d = t.dev ∧ t = u := ensures_step ⟨rfl, rfl⟩
  apply hget.bind
  rintro _ _ ⟨rfl, rfl⟩
  have hwrite : Ensures (write .command (cmd t.dev)) t fun _ u =>
      { t with log := .portOut .command (cmd t.dev) :: t.log } = u := ensures_step rfl
  apply hwrite.bind
  rintro _ _ rfl
  rw [request_write] at hchannel
  rw [if_neg (by rw [hdma', hdma]; exact Bool.false_ne_true)]
  have hcount : (channel heads sectors m (.portOut .command (cmd t.dev) :: t.log)).count = 1 := by
    rw [hchannel]
    rfl
  apply (writeLoop_ensures hhw hrange' hcount (congrArg Channel.writing hchannel)).bind
  rintro _ u ⟨hrange'', hfilled⟩
  have hnone : ∀ f, asked heads sectors f (if t.dev.lba48 then ATA_CMD_FLUSH_48 else ATA_CMD_FLUSH) = none := by
    intro f
    cases t.dev.lba48 <;> rfl
  apply (flush_ensures hhw hrange'' hnone).mono
  rintro _ s' ⟨hs', hlast⟩
  refine ⟨hs', ?_⟩
  rw [hlast, hfilled, hchannel]
  rfl

end Transfers

end DevicePrivate

/-- The driver is set up for a drive of `size` sectors, and has kept to them. -/
structure Driven (heads sectors size : ℕ) (s : Io) : Prop where
  lba : DevicePrivate.LbaMode s.dev
  dma : s.dev.dma = false
  inRange : InRange heads sectors size s.log

end ATA

section Blocks
open ATA DevicePrivate
variable {heads sectors size : ℕ} {m : Medium} {hw : Hardware} {s s' : Io} {index : Word}

theorem ATA.Driven.of_sameDrive (h : Driven heads sectors size s) (hs : SameDrive s s')
    (hrange : InRange heads sectors size s'.log) : Driven heads sectors size s' := by
  have hdma : s'.dev.dma = s.dev.dma := by rw [hs]
  exact ⟨hs.lbaMode h.lba, hdma.trans h.dma, hrange⟩

theorem select_ensures (hhw : Conforms heads sectors m size hw) (h : Driven heads sectors size s) (hpos : 0 < size) :
    Ensures (ATA.select hw) s fun _ s' => (Driven heads sectors size s' ∧ s'.dev.type = s.dev.type) ∧
      (channel heads sectors m s'.log).sectors = (channel heads sectors m s.log).sectors := by
  have hselect : Ensures (ATA.select hw) s fun _ s' => InRange heads sectors size s'.log ∧
      (channel heads sectors m s'.log).sectors = (channel heads sectors m s.log).sectors := by
    apply ((DevicePrivate.select_ensures hhw 0).keeps (@idle_select heads sectors hw 0)).bind
    rintro _ t ⟨hidle, hchannel, hreq⟩
    have hdrive : SameDrive s t := hidle.sameDrive
    have hrange : InRange heads sectors size t.log := by
      rw [InRange, hreq]
      exact h.inRange
    have ht := h.of_sameDrive hdrive hrange
    obtain ⟨words, s', hreturns, -, hrange', hsectors⟩ :=
      @readSector_ensures _ _ _ _ _ _ 0 0 hhw ht.lba ht.dma hrange hpos
    exact ⟨(), s', returns_orElse.mpr (.inl (returns_bind.mpr ⟨words, s', hreturns, rfl⟩)), hrange',
      hsectors.trans (congrArg Channel.sectors hchannel)⟩
  exact (hselect.keeps sameDrive_select).mono fun _ _ hs => ⟨⟨h.of_sameDrive hs.1 hs.2.1, hs.1.type⟩, hs.2.2⟩

/-- A block is read, and the sectors stay. -/
theorem getBlock_ensures (hhw : Conforms heads sectors m size hw) (h : Driven heads sectors size s)
    (hindex : Clothes.sectorOf index < size) (data : ℕ → Word) :
    Ensures (ClothesFS.getBlock hw index data) s fun buf s' =>
      buf = store data 0 (sectorWords (channel heads sectors m s.log) s.dev.type (Clothes.sectorOf index)) ∧
        (Driven heads sectors size s' ∧ s'.dev.type = s.dev.type) ∧
        (channel heads sectors m s'.log).sectors = (channel heads sectors m s.log).sectors := by
  rw [ClothesFS.getBlock, Devices.getBlock, blockLoop_one, ATAPhys.read]
  rw [bind_assoc]
  apply (select_ensures hhw h (Nat.zero_lt_of_lt hindex)).bind
  rintro _ t ⟨⟨ht, htype⟩, hsectors⟩
  have htarget := target_blockPos index
  have hread := @readSector_ensures _ _ _ _ _ _ (index * 512 / 512) 0 hhw ht.lba ht.dma ht.inRange
    (by rw [htarget]; exact hindex)
  apply (hread.keeps (sameDrive_readSector 1 _ _)).bind
  rintro _ s' ⟨hdrive, rfl, hrange, hsectors'⟩
  refine ensures_pure ⟨?_, ⟨ht.of_sameDrive hdrive hrange, hdrive.type.trans htype⟩, hsectors'.trans hsectors⟩
  rw [htarget, sectorWords, hsectors, htype]
  rfl

/-- A block is written, and the other sectors stay. -/
theorem putBlock_ensures (hhw : Conforms heads sectors m size hw) (h : Driven heads sectors size s)
    (hindex : Clothes.sectorOf index < size) (data : ℕ → Word) :
    Ensures (ClothesFS.putBlock hw index data) s fun _ s' =>
      (Driven heads sectors size s' ∧ s'.dev.type = s.dev.type) ∧
        (channel heads sectors m s'.log).sectors =
          ((channel heads sectors m s.log).filled data s.dev.type (Clothes.sectorOf index) 0).sectors := by
  rw [ClothesFS.putBlock, blockLoop_one, ATAPhys.write]
  apply (select_ensures hhw h (Nat.zero_lt_of_lt hindex)).bind
  rintro _ t ⟨⟨ht, htype⟩, hsectors⟩
  have htarget := target_blockPos index
  have hbuffer : (fun i => data ((ATAPhys.sectorSize * 0).toNat / 4 + i)) = data := by
    funext i
    exact congrArg data (Nat.zero_add i)
  have hwrite := @writeSector_ensures _ _ _ _ _ _ (index * 512 / 512) 0 hhw ht.lba ht.dma ht.inRange
    (by rw [htarget]; exact hindex) data
  rw [hbuffer]
  apply (hwrite.keeps (sameDrive_writeSector data 1 _ _)).mono
  rintro _ s' ⟨hdrive, hrange, hsectors'⟩
  refine ⟨⟨ht.of_sameDrive hdrive hrange, hdrive.type.trans htype⟩, ?_⟩
  rw [hsectors', htarget, htype]
  unfold Channel.filled
  rw [hsectors]

end Blocks

/-- The words of a buffer as bytes, the low byte first. -/
def toBytes (buf : ℕ → Word) : Clothes.Block := fun j => ATA.DevicePrivate.byteOf (buf (j / 4)) (j % 4)

/-- The bytes of a block as words. -/
def toWords (b : Clothes.Block) : ℕ → Word := fun i => b (4 * i + 3) ++ b (4 * i + 2) ++ b (4 * i + 1) ++ b (4 * i)

/-- The bytes of a block that go to the disk. -/
def contents (b : Clothes.Block) : List Byte := (List.range 512).map b

/-- What a file system does with the blocks of its disk: each call may depend on what the ones before it
returned. -/
inductive Client (α : Type) where
  | done (a : α)
  | getBlock (index : Word) (next : List Byte → Client α)
  | putBlock (index : Word) (data : Clothes.Block) (next : Client α)

namespace Client
variable {α : Type}

/-- The calls on an array of blocks. -/
def onDisk (fs : Clothes.ClothesFS) : Client α → Prog Clothes.Disk α
  | done a => pure a
  | getBlock index next => do
    let b ← fs.getBlock index
    (next (contents b)).onDisk fs
  | putBlock index data next => do
    fs.putBlock index data
    next.onDisk fs

/-- The calls on the driver, with a buffer that holds anything before. -/
def onDrive (hw : ATA.Hardware) (buf : ℕ → Word) : Client α → Prog ATA.Io α
  | done a => pure a
  | getBlock index next => do
    let words ← ClothesFS.getBlock hw index buf
    (next (contents (toBytes words))).onDrive hw buf
  | putBlock index data next => do
    ClothesFS.putBlock hw index (toWords data)
    next.onDrive hw buf

end Client

section Refines
open ATA DevicePrivate
variable {heads sectors size : ℕ} {m : Medium} {hw : Hardware} {s : Io} {fs : Clothes.ClothesFS}
  {d d' : Clothes.Disk}

/-- The sectors of a drive hold the blocks. -/
def Holds (size : ℕ) (d : Clothes.Disk) (medium : ℕ → ℕ → Word) : Prop :=
  ∀ k < size, contents (toBytes (medium k)) = contents (d k)

theorem byteOf_append (b₀ b₁ b₂ b₃ : Byte) :
    byteOf (b₃ ++ b₂ ++ b₁ ++ b₀) 0 = b₀ ∧ byteOf (b₃ ++ b₂ ++ b₁ ++ b₀) 1 = b₁ ∧
      byteOf (b₃ ++ b₂ ++ b₁ ++ b₀) 2 = b₂ ∧ byteOf (b₃ ++ b₂ ++ b₁ ++ b₀) 3 = b₃ := by
  unfold byteOf
  refine ⟨?_, ?_, ?_, ?_⟩ <;> apply BitVec.eq_of_getLsbD_eq <;> intro i hi
  all_goals
    simp only [BitVec.getLsbD_append, BitVec.getLsbD_setWidth, BitVec.getLsbD_ushiftRight]
    grind

theorem toBytes_toWords (b : Clothes.Block) : toBytes (toWords b) = b := by
  funext j
  obtain ⟨h0, h1, h2, h3⟩ := byteOf_append (b (4 * (j / 4))) (b (4 * (j / 4) + 1)) (b (4 * (j / 4) + 2))
    (b (4 * (j / 4) + 3))
  have hcases : j % 4 = 0 ∨ j % 4 = 1 ∨ j % 4 = 2 ∨ j % 4 = 3 := by omega
  have hj : b (4 * (j / 4) + j % 4) = b j := congrArg b (Nat.div_add_mod j 4)
  rw [← hj, toBytes, toWords]
  rcases hcases with hr | hr | hr | hr
  · rw [hr]
    exact h0
  · rw [hr]
    exact h1
  · rw [hr]
    exact h2
  · rw [hr]
    exact h3

theorem contents_congr {b b' : Clothes.Block} (h : ∀ j < 512, b j = b' j) : contents b = contents b' :=
  List.map_congr_left fun j hj => h j (List.mem_range.mp hj)

theorem contents_words {buf buf' : ℕ → Word} (h : ∀ i < 128, buf i = buf' i) :
    contents (toBytes buf) = contents (toBytes buf') :=
  contents_congr fun j hj => congrArg (byteOf · (j % 4)) (h (j / 4) (by omega))

theorem store_sectorWords (c : Channel) (type : DeviceType) (lba : ℕ) (buf : ℕ → Word) {i : ℕ} (hi : i < 128) :
    store buf 0 (sectorWords c type lba) i = c.sectors type lba i := by
  have hlen : i < (sectorWords c type lba).length := by
    rw [sectorWords, List.length_map, List.length_range]
    exact hi
  rw [store, if_pos (Nat.zero_le i), Nat.sub_zero, List.getElem?_eq_getElem hlen, Option.getD_some]
  simp only [sectorWords, List.getElem_map, List.getElem_range]

theorem Holds.put {medium : ℕ → ℕ → Word} (h : Holds size d medium) (lba : ℕ) (data : Clothes.Block) :
    Holds size (Function.update d lba data)
      fun k j => if k = lba ∧ j < 128 then toWords data j else medium k j := by
  intro k hk
  by_cases heq : k = lba
  · subst heq
    rw [Function.update_self]
    refine (contents_words fun i hi => if_pos ⟨rfl, hi⟩).trans ?_
    rw [toBytes_toWords]
  · rw [Function.update_of_ne heq, ← h k hk]
    exact contents_words fun i _ => if_neg fun hc => heq hc.1

/-- What a client does with calls that succeed on the array of blocks, so that they lie inside the volume, succeeds
through the ports with the same results, and leaves the drive with the blocks of the array. -/
theorem client_refines {α : Type} (hhw : Conforms heads sectors m size hw) (hfs : fs.size ≤ size * 512)
    (client : Client α) (buf : ℕ → Word) {a : α} (hs : Driven heads sectors size s)
    (hholds : Holds size d ((channel heads sectors m s.log).sectors s.dev.type))
    (h : Returns (client.onDisk fs) d a d') :
    ∃ s', Returns (client.onDrive hw buf) s a s' ∧ Driven heads sectors size s' ∧ s'.dev.type = s.dev.type ∧
      Holds size d' ((channel heads sectors m s'.log).sectors s.dev.type) ∧
      ∀ type ≠ s.dev.type,
        (channel heads sectors m s'.log).sectors type = (channel heads sectors m s.log).sectors type := by
  induction client generalizing s d with
  | done b =>
    obtain ⟨rfl, rfl⟩ := returns_pure.mp h
    exact ⟨s, returns_pure.mpr ⟨rfl, rfl⟩, hs, rfl, hholds, fun _ _ => rfl⟩
  | getBlock index next ih =>
    obtain ⟨b, d₁, hget, hrest⟩ := returns_bind.mp h
    obtain ⟨hat, rfl⟩ := Clothes.ClothesFS.returns_getBlock.mp hget
    obtain ⟨hpos, rfl⟩ := Clothes.ClothesFS.blockAt_eq_some.mp hat
    have hindex : Clothes.sectorOf index < size := by
      unfold Clothes.sectorOf
      unfold Clothes.sectorSize at hpos ⊢
      omega
    obtain ⟨words, t, hreturns, hwords, ⟨ht, htype⟩, hsectors⟩ := getBlock_ensures hhw hs hindex buf
    have hsame : contents (toBytes words) = contents (d (Clothes.sectorOf index)) := by
      rw [← hholds _ hindex, hwords]
      exact contents_words fun i hi => store_sectorWords _ _ _ _ hi
    rw [← htype, ← hsectors] at hholds
    rw [← hsame] at hrest
    obtain ⟨s', hreturns', hs', htype', hholds', hother⟩ := ih _ ht hholds hrest
    rw [htype] at hholds' htype' hother
    rw [hsectors] at hother
    exact ⟨s', returns_bind.mpr ⟨words, t, hreturns, hreturns'⟩, hs', htype', hholds', hother⟩
  | putBlock index data next ih =>
    obtain ⟨u, d₁, hput, hrest⟩ := returns_bind.mp h
    obtain ⟨hpos, rfl⟩ := Clothes.ClothesFS.returns_putBlock.mp hput
    have hindex : Clothes.sectorOf index < size := by
      unfold Clothes.sectorOf
      unfold Clothes.sectorSize at hpos ⊢
      omega
    obtain ⟨u, t, hreturns, ⟨ht, htype⟩, hsectors⟩ := putBlock_ensures hhw hs hindex (toWords data)
    have hholds₁ : Holds size (Function.update d (Clothes.sectorOf index) data)
        ((channel heads sectors m t.log).sectors t.dev.type) := by
      have hput := hholds.put (Clothes.sectorOf index) data
      have hfilled : (channel heads sectors m t.log).sectors t.dev.type = fun k j =>
          if k = Clothes.sectorOf index ∧ j < 128 then toWords data j
          else (channel heads sectors m s.log).sectors s.dev.type k j := by
        rw [hsectors, htype]
        funext k j
        simp only [Channel.filled, Nat.zero_le, true_and]
      rw [hfilled]
      exact hput
    obtain ⟨s', hreturns', hs', htype', hholds', hother⟩ := ih ht hholds₁ hrest
    rw [htype] at hholds' htype' hother
    refine ⟨s', returns_bind.mpr ⟨u, t, hreturns, hreturns'⟩, hs', htype', hholds', fun type hne => ?_⟩
    rw [hother type hne, hsectors]
    funext k j
    exact if_neg fun hc => hne hc.1

/-- A drive that is always ready. -/
def simulated (heads sectors : ℕ) (m : Medium) : Hardware := fun log r =>
  match r with
  | .data => (channel heads sectors m log).reading.headD 0
  | .command => 0x48
  | _ => 0

theorem conforms_simulated (heads sectors : ℕ) (m : Medium) (size : ℕ) :
    Conforms heads sectors m size (simulated heads sectors m) := by
  have hfree : ∀ log, ¬ Busy (simulated heads sectors m log status) := fun _ h =>
    h (show (0x48 : BitVec 16).setWidth 8 &&& ATA_STATUS_BUSY = 0 by decide)
  constructor
  · intro log half rest hreading
    change (channel heads sectors m log).reading.headD 0 = half
    rw [hreading]
    rfl
  · exact fun log _ => ⟨0, Nat.zero_le _, hfree _⟩
  · exact fun log r _ _ => hfree _
  · intro log _ _ _
    exact ⟨show (0x48 : BitVec 16).setWidth 8 &&& ATA_STATUS_ERROR = 0 by decide,
      show (0x48 : BitVec 16).setWidth 8 &&& ATA_STATUS_DF = 0 by decide,
      show (0x48 : BitVec 16).setWidth 8 &&& ATA_STATUS_DRQ ≠ 0 by decide⟩

def lbaDrive : Io := { freshDrive with dev := { freshDrive.dev with lba := true, mode := ATA_MODE_LBA } }

/-- A block is written to an empty disk of 1 MiB and read again. -/
theorem client_refines_stored : ∃ s', Returns ((Client.putBlock 5 (fun _ => 7)
    (.getBlock 5 fun bytes => .done (bytes.headD 0))).onDrive (simulated 16 63 fun _ _ _ => 0) fun _ => 0)
      lbaDrive 7 s' := by
  have hdriven : Driven 16 63 2048 lbaDrive := ⟨⟨rfl, rfl⟩, rfl, fun q hq => absurd hq List.not_mem_nil⟩
  have hholds : Holds 2048 (fun _ _ => 0)
      ((channel 16 63 (fun _ _ _ => 0) lbaDrive.log).sectors lbaDrive.dev.type) := by
    intro k _
    apply contents_congr
    intro j _
    have hzero : (0 : Word) >>> (8 * (j % 4)) = 0 := BitVec.zero_ushiftRight
    exact congrArg (BitVec.setWidth 8) hzero
  have hdisk : Returns ((Client.putBlock 5 (fun _ => 7) (.getBlock 5 fun bytes => .done (bytes.headD 0))).onDisk
      ⟨2048 * 512⟩) (fun _ _ => 0) (7 : Byte)
        (Function.update (fun _ _ => 0) (Clothes.sectorOf 5) fun _ => 7) := by
    have hfirst : ∀ b : Clothes.Block, (contents b).headD 0 = b 0 := fun b => by
      rw [contents, List.range_succ_eq_map]
      rfl
    refine returns_bind.mpr ⟨(), _, Clothes.ClothesFS.returns_putBlock.mpr ⟨by decide, rfl⟩, ?_⟩
    refine returns_bind.mpr ⟨_, _, Clothes.ClothesFS.returns_getBlock.mpr
      ⟨Clothes.ClothesFS.blockAt_eq_some.mpr ⟨by decide, rfl⟩, rfl⟩, returns_pure.mpr ⟨?_, rfl⟩⟩
    rw [hfirst, Function.update_self]
  obtain ⟨s', hreturns, -⟩ := client_refines (conforms_simulated 16 63 (fun _ _ _ => 0) 2048) (Nat.le_refl _) _
    (fun _ => 0) hdriven hholds hdisk
  exact ⟨s', hreturns⟩

end Refines

end CxxKernel.Devices
