import CxxKernel.Devices.Keyboard

/-! The modifiers of `KBX86` against the keys that are held: which sequences of scan codes leave a bit behind, or
lose one. -/
namespace CxxKernel.Devices.KBX86
open Runs

/-- The bits of `mods`, which `run` never sets but for these. -/
structure Modifiers where
  shift : Bool
  ctrl : Bool
  altgr : Bool
  right : Bool

def Modifiers.bits (m : Modifiers) : Byte :=
  (if m.shift then MOD_SHIFT else 0) ||| (if m.ctrl then MOD_CTRL else 0) |||
    (if m.altgr then MOD_ALTGR else 0) ||| (if m.right then MOD_RIGHT else 0)

def isShift (code : Byte) : Bool := code = KEY_LSHIFT ∨ code = KEY_RSHIFT

/-- The codes that the test for a right modifier takes for one. -/
def isRight (code : Byte) : Bool := code &&& KEY_RIGHT_MODIFIER ≠ 0

section Bits
variable {code : Byte}

/-- A key without a modifier of its own. -/
def NoModifier (code : Byte) : Prop := code ≠ KEY_LSHIFT ∧ code ≠ KEY_RSHIFT ∧ code ≠ KEY_CTRL ∧ code ≠ KEY_ALT

theorem noModifier_or (code : Byte) :
    code = KEY_LSHIFT ∨ code = KEY_RSHIFT ∨ code = KEY_CTRL ∨ code = KEY_ALT ∨ NoModifier code := by
  unfold NoModifier
  tauto

theorem pressMods_of_noModifier (h : NoModifier code) (mods : Byte) :
    pressMods mods code = if isRight code then mods ||| MOD_RIGHT else mods := by
  obtain ⟨hl, hr, hc, ha⟩ := h
  rw [pressMods, if_neg hl, if_neg hr, if_neg hc, if_neg ha]
  simp only [isRight, decide_eq_true_eq]

theorem releaseMods_of_noModifier (h : NoModifier code) (mods : Byte) :
    releaseMods mods code = if isRight code then mods &&& ~~~MOD_RIGHT else mods := by
  obtain ⟨hl, hr, hc, ha⟩ := h
  rw [releaseMods, if_neg hl, if_neg hr, if_neg hc, if_neg ha]
  simp only [isRight, decide_eq_true_eq]

theorem right_bit : ∀ shift ctrl altgr right new : Bool,
    (if new then Modifiers.bits ⟨shift, ctrl, altgr, right⟩ ||| MOD_RIGHT
      else Modifiers.bits ⟨shift, ctrl, altgr, right⟩) = Modifiers.bits ⟨shift, ctrl, altgr, right || new⟩ ∧
    (if new then Modifiers.bits ⟨shift, ctrl, altgr, right⟩ &&& ~~~MOD_RIGHT
      else Modifiers.bits ⟨shift, ctrl, altgr, right⟩) = Modifiers.bits ⟨shift, ctrl, altgr, right && !new⟩ := by
  decide

/-- Alt itself counts as right, so that a press of it always means `MOD_ALTGR`. -/
theorem pressMods_bits (shift ctrl altgr right : Bool) (code : Byte) :
    pressMods (Modifiers.bits ⟨shift, ctrl, altgr, right⟩) code = Modifiers.bits ⟨shift || isShift code,
      ctrl || code = KEY_CTRL, altgr || code = KEY_ALT, right || isRight code⟩ := by
  rcases noModifier_or code with rfl | rfl | rfl | rfl | hnone
  case inr.inr.inr.inr =>
    have hcodes := hnone
    obtain ⟨hl, hr, hc, ha⟩ := hcodes
    rw [pressMods_of_noModifier hnone, (right_bit ..).1]
    simp [isShift, hl, hr, hc, ha]
  all_goals
    revert shift ctrl altgr right
    decide

theorem releaseMods_bits (shift ctrl altgr right : Bool) (code : Byte) :
    releaseMods (Modifiers.bits ⟨shift, ctrl, altgr, right⟩) code = Modifiers.bits ⟨shift && !isShift code,
      ctrl && code ≠ KEY_CTRL, altgr && !(code = KEY_ALT && right), right && !isRight code⟩ := by
  rcases noModifier_or code with rfl | rfl | rfl | rfl | hnone
  case inr.inr.inr.inr =>
    have hcodes := hnone
    obtain ⟨hl, hr, hc, ha⟩ := hcodes
    rw [releaseMods_of_noModifier hnone, (right_bit ..).2]
    simp [isShift, hl, hr, hc, ha]
  all_goals
    revert shift ctrl altgr right
    decide

end Bits

theorem bits_shift : ∀ shift ctrl altgr right : Bool,
    (Modifiers.bits ⟨shift, ctrl, altgr, right⟩ &&& MOD_SHIFT ≠ 0) ↔ shift = true := by
  decide

inductive KeyEvent
  | press (code : Byte)
  | release (code : Byte)
  deriving DecidableEq

def KeyEvent.scanCode : KeyEvent → Byte
  | .press code => code
  | .release code => code ||| KEY_RELEASE

/-- What the events alone say: the keys that are held, whether the last event of a key with a right code was a press,
and whether the last release of Alt came when it was not. -/
structure Keys where
  held : Byte → Bool
  lastPress : Bool
  altLost : Bool

namespace Keys

def none : Keys := ⟨fun _ => false, false, false⟩

def note (keys : Keys) : KeyEvent → Keys
  | .press code =>
    { keys with held := Function.update keys.held code true
                lastPress := keys.lastPress || isRight code }
  | .release code =>
    { held := Function.update keys.held code false
      lastPress := keys.lastPress && !isRight code
      altLost := if code = KEY_ALT then !keys.lastPress else keys.altLost }

/-- A key is released that is held; the codes are those that `run` maps. -/
def Allows (keys : Keys) : KeyEvent → Prop
  | .press code => code < 0x60
  | .release code => code < 0x60 ∧ keys.held code = true

def shiftHeld (keys : Keys) : Bool := keys.held KEY_LSHIFT || keys.held KEY_RSHIFT

def Idle (keys : Keys) : Prop := ∀ code, keys.held code = false

/-- No shift key is released while the other one is held, and when no key is left the last release of Alt came
behind a press. -/
def Fine (keys : Keys) (e : KeyEvent) : Prop :=
  (e = .release KEY_LSHIFT → keys.held KEY_RSHIFT = false) ∧
    (e = .release KEY_RSHIFT → keys.held KEY_LSHIFT = false) ∧
    ((keys.note e).Idle → (keys.note e).altLost = false)

end Keys

/-- The driver beside the keys. -/
structure Keyboard (Key : Type) where
  kb : State Key
  keys : Keys

variable {Key : Type}

def KeyStep (layout : Layout Key) (s : Keyboard Key) (e : KeyEvent) (t : Keyboard Key) : Prop :=
  s.keys.Allows e ∧ t = ⟨run layout s.kb e.scanCode, s.keys.note e⟩

/-- A key is mapped by the upper-case table exactly if a shift key is held, and without keys there are no
modifiers. -/
structure ModsLaw (s : Keyboard Key) : Prop where
  table : ∀ (layout : Layout Key) (code : Byte), code < 0x60 →
    mapped layout s.kb.mods code = if s.keys.shiftHeld then layout.upcase code else layout.plain code
  idle : s.keys.Idle → s.kb.mods = 0

/-- The driver as it starts, with no key held. -/
def startKeys (keybuffer : ℕ → Option Key) : Keyboard Key := ⟨⟨0, keybuffer, 0, 0⟩, .none⟩

/-- The modifiers go with the keys, whatever the events; a shift bit has its key, but not the other way round. -/
structure Follows (s : Keyboard Key) (shift : Bool) : Prop where
  mods : s.kb.mods = Modifiers.bits
    ⟨shift, s.keys.held KEY_CTRL, s.keys.held KEY_ALT || s.keys.altLost, s.keys.lastPress⟩
  shift : shift = true → s.keys.shiftHeld = true
  right : s.keys.lastPress = true → ∃ code, isRight code = true ∧ s.keys.held code = true

section Step
variable {layout : Layout Key} {s t : Keyboard Key} {e : KeyEvent} {code : Byte} {shift : Bool}

theorem scanCode_press : ∀ code : Byte, code < 0x60 → ¬ code &&& KEY_RELEASE ≠ 0 := by decide

theorem scanCode_release : ∀ code : Byte, code < 0x60 →
    (code ||| KEY_RELEASE) &&& KEY_RELEASE ≠ 0 ∧ (code ||| KEY_RELEASE) &&& ~~~KEY_RELEASE = code := by decide

theorem run_press_mods (h : code < 0x60) (k : State Key) : (run layout k code).mods = pressMods k.mods code := by
  rw [run, if_neg (scanCode_press code h)]
  dsimp only
  cases mapped layout (pressMods k.mods code) code with
  | none => rfl
  | some key => rfl

theorem run_release_mods (h : code < 0x60) (k : State Key) :
    (run layout k (code ||| KEY_RELEASE)).mods = releaseMods k.mods code := by
  obtain ⟨hrelease, hcode⟩ := scanCode_release code h
  rw [run, if_pos hrelease, hcode]

theorem update_true (f : Byte → Bool) (a b : Byte) : Function.update f a true b = (f b || decide (a = b)) := by
  by_cases hab : b = a
  · rw [hab, Function.update_self, decide_eq_true rfl, Bool.or_true]
  · rw [Function.update_of_ne hab, decide_eq_false (Ne.symm hab), Bool.or_false]

theorem update_false (f : Byte → Bool) (a b : Byte) : Function.update f a false b = (f b && decide (a ≠ b)) := by
  by_cases hab : b = a
  · rw [hab, Function.update_self, decide_eq_false (not_not.mpr rfl), Bool.and_false]
  · rw [Function.update_of_ne hab, decide_eq_true (Ne.symm hab), Bool.and_true]

theorem Follows.press (h : Follows s shift) (hcode : code < 0x60) :
    Follows ⟨run layout s.kb code, s.keys.note (.press code)⟩ (shift || isShift code) := by
  refine ⟨?_, fun hshift => ?_, fun hright => ?_⟩
  · dsimp only [Keys.note]
    rw [run_press_mods hcode, h.mods, pressMods_bits, update_true, update_true]
    congr 2
    rw [Bool.or_assoc, Bool.or_assoc, Bool.or_comm s.keys.altLost]
  · dsimp only [Keys.note, Keys.shiftHeld]
    rw [update_true, update_true]
    rcases Bool.or_eq_true_iff.mp hshift with hold | hnew
    · have hheld := Bool.or_eq_true_iff.mp (h.shift hold)
      rcases hheld with hheld | hheld <;> simp [hheld]
    · rcases of_decide_eq_true hnew with rfl | rfl <;> simp
  · dsimp only [Keys.note] at hright ⊢
    rcases Bool.or_eq_true_iff.mp hright with hold | hnew
    · obtain ⟨c, hc, hheld⟩ := h.right hold
      exact ⟨c, hc, by rw [update_true, hheld, Bool.true_or]⟩
    · exact ⟨code, hnew, Function.update_self ..⟩

/-- A release takes its bits away, but for that of Alt behind another release. -/
theorem Follows.release (h : Follows s shift) (hcode : code < 0x60) (hheld : s.keys.held code = true) :
    Follows ⟨run layout s.kb (code ||| KEY_RELEASE), s.keys.note (.release code)⟩ (shift && !isShift code) := by
  refine ⟨?_, fun hshift => ?_, fun hright => ?_⟩
  · dsimp only [Keys.note]
    rw [run_release_mods hcode, h.mods, releaseMods_bits, update_false, update_false]
    congr 2
    by_cases halt : code = KEY_ALT
    · subst halt
      simp [hheld]
    · simp [halt]
  · obtain ⟨hold, hnew⟩ := Bool.and_eq_true_iff.mp hshift
    have hne : ¬ (code = KEY_LSHIFT ∨ code = KEY_RSHIFT) := by
      simpa [isShift] using hnew
    obtain ⟨hl, hr⟩ := not_or.mp hne
    dsimp only [Keys.note, Keys.shiftHeld]
    rw [Function.update_of_ne (Ne.symm hl), Function.update_of_ne (Ne.symm hr)]
    exact h.shift hold
  · dsimp only [Keys.note] at hright ⊢
    obtain ⟨hold, hnew⟩ := Bool.and_eq_true_iff.mp hright
    obtain ⟨c, hc, hheld⟩ := h.right hold
    have hne : c ≠ code := by
      rintro rfl
      rw [hc] at hnew
      cases hnew
    exact ⟨c, hc, by rw [Function.update_of_ne hne, hheld]⟩

theorem Follows.table_iff [Inhabited Key] (h : Follows s shift) :
    (∀ (layout : Layout Key) (code : Byte), code < 0x60 →
      mapped layout s.kb.mods code = if s.keys.shiftHeld then layout.upcase code else layout.plain code) ↔
      shift = s.keys.shiftHeld := by
  have hbit : s.kb.mods &&& MOD_SHIFT ≠ 0 ↔ shift = true := by
    rw [h.mods]
    exact bits_shift ..
  have hmapped (layout : Layout Key) {code : Byte} (hcode : code < 0x60) :
      mapped layout s.kb.mods code = if shift then layout.upcase code else layout.plain code := by
    rw [mapped, if_pos hcode]
    exact if_congr hbit rfl rfl
  constructor
  · intro htable
    have hone := htable ⟨fun _ => none, fun _ => some default⟩ 0 (by decide)
    rw [hmapped _ (by decide)] at hone
    revert hone
    cases shift <;> cases s.keys.shiftHeld <;> simp
  · rintro rfl layout code hcode
    exact hmapped layout hcode

theorem Follows.idle_iff (h : Follows s shift) : (s.keys.Idle → s.kb.mods = 0) ↔
    (s.keys.Idle → s.keys.altLost = false) := by
  refine forall_congr' fun hidle => ?_
  have hshift : shift = false := by
    rw [← Bool.not_eq_true]
    intro hs
    have hheld := h.shift hs
    rw [Keys.shiftHeld, hidle, hidle] at hheld
    cases hheld
  have hright : s.keys.lastPress = false := by
    rw [← Bool.not_eq_true]
    intro hr
    obtain ⟨c, -, hheld⟩ := h.right hr
    rw [hidle] at hheld
    cases hheld
  rw [h.mods, hshift, hright, hidle, hidle]
  cases s.keys.altLost <;> decide

theorem Follows.law_iff [Inhabited Key] (h : Follows s shift) :
    ModsLaw s ↔ shift = s.keys.shiftHeld ∧ (s.keys.Idle → s.keys.altLost = false) :=
  ⟨fun hlaw => ⟨h.table_iff.mp hlaw.table, h.idle_iff.mp hlaw.idle⟩,
    fun ⟨htable, hidle⟩ => ⟨h.table_iff.mpr htable, h.idle_iff.mpr hidle⟩⟩

theorem Follows.step (h : Follows s shift) (hstep : KeyStep layout s e t) : ∃ shift', Follows t shift' := by
  obtain ⟨hallows, rfl⟩ := hstep
  cases e with
  | press code => exact ⟨_, h.press hallows⟩
  | release code => exact ⟨_, h.release hallows.1 hallows.2⟩

/-- The shift bit is right behind a release, unless the other shift key is held. -/
theorem shift_release_iff (l r : Bool) (code : Byte) :
    ((l || r) && !isShift code) = ((l && decide (code ≠ KEY_LSHIFT)) || (r && decide (code ≠ KEY_RSHIFT))) ↔
      (code = KEY_LSHIFT → r = false) ∧ (code = KEY_RSHIFT → l = false) := by
  have hne : KEY_LSHIFT ≠ KEY_RSHIFT := by decide
  by_cases hl : code = KEY_LSHIFT
  · subst hl
    cases r <;> simp [isShift, hne]
  · by_cases hr : code = KEY_RSHIFT
    · subst hr
      cases l <;> simp [isShift, Ne.symm hne]
    · simp [isShift, hl, hr]

theorem Keys.not_idle_press (keys : Keys) (code : Byte) : ¬ (keys.note (.press code)).Idle := by
  intro hidle
  have hcode : Function.update keys.held code true code = false := hidle code
  rw [Function.update_self] at hcode
  cases hcode

/-- The law is lost by the release of one of two shift keys, and of the last key when the bit of Alt is left. -/
theorem law_step [Inhabited Key] (h : Follows s shift) (hlaw : ModsLaw s) (hstep : KeyStep layout s e t) :
    ModsLaw t ↔ s.keys.Fine e := by
  obtain ⟨rfl, -⟩ := h.law_iff.mp hlaw
  obtain ⟨hallows, rfl⟩ := hstep
  cases e with
  | press code =>
    have hnew : (s.keys.shiftHeld || isShift code) = (s.keys.note (.press code)).shiftHeld := by
      dsimp only [Keys.note, Keys.shiftHeld, isShift]
      rw [update_true, update_true, Bool.decide_or]
      ac_rfl
    have hbusy := s.keys.not_idle_press code
    refine (h.press hallows).law_iff.trans ?_
    exact ⟨fun _ => ⟨fun he => KeyEvent.noConfusion he, fun he => KeyEvent.noConfusion he,
      fun hidle => absurd hidle hbusy⟩, fun _ => ⟨hnew, fun hidle => absurd hidle hbusy⟩⟩
  | release code =>
    refine (h.release hallows.1 hallows.2).law_iff.trans ?_
    rw [Keys.Fine, ← and_assoc]
    refine and_congr_left fun _ => ?_
    simp only [KeyEvent.release.injEq]
    dsimp only [Keys.note, Keys.shiftHeld]
    rw [update_false, update_false]
    exact shift_release_iff _ _ code

/-- The driver is in step with the keys and obeys the law. -/
def Good (s : Keyboard Key) : Prop := (∃ shift, Follows s shift) ∧ ModsLaw s

theorem good_start [Inhabited Key] (keybuffer : ℕ → Option Key) : Good (startKeys keybuffer) := by
  have hstart : Follows (startKeys keybuffer) false :=
    ⟨(by decide : (0 : Byte) = Modifiers.bits ⟨false, false, false, false⟩), fun hs => Bool.noConfusion hs,
      fun hr => Bool.noConfusion hr⟩
  exact ⟨⟨false, hstart⟩, hstart.law_iff.mpr ⟨rfl, fun _ => rfl⟩⟩

end Step

section Laws
variable [Inhabited Key] {layout : Layout Key} {keybuffer : ℕ → Option Key} {events : List KeyEvent}
  {t : Keyboard Key}

/-- A run obeys the law in each of its states exactly if it never releases one shift key while the other is held, and
comes to rest only where Alt was last released behind a press. -/
theorem modsLaw_iff (h : Run (KeyStep layout) (startKeys keybuffer) events t) :
    Always (KeyStep layout) ModsLaw (startKeys keybuffer) events t ↔
      Run (Guarded (KeyStep layout) fun s e _ => s.keys.Fine e) (startKeys keybuffer) events t := by
  refine always_iff_guarded (fun s hs => hs.2) (fun s e t hs hstep hfine => ?_) (fun s e t hs hstep ht => ?_)
    (good_start keybuffer) h
  · obtain ⟨⟨shift, hs⟩, hl⟩ := hs
    exact ⟨hs.step hstep, (law_step hs hl hstep).mpr hfine⟩
  · obtain ⟨⟨shift, hs⟩, hl⟩ := hs
    exact (law_step hs hl hstep).mp ht

end Laws

/-- Each event is one that the keys allow. -/
def Keys.AllowsAll : Keys → List KeyEvent → Prop
  | _, [] => True
  | keys, e :: events => keys.Allows e ∧ (keys.note e).AllowsAll events

instance (keys : Keys) (e : KeyEvent) : Decidable (keys.Allows e) :=
  match e with
  | .press code => inferInstanceAs (Decidable (code < 0x60))
  | .release code => inferInstanceAs (Decidable (code < 0x60 ∧ keys.held code = true))

instance Keys.decidableAllowsAll : (keys : Keys) → (events : List KeyEvent) → Decidable (keys.AllowsAll events)
  | _, [] => inferInstanceAs (Decidable True)
  | keys, e :: events =>
    have := Keys.decidableAllowsAll (keys.note e) events
    inferInstanceAs (Decidable (keys.Allows e ∧ (keys.note e).AllowsAll events))

/-- The keyboard after the events. -/
def typed (layout : Layout Key) (s : Keyboard Key) (events : List KeyEvent) : Keyboard Key :=
  events.foldl (fun s e => ⟨run layout s.kb e.scanCode, s.keys.note e⟩) s

theorem run_typed (layout : Layout Key) {s : Keyboard Key} {events : List KeyEvent} (h : s.keys.AllowsAll events) :
    Run (KeyStep layout) s events (typed layout s events) := by
  induction events generalizing s with
  | nil => exact .nil s
  | cons e events ih => exact .cons ⟨h.1, rfl⟩ (ih h.2)

/-- Only the upper-case table gives text. -/
def capitals : Layout Unit := ⟨fun _ => none, fun _ => some ()⟩

/-- A key is typed with a shift key held. -/
theorem modsLaw_iff_capital :
    Always (KeyStep capitals) ModsLaw (startKeys fun _ => none)
        [.press KEY_LSHIFT, .press 0x1E, .release 0x1E, .release KEY_LSHIFT]
        (typed capitals (startKeys fun _ => none)
          [.press KEY_LSHIFT, .press 0x1E, .release 0x1E, .release KEY_LSHIFT]) ↔
      Run (Guarded (KeyStep capitals) fun s e _ => s.keys.Fine e) (startKeys fun _ => none)
        [.press KEY_LSHIFT, .press 0x1E, .release 0x1E, .release KEY_LSHIFT]
        (typed capitals (startKeys fun _ => none)
          [.press KEY_LSHIFT, .press 0x1E, .release 0x1E, .release KEY_LSHIFT]) :=
  modsLaw_iff (run_typed capitals (by decide))

/-- One shift key is released while the other is held, and then keys are mapped by the lower-case table. -/
theorem not_modsLaw : ∃ t, Run (KeyStep capitals) (startKeys fun _ => none)
      [.press KEY_LSHIFT, .press KEY_RSHIFT, .release KEY_LSHIFT] t ∧
    ¬ Always (KeyStep capitals) ModsLaw (startKeys fun _ => none)
      [.press KEY_LSHIFT, .press KEY_RSHIFT, .release KEY_LSHIFT] t := by
  refine ⟨_, run_typed capitals (by decide), fun h => ?_⟩
  have htable := h.last.table capitals 0x1E (by decide)
  revert htable
  decide

/-- Alt is released behind another release, and its bit stays. -/
example : (typed capitals (startKeys fun _ => none)
    [.press KEY_ALT, .press 0x21, .release 0x21, .release KEY_ALT]).kb.mods = MOD_ALTGR := by decide

end CxxKernel.Devices.KBX86
