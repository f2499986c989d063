import Mathlib.Data.Rat.Cast.Order
import Mathlib.Tactic.Linarith
import CxxKernel.Memory

/-! The tick counter of `timer.cpp`, the busy wait on it and the sleeps in seconds, milliseconds and
microseconds. The interrupt counts while the wait reads. -/
namespace CxxKernel

structure Timer where
  m_hz : Word
  m_ticks : Word

namespace Timer

/-- `TimerX86::run` as far as the timer goes; the rest is the processes'. -/
def run (t : Timer) : Timer := { t with m_ticks := t.m_ticks + 1 }

/-- How many interrupts come between the read of `now` and each of the later reads of `m_ticks`. -/
structure Schedule where
  ticks : ℕ → ℕ
  start : ticks 0 = 0
  mono : Monotone ticks

/-- The value of `m_ticks` at its reads. -/
def reads (t : Timer) (sched : Schedule) (k : ℕ) : Word := (run^[sched.ticks k] t).m_ticks

/-- A loop on `m_ticks` from the read `k` on. It returns the number of its last read. `fuel` bounds the rounds. -/
def waitWhile (test : Word → Bool) (m_ticks : ℕ → Word) : ℕ → ℕ → Option ℕ
  | 0, _ => none
  | fuel + 1, k => if test (m_ticks k) then waitWhile test m_ticks fuel (k + 1) else some k

/-- `Timer::wait`, up to its last read of the counter. -/
def wait (fuel : ℕ) (m_ticks : ℕ → Word) (ticks_to_wait : Word) : Option ℕ :=
  let now := m_ticks 0
  let target := ticks_to_wait + now
  if target < now then do
    let k ← waitWhile (fun ticks => now < ticks) m_ticks fuel 1
    waitWhile (fun ticks => ticks < target) m_ticks fuel (k + 1)
  else waitWhile (fun ticks => ticks < target) m_ticks fuel 1

/-- The wait does not return before so many ticks have come. -/
def WaitLaw (t : Timer) (sched : Schedule) (ticks_to_wait : Word) : Prop :=
  ∀ fuel k, wait fuel (reads t sched) ticks_to_wait = some k → ticks_to_wait.toNat ≤ sched.ticks k

/-- The target does not wrap, or a tick comes before the first test, or the counter wraps before the second. -/
def Seen (t : Timer) (sched : Schedule) (ticks_to_wait : Word) : Prop :=
  ticks_to_wait.toNat + t.m_ticks.toNat < 2 ^ 32 ∨ 0 < sched.ticks 1 ∨ 2 ^ 32 ≤ t.m_ticks.toNat + sched.ticks 2

section Wait
variable {t : Timer} {sched : Schedule} {test : Word → Bool} {m_ticks : ℕ → Word} {w : Word} {fuel j k : ℕ}

theorem run_iterate (t : Timer) (n : ℕ) : (run^[n] t).m_ticks = t.m_ticks + BitVec.ofNat 32 n := by
  induction n with
  | zero => exact (BitVec.add_zero t.m_ticks).symm
  | succ n ih => rw [Function.iterate_succ_apply', run, ih, BitVec.ofNat_add, ← BitVec.add_assoc]; rfl

theorem toNat_reads (t : Timer) (sched : Schedule) (k : ℕ) :
    (reads t sched k).toNat = (t.m_ticks.toNat + sched.ticks k) % 2 ^ 32 := by
  rw [reads, run_iterate, BitVec.toNat_add, BitVec.toNat_ofNat, Nat.add_mod_mod]

theorem reads_zero (t : Timer) (sched : Schedule) : reads t sched 0 = t.m_ticks := by
  rw [reads, sched.start]
  rfl

theorem waitWhile_some (h : waitWhile test m_ticks fuel k = some j) : k ≤ j ∧ test (m_ticks j) = false := by
  induction fuel generalizing k with
  | zero => cases h
  | succ fuel ih =>
    rw [waitWhile] at h
    by_cases htest : test (m_ticks k) = true
    · rw [if_pos htest] at h
      obtain ⟨hle, hend⟩ := ih h
      exact ⟨by omega, hend⟩
    · rw [if_neg htest] at h
      obtain rfl := Option.some.inj h
      exact ⟨Nat.le_refl k, eq_false_of_ne_true htest⟩

/-- Behind a target that does not wrap, or that the counter has wrapped around to. -/
theorem ticks_of_target (hpast : 2 ^ 32 ≤ w.toNat + t.m_ticks.toNat → 2 ^ 32 ≤ t.m_ticks.toNat + sched.ticks j)
    (htarget : ¬ reads t sched j < w + t.m_ticks) : w.toNat ≤ sched.ticks j := by
  have hle := BitVec.le_def.mp (BitVec.not_lt.mp htarget)
  rw [toNat_reads, BitVec.toNat_add] at hle
  have hw := w.isLt
  have hm := t.m_ticks.isLt
  omega

theorem target_wraps (t : Timer) (w : Word) : w + t.m_ticks < t.m_ticks ↔ 2 ^ 32 ≤ w.toNat + t.m_ticks.toNat := by
  rw [BitVec.lt_def, BitVec.toNat_add]
  have hw := w.isLt
  have hm := t.m_ticks.isLt
  omega

theorem wrapped_of_first (hend : ¬ t.m_ticks < reads t sched k) (htick : 0 < sched.ticks k) :
    2 ^ 32 ≤ t.m_ticks.toNat + sched.ticks k := by
  have hle := BitVec.le_def.mp (BitVec.not_lt.mp hend)
  rw [toNat_reads] at hle
  omega

theorem waitLaw_of_seen (h : Seen t sched w) : WaitLaw t sched w := by
  intro fuel k hwait
  rw [wait, reads_zero] at hwait
  by_cases hwrap : w + t.m_ticks < t.m_ticks
  · rw [if_pos hwrap] at hwait
    obtain ⟨j, hfirst, hsecond⟩ := Option.bind_eq_some_iff.mp hwait
    obtain ⟨hj, hflip⟩ := waitWhile_some hfirst
    obtain ⟨hk, htarget⟩ := waitWhile_some hsecond
    refine ticks_of_target (fun _ => ?_) (of_decide_eq_false htarget)
    have hmono : sched.ticks j ≤ sched.ticks k := sched.mono (by omega)
    rcases h with hsmall | htick | hlate
    · exact absurd ((target_wraps t w).mp hwrap) (by omega)
    · have hone : sched.ticks 1 ≤ sched.ticks j := sched.mono hj
      have hover := wrapped_of_first (of_decide_eq_false hflip) (by omega)
      omega
    · have htwo : sched.ticks 2 ≤ sched.ticks k := sched.mono (by omega)
      omega
  · rw [if_neg hwrap] at hwait
    obtain ⟨-, htarget⟩ := waitWhile_some hwait
    exact ticks_of_target (fun hpast => absurd ((target_wraps t w).mpr hpast) hwrap) (of_decide_eq_false htarget)

/-- No tick before the first test, and no wrap before the second: both loops end at their first test. -/
theorem wait_of_not_seen (h : ¬ Seen t sched w) : wait 1 (reads t sched) w = some 2 ∧ sched.ticks 2 < w.toNat := by
  have hwide : 2 ^ 32 ≤ w.toNat + t.m_ticks.toNat := Nat.not_lt.mp fun hlt => h (.inl hlt)
  have hstill : sched.ticks 1 = 0 := Nat.eq_zero_of_not_pos fun hpos => h (.inr (.inl hpos))
  have hearly : t.m_ticks.toNat + sched.ticks 2 < 2 ^ 32 := Nat.not_le.mp fun hle => h (.inr (.inr hle))
  have hw := w.isLt
  have hfirst : ¬ t.m_ticks < reads t sched 1 := by
    rw [BitVec.lt_def, toNat_reads, hstill]
    omega
  have hsecond : ¬ reads t sched 2 < w + t.m_ticks := by
    rw [BitVec.lt_def, toNat_reads, BitVec.toNat_add]
    omega
  refine ⟨?_, by omega⟩
  rw [wait, reads_zero, if_pos ((target_wraps t w).mpr hwide), waitWhile, decide_eq_false hfirst,
    if_neg Bool.false_ne_true, Option.bind_eq_bind, Option.bind_some, waitWhile, decide_eq_false hsecond,
    if_neg Bool.false_ne_true]

end Wait

/-- The wait is long enough exactly when a wrap of the counter does not go unseen. -/
theorem waitLaw_iff (t : Timer) (sched : Schedule) (w : Word) : WaitLaw t sched w ↔ Seen t sched w := by
  refine ⟨fun hlaw => ?_, waitLaw_of_seen⟩
  by_contra hunseen
  obtain ⟨hwait, hshort⟩ := wait_of_not_seen hunseen
  exact absurd (hlaw 1 2 hwait) (Nat.not_le.mpr hshort)

/-- A counter about to wrap, and no tick at all. -/
theorem not_waitLaw_still : ¬ WaitLaw ⟨100, 0xFFFFFFFF⟩ ⟨fun _ => 0, rfl, fun _ _ _ => Nat.le_refl 0⟩ 1 := by
  intro hlaw
  exact absurd (hlaw 1 2 (by decide)) (by decide)

/-- What `Timer::sleep` asks `wait` for. -/
def sleepTicks (t : Timer) (sec : Word) : Word := t.m_hz * sec

def msleepTicks (t : Timer) (msec : Word) : Word := msec * t.m_hz / 1000

def usleepTicks (t : Timer) (usec : Word) : Word := usec * t.m_hz / 10000000

def sleep (fuel : ℕ) (m_ticks : ℕ → Word) (t : Timer) (sec : Word) : Option ℕ :=
  wait fuel m_ticks (t.sleepTicks sec)

def msleep (fuel : ℕ) (m_ticks : ℕ → Word) (t : Timer) (msec : Word) : Option ℕ :=
  wait fuel m_ticks (t.msleepTicks msec)

def usleep (fuel : ℕ) (m_ticks : ℕ → Word) (t : Timer) (usec : Word) : Option ℕ :=
  wait fuel m_ticks (t.usleepTicks usec)

/-- No product of the three sleeps overflows, for `s` seconds in each unit and for the durations `msec`
and `usec`. -/
structure Small (t : Timer) (s msec usec : Word) : Prop where
  unit : 1000000 * s.toNat < 2 ^ 32
  sec : 1000000 * s.toNat * t.m_hz.toNat < 2 ^ 32
  msec : msec.toNat * t.m_hz.toNat < 2 ^ 32
  usec : usec.toNat * t.m_hz.toNat < 2 ^ 32

/-- The three sleeps agree on `s` seconds. -/
def Agree (t : Timer) (s : Word) : Prop :=
  (t.sleepTicks s).toNat = s.toNat * t.m_hz.toNat ∧ t.msleepTicks (1000 * s) = t.sleepTicks s ∧
    t.usleepTicks (1000000 * s) = t.sleepTicks s

/-- The ticks asked for miss the exact duration by less than one. -/
def Near (ticks : Word) (exact : ℚ) : Prop := |(ticks.toNat : ℚ) - exact| < 1

def UnitLaw (t : Timer) (s msec usec : Word) : Prop :=
  Agree t s ∧ Near (t.msleepTicks msec) (msec.toNat * t.m_hz.toNat / 1000) ∧
    Near (t.usleepTicks usec) (usec.toNat * t.m_hz.toNat / 1000000)

section Sleep
variable {t : Timer} {sched : Schedule} {s sec msec usec : Word} {fuel k : ℕ}

theorem toNat_mul {a b : Word} (h : a.toNat * b.toNat < 2 ^ 32) : (a * b).toNat = a.toNat * b.toNat := by
  rw [BitVec.toNat_mul, Nat.mod_eq_of_lt h]

theorem toNat_msleepTicks (h : msec.toNat * t.m_hz.toNat < 2 ^ 32) :
    (t.msleepTicks msec).toNat = msec.toNat * t.m_hz.toNat / 1000 := by
  rw [msleepTicks, BitVec.toNat_udiv, toNat_mul h]
  rfl

theorem toNat_usleepTicks (h : usec.toNat * t.m_hz.toNat < 2 ^ 32) :
    (t.usleepTicks usec).toNat = usec.toNat * t.m_hz.toNat / 10000000 := by
  rw [usleepTicks, BitVec.toNat_udiv, toNat_mul h]
  rfl

theorem near_iff (ticks : Word) (p : ℕ) {unit : ℕ} (hunit : 0 < unit) :
    Near ticks ((p : ℚ) / unit) ↔ p < unit * ticks.toNat + unit ∧ unit * ticks.toNat < p + unit := by
  have hpos : (0 : ℚ) < unit := Nat.cast_pos.mpr hunit
  rw [Near, abs_lt, neg_lt_sub_iff_lt_add, sub_lt_iff_lt_add, div_lt_iff₀ hpos, ← sub_lt_iff_lt_add',
    lt_div_iff₀ hpos]
  constructor
  · rintro ⟨hlow, hhigh⟩
    constructor
    · have : (p : ℚ) < unit * ticks.toNat + unit := by linarith
      exact_mod_cast this
    · have : (unit * ticks.toNat : ℚ) < p + unit := by linarith
      exact_mod_cast this
  · rintro ⟨hlow, hhigh⟩
    have hlow' : (p : ℚ) < unit * ticks.toNat + unit := by exact_mod_cast hlow
    have hhigh' : (unit * ticks.toNat : ℚ) < p + unit := by exact_mod_cast hhigh
    constructor <;> linarith

/-- A truncated quotient misses the exact one by less than one. -/
theorem msleepTicks_near (h : msec.toNat * t.m_hz.toNat < 2 ^ 32) :
    Near (t.msleepTicks msec) (msec.toNat * t.m_hz.toNat / 1000) := by
  have hnear := near_iff (t.msleepTicks msec) (msec.toNat * t.m_hz.toNat) (show 0 < 1000 by omega)
  rw [toNat_msleepTicks h, Nat.cast_mul, Nat.cast_ofNat] at hnear
  exact hnear.mpr ⟨by omega, by omega⟩

/-- The divisor of `usleep` has a zero too many: only a duration below one tick comes out right. -/
theorem usleepTicks_near_iff (h : usec.toNat * t.m_hz.toNat < 2 ^ 32) :
    Near (t.usleepTicks usec) (usec.toNat * t.m_hz.toNat / 1000000) ↔ usec.toNat * t.m_hz.toNat < 1000000 := by
  have hnear := near_iff (t.usleepTicks usec) (usec.toNat * t.m_hz.toNat) (show 0 < 1000000 by omega)
  rw [toNat_usleepTicks h, Nat.cast_mul, Nat.cast_ofNat] at hnear
  rw [hnear]
  omega

/-- Seconds and milliseconds agree; microseconds give a tenth. -/
theorem agree_iff (hunit : 1000000 * s.toNat < 2 ^ 32) (hsec : 1000000 * s.toNat * t.m_hz.toNat < 2 ^ 32) :
    Agree t s ↔ s.toNat * t.m_hz.toNat = 0 := by
  have hprod : 1000000 * s.toNat * t.m_hz.toNat = 1000000 * (s.toNat * t.m_hz.toNat) := Nat.mul_assoc _ _ _
  have hsleep : (t.sleepTicks s).toNat = s.toNat * t.m_hz.toNat := by
    have hsmall : t.m_hz.toNat * s.toNat < 2 ^ 32 := by
      rw [Nat.mul_comm]
      omega
    rw [sleepTicks, toNat_mul hsmall, Nat.mul_comm]
  have hmilli : (1000 * s).toNat = 1000 * s.toNat := toNat_mul (show 1000 * s.toNat < 2 ^ 32 by omega)
  have hmicro : (1000000 * s).toNat = 1000000 * s.toNat := toNat_mul hunit
  have hmsmall : (1000 * s).toNat * t.m_hz.toNat < 2 ^ 32 := by
    rw [hmilli, Nat.mul_assoc]
    omega
  have husmall : (1000000 * s).toNat * t.m_hz.toNat < 2 ^ 32 := by
    rw [hmicro]
    exact hsec
  have hmsleep : t.msleepTicks (1000 * s) = t.sleepTicks s := by
    refine BitVec.eq_of_toNat_eq ?_
    rw [toNat_msleepTicks hmsmall, hmilli, hsleep, Nat.mul_assoc]
    omega
  have husleep : (t.usleepTicks (1000000 * s)).toNat = s.toNat * t.m_hz.toNat / 10 := by
    rw [toNat_usleepTicks husmall, hmicro, hprod]
    omega
  rw [Agree, ← BitVec.toNat_inj (x := t.usleepTicks _), husleep, hsleep]
  constructor
  · rintro ⟨-, -, htenth⟩
    omega
  · intro hzero
    exact ⟨rfl, hmsleep, by omega⟩

theorem sleep_waits (hsec : t.m_hz.toNat * sec.toNat < 2 ^ 32) (hseen : Seen t sched (t.sleepTicks sec))
    (hsleep : sleep fuel (reads t sched) t sec = some k) : t.m_hz.toNat * sec.toNat ≤ sched.ticks k := by
  have hwait := waitLaw_of_seen hseen fuel k hsleep
  rwa [sleepTicks, toNat_mul hsec] at hwait

/-- One in milliseconds falls short of its duration by less than a tick. -/
theorem msleep_waits (hmsec : msec.toNat * t.m_hz.toNat < 2 ^ 32) (hseen : Seen t sched (t.msleepTicks msec))
    (hsleep : msleep fuel (reads t sched) t msec = some k) :
    msec.toNat * t.m_hz.toNat < 1000 * (sched.ticks k + 1) := by
  have hwait := waitLaw_of_seen hseen fuel k hsleep
  rw [toNat_msleepTicks hmsec] at hwait
  omega

/-- One in microseconds may be over after a tenth of its duration. -/
theorem usleep_waits (husec : usec.toNat * t.m_hz.toNat < 2 ^ 32) (hseen : Seen t sched (t.usleepTicks usec))
    (hsleep : usleep fuel (reads t sched) t usec = some k) :
    usec.toNat * t.m_hz.toNat < 10000000 * (sched.ticks k + 1) := by
  have hwait := waitLaw_of_seen hseen fuel k hsleep
  rw [toNat_usleepTicks husec] at hwait
  omega

end Sleep

/-- The sleeps agree and are near the durations exactly when the microseconds do not come to a tick. -/
theorem unitLaw_iff {t : Timer} {s msec usec : Word} (h : Small t s msec usec) :
    UnitLaw t s msec usec ↔ s.toNat * t.m_hz.toNat = 0 ∧ usec.toNat * t.m_hz.toNat < 1000000 := by
  rw [UnitLaw, agree_iff h.unit h.sec, usleepTicks_near_iff h.usec]
  constructor
  · rintro ⟨hzero, -, hlow⟩
    exact ⟨hzero, hlow⟩
  · rintro ⟨hzero, hlow⟩
    exact ⟨hzero, msleepTicks_near h.msec, hlow⟩

theorem unitLaw_iff_hundred : UnitLaw ⟨100, 0⟩ 0 15 9999 :=
  (unitLaw_iff ⟨by decide, by decide, by decide, by decide⟩).mpr ⟨by decide, by decide⟩

/-- At 100 Hz `usleep` asks for 10 ticks for a second. -/
theorem not_unitLaw_second : Small ⟨100, 0⟩ 1 0 0 ∧ ¬ UnitLaw ⟨100, 0⟩ 1 0 0 := by
  refine ⟨⟨by decide, by decide, by decide, by decide⟩, fun hlaw => ?_⟩
  exact absurd hlaw.1.2.2 (by decide)

end Timer
end CxxKernel
