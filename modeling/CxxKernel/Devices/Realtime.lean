import CxxKernel.Lib.Calendar
import CxxKernel.Memory

/-! `RealtimeX86` and `syscall_clock_gettime`: the time of the real-time clock in seconds. The width `w` of
`time_t` and the function `__tm_to_secs` are those of the C library. -/
namespace CxxKernel.Devices
open Calendar

def CLOCK_REALTIME : Word := 0
def EINVAL : Word := 22
def NMI_DISABLE_BIT : BitVec 8 := 1

/-- The registers of the clock behind the ports 0x70 and 0x71. Bit 7 of what is written to port 0x70 is not
part of the number of the register. -/
structure RTC where
  index : BitVec 7
  regs : BitVec 7 → BitVec 8

namespace RTC

def out (rtc : RTC) (val : BitVec 8) : RTC := { rtc with index := val.setWidth 7 }

def in' (rtc : RTC) : BitVec 8 := rtc.regs rtc.index

end RTC

structure TimeInfo where
  seconds : BitVec 8
  minutes : BitVec 8
  hours : BitVec 8
  day : BitVec 8
  month : BitVec 8
  year : Word

/-- `struct tm`, whose fields are of type `int`. -/
structure Tm where
  tm_sec : Word
  tm_min : Word
  tm_hour : Word
  tm_mday : Word
  tm_mon : Word
  tm_year : Word

/-- `struct timespec`. -/
structure Timespec (w : ℕ) where
  tv_sec : BitVec w
  tv_nsec : Word

def bcd (val : BitVec 8) : BitVec 8 := (val &&& 0xF) + (val >>> 4) * 10

def RealtimeX86.getTime (rtc : RTC) : TimeInfo × RTC :=
  let rtc := rtc.out (NMI_DISABLE_BIT <<< 7 ||| 0x00)
  let seconds := bcd rtc.in'
  let rtc := rtc.out (NMI_DISABLE_BIT <<< 7 ||| 0x02)
  let minutes := bcd rtc.in'
  let rtc := rtc.out (NMI_DISABLE_BIT <<< 7 ||| 0x04)
  let hours := bcd rtc.in'
  let rtc := rtc.out (NMI_DISABLE_BIT <<< 7 ||| 0x07)
  let day := bcd rtc.in'
  let rtc := rtc.out (NMI_DISABLE_BIT <<< 7 ||| 0x08)
  let month := bcd rtc.in'
  let rtc := rtc.out (NMI_DISABLE_BIT <<< 7 ||| 0x09)
  let year := (bcd rtc.in').setWidth 32
  let rtc := rtc.out (NMI_DISABLE_BIT <<< 7 ||| 0x32)
  let year := year + (bcd rtc.in').setWidth 32 * 100
  (⟨seconds, minutes, hours, day, month, year⟩, rtc)

/-- The result, and what is stored at `tp`. -/
def syscall_clock_gettime (w : ℕ) (toSecs : Tm → BitVec 64) (clockid : Word) (rtc : RTC) :
    Word × Timespec w × RTC :=
  if clockid = CLOCK_REALTIME then
    let (time, rtc) := RealtimeX86.getTime rtc
    let t : Tm := {
      tm_sec := time.seconds.setWidth 32
      tm_min := time.minutes.setWidth 32
      tm_hour := time.hours.setWidth 32
      tm_mday := time.day.setWidth 32
      tm_mon := time.month.setWidth 32
      tm_year := time.year - 1900 }
    let tmp := toSecs t
    (0, ⟨tmp.signExtend w, (tmp * 1000 * 1000).setWidth 32⟩, rtc)
  else (-EINVAL, ⟨0, 0⟩, rtc)

/-- The number in two decimal digits. -/
def toBcd (n : ℕ) : BitVec 8 := BitVec.ofNat 8 (n / 10 * 16 + n % 10)

/-- The clock holds the date and time. -/
structure RTC.Holds (rtc : RTC) (d : DateTime) : Prop where
  second : rtc.regs 0x00 = toBcd d.second
  minute : rtc.regs 0x02 = toBcd d.minute
  hour : rtc.regs 0x04 = toBcd d.hour
  day : rtc.regs 0x07 = toBcd d.day
  month : rtc.regs 0x08 = toBcd d.month
  year : rtc.regs 0x09 = toBcd (d.year % 100)
  century : rtc.regs 0x32 = toBcd (d.year / 100)

/-- The months of a `struct tm` are counted from 0, and its years from 1900. -/
def Tm.of (d : DateTime) : Tm where
  tm_sec := BitVec.ofNat 32 d.second
  tm_min := BitVec.ofNat 32 d.minute
  tm_hour := BitVec.ofNat 32 d.hour
  tm_mday := BitVec.ofNat 32 d.day
  tm_mon := BitVec.ofNat 32 (d.month - 1)
  tm_year := BitVec.ofNat 32 d.year - 1900

/-- What is known of `__tm_to_secs`: the Unix time of a date, and that days behind the end of a month and
a month behind the end of a year are taken as those of the next one. -/
structure TmToSecs (toSecs : Tm → BitVec 64) : Prop where
  date : ∀ d : DateTime, d.Valid → d.year < 2 ^ 31 → (toSecs (Tm.of d)).toInt = d.unix
  days : ∀ (t : Tm) (n : ℕ), t.tm_mday.toNat + n ≤ 31 →
    (toSecs { t with tm_mday := t.tm_mday + BitVec.ofNat 32 n }).toInt = (toSecs t).toInt + 86400 * n
  months : ∀ t : Tm, t.tm_mon = 12 → t.tm_year.toInt + 1 < 2 ^ 31 →
    toSecs t = toSecs { t with tm_mon := 0, tm_year := t.tm_year + 1 }

/-- The call returns 0 and stores the Unix time, and nanoseconds below one second. -/
def ClockLaw (w : ℕ) (toSecs : Tm → BitVec 64) (rtc : RTC) (d : DateTime) : Prop :=
  let (res, tp, _) := syscall_clock_gettime w toSecs CLOCK_REALTIME rtc
  res = 0 ∧ tp.tv_sec.toInt = d.unix ∧ 0 ≤ tp.tv_nsec.toInt ∧ tp.tv_nsec.toInt ≤ 999999999

section Time
variable {w : ℕ} {toSecs : Tm → BitVec 64} {rtc : RTC} {d : DateTime}

theorem bcd_toBcd : ∀ n < 100, bcd (toBcd n) = BitVec.ofNat 8 n := by decide

theorem year_eq {year : ℕ} (h : year < 10000) :
    (BitVec.ofNat 8 (year % 100)).setWidth 32 + (BitVec.ofNat 8 (year / 100)).setWidth 32 * (100 : Word) =
      BitVec.ofNat 32 year := by
  have hlow : year % 100 < 2 ^ 8 := by omega
  have hhigh : year / 100 < 2 ^ 8 := by omega
  rw [BitVec.setWidth_ofNat_of_le_of_lt (by decide) hlow, BitVec.setWidth_ofNat_of_le_of_lt (by decide) hhigh]
  have hhundred : (100 : Word) = BitVec.ofNat 32 100 := rfl
  rw [hhundred, ← BitVec.ofNat_mul, ← BitVec.ofNat_add, Nat.mul_comm, Nat.mod_add_div]

theorem getTime_eq (h : rtc.Holds d) (hd : d.Valid) (hyear : d.year < 10000) :
    (RealtimeX86.getTime rtc).1 = ⟨BitVec.ofNat 8 d.second, BitVec.ofNat 8 d.minute, BitVec.ofNat 8 d.hour,
      BitVec.ofNat 8 d.day, BitVec.ofNat 8 d.month, BitVec.ofNat 32 d.year⟩ := by
  have hlen := daysInMonth_le d.year d.month
  obtain ⟨hmonth, hday, hhour, hminute, hsecond⟩ := hd
  have hget : (RealtimeX86.getTime rtc).1 = ⟨bcd (rtc.regs 0x00), bcd (rtc.regs 0x02), bcd (rtc.regs 0x04),
      bcd (rtc.regs 0x07), bcd (rtc.regs 0x08),
      (bcd (rtc.regs 0x09)).setWidth 32 + (bcd (rtc.regs 0x32)).setWidth 32 * 100⟩ := rfl
  rw [hget, h.second, h.minute, h.hour, h.day, h.month, h.year, h.century, bcd_toBcd _ (by omega),
    bcd_toBcd _ (by omega), bcd_toBcd _ (by omega), bcd_toBcd _ (by omega), bcd_toBcd _ (by omega),
    bcd_toBcd _ (by omega), bcd_toBcd _ (by omega), year_eq hyear]

/-- The first day of the month behind that of the date. -/
def nextMonth (d : DateTime) : DateTime :=
  if d.month = 12 then { d with year := d.year + 1, month := 1, day := 1 }
  else { d with month := d.month + 1, day := 1 }

theorem nextMonth_valid (hd : d.Valid) : (nextMonth d).Valid := by
  obtain ⟨hmonth, hday, hhour, hminute, hsecond⟩ := hd
  unfold nextMonth
  split_ifs with hlast
  · exact ⟨⟨Nat.le_refl 1, Nat.le_add_left 1 11⟩, ⟨Nat.le_refl 1, daysInMonth_pos _ _⟩, hhour, hminute, hsecond⟩
  · have hlt : d.month < 12 := Nat.lt_of_le_of_ne hmonth.2 hlast
    exact ⟨⟨Nat.le_add_left 1 _, hlt⟩, ⟨Nat.le_refl 1, daysInMonth_pos _ _⟩, hhour, hminute, hsecond⟩

theorem nextMonth_unix (hd : d.Valid) :
    (nextMonth d).unix + 86400 * (d.day - 1 : ℕ) = d.unix + 86400 * daysInMonth d.year d.month := by
  have hdays : (nextMonth d).days + (d.day - 1) = d.days + daysInMonth d.year d.month := by
    have hsucc := daysBeforeMonth_succ d.year d.month hd.month.1
    unfold nextMonth DateTime.days
    split_ifs with hlast
    · rw [hlast] at hsucc ⊢
      dsimp only
      rw [daysBeforeYear_succ, daysBeforeMonth_one, hsucc]
      omega
    · dsimp only
      rw [hsucc]
      omega
  have hseconds : (nextMonth d).seconds = d.seconds := by
    unfold nextMonth
    split_ifs
    · rfl
    · rfl
  unfold DateTime.unix
  rw [hseconds]
  omega

/-- The structure that is passed to `__tm_to_secs`, whose months are counted from 1. -/
def passed (d : DateTime) : Tm := { Tm.of d with tm_mon := BitVec.ofNat 32 d.month }

theorem passed_year_lt (hyear : d.year < 10000) : (passed d).tm_year.toInt + 1 < 2 ^ 31 := by
  have hval : (1900 : Word).toNat = 1900 := rfl
  have hsub : (passed d).tm_year = BitVec.ofNat 32 d.year - 1900 := rfl
  rw [hsub, BitVec.toInt_eq_toNat_cond, BitVec.toNat_sub, BitVec.toNat_ofNat, hval]
  omega

theorem toSecs_passed_eq (htm : TmToSecs toSecs) (hd : d.Valid) (hyear : d.year < 10000) :
    toSecs (passed d) =
      toSecs { Tm.of (nextMonth d) with tm_mday := (1 : Word) + BitVec.ofNat 32 (d.day - 1) } := by
  have hday : BitVec.ofNat 32 d.day = (1 : Word) + BitVec.ofNat 32 (d.day - 1) := by
    have hone : (1 : Word) = BitVec.ofNat 32 1 := rfl
    rw [hone, ← BitVec.ofNat_add, Nat.add_sub_cancel' hd.day.1]
  unfold nextMonth
  split_ifs with hlast
  · have hmon : (passed d).tm_mon = 12 := congrArg (BitVec.ofNat 32) hlast
    have hnext : BitVec.ofNat 32 d.year - 1900 + 1 = BitVec.ofNat 32 (d.year + 1) - (1900 : Word) := by
      rw [BitVec.ofNat_add]
      bv_omega
    rw [htm.months _ hmon (passed_year_lt hyear)]
    dsimp only [passed, Tm.of]
    rw [hday, hnext]
    rfl
  · dsimp only [passed, Tm.of]
    rw [hday]
    rfl

theorem toSecs_passed (htm : TmToSecs toSecs) (hd : d.Valid) (hyear : d.year < 10000) :
    (toSecs (passed d)).toInt = d.unix + 86400 * daysInMonth d.year d.month := by
  have hlen := daysInMonth_le d.year d.month
  obtain ⟨hday, hday'⟩ := hd.day
  have hyear' : (nextMonth d).year < 2 ^ 31 := by
    unfold nextMonth
    split_ifs
    · dsimp only
      omega
    · dsimp only
      omega
  have hone : (Tm.of (nextMonth d)).tm_mday = 1 := by
    unfold nextMonth
    split_ifs
    · rfl
    · rfl
  have hcarry := htm.days (Tm.of (nextMonth d)) (d.day - 1) (by
    have hval : (1 : Word).toNat = 1 := rfl
    rw [hone, hval]
    omega)
  rw [hone] at hcarry
  rw [toSecs_passed_eq htm hd hyear, hcarry, htm.date _ (nextMonth_valid hd) hyear', ← nextMonth_unix hd]

theorem clock_gettime_eq (w : ℕ) (toSecs : Tm → BitVec 64) (h : rtc.Holds d) (hd : d.Valid)
    (hyear : d.year < 10000) :
    (syscall_clock_gettime w toSecs CLOCK_REALTIME rtc).2.1.tv_sec = (toSecs (passed d)).signExtend w := by
  have hget := getTime_eq h hd hyear
  have hlen := daysInMonth_le d.year d.month
  obtain ⟨hmonth, hday, hhour, hminute, hsecond⟩ := hd
  have hwide : ∀ n < 60, (BitVec.ofNat 8 n).setWidth 32 = BitVec.ofNat 32 n := fun n hn =>
    BitVec.setWidth_ofNat_of_le_of_lt (by decide) (Nat.lt_trans hn (by decide))
  have hcall : (syscall_clock_gettime w toSecs CLOCK_REALTIME rtc).2.1.tv_sec =
      let time := (RealtimeX86.getTime rtc).1
      (toSecs ⟨time.seconds.setWidth 32, time.minutes.setWidth 32, time.hours.setWidth 32, time.day.setWidth 32,
        time.month.setWidth 32, time.year - 1900⟩).signExtend w := rfl
  rw [hcall, hget]
  dsimp only
  rw [hwide _ hsecond, hwide _ hminute, hwide _ (by omega), hwide _ (by omega), hwide _ (by omega)]
  rfl

/-- A clock that is ahead by some days of a month does not show the right time, in 32 bits or more. -/
theorem bmod_ahead_ne {n days : ℕ} (hn : 32 ≤ n) (hpos : 0 < days) (hdays : days ≤ 31) (u : ℤ) :
    (u + 86400 * days).bmod (2 ^ n) ≠ u := by
  intro heq
  have hmod : u % (2 ^ n : ℕ) = (u + 86400 * days) % (2 ^ n : ℕ) := by
    rw [← Int.bmod_emod (x := u + 86400 * days), heq]
  have hdvd : ((2 ^ n : ℕ) : ℤ) ∣ 86400 * days := by
    have hzero := Int.emod_eq_emod_iff_emod_sub_eq_zero.mp hmod.symm
    have hdiff : u + 86400 * (days : ℤ) - u = 86400 * days := by omega
    rw [hdiff] at hzero
    exact Int.dvd_of_emod_eq_zero hzero
  have hle := Int.le_of_dvd (by omega) hdvd
  have hpow : 2 ^ 32 ≤ 2 ^ n := Nat.pow_le_pow_right (by decide) hn
  omega

theorem tv_sec_toInt (htm : TmToSecs toSecs) (h : rtc.Holds d) (hd : d.Valid) (hyear : d.year < 10000) :
    (syscall_clock_gettime w toSecs CLOCK_REALTIME rtc).2.1.tv_sec.toInt =
      (d.unix + 86400 * daysInMonth d.year d.month).bmod (2 ^ min w 64) := by
  rw [clock_gettime_eq w toSecs h hd hyear, BitVec.toInt_signExtend, toSecs_passed htm hd hyear]

/-- `__tm_to_secs`, on the years from 0 on. -/
def tmSeconds (t : Tm) : ℤ :=
  let year := (1900 + t.tm_year.toInt + t.tm_mon.toInt / 12).toNat
  let month := (t.tm_mon.toInt % 12).toNat + 1
  86400 * (daysBeforeYear year + daysBeforeMonth year month + (t.tm_mday.toInt - 1) - daysBeforeYear 1970) +
    3600 * t.tm_hour.toInt + 60 * t.tm_min.toInt + t.tm_sec.toInt

def tmToSecs (t : Tm) : BitVec 64 := BitVec.ofInt 64 (tmSeconds t)

theorem toInt_tmToSecs (t : Tm) : (tmToSecs t).toInt = tmSeconds t := by
  have hbound (x : Word) : -2 ^ 31 ≤ x.toInt ∧ x.toInt < 2 ^ 31 := ⟨BitVec.le_toInt x, BitVec.toInt_lt⟩
  obtain ⟨hsec, hsec'⟩ := hbound t.tm_sec
  obtain ⟨hmin, hmin'⟩ := hbound t.tm_min
  obtain ⟨hhour, hhour'⟩ := hbound t.tm_hour
  obtain ⟨hday, hday'⟩ := hbound t.tm_mday
  obtain ⟨hmon, hmon'⟩ := hbound t.tm_mon
  obtain ⟨hyear, hyear'⟩ := hbound t.tm_year
  have hyears := daysBeforeYear_le (1900 + t.tm_year.toInt + t.tm_mon.toInt / 12).toNat
  have hmonths := daysBeforeMonth_le (1900 + t.tm_year.toInt + t.tm_mon.toInt / 12).toNat
    ((t.tm_mon.toInt % 12).toNat + 1)
  have hepoch := daysBeforeYear_le 1970
  have hle : -2 ^ 63 ≤ tmSeconds t ∧ tmSeconds t < 2 ^ 63 := by
    unfold tmSeconds
    dsimp only
    omega
  exact BitVec.toInt_ofInt_eq_self (by decide) hle.1 hle.2

theorem toInt_small {n : ℕ} (h : n < 2 ^ 31) : (BitVec.ofNat 32 n).toInt = n := by
  rw [BitVec.toInt_eq_toNat_of_lt, BitVec.toNat_ofNat, Nat.mod_eq_of_lt (by omega)]
  rw [BitVec.toNat_ofNat, Nat.mod_eq_of_lt (by omega)]
  omega

theorem toInt_year {year : ℕ} (h : year < 2 ^ 31) : (BitVec.ofNat 32 year - (1900 : Word)).toInt = year - 1900 := by
  have hval : (1900 : Word).toNat = 1900 := rfl
  rw [BitVec.toInt_eq_toNat_cond, BitVec.toNat_sub, BitVec.toNat_ofNat, hval]
  omega

theorem tmSeconds_of (hd : d.Valid) (hyear : d.year < 2 ^ 31) : tmSeconds (Tm.of d) = d.unix := by
  have hlen := daysInMonth_le d.year d.month
  obtain ⟨hmonth, hday, hhour, hminute, hsecond⟩ := hd
  have hyear' : (1900 + ((d.year : ℤ) - 1900) + ((d.month - 1 : ℕ) : ℤ) / 12).toNat = d.year := by omega
  have hmonth' : (((d.month - 1 : ℕ) : ℤ) % 12).toNat + 1 = d.month := by omega
  unfold tmSeconds
  dsimp only [Tm.of]
  rw [toInt_small (by omega), toInt_small (by omega), toInt_small (by omega), toInt_small (by omega),
    toInt_small (by omega), toInt_year hyear, hyear', hmonth']
  unfold DateTime.unix DateTime.days DateTime.seconds
  omega

theorem tmSeconds_addDays (t : Tm) {n : ℕ} (hn : t.tm_mday.toNat + n ≤ 31) :
    tmSeconds { t with tm_mday := t.tm_mday + BitVec.ofNat 32 n } = tmSeconds t + 86400 * n := by
  have hday : (t.tm_mday + BitVec.ofNat 32 n).toInt = t.tm_mday.toInt + n := by
    rw [BitVec.toInt_eq_toNat_of_lt, BitVec.toInt_eq_toNat_of_lt, BitVec.toNat_add, BitVec.toNat_ofNat]
    · omega
    · omega
    · rw [BitVec.toNat_add, BitVec.toNat_ofNat]
      omega
  unfold tmSeconds
  dsimp only
  rw [hday]
  omega

theorem tmSeconds_nextYear (t : Tm) (hmon : t.tm_mon = 12) (hyear : t.tm_year.toInt + 1 < 2 ^ 31) :
    tmSeconds t = tmSeconds { t with tm_mon := 0, tm_year := t.tm_year + 1 } := by
  have htwelve : (12 : Word).toInt = 12 := rfl
  have hzero : (0 : Word).toInt = 0 := rfl
  have hnext : (t.tm_year + 1).toInt = t.tm_year.toInt + 1 := by
    have hone : (1 : Word).toNat = 1 := rfl
    rw [BitVec.toInt_eq_toNat_cond] at hyear
    rw [BitVec.toInt_eq_toNat_cond, BitVec.toInt_eq_toNat_cond, BitVec.toNat_add, hone]
    omega
  have hyear' : 1900 + t.tm_year.toInt + 12 / 12 = 1900 + (t.tm_year.toInt + 1) + 0 / 12 := by omega
  unfold tmSeconds
  dsimp only
  rw [hmon, hnext, htwelve, hzero, hyear']
  rfl

theorem tmToSecs_spec : TmToSecs tmToSecs := by
  refine ⟨fun d hd hyear => ?_, fun t n hn => ?_, fun t hmon hyear => ?_⟩
  · rw [toInt_tmToSecs, tmSeconds_of hd hyear]
  · rw [toInt_tmToSecs, toInt_tmToSecs, tmSeconds_addDays t hn]
  · rw [tmToSecs, tmToSecs, tmSeconds_nextYear t hmon hyear]

/-- 12:34:56 on 29 February 2020. -/
def leapDay : DateTime := ⟨2020, 2, 29, 12, 34, 56⟩

def leapClock : RTC where
  index := 0
  regs reg := match reg with
    | 0x00 => 0x56
    | 0x02 => 0x34
    | 0x04 => 0x12
    | 0x07 => 0x29
    | 0x08 => 0x02
    | 0x09 => 0x20
    | 0x32 => 0x20
    | _ => 0

theorem leapDay_valid : leapDay.Valid :=
  ⟨by decide, by decide, by decide, by decide, by decide⟩

theorem leapClock_holds : leapClock.Holds leapDay := ⟨rfl, rfl, rfl, rfl, rfl, rfl, rfl⟩

/-- The month is counted from 1 where `__tm_to_secs` counts from 0, so that no date is right. -/
theorem not_clockLaw (hw : 32 ≤ w) (htm : TmToSecs toSecs) (h : rtc.Holds d) (hd : d.Valid)
    (hyear : d.year < 10000) : ¬ ClockLaw w toSecs rtc d := by
  rintro ⟨-, hsec, -⟩
  have hmin : 32 ≤ min w 64 := Nat.le_min.mpr ⟨hw, by decide⟩
  have hahead := tv_sec_toInt (w := w) htm h hd hyear
  exact bmod_ahead_ne hmin (daysInMonth_pos _ _) (daysInMonth_le _ _) _ (hahead.symm.trans hsec)

theorem not_clockLaw_leapDay : ¬ ClockLaw 64 tmToSecs leapClock leapDay :=
  not_clockLaw (by decide) tmToSecs_spec leapClock_holds leapDay_valid (by decide)

/-- The clock is 29 days ahead there. -/
theorem clockLaw_false_leapDay : ¬ ClockLaw 64 tmToSecs leapClock leapDay := by
  rintro ⟨-, hsec, -⟩
  have hahead := tv_sec_toInt (w := 64) tmToSecs_spec leapClock_holds leapDay_valid (by decide)
  exact bmod_ahead_ne (by decide) (daysInMonth_pos 2020 2) (daysInMonth_le 2020 2) _ (hahead.symm.trans hsec)

end Time

end CxxKernel.Devices
