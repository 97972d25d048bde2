import YabroOS.Lib.Calendar

namespace YabroOS.Time

open Lib

/-- The registers of the clock chip. -/
structure Cmos where
  second : UInt8
  minute : UInt8
  hour : UInt8
  day : UInt8
  month : UInt8
  year : UInt8
  statusB : UInt8
  deriving DecidableEq

namespace Cmos

def binary (r : Cmos) : Bool := r.statusB &&& 4 != 0
def full (r : Cmos) : Bool := r.statusB &&& 2 != 0

def decimal (binary : Bool) (v : UInt8) : UInt8 :=
  if binary then v else (v &&& (15 : UInt8)) + (v >>> (4 : UInt8)) * 10

def decimalHour (binary : Bool) (v : UInt8) : UInt8 :=
  if binary then v
  else ((v &&& (0x0F : UInt8)) + ((v &&& (0x70 : UInt8)) >>> (4 : UInt8)) * 10) |||
    (v &&& (0x80 : UInt8))

def fullHour (full : Bool) (hour : UInt8) : UInt8 :=
  if full then hour
  else if hour &&& 0x80 ≠ 0 then ((hour &&& 0x7F) + 12) % 24
  else if hour = 12 then 0 else hour

def md : List ℕ := [31, 28, 31, 30, 31, 30, 31, 31, 30, 31, 30, 31]

def monthsLoop (y mon : ℕ) : Option ℕ :=
  (List.range' 1 (mon - 1)).foldlM
    (fun days m ↦ md[m - 1]?.map (days + · + if m = 2 ∧ Date.IsLeap y then 1 else 0)) 0

def yearsLoop (y : ℕ) : ℕ :=
  (List.range' 1970 (y - 1970)).foldl (fun days yy ↦ days + Date.yearDays yy) 0

/-- The seconds of `rtc_now`; the arithmetic on 64 bits is wrapped at its end. It fails where the
table of the months is left. -/
def rtcNow (r : Cmos) : Option ℕ := do
  let y := 2000 + (decimal r.binary r.year).toNat
  let months ← monthsLoop y (decimal r.binary r.month).toNat
  let days := yearsLoop y + months + (decimal r.binary r.day).toNat + (2 ^ 64 - 1)
  let hour := fullHour r.full (decimal r.binary r.hour)
  some ((days * 86400 + hour.toNat * 3600 + (decimal r.binary r.minute).toNat * 60 +
    (decimal r.binary r.second).toNat) % 2 ^ 64)

def getRtcTime (r : Cmos) (bufsize : ℕ) : Option (List UInt8) :=
  let second := decimal r.binary r.second
  let minute := decimal r.binary r.minute
  let hour := fullHour r.full (decimalHour r.binary r.hour)
  if 9 ≤ bufsize then
    some [48 + hour / 10, 48 + hour % 10, 58, 48 + minute / 10, 48 + minute % 10, 58,
      48 + second / 10, 48 + second % 10, 0]
  else none

end Cmos

/-- A time of a day in one of the years that the clock chip can keep. -/
structure DateTime where
  date : Date
  hour : ℕ
  minute : ℕ
  second : ℕ

structure DateTime.Valid (t : DateTime) : Prop where
  date : t.date.Valid
  year_ge : 2000 ≤ t.date.year
  year_le : t.date.year ≤ 2099
  hour : t.hour < 24
  minute : t.minute < 60
  second : t.second < 60

def DateTime.secondOfDay (t : DateTime) : ℕ := t.hour * 3600 + t.minute * 60 + t.second

/-- The seconds from the epoch to a time: those of the days that come before, and of the day. -/
def DateTime.IsUnix (t : DateTime) (sec : ℕ) : Prop :=
  ∃ days, Date.next^[days] Date.epoch = t.date ∧ sec = days * 86400 + t.secondOfDay

def clockText (sec : ℕ) : List UInt8 :=
  let digits (n : ℕ) : List UInt8 := [UInt8.ofNat (48 + n / 10), UInt8.ofNat (48 + n % 10)]
  digits (sec / 3600) ++ [58] ++ digits (sec / 60 % 60) ++ [58] ++ digits (sec % 60) ++ [0]

namespace Cmos

def encode (binary : Bool) (n : ℕ) : UInt8 :=
  UInt8.ofNat (if binary then n else n / 10 * 16 + n % 10)

def encodeHour (binary full : Bool) (h : ℕ) : UInt8 :=
  if full then encode binary h
  else encode binary (if h % 12 = 0 then 12 else h % 12) ||| if 12 ≤ h then 0x80 else 0

/-- The registers hold a date and a time. -/
structure Denotes (r : Cmos) (t : DateTime) : Prop where
  second : r.second = encode r.binary t.second
  minute : r.minute = encode r.binary t.minute
  hour : r.hour = encodeHour r.binary r.full t.hour
  day : r.day = encode r.binary t.date.day
  month : r.month = encode r.binary t.date.month
  year : r.year = encode r.binary (t.date.year - 2000)

variable {r : Cmos} {t : DateTime} {n : ℕ}

theorem decimal_encode (binary : Bool) (h : n < 100) :
    (decimal binary (encode binary n)).toNat = n := by
  have hall : ∀ b, ∀ n : Fin 100, (decimal b (encode b n)).toNat = n := by decide
  exact hall binary ⟨n, h⟩

theorem fullHour_decimal_iff (binary full : Bool) {h : ℕ} (hh : h < 24) :
    (fullHour full (decimal binary (encodeHour binary full h))).toNat = h ↔
      full = true ∨ h < 12 ∨ binary = true ∧ h ≠ 12 := by
  have hall : ∀ b f, ∀ h : Fin 24, (fullHour f (decimal b (encodeHour b f h))).toNat = h ↔
    f = true ∨ (h : ℕ) < 12 ∨ b = true ∧ (h : ℕ) ≠ 12 := by decide
  exact hall binary full ⟨h, hh⟩

theorem fullHour_decimalHour (binary full : Bool) {h : ℕ} (hh : h < 24)
    (hok : full = true ∨ h < 12 ∨ binary = true ∧ h ≠ 12) :
    (fullHour full (decimalHour binary (encodeHour binary full h))).toNat = h := by
  have hall : ∀ b f, ∀ h : Fin 24, (f = true ∨ (h : ℕ) < 12 ∨ b = true ∧ (h : ℕ) ≠ 12) →
    (fullHour f (decimalHour b (encodeHour b f h))).toNat = h := by decide
  exact hall binary full ⟨h, hh⟩ hok

theorem foldl_range' (f : ℕ → ℕ) (a n : ℕ) :
    (List.range' a n).foldl (fun s k ↦ s + f k) 0 = ∑ k ∈ Finset.Ico a (a + n), f k := by
  induction n with
  | zero => simp
  | succ n ih =>
    rw [List.range'_concat, List.foldl_append, ih, ← Nat.add_assoc,
      Finset.sum_Ico_succ_top (Nat.le_add_right a n)]
    simp

theorem yearsLoop_eq {y : ℕ} (h : 1970 ≤ y) : yearsLoop y = Date.beforeYear y := by
  have hloop := foldl_range' Date.yearDays 1970 (y - 1970)
  rwa [Nat.add_sub_of_le h] at hloop

theorem monthsLoop_eq (y : ℕ) {mon : ℕ} (h₁ : 1 ≤ mon) (h₂ : mon ≤ 12) :
    monthsLoop y mon = some (Date.beforeMonth y mon) := by
  induction mon, h₁ using Nat.le_induction with
  | base => rfl
  | succ m hm ih =>
    have hloop : monthsLoop y (m + 1) =
        (monthsLoop y m).bind fun days ↦
          md[m - 1]?.map (days + · + if m = 2 ∧ Date.IsLeap y then 1 else 0) := by
      have hsplit : List.range' 1 (m + 1 - 1) = List.range' 1 (m - 1) ++ [m] := by
        obtain ⟨k, rfl⟩ := Nat.exists_eq_add_of_le hm
        rw [show 1 + k + 1 - 1 = k + 1 by omega, show 1 + k - 1 = k by omega, List.range'_concat]
        simp
      rw [monthsLoop, hsplit, List.foldlM_append]
      simp only [List.foldlM_cons, List.foldlM_nil, bind_pure]
      rfl
    have hdays : md[m - 1]?.map (· + if m = 2 ∧ Date.IsLeap y then 1 else 0) =
        some (Date.monthDays y m) := by
      have hle : m ≤ 11 := Nat.le_of_succ_le_succ h₂
      clear ih hloop h₂
      by_cases hleap : Date.IsLeap y
      all_goals
        interval_cases m
        all_goals simp [md, Date.monthDays, hleap]
    rw [hloop, ih (Nat.le_of_succ_le h₂), Option.bind_some, Date.beforeMonth_succ hm]
    cases hmd : md[m - 1]? with
    | none => simp [hmd] at hdays
    | some v =>
      simp only [hmd, Option.map_some, Option.some.injEq] at hdays ⊢
      omega

theorem beforeYear_lt {y : ℕ} (h : y ≤ 2099) : Date.beforeYear (y + 1) < 2 ^ 20 := by
  have hyear : ∀ k ∈ Finset.Ico 1970 (y + 1), Date.yearDays k ≤ 366 := fun k _ ↦ by
    unfold Date.yearDays
    split_ifs <;> decide
  have hsum : Date.beforeYear (y + 1) ≤ _ := Finset.sum_le_card_nsmul _ _ _ hyear
  rw [Nat.card_Ico, Nat.nsmul_eq_mul] at hsum
  omega

theorem rtcNow_denotes (ht : t.Valid) (h : r.Denotes t) :
    r.rtcNow = some
      (t.date.dayNumber * 86400 + (fullHour r.full (decimal r.binary r.hour)).toNat * 3600 +
      t.minute * 60 + t.second) := by
  obtain ⟨⟨hm₁, hm₂, hd₁, hd₂⟩, hy₁, hy₂, hh, hmin, hsec⟩ := ht
  have hmonthDays : Date.monthDays t.date.year t.date.month ≤ 31 := by
    interval_cases t.date.month
    all_goals
      simp only [Date.monthDays]
      try split_ifs
      all_goals decide
  have hepoch : 1970 ≤ t.date.year := le_trans (by decide) hy₁
  have hyear : 2000 + (decimal r.binary r.year).toNat = t.date.year := by
    rw [h.year, decimal_encode _ (by omega)]
    omega
  have hmonth : (decimal r.binary r.month).toNat = t.date.month := by
    rw [h.month, decimal_encode _ (by omega)]
  have hday : (decimal r.binary r.day).toNat = t.date.day := by
    rw [h.day, decimal_encode _ (by omega)]
  have hminute : (decimal r.binary r.minute).toNat = t.minute := by
    rw [h.minute, decimal_encode _ (by omega)]
  have hsecond : (decimal r.binary r.second).toNat = t.second := by
    rw [h.second, decimal_encode _ (by omega)]
  have hnumber : t.date.dayNumber < 2 ^ 20 :=
    (Date.Valid.dayNumber_lt_year ⟨hm₁, hm₂, hd₁, hd₂⟩ (by omega)).trans (beforeYear_lt hy₂)
  have hhour : (fullHour r.full (decimal r.binary r.hour)).toNat < 256 := UInt8.toNat_lt _
  simp only [rtcNow, hyear, hmonth, hday, hminute, hsecond, monthsLoop_eq _ hm₁ hm₂,
    yearsLoop_eq hepoch, Option.bind_eq_bind,
    Option.bind_some]
  simp only [Date.dayNumber] at hnumber ⊢
  congr 1
  omega

theorem isUnix_iff (ht : t.Valid) {sec : ℕ} :
    t.IsUnix sec ↔ sec = t.date.dayNumber * 86400 + t.secondOfDay := by
  have hyear : 1970 ≤ t.date.year := le_trans (by decide) ht.year_ge
  simp only [DateTime.IsUnix, ht.date.iterate_next_iff hyear, exists_eq_left]

theorem digit {v : UInt8} (h : v.toNat = n) (hn : n < 100) :
    48 + v / 10 = UInt8.ofNat (48 + n / 10) ∧ 48 + v % 10 = UInt8.ofNat (48 + n % 10) := by
  obtain rfl : v = UInt8.ofNat n := by rw [← h, UInt8.ofNat_toNat]
  have hall : ∀ n : Fin 100, 48 + UInt8.ofNat n / 10 = UInt8.ofNat (48 + n / 10) ∧
    48 + UInt8.ofNat n % 10 = UInt8.ofNat (48 + n % 10) := by decide
  exact hall ⟨n, hn⟩

theorem getRtcTime_denotes (ht : t.Valid) (h : r.Denotes t) (hn : 9 ≤ n)
    (hok : r.full = true ∨ t.hour < 12 ∨ r.binary = true ∧ t.hour ≠ 12) :
    r.getRtcTime n = some (clockText t.secondOfDay) := by
  obtain ⟨-, -, -, hh, hmin, hsec⟩ := ht
  have hhour := fullHour_decimalHour r.binary r.full hh hok
  have hminute : (decimal r.binary r.minute).toNat = t.minute := by
    rw [h.minute, decimal_encode _ (by omega)]
  have hsecond : (decimal r.binary r.second).toNat = t.second := by
    rw [h.second, decimal_encode _ (by omega)]
  rw [← h.hour] at hhour
  have hH : t.secondOfDay / 3600 = t.hour := by
    simp only [DateTime.secondOfDay]
    omega
  have hM : t.secondOfDay / 60 % 60 = t.minute := by
    simp only [DateTime.secondOfDay]
    omega
  have hS : t.secondOfDay % 60 = t.second := by
    simp only [DateTime.secondOfDay]
    omega
  simp only [getRtcTime, if_pos hn, clockText, hH, hM, hS, (digit hhour (by omega)).1,
    (digit hhour (by omega)).2,
    (digit hminute (by omega)).1, (digit hminute (by omega)).2, (digit hsecond (by omega)).1,
    (digit hsecond (by omega)).2]
  rfl

/-- Every date and time and every mode: `rtc_now` is right, and `get_rtc_time` prints the same time
of day, exactly if the clock has twenty-four hours, or it is morning, or the hours are in binary and
it is not noon. -/
theorem rtcNow_exact_iff (r : Cmos) (t : DateTime) (ht : t.Valid) (h : r.Denotes t) (n : ℕ)
    (hn : 9 ≤ n) :
    (∃ sec, r.rtcNow = some sec ∧ t.IsUnix sec ∧ r.getRtcTime n = some (clockText (sec % 86400))) ↔
      r.full = true ∨ t.hour < 12 ∨ r.binary = true ∧ t.hour ≠ 12 := by
  have hhour := fullHour_decimal_iff r.binary r.full ht.hour
  rw [← h.hour] at hhour
  rw [← hhour, rtcNow_denotes ht h]
  constructor
  · rintro ⟨sec, hsec, hunix, -⟩
    rw [isUnix_iff ht, ← Option.some.inj hsec, DateTime.secondOfDay] at hunix
    omega
  · intro hok
    have hprint := getRtcTime_denotes ht h hn (hhour.1 hok)
    have hday : t.secondOfDay < 86400 := by
      obtain ⟨-, -, -, hh, hmin, hsec⟩ := ht
      simp only [DateTime.secondOfDay]
      omega
    have hsec : t.date.dayNumber * 86400 + (fullHour r.full (decimal r.binary r.hour)).toNat *
        3600 + t.minute * 60 + t.second = t.date.dayNumber * 86400 + t.secondOfDay := by
      rw [hok, DateTime.secondOfDay]
      omega
    refine ⟨_, rfl, (isUnix_iff ht).2 hsec, ?_⟩
    rw [hprint, hsec, Nat.mul_add_mod_self_right, Nat.mod_eq_of_lt hday]

/-- One o'clock in the afternoon of the first of January 2000, by a clock with twelve hours. -/
def onePm : Cmos := ⟨0, 0, 0x81, 1, 1, 0, 0⟩

def afternoon : DateTime := ⟨⟨2000, 1, 1⟩, 13, 0, 0⟩

theorem afternoon_valid : afternoon.Valid :=
  ⟨⟨by decide, by decide, by decide, by decide⟩, by decide, by decide, by decide, by decide,
    by decide⟩

theorem onePm_denotes : onePm.Denotes afternoon := ⟨rfl, rfl, rfl, rfl, rfl, rfl⟩

theorem rtcNow_exact_morning :
    ∃ sec, Cmos.rtcNow ⟨0, 0, 0x09, 1, 1, 0, 0⟩ = some sec ∧ DateTime.IsUnix ⟨⟨2000, 1, 1⟩, 9, 0, 0⟩
      sec ∧ Cmos.getRtcTime ⟨0, 0, 0x09, 1, 1, 0, 0⟩ 9 = some (clockText (sec % 86400)) :=
  (rtcNow_exact_iff ⟨0, 0, 0x09, 1, 1, 0, 0⟩ ⟨⟨2000, 1, 1⟩, 9, 0, 0⟩
    ⟨⟨by decide, by decide, by decide, by decide⟩, by decide, by decide, by decide, by decide,
      by decide⟩
    ⟨rfl, rfl, rfl, rfl, rfl, rfl⟩ 9 le_rfl).2 (.inr (.inl (by decide)))

/-- The hour is decoded as eighty-one. -/
theorem not_rtcNow_exact : afternoon.Valid ∧ onePm.Denotes afternoon ∧
    ¬ ∃ sec, onePm.rtcNow = some sec ∧ afternoon.IsUnix sec ∧
      onePm.getRtcTime 9 = some (clockText (sec % 86400)) := by
  refine ⟨afternoon_valid, onePm_denotes, ?_⟩
  rintro ⟨sec, hsec, hunix, -⟩
  rw [rtcNow_denotes afternoon_valid onePm_denotes] at hsec
  rw [isUnix_iff afternoon_valid, ← Option.some.inj hsec] at hunix
  revert hunix
  decide

end Cmos

end YabroOS.Time
