import Mathlib.Data.UInt
import Mathlib.Data.List.Pairwise
import Mathlib.Tactic.Ring

namespace YabroOS.Time

def pitTickNs : ℕ := 10000000

def uint64Max : ℕ := 2 ^ 64 - 1

structure Clock where
  timerTicksGlobal : UInt64
  timerTickTsc : UInt64
  monotonicBootTsc : UInt64
  monotonicTscHz : UInt64
  monotonicReady : Bool
  deriving DecidableEq

/-- The result of an operation on unsigned numbers of `w` bits that must not overflow. -/
def fits (w n : ℕ) : Option ℕ := if n < 2 ^ w then some n else none

namespace Clock

def boot : Clock := ⟨0, 0, 0, 1000000000, false⟩

def monotonicInit (c : Clock) (hz tsc : UInt64) : Clock :=
  { c with monotonicTscHz := hz, monotonicBootTsc := tsc, monotonicReady := true }

def tick (c : Clock) (tsc : UInt64) : Clock :=
  { c with timerTicksGlobal := c.timerTicksGlobal + 1, timerTickTsc := tsc }

def baseTsc (c : Clock) : UInt64 :=
  if c.timerTicksGlobal ≠ 0 then c.timerTickTsc else c.monotonicBootTsc

def hz (c : Clock) : ℕ := if c.monotonicTscHz ≠ 0 then c.monotonicTscHz.toNat else 1000000000

/-- What `kernel_monotonic_ns` adds to the ticks; it fails if the arithmetic overflows. -/
def fractionNs (c : Clock) (now : UInt64) : Option ℕ :=
  if c.baseTsc ≠ 0 ∧ c.baseTsc ≤ now then do
    let delta := now.toNat - c.baseTsc.toNat
    let product ← fits 128 (delta * 1000000000)
    let estimate := product / c.hz
    some (if pitTickNs ≤ estimate then pitTickNs - 1 else estimate)
  else some 0

/-- `kernel_monotonic_ns` of a clock that is ready; it fails if a multiplication or an addition
overflows, or a subtraction would be negative. -/
def kernelMonotonicNs (c : Clock) (now : UInt64) : Option ℕ :=
  if uint64Max / pitTickNs < c.timerTicksGlobal.toNat then some uint64Max
  else do
    let base ← fits 64 (c.timerTicksGlobal.toNat * pitTickNs)
    let fraction ← c.fractionNs now
    if uint64Max - base < fraction then some uint64Max else fits 64 (base + fraction)

end Clock

/-- What happens to the clock: a tick of the timer, or a read, at a time stamp. -/
inductive ClockEvent
  | tick (tsc : UInt64)
  | read (tsc : UInt64)
  deriving DecidableEq

namespace ClockEvent

def tsc : ClockEvent → UInt64
  | tick tsc => tsc
  | read tsc => tsc

def ticks : ClockEvent → ℕ
  | tick _ => 1
  | read _ => 0

end ClockEvent

/-- What a read returns, and how many ticks there were before it. -/
structure Reading where
  ticks : ℕ
  value : Option ℕ
  deriving DecidableEq

namespace Clock

def readings (c : Clock) (ticks : ℕ) : List ClockEvent → List Reading
  | [] => []
  | .tick tsc :: l => readings (c.tick tsc) (ticks + 1) l
  | .read tsc :: l => ⟨ticks, c.kernelMonotonicNs tsc⟩ :: readings c ticks l

def fraction (c : Clock) (now : UInt64) : ℕ :=
  if c.baseTsc ≠ 0 ∧ c.baseTsc ≤ now then
    min ((now.toNat - c.baseTsc.toNat) * 1000000000 / c.hz) (pitTickNs - 1) else 0

def value (c : Clock) (now : UInt64) : ℕ :=
  min (c.timerTicksGlobal.toNat * pitTickNs + c.fraction now) uint64Max

variable {c : Clock} {now now' : UInt64} {n : ℕ} {l : List ClockEvent} {r : Reading}

theorem uint64Max_lt : uint64Max < 2 ^ 64 := Nat.sub_lt (Nat.two_pow_pos 64) Nat.one_pos

theorem fractionNs_eq (c : Clock) (now : UInt64) : c.fractionNs now = some (c.fraction now) := by
  have hnow := UInt64.toNat_lt now
  have hdelta : (now.toNat - c.baseTsc.toNat) * 1000000000 < 2 ^ 128 := by omega
  unfold fractionNs fraction
  by_cases hb : c.baseTsc ≠ 0 ∧ c.baseTsc ≤ now
  · simp only [if_pos hb, fits, if_pos hdelta, Option.bind_eq_bind, Option.bind_some]
    generalize (now.toNat - c.baseTsc.toNat) * 1000000000 / c.hz = q
    by_cases hq : pitTickNs ≤ q
    · rw [if_pos hq, min_eq_right ((Nat.sub_le _ _).trans hq)]
    · rw [if_neg hq, min_eq_left (Nat.le_sub_one_of_lt (not_le.1 hq))]
  · rw [if_neg hb, if_neg hb]

theorem fraction_lt (c : Clock) (now : UInt64) : c.fraction now < pitTickNs := by
  unfold fraction
  split_ifs
  · exact lt_of_le_of_lt (min_le_right _ _) (by decide)
  · decide

theorem fraction_mono (h : now ≤ now') : c.fraction now ≤ c.fraction now' := by
  unfold fraction
  by_cases hb : c.baseTsc ≠ 0 ∧ c.baseTsc ≤ now
  · rw [if_pos hb, if_pos ⟨hb.1, UInt64.le_trans hb.2 h⟩]
    have hle : now.toNat ≤ now'.toNat := h
    have hquot : (now.toNat - c.baseTsc.toNat) * 1000000000 / c.hz ≤
        (now'.toNat - c.baseTsc.toNat) * 1000000000 / c.hz :=
      Nat.div_le_div_right (Nat.mul_le_mul_right _ (Nat.sub_le_sub_right hle _))
    exact min_le_min_right _ hquot
  · rw [if_neg hb]
    exact Nat.zero_le _

theorem kernelMonotonicNs_eq (c : Clock) (now : UInt64) :
    c.kernelMonotonicNs now = some (c.value now) := by
  have hfraction := c.fraction_lt now
  unfold kernelMonotonicNs value
  rw [fractionNs_eq]
  generalize c.timerTicksGlobal.toNat = ticks
  generalize c.fraction now = fraction at hfraction ⊢
  by_cases hsat : uint64Max / pitTickNs < ticks
  · have hmul : uint64Max < ticks * pitTickNs := (Nat.div_lt_iff_lt_mul (by decide)).1 hsat
    rw [if_pos hsat, min_eq_right (hmul.le.trans (Nat.le_add_right _ _))]
  · have hmul : ticks * pitTickNs ≤ uint64Max :=
      (Nat.le_div_iff_mul_le (by decide)).1 (not_lt.1 hsat)
    have hbase : ticks * pitTickNs < 2 ^ 64 := lt_of_le_of_lt hmul uint64Max_lt
    have hfits : fits 64 (ticks * pitTickNs) = some (ticks * pitTickNs) := if_pos hbase
    rw [if_neg hsat, hfits, Option.bind_eq_bind, Option.bind_some, Option.bind_some]
    generalize ticks * pitTickNs = base at hmul
    by_cases htop : uint64Max - base < fraction
    · rw [if_pos htop, min_eq_right (by omega)]
    · have hle : base + fraction ≤ uint64Max := by omega
      rw [if_neg htop, fits, if_pos (lt_of_le_of_lt hle uint64Max_lt), min_eq_left hle]

theorem value_mono (h : now ≤ now') : c.value now ≤ c.value now' :=
  min_le_min_right _ (Nat.add_le_add_left (fraction_mono h) _)

/-- In what range a read is that comes after `n` ticks. -/
def InTick (n : ℕ) (v : ℕ) : Prop :=
  v = uint64Max ∨ n * pitTickNs ≤ v ∧ v ≤ n * pitTickNs + (pitTickNs - 1)

theorem value_inTick (c : Clock) (now : UInt64) :
    InTick c.timerTicksGlobal.toNat (c.value now) := by
  have hfraction := c.fraction_lt now
  simp only [InTick, value]
  omega

theorem tick_ticks (tsc : UInt64) (h : c.timerTicksGlobal.toNat + 1 ≤ uint64Max) :
    (c.tick tsc).timerTicksGlobal.toNat = c.timerTicksGlobal.toNat + 1 := by
  have hone : (1 : UInt64).toNat = 1 := rfl
  rw [tick, UInt64.toNat_add, hone, Nat.mod_eq_of_lt (lt_of_le_of_lt h uint64Max_lt)]

theorem readings_spec (hn : n = c.timerTicksGlobal.toNat)
    (hl : n + (l.map ClockEvent.ticks).sum ≤ uint64Max) (h : r ∈ c.readings n l) :
    n ≤ r.ticks ∧ ∃ v, r.value = some v ∧ InTick r.ticks v := by
  induction l generalizing c n with
  | nil => cases h
  | cons e l ih =>
    simp only [List.map_cons, List.sum_cons] at hl
    cases e with
    | tick tsc =>
      simp only [ClockEvent.ticks] at hl
      obtain ⟨hle, hr⟩ := ih (by rw [tick_ticks tsc (by omega), hn]) (by omega) h
      exact ⟨(Nat.le_succ n).trans hle, hr⟩
    | read tsc =>
      simp only [ClockEvent.ticks] at hl
      rcases List.mem_cons.1 h with rfl | h
      · exact ⟨le_rfl, _, kernelMonotonicNs_eq c tsc, hn ▸ value_inTick c tsc⟩
      · exact ih hn (by omega) h

theorem readings_ge (hn : n = c.timerTicksGlobal.toNat)
    (hl : n + (l.map ClockEvent.ticks).sum ≤ uint64Max) (htsc : ∀ e ∈ l, now ≤ e.tsc)
    (h : r ∈ c.readings n l) : ∃ v, r.value = some v ∧ c.value now ≤ v := by
  induction l generalizing c n with
  | nil => cases h
  | cons e l ih =>
    simp only [List.map_cons, List.sum_cons] at hl
    cases e with
    | tick tsc =>
      simp only [ClockEvent.ticks] at hl
      have hn' : n + 1 = (c.tick tsc).timerTicksGlobal.toNat := by rw [tick_ticks tsc (by omega), hn]
      obtain ⟨hle, v, hv, hin⟩ := readings_spec hn' (by omega) h
      refine ⟨v, hv, ?_⟩
      have hfraction := c.fraction_lt now
      simp only [value, ← hn]
      rcases hin with rfl | ⟨hlow, -⟩
      · exact min_le_right _ _
      · have hmul : (n + 1) * pitTickNs ≤ r.ticks * pitTickNs := Nat.mul_le_mul_right _ hle
        rw [Nat.succ_mul] at hmul
        have hsum : n * pitTickNs + c.fraction now ≤ n * pitTickNs + pitTickNs :=
          Nat.add_le_add_left hfraction.le _
        exact (min_le_left _ _).trans ((hsum.trans hmul).trans hlow)
    | read tsc =>
      simp only [ClockEvent.ticks] at hl
      rcases List.mem_cons.1 h with rfl | h
      · exact ⟨_, kernelMonotonicNs_eq c tsc, value_mono (htsc _ (.head _))⟩
      · exact ih hn (by omega) (fun e he ↦ htsc e (.tail _ he)) h

theorem readings_pairwise (hn : n = c.timerTicksGlobal.toNat)
    (hl : n + (l.map ClockEvent.ticks).sum ≤ uint64Max)
    (htsc : (l.map ClockEvent.tsc).Pairwise (· ≤ ·)) :
    (c.readings n l).Pairwise fun r r' ↦ ∃ v v', r.value = some v ∧ r'.value = some v' ∧ v ≤ v' := by
  induction l generalizing c n with
  | nil => exact .nil
  | cons e l ih =>
    simp only [List.map_cons, List.sum_cons] at hl
    obtain ⟨hhead, htail⟩ := List.pairwise_cons.1 htsc
    cases e with
    | tick tsc =>
      simp only [ClockEvent.ticks] at hl
      rw [readings]
      exact ih (by rw [tick_ticks tsc (by omega), hn]) (by omega) htail
    | read tsc =>
      simp only [ClockEvent.ticks] at hl
      rw [readings]
      refine List.pairwise_cons.2 ⟨fun r hr ↦ ?_, ih hn (by omega) htail⟩
      have hafter : ∀ e ∈ l, tsc ≤ e.tsc := fun e he ↦ hhead _ (List.mem_map_of_mem he)
      obtain ⟨v, hv, hle⟩ := readings_ge hn (by omega) hafter hr
      exact ⟨_, v, kernelMonotonicNs_eq c tsc, hv, hle⟩

/-- Every number of ticks before `monotonic_init`, every frequency and every run of ticks and reads
that keeps the number of ticks below 2^64: the reads do not overflow, never decrease, and each is in
its tick or saturated. -/
theorem monotonic_clock (c : Clock) (hz tsc : UInt64) (l : List ClockEvent)
    (htsc : (l.map ClockEvent.tsc).Pairwise (· ≤ ·))
    (hl : c.timerTicksGlobal.toNat + (l.map ClockEvent.ticks).sum ≤ uint64Max) :
    ((c.monotonicInit hz tsc).readings c.timerTicksGlobal.toNat l).Pairwise
      (fun r r' ↦ ∃ v v', r.value = some v ∧ r'.value = some v' ∧ v ≤ v') ∧
    ∀ r ∈ (c.monotonicInit hz tsc).readings c.timerTicksGlobal.toNat l, ∃ v, r.value = some v ∧
      InTick r.ticks v := by
  have hn : c.timerTicksGlobal.toNat = (c.monotonicInit hz tsc).timerTicksGlobal.toNat := rfl
  exact ⟨readings_pairwise hn hl htsc, fun _ hr ↦ (readings_spec hn hl hr).2⟩

theorem monotonic_clock_two_reads :
    (((boot.monotonicInit 1000000000 5).readings 0 [.read 10, .tick 15, .read 20]).Pairwise
      (fun r r' ↦ ∃ v v', r.value = some v ∧ r'.value = some v' ∧ v ≤ v')) ∧
    ∀ r ∈ (boot.monotonicInit 1000000000 5).readings 0 [.read 10, .tick 15, .read 20],
      ∃ v, r.value = some v ∧ InTick r.ticks v :=
  monotonic_clock boot 1000000000 5 [.read 10, .tick 15, .read 20] (by decide) (by decide)

/-- The counter of the ticks wraps to zero, and the clock with it. -/
theorem not_monotonic_clock :
    ((Clock.mk (2 ^ 64 - 1) 1 0 0 false).monotonicInit 1000000000 2).readings (2 ^ 64 - 1)
    [.read 3, .tick 4, .read 5] =
      [⟨2 ^ 64 - 1, some uint64Max⟩, ⟨2 ^ 64, some 3⟩] ∧ ¬ InTick (2 ^ 64) 3 := by
  refine ⟨by decide +kernel, ?_⟩
  simp only [InTick, pitTickNs, uint64Max]
  omega

end Clock

end YabroOS.Time
