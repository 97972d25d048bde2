import YabroOS.Fd.Sockets
import Mathlib.Data.Set.Card
import Mathlib.Order.Interval.Set.Nat

namespace YabroOS

open Errno Function

structure Itimerspec where
  intervalSec : ℤ
  intervalNsec : ℤ
  valueSec : ℤ
  valueNsec : ℤ

namespace Itimerspec

variable (n : Itimerspec)

def valid : Bool :=
  ¬ (n.valueSec < 0 ∨ n.valueNsec < 0 ∨ n.valueNsec ≥ 1000000000 ∨ n.intervalSec < 0 ∨
  n.intervalNsec < 0 ∨ n.intervalNsec ≥ 1000000000)

def value : ℕ := n.valueSec.toNat * 1000000000 + n.valueNsec.toNat
def interval : ℕ := n.intervalSec.toNat * 1000000000 + n.intervalNsec.toNat

end Itimerspec

namespace TimerfdState

variable (st : TimerfdState)

/-- `sys_timerfd_settime` at a time of the clock, when the numbers have been copied. It computes in
64 bits. -/
def settime (n : Itimerspec) (now : ℕ) : TimerfdState × ℤ :=
  if n.valid = false then (st, -einval)
  else
    let value := n.value % 2 ^ 64
    ({ st with
      intervalNs := n.interval % 2 ^ 64
      expirations := 0
      nextNs := if value = 0 then 0 else (now + value) % 2 ^ 64 }, 0)

/-- A read at a time of the clock; none for `-EAGAIN`. -/
def read (now : ℕ) : TimerfdState × Option ℕ :=
  if (st.expire now).expirations = 0 then (st.expire now, none)
  else ({ st.expire now with expirations := 0 }, some (st.expire now).expirations)

def ReadFits (now : ℕ) : Prop :=
  st.nextNs ≠ 0 → st.nextNs ≤ now → st.intervalNs ≠ 0 →
    st.expirations + ((now - st.nextNs) / st.intervalNs + 1) < 2 ^ 64 ∧
      st.nextNs + ((now - st.nextNs) / st.intervalNs + 1) * st.intervalNs < 2 ^ 64

end TimerfdState

def SettimeFits (n : Itimerspec) (now : ℕ) : Prop :=
  n.interval < 2 ^ 64 ∧ n.value < 2 ^ 64 ∧ now + n.value < 2 ^ 64

def expiries (due interval now : ℕ) : Set ℕ :=
  {k | due + k * interval ≤ now ∧ (interval = 0 → k = 0)}

/-- The reads count the expirations exactly. `total` is what the reads before have given. -/
def Counts (due interval : ℕ) : ℕ → TimerfdState → List ℕ → Prop
  | _, _, [] => True
  | total, st, now :: rest =>
    total + (st.read now).2.getD 0 = (expiries due interval now).ncard ∧ ((st.read now).2 ≠ none →
      due ≤ now) ∧ ((st.read now).1.nextNs = 0 ∨ now < (st.read now).1.nextNs) ∧ st.ReadFits now ∧
      Counts due interval (total + (st.read now).2.getD 0) (st.read now).1 rest

/-- A timer that is armed at `t₀` and then read at the times of the list. -/
def ReadsExactly (st : TimerfdState) (n : Itimerspec) (t₀ : ℕ) (times : List ℕ) : Prop :=
  SettimeFits n t₀ ∧ Counts (t₀ + n.value) n.interval 0 (st.settime n t₀).1 times

def dueCount (due interval now : ℕ) : ℕ :=
  if now < due then 0 else if interval = 0 then 1 else (now - due) / interval + 1

/-- When it is next due after the time; zero when it is never due again. -/
def nextDue (due interval now : ℕ) : ℕ :=
  if now < due then due else if interval = 0 then 0
  else due + ((now - due) / interval + 1) * interval

variable {st : TimerfdState} {n : Itimerspec} {t₀ due interval last now total : ℕ} {times : List ℕ}

theorem expiries_ncard (due interval now : ℕ) :
    (expiries due interval now).ncard = dueCount due interval now := by
  have hiio : expiries due interval now = Set.Iio (dueCount due interval now) := by
    ext k
    simp only [expiries, dueCount, Set.mem_ofPred_eq, Set.mem_Iio]
    split_ifs with hbefore hzero
    · exact iff_of_false (fun h ↦ absurd h.1 (by omega)) (Nat.not_lt_zero k)
    · subst hzero
      rw [Nat.mul_zero, Nat.add_zero, Nat.lt_one_iff]
      exact ⟨fun h ↦ h.2 rfl, fun h ↦ ⟨by omega, fun _ ↦ h⟩⟩
    · rw [Nat.lt_succ_iff, Nat.le_div_iff_mul_le (Nat.pos_of_ne_zero hzero)]
      exact ⟨fun h ↦ by omega, fun h ↦ ⟨by omega, fun hz ↦ absurd hz hzero⟩⟩
  rw [hiio, Set.ncard_eq_toFinset_card', Set.toFinset_Iio, Nat.card_Iio]

theorem nextDue_eq (hi : interval ≠ 0) (due now : ℕ) :
    nextDue due interval now = due + dueCount due interval now * interval := by
  unfold nextDue dueCount
  split_ifs <;> simp_all

theorem nextDue_zero (due now : ℕ) : nextDue due 0 now = if now < due then due else 0 := by
  unfold nextDue
  split_ifs <;> simp_all

theorem lt_nextDue (hi : interval ≠ 0) : now < nextDue due interval now := by
  unfold nextDue
  split_ifs with hbefore
  · exact hbefore
  · have hdiv := Nat.lt_mul_div_succ (now - due) (Nat.pos_of_ne_zero hi)
    rw [Nat.mul_comm] at hdiv
    omega

theorem dueCount_of_lt (hi : interval ≠ 0) (hle : last ≤ now)
    (hearly : now < nextDue due interval last) :
    dueCount due interval now = dueCount due interval last := by
  unfold nextDue at hearly
  unfold dueCount
  by_cases hlast : last < due
  · rw [if_pos hlast] at hearly ⊢
    exact if_pos hearly
  · have hpos := Nat.pos_of_ne_zero hi
    rw [if_neg hlast, if_neg hi] at hearly
    rw [if_neg hlast, if_neg hi, if_neg (by omega), if_neg hi]
    refine congrArg (· + 1) (le_antisymm ?_ (Nat.div_le_div_right (by omega)))
    exact Nat.lt_succ_iff.1 ((Nat.div_lt_iff_lt_mul hpos).2 (by rw [Nat.succ_eq_add_one]; omega))

theorem missed_eq (hi : interval ≠ 0) (hlate : nextDue due interval last ≤ now) :
    dueCount due interval last + ((now - nextDue due interval last) / interval + 1) =
      dueCount due interval now := by
  rw [nextDue_eq hi] at hlate ⊢
  have hmul : dueCount due interval last * interval ≤ now - due := by omega
  have hdiv := (Nat.le_div_iff_mul_le (Nat.pos_of_ne_zero hi)).2 hmul
  rw [← Nat.sub_sub, Nat.mul_comm, Nat.sub_mul_div]
  conv_rhs => rw [dueCount, if_neg (by omega), if_neg hi]
  omega

theorem nextDue_late (hi : interval ≠ 0) (hlate : nextDue due interval last ≤ now) :
    nextDue due interval last + ((now - nextDue due interval last) / interval + 1) * interval =
      nextDue due interval now := by
  conv_rhs => rw [nextDue_eq hi, ← missed_eq hi hlate, add_mul, ← add_assoc, ← nextDue_eq hi]

/-- A timer that has been read at a time: it is due next after it, and nothing is left to be
counted. -/
structure Stands (due interval last : ℕ) (st : TimerfdState) : Prop where
  stored : st.intervalNs = interval
  counted : st.expirations = 0
  next : st.nextNs = nextDue due interval last
  fits : nextDue due interval last < 2 ^ 64

structure ReadsUpTo (due interval last now : ℕ) (st : TimerfdState) : Prop where
  stands : Stands due interval now (st.read now).1
  count : dueCount due interval last + (st.read now).2.getD 0 = dueCount due interval now
  due : (st.read now).2 ≠ none → due ≤ now
  future : (st.read now).1.nextNs = 0 ∨ now < (st.read now).1.nextNs
  fits : st.ReadFits now

namespace Stands

theorem same (h : Stands due interval last st) (hdue : 0 < due) (hle : last ≤ now)
    (hearly : st.nextNs = 0 ∨ now < st.nextNs) :
    nextDue due interval now = nextDue due interval last ∧
      dueCount due interval now = dueCount due interval last := by
  rw [h.next] at hearly
  by_cases hi : interval = 0
  · subst hi
    rw [nextDue_zero] at hearly
    rw [nextDue_zero, nextDue_zero]
    by_cases hlast : last < due
    · have hnow : now < due := by simpa [hlast, hdue.ne'] using hearly
      simp [dueCount, hlast, hnow]
    · simp [dueCount, hlast, show ¬ now < due by omega]
  · rcases hearly with hz | hlt
    · exact absurd hz (Nat.ne_zero_of_lt (lt_nextDue hi))
    · have hcount := dueCount_of_lt hi hle hlt
      exact ⟨by rw [nextDue_eq hi, nextDue_eq hi, hcount], hcount⟩

theorem read_early (h : Stands due interval last st) (hdue : 0 < due) (hle : last ≤ now)
    (hearly : st.nextNs = 0 ∨ now < st.nextNs) : ReadsUpTo due interval last now st := by
  obtain ⟨hnext, hcount⟩ := h.same hdue hle hearly
  have hread : st.read now = (st, none) := by
    have hexpire : st.expire now = st := if_neg (by omega)
    rw [TimerfdState.read, hexpire, if_pos h.counted]
  have hstands : Stands due interval now st :=
    ⟨h.stored, h.counted, h.next.trans hnext.symm, hnext ▸ h.fits⟩
  refine ⟨?_, ?_, fun hne ↦ ?_, ?_, fun hz hlate ↦ absurd hearly (by omega)⟩
  · rw [hread]
    exact hstands
  · rw [hread, hcount]
    rfl
  · rw [hread] at hne
    exact absurd rfl hne
  · rw [hread]
    exact hearly

theorem read_once (h : Stands due 0 last st) (hz : st.nextNs ≠ 0) (hlate : st.nextNs ≤ now) :
    ReadsUpTo due 0 last now st := by
  have hnext := h.next
  rw [nextDue_zero] at hnext
  have hlast : last < due := by
    by_contra hlast
    rw [if_neg hlast] at hnext
    exact hz hnext
  rw [if_pos hlast] at hnext
  have hnow : ¬ now < due := by omega
  have hread : st.read now = ({ st with expirations := 0, nextNs := 0 }, some 1) := by
    have hexpire : st.expire now = { st with expirations := 1, nextNs := 0 } := by
      rw [TimerfdState.expire, if_pos ⟨hz, hlate⟩, if_neg (not_not.2 h.stored)]
    rw [TimerfdState.read, hexpire, if_neg one_ne_zero]
  refine ⟨?_, ?_, fun _ ↦ not_lt.1 hnow, ?_, fun _ _ hi ↦ absurd h.stored hi⟩
  · rw [hread]
    exact ⟨h.stored, rfl, by rw [nextDue_zero, if_neg hnow],
      by rw [nextDue_zero, if_neg hnow]; decide⟩
  · rw [hread]
    simp [dueCount, hlast, hnow]
  · rw [hread]
    exact .inl rfl

theorem readFits_iff (h : Stands due interval last st) (hi : interval ≠ 0)
    (hlate : st.nextNs ≤ now) : st.ReadFits now ↔ nextDue due interval now < 2 ^ 64 := by
  have hz : st.nextNs ≠ 0 := h.next ▸ Nat.ne_zero_of_lt (lt_nextDue hi)
  have hsum := nextDue_late hi (h.next ▸ hlate)
  have hcount : (now - nextDue due interval last) / interval + 1 ≤
      ((now - nextDue due interval last) / interval + 1) * interval :=
        Nat.le_mul_of_pos_right _ (Nat.pos_of_ne_zero hi)
  constructor
  · intro hfits
    have hlt := (hfits hz hlate (h.stored ▸ hi)).2
    rwa [h.stored, h.next, hsum] at hlt
  · intro hlt _ _ _
    rw [h.stored, h.next, h.counted, hsum]
    exact ⟨by omega, hlt⟩

theorem read_late (h : Stands due interval last st) (hi : interval ≠ 0) (hlate : st.nextNs ≤ now)
    (hfit : nextDue due interval now < 2 ^ 64) : ReadsUpTo due interval last now st := by
  have hfits := (h.readFits_iff hi hlate).2 hfit
  have hz : st.nextNs ≠ 0 := h.next ▸ Nat.ne_zero_of_lt (lt_nextDue hi)
  have hexp := (hfits hz hlate (h.stored ▸ hi)).1
  have hmissed := missed_eq hi (h.next ▸ hlate)
  have hsum := nextDue_late hi (h.next ▸ hlate)
  rw [h.stored, h.next, h.counted, Nat.zero_add] at hexp
  set missed := (now - nextDue due interval last) / interval + 1 with hm
  have hread : st.read now = ({ st with expirations := 0, nextNs := nextDue due interval now },
    some missed) := by
    have hexpire : st.expire now =
        { st with expirations := missed, nextNs := nextDue due interval now } := by
      rw [TimerfdState.expire, if_pos ⟨hz, hlate⟩, if_pos (h.stored ▸ hi)]
      simp only [h.stored, h.next, h.counted, ← hm, hsum, Nat.zero_add, Nat.mod_eq_of_lt hexp,
        Nat.mod_eq_of_lt hfit]
    rw [TimerfdState.read, hexpire, if_neg (Nat.succ_ne_zero _)]
  have hdue : due ≤ now := by
    have hle := h.next ▸ hlate
    rw [nextDue_eq hi] at hle
    omega
  refine ⟨?_, ?_, fun _ ↦ hdue, ?_, hfits⟩
  · rw [hread]
    exact ⟨h.stored, rfl, rfl, hfit⟩
  · rw [hread]
    exact hmissed
  · rw [hread]
    exact .inr (lt_nextDue hi)

theorem read (h : Stands due interval last st) (hdue : 0 < due) (hle : last ≤ now)
    (hfit : nextDue due interval now < 2 ^ 64) : ReadsUpTo due interval last now st := by
  by_cases hearly : st.nextNs = 0 ∨ now < st.nextNs
  · exact h.read_early hdue hle hearly
  · rw [not_or, not_lt] at hearly
    by_cases hi : interval = 0
    · subst hi
      exact h.read_once hearly.1 hearly.2
    · exact h.read_late hi hearly.2 hfit

theorem fits_of_readFits (h : Stands due interval last st) (hdue : 0 < due) (hle : last ≤ now)
    (hfits : st.ReadFits now) : nextDue due interval now < 2 ^ 64 := by
  by_cases hearly : st.nextNs = 0 ∨ now < st.nextNs
  · rw [(h.same hdue hle hearly).1]
    exact h.fits
  · rw [not_or, not_lt] at hearly
    by_cases hi : interval = 0
    · subst hi
      exact (h.read_once hearly.1 hearly.2).stands.fits
    · exact (h.readFits_iff hi hearly.2).1 hfits

theorem counts_iff (hdue : 0 < due) :
    ∀ {times : List ℕ} {last : ℕ} {st : TimerfdState}, Stands due interval last st →
    (last :: times).Pairwise (· ≤ ·) →
      (Counts due interval (dueCount due interval last) st times ↔
        ∀ now ∈ times, nextDue due interval now < 2 ^ 64)
  | [], _, _, _, _ => by simp [Counts]
  | now :: times, last, st, h, hsorted => by
    obtain ⟨hle, hrest⟩ := List.pairwise_cons.1 hsorted
    have hnow := hle now (.head _)
    constructor
    · rintro ⟨hcount, -, -, hfits, hcounts⟩
      have hfit := h.fits_of_readFits hdue hnow hfits
      have hread := h.read hdue hnow hfit
      rw [hread.count] at hcounts
      exact List.forall_mem_cons.2 ⟨hfit, (counts_iff hdue hread.stands hrest).1 hcounts⟩
    · intro hall
      obtain ⟨hfit, hall⟩ := List.forall_mem_cons.1 hall
      have hread := h.read hdue hnow hfit
      refine ⟨by rw [hread.count, expiries_ncard], hread.due, hread.future, hread.fits, ?_⟩
      rw [hread.count]
      exact (counts_iff hdue hread.stands hrest).2 hall

end Stands

namespace Fds

variable {s : Fds} {t : Slot} {fd : ℤ} {i : Fin 8}

theorem sysTimerfdSettime_eq (ht : s.target? t fd = some (.timerfd i)) (hvalid : n.valid = true) :
    s.sysTimerfdSettime t fd now (n.value % 2 ^ 64) (n.interval % 2 ^ 64) =
      ({ s with timerfds := update s.timerfds i ((s.timerfds i).settime n now).1 },
        ((s.timerfds i).settime n now).2) := by
  rw [TimerfdState.settime, if_neg (by rw [hvalid]; decide)]
  simp only [sysTimerfdSettime, ht]

theorem timerfdRead_eq (ht : s.target? t fd = some (.timerfd i)) :
    s.timerfdRead t fd now true =
      ({ s with timerfds := update s.timerfds i ((s.timerfds i).read now).1 },
        match ((s.timerfds i).read now).2 with
        | none => -eagain
        | some _ => 8) := by
  simp only [timerfdRead, ht, TimerfdState.read]
  split_ifs <;> rfl

end Fds

theorem settime_stands (haccepted : (st.settime n t₀).2 = 0) (hvalue : 0 < n.value)
    (hfits : SettimeFits n t₀) : Stands (t₀ + n.value) n.interval t₀ (st.settime n t₀).1 := by
  obtain ⟨hinterval, hval, hsum⟩ := hfits
  have hvalid : n.valid ≠ false := by
    intro hinvalid
    rw [TimerfdState.settime, if_pos hinvalid] at haccepted
    exact absurd (show -einval = 0 from haccepted) (by decide)
  have hdue : nextDue (t₀ + n.value) n.interval t₀ = t₀ + n.value := if_pos (by omega)
  rw [TimerfdState.settime, if_neg hvalid]
  refine ⟨Nat.mod_eq_of_lt hinterval, rfl, ?_, by rw [hdue]; exact hsum⟩
  simp only [Nat.mod_eq_of_lt hval, if_neg hvalue.ne', Nat.mod_eq_of_lt hsum, hdue]

/-- The numbers that `timerfd_settime` accepts are not bounded: the reads count exactly just as long
as the times fit into 64 bits. -/
theorem readsExactly_iff (haccepted : (st.settime n t₀).2 = 0) (hvalue : 0 < n.value)
    (hsorted : (t₀ :: times).Pairwise (· ≤ ·)) :
    ReadsExactly st n t₀ times ↔ n.interval < 2 ^ 64 ∧ n.value < 2 ^ 64 ∧ t₀ + n.value < 2 ^ 64 ∧
      ∀ now ∈ times, nextDue (t₀ + n.value) n.interval now < 2 ^ 64 := by
  have hcount : dueCount (t₀ + n.value) n.interval t₀ = 0 := if_pos (by omega)
  have hiff : SettimeFits n t₀ → (Counts (t₀ + n.value) n.interval 0 (st.settime n t₀).1 times ↔
      ∀ now ∈ times, nextDue (t₀ + n.value) n.interval now < 2 ^ 64) := by
    intro hfits
    have h := (settime_stands haccepted hvalue hfits).counts_iff (by omega) hsorted
    rwa [hcount] at h
  constructor
  · intro h
    exact ⟨h.1.1, h.1.2.1, h.1.2.2, (hiff h.1).1 h.2⟩
  · intro ⟨hinterval, hval, hsum, hall⟩
    exact ⟨⟨hinterval, hval, hsum⟩, (hiff ⟨hinterval, hval, hsum⟩).2 hall⟩

/-- A timer of one second that is read late, after its third expiration. -/
theorem readsExactly_seconds :
    ReadsExactly ⟨1, 1, 0, 0, 0⟩ ⟨1, 0, 1, 0⟩ 1000000000 [1500000000, 4700000000] :=
  (readsExactly_iff (by decide) (by decide) (by decide)).2 (by decide)

/-- A value of 18446744074 seconds is 290448384 nanoseconds in 64 bits: the timer is read after one
second. -/
theorem not_readsExactly :
    let n : Itimerspec := ⟨0, 0, 18446744074, 0⟩
    let st : TimerfdState := ⟨1, 1, 0, 0, 0⟩
    (st.settime n 1000000000).2 = 0 ∧ 0 < n.value ∧
      ((st.settime n 1000000000).1.read 2000000000).2 = some 1 ∧
      2000000000 < 1000000000 + n.value ∧ ¬ ReadsExactly st n 1000000000 [2000000000] := by
  refine ⟨by decide, by decide, by decide, by decide, fun h ↦ ?_⟩
  exact absurd h.1.2.1 (by decide)

end YabroOS
