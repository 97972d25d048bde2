import YabroOS.Kernel.Calls
import YabroOS.Kernel.Machine

namespace YabroOS

open Memory Function Lib.Asm

namespace Kernel

variable (k : Kernel)

def signalTask (p : Task → Bool) (sig : ℤ) : Kernel × ℤ :=
  if ¬ (0 < sig ∧ sig ≤ 64) ∧ sig ≠ 0 then (k, -einval)
  else
    match k.findTask p with
    | none => (k, -esrch)
    | some i => if sig = 0 then (k, 0) else (k.modifyTask i (fun t ↦ t.sigPendingSet sig.toNat), 0)

def killed (pid : ℤ) (t : Task) : Bool :=
  0 < pid ∧ (t.pid = pid ∨ t.tgid = pid) ∨ pid = 0 ∧ t.tgid = k.current.tgid

def sysKill (pid sig : ℤ) : Kernel × ℤ := k.signalTask (k.killed pid) sig

def sysTgkill (tgid tid sig : ℤ) : Kernel × ℤ :=
  k.signalTask (fun t ↦ t.tgid = tgid ∧ t.pid = tid) sig

def ttySignalGroup (p : Task → Bool) (sig : ℕ) : Kernel × ℤ :=
  ({ k with tasks := fun i ↦
    if (k.tasks i).used ∧ p (k.tasks i) then (k.tasks i).ttyQueueSignal sig else k.tasks i },
    if (k.findTask p).isSome then 0 else -esrch)

def foreground (p : PtyState) (t : Task) : Bool :=
  t.pgrp = p.fgPgrp ∧ (0 < p.session → t.session = p.session)

def ttyPgrpSignal (p : PtyState) (sig : ℕ) : Kernel × ℤ :=
  if p.fgPgrp = 0 then (k, -esrch) else k.ttySignalGroup (foreground p) sig

def consolePgrp : ℤ := if k.io.consoleFgPgrp ≤ 0 then k.current.pgrp else k.io.consoleFgPgrp

def consoleTtyPgrpSignal (sig : ℕ) : Kernel × ℤ :=
  if k.consolePgrp ≤ 0 then (k, -esrch)
  else k.ttySignalGroup (fun t ↦ t.pgrp = k.consolePgrp ∧ t.session = k.current.session) sig

/-- The ways to send a signal. -/
inductive Sender
  | kill (pid : ℤ)
  | tgkill (tgid tid : ℤ)
  | pty (p : PtyState)
  | console

def send (sig : ℕ) : Sender → Kernel × ℤ
  | .kill pid => k.sysKill pid sig
  | .tgkill tgid tid => k.sysTgkill tgid tid sig
  | .pty p => k.ttyPgrpSignal p sig
  | .console => k.consoleTtyPgrpSignal sig

def Reaches (i : Slot) : Sender → Prop
  | .kill pid => k.findTask (k.killed pid) = some i
  | .tgkill tgid tid => k.findTask (fun t ↦ t.tgid = tgid ∧ t.pid = tid) = some i
  | .pty p => p.fgPgrp ≠ 0 ∧ (k.tasks i).used = true ∧ foreground p (k.tasks i) = true
  | .console => 0 < k.consolePgrp ∧ (k.tasks i).used = true ∧
    (k.tasks i).pgrp = k.consolePgrp ∧ (k.tasks i).session = k.current.session

def Sender.terminal : Sender → Bool
  | .kill _ => false
  | .tgkill _ _ => false
  | .pty _ => true
  | .console => true

end Kernel

namespace Task

/-- The task sleeps in one of the four kinds of wait. -/
def InWait (t : Task) : Prop :=
  t.WaitsIo ∨ t.state = .blocked ∧ (t.wait4Active = true ∨ 0 ≤ t.pipeWaitFd ∨ t.futexAddr ≠ 0)

/-- The signal is neither ignored nor blocked. -/
structure Accepts (t : Task) (sig : ℕ) : Prop where
  valid : sigValid sig = true
  not_ign : (t.sigActions sig).saHandler ≠ sigIgn
  not_dfl : (t.sigActions sig).saHandler = sigDfl → sig ≠ sigchld ∧ sig ≠ sigwinch
  unblocked : t.sigBlocked sig = false

/-- It ends the task when it is the one that is delivered next. -/
structure Fatal (t : Task) (sig : ℕ) : Prop where
  dfl : (t.sigActions sig).saHandler = sigDfl
  idle : t.sigActive = false
  first : ∀ s, 1 ≤ s → s < sig → t.sigPending s = true → t.sigBlocked s = true

/-- What a signal does to the task that it is sent to. -/
structure Signalled (t t' : Task) (sig : ℕ) : Prop where
  same : t' = t.ttyQueueSignal sig
  pending : t'.sigPending sig = true
  woken : t.InWait → t'.state = .runnable ∧ t'.ctx.regs .rax = errno eintr
  ends : t.Fatal sig → ∀ (k : Kernel) (i : Slot) (f : SyscallFrame), k.tasks i = t' →
    ((k.deliverPendingSignalToTask i f).1.tasks i).state = .zombie

variable {t t' : Task} {sig : ℕ}

namespace Accepts

theorem queue (h : t.Accepts sig) : t.ttyQueueSignal sig =
    if t.state = .blocked ∧ t.ioWaitKind ≠ .none ∧
      t.ioWaitValid then (t.sigPendingSet sig).interruptIo
    else if t.state = .blocked ∧ t.wait4Active then
      { ((t.sigPendingSet sig).setRax (errno eintr)).clearWait4 with state := .runnable }
    else if t.state = .blocked ∧ 0 ≤ t.pipeWaitFd then
      { ((t.sigPendingSet sig).setRax (errno eintr)).clearPipeWait with state := .runnable }
    else if t.state = .blocked ∧ t.futexAddr ≠ 0 then
      { ((t.sigPendingSet sig).setRax (errno eintr)).clearFutex with state := .runnable }
    else t.sigPendingSet sig := by
  have hign : ¬ ((t.sigActions sig).saHandler = sigIgn ∨
      (t.sigActions sig).saHandler = sigDfl ∧ (sig = sigchld ∨ sig = sigwinch)) := by
    rintro (hi | ⟨hd, hs⟩)
    · exact h.not_ign hi
    · obtain ⟨hchld, hwinch⟩ := h.not_dfl hd
      rcases hs with rfl | rfl
      · exact hchld rfl
      · exact hwinch rfl
  have hvalid : sigValid sig ≠ false := by
    rw [h.valid]
    decide
  have hunblocked : ¬ (t.sigPendingSet sig).sigBlocked sig = true := by
    intro hb
    rw [show (t.sigPendingSet sig).sigBlocked = t.sigBlocked from rfl, h.unblocked] at hb
    cases hb
  unfold ttyQueueSignal
  rw [if_neg hvalid]
  dsimp only
  rw [if_neg hign, if_neg hunblocked]
  rfl

theorem queue_of_not_wait (h : t.Accepts sig) (hw : ¬ t.InWait) :
    t.ttyQueueSignal sig = t.sigPendingSet sig := by
  rw [h.queue]
  split_ifs with hio hwait4 hpipe hfutex
  · exact absurd (.inl hio) hw
  · exact absurd (.inr ⟨hwait4.1, .inl hwait4.2⟩) hw
  · exact absurd (.inr ⟨hpipe.1, .inr (.inl hpipe.2)⟩) hw
  · exact absurd (.inr ⟨hfutex.1, .inr (.inr hfutex.2)⟩) hw
  · rfl

theorem queue_of_wait (h : t.Accepts sig) (hw : t.InWait) :
    (t.ttyQueueSignal sig).state = .runnable ∧
      (t.ttyQueueSignal sig).ctx.regs .rax = errno eintr := by
  rw [h.queue]
  have hrax : ∀ u : Task, (u.setRax (errno eintr)).ctx.regs .rax = errno eintr := by
    intro u
    simp [Task.setRax, TaskContext.setRax]
  split_ifs with hio hwait4 hpipe hfutex
  · exact ⟨rfl, hrax { t.sigPendingSet sig with ctx := { t.ctx with rip := _ } }⟩
  · exact ⟨rfl, hrax (t.sigPendingSet sig)⟩
  · exact ⟨rfl, hrax (t.sigPendingSet sig)⟩
  · exact ⟨rfl, hrax (t.sigPendingSet sig)⟩
  · rcases hw with hw | ⟨hb, hw⟩
    · exact absurd hw hio
    · rcases hw with hw | hw | hw
      · exact absurd ⟨hb, hw⟩ hwait4
      · exact absurd ⟨hb, hw⟩ hpipe
      · exact absurd ⟨hb, hw⟩ hfutex

theorem queue_signals (h : t.Accepts sig) :
    (t.ttyQueueSignal sig).sigPending = update t.sigPending sig true ∧
      (t.ttyQueueSignal sig).sigBlocked = t.sigBlocked ∧ (t.ttyQueueSignal sig).sigActions =
      t.sigActions ∧ (t.ttyQueueSignal sig).sigActive = t.sigActive := by
  rw [h.queue]
  split_ifs <;> exact ⟨rfl, rfl, rfl, rfl⟩

theorem deliver (h : t.Accepts sig) (hf : t.Fatal sig)
    (hp : t'.sigPending = update t.sigPending sig true) (hb : t'.sigBlocked = t.sigBlocked)
    (ha : t'.sigActions = t.sigActions) (hactive : t'.sigActive = t.sigActive) {k : Kernel}
    {i : Slot} (f : SyscallFrame) (hk : k.tasks i = t') :
    ((k.deliverPendingSignalToTask i f).1.tasks i).state = .zombie := by
  have hrange := h.valid
  simp only [sigValid, decide_eq_true_eq] at hrange
  have hnext : t'.sigNextDeliverable = some sig := by
    rw [sigNextDeliverable, List.find?_range'_eq_some, hp, hb]
    refine ⟨by simp [h.unblocked], List.mem_range'_1.2 (by omega), ?_⟩
    intro s hs hlt
    rw [update_of_ne hlt.ne]
    cases hpend : t.sigPending s
    · rfl
    · rw [hf.first s hs hlt hpend]
      rfl
  have hdelivery : k.delivery i f = .killed sig := by
    unfold Kernel.delivery
    dsimp only
    rw [hk, hactive, hf.idle, hnext, ha, if_neg Bool.false_ne_true]
    dsimp only
    rw [if_neg h.not_ign, if_neg, if_pos (.inl hf.dfl)]
    rintro ⟨hd, hs⟩
    obtain ⟨hchld, hwinch⟩ := h.not_dfl hd
    exact hs.elim hchld hwinch
  unfold Kernel.deliverPendingSignalToTask
  rw [hdelivery]
  show ((k.modifyTask i (fun t ↦ t.sigKill sig)).tasks i).state = .zombie
  rw [Kernel.modifyTask_self]
  rfl

theorem signalled_queue (h : t.Accepts sig) : t.Signalled (t.ttyQueueSignal sig) sig := by
  obtain ⟨hp, hb, ha, hactive⟩ := h.queue_signals
  refine ⟨rfl, ?_, h.queue_of_wait, fun hf k i f hk ↦ h.deliver hf hp hb ha hactive f hk⟩
  rw [hp]
  exact update_self ..

theorem signalled_pending_iff (h : t.Accepts sig) :
    t.Signalled (t.sigPendingSet sig) sig ↔ ¬ t.InWait := by
  constructor
  · intro hs hw
    have hblocked : t.state = .blocked := hw.elim (·.1) (·.1)
    have hrunnable : t.state = .runnable := (hs.woken hw).1
    rw [hblocked] at hrunnable
    cases hrunnable
  · intro hw
    rw [← h.queue_of_not_wait hw]
    exact h.signalled_queue

end Accepts

end Task

namespace Kernel

variable {k : Kernel} {i : Slot} {sig : ℕ} {s : Sender} {p : Task → Bool}

theorem signalTask_tasks (hp : k.findTask p = some i) (hs : sigValid sig = true) :
    k.signalTask p sig = (k.modifyTask i (fun t ↦ t.sigPendingSet sig), 0) := by
  simp only [sigValid, decide_eq_true_eq] at hs
  unfold signalTask
  rw [if_neg (by omega), hp]
  dsimp only
  rw [if_neg (by omega), Int.toNat_natCast]

theorem signalTask_apply (hp : k.findTask p = some i) (hs : sigValid sig = true) :
    (k.signalTask p sig).1 = k.apply (.pendSignal i sig) := by
  rw [signalTask_tasks hp hs]
  refine congrArg (k.setTask i) ?_
  dsimp only
  rw [if_pos ⟨(findTask_spec hp).1, hs⟩]

theorem queue_list (l : List Slot) (hl : l.Nodup) (k : Kernel) :
    k.applyAll (l.map (fun i ↦ .queueSignal i sig)) =
      { k with tasks := fun i ↦
        if i ∈ l ∧ (k.tasks i).used then (k.tasks i).ttyQueueSignal sig else k.tasks i } := by
  induction l generalizing k with
  | nil => simp [applyAll]
  | cons j l ih =>
    obtain ⟨hj, hl⟩ := List.nodup_cons.1 hl
    rw [List.map_cons, applyAll, List.foldl_cons, ← applyAll, ih hl]
    refine congrArg (fun tasks ↦ { k with tasks := tasks }) (funext fun i ↦ ?_)
    simp only [apply, modifyTask_apply]
    by_cases hi : i = j
    · subst hi
      simp [hj]
    · simp [hi]

theorem ttySignalGroup_applyAll (p : Task → Bool) (k : Kernel) :
    (k.ttySignalGroup p sig).1 = k.applyAll (((List.finRange 64).filter (fun i ↦ p (k.tasks i))).map
      (fun i ↦ .queueSignal i sig)) := by
  rw [queue_list _ ((List.nodup_finRange 64).filter _)]
  refine congrArg (fun tasks ↦ { k with tasks := tasks }) (funext fun i ↦ ?_)
  simp only [List.mem_filter, List.mem_finRange, true_and, and_comm]

theorem send_tasks (hr : k.Reaches i s) (h : (k.tasks i).Accepts sig) :
    (k.send sig s).1.tasks i =
      if s.terminal then (k.tasks i).ttyQueueSignal sig else (k.tasks i).sigPendingSet sig := by
  cases s with
  | kill pid =>
    have hsend : k.send sig (.kill pid) = _ := signalTask_tasks hr h.valid
    rw [hsend]
    exact modifyTask_self k i (fun t ↦ t.sigPendingSet sig)
  | tgkill tgid tid =>
    have hsend : k.send sig (.tgkill tgid tid) = _ := signalTask_tasks hr h.valid
    rw [hsend]
    exact modifyTask_self k i (fun t ↦ t.sigPendingSet sig)
  | pty p =>
    obtain ⟨hpgrp, hused, hmember⟩ := hr
    show (k.ttyPgrpSignal p sig).1.tasks i = _
    rw [ttyPgrpSignal, if_neg hpgrp]
    exact if_pos ⟨hused, hmember⟩
  | console =>
    obtain ⟨hpgrp, hused, hgroup⟩ := hr
    show (k.consoleTtyPgrpSignal sig).1.tasks i = _
    rw [consoleTtyPgrpSignal, if_neg (not_le.2 hpgrp)]
    exact if_pos ⟨hused, decide_eq_true hgroup⟩

/-- A signal from a terminal interrupts every wait; `kill` and `tgkill` interrupt none. -/
theorem signalled_iff (hr : k.Reaches i s) (h : (k.tasks i).Accepts sig) :
    (k.tasks i).Signalled ((k.send sig s).1.tasks i) sig ↔ s.terminal = true ∨
      ¬ (k.tasks i).InWait := by
  rw [send_tasks hr h]
  cases hs : s.terminal
  · simpa using h.signalled_pending_iff
  · simpa using h.signalled_queue

def futexSleeper : Task :=
  { Task.root with state := .blocked, pid := 100, tgid := 100, pgrp := 100, futexAddr := 0x5000 }

def sleeping : Kernel :=
  (Kernel.boot Machine.oneStackPage 0x1000).modifyTask 1 (fun _ ↦ futexSleeper)

theorem futexSleeper_accepts : futexSleeper.Accepts 15 := ⟨rfl, by decide, by decide, rfl⟩

def groupTerminal : PtyState := ⟨[], [], [], true, true, 1, 1, ⟨0, 0, 0, fun _ ↦ 0⟩, 100, 1, false⟩

theorem signalled_terminal :
    (sleeping.tasks 1).Signalled ((sleeping.send 15 (.pty groupTerminal)).1.tasks 1) 15 :=
  (signalled_iff (s := .pty groupTerminal) ⟨by decide, rfl, rfl⟩ futexSleeper_accepts).2 (.inl rfl)

/-- `SIGTERM` from `kill` leaves the sleeper asleep. -/
theorem not_signalled :
    sleeping.Reaches 1 (.kill 100) ∧ (sleeping.tasks 1).Accepts 15 ∧ (sleeping.tasks 1).Fatal 15 ∧
    ((sleeping.send 15 (.kill 100)).1.tasks 1).state = .blocked ∧
      ¬ (sleeping.tasks 1).Signalled ((sleeping.send 15 (.kill 100)).1.tasks 1) 15 := by
  have hr : sleeping.Reaches 1 (.kill 100) := by
    show sleeping.findTask (sleeping.killed 100) = some 1
    decide
  have hwait : (sleeping.tasks 1).InWait := .inr ⟨rfl, .inr (.inr (by decide))⟩
  refine ⟨hr, futexSleeper_accepts, ⟨rfl, rfl, fun s _ _ hp ↦ ?_⟩, ?_, fun hs ↦ ?_⟩
  · cases hp
  · rw [send_tasks hr futexSleeper_accepts]
    rfl
  · rw [send_tasks hr futexSleeper_accepts] at hs
    exact futexSleeper_accepts.signalled_pending_iff.1 hs hwait

end Kernel

end YabroOS
