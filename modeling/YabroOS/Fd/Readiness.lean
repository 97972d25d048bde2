import YabroOS.Fd.Calls
import YabroOS.Input.Evdev
import YabroOS.Kernel.Sched

namespace YabroOS

open Errno

def devNull : ℕ := 1
def devZero : ℕ := 2
def devConsole : ℕ := 3
def devTty : ℕ := 4
def devRandom : ℕ := 5
def devUrandom : ℕ := 6

def pollIn : UInt32 := 1
def pollOut : UInt32 := 4
def pollErr : UInt32 := 8

def wants (events bit : UInt32) : Bool := events &&& bit ≠ 0

structure Revents where
  pollin : Bool
  pollout : Bool
  pollerr : Bool
  pollhup : Bool
  pollnval : Bool
  deriving DecidableEq

def Revents.none : Revents := ⟨false, false, false, false, false⟩

/-- The state that readiness depends on: the descriptors with their objects, the event devices, the
escape sequence that a console read has left, the clocks, and the task that asks. -/
structure Pollable extends Fds where
  evdev : Input.Evdev
  pendingPos : ℕ
  pendingLen : ℕ
  pendingPid : ℤ
  clockNow : ℤ → ℕ
  currentTask : Slot
  pid : ℤ
  pgrp : ℤ

namespace Pollable

variable (k : Pollable)

def table : Fin 32 := k.currentFiles k.currentTask

def desc (fd : ℕ) : FileDesc := k.taskFdTables k.table fd

def isOpen (fd : ℤ) : Bool := k.fdValid k.currentTask fd

def consoleTtyReadReadyFor (pid pgrp : ℤ) : Bool :=
  (k.pendingPos < k.pendingLen ∧ k.pendingPid = pid) ∨
    (k.keyQueue ≠ [] ∧ (k.consoleFgPgrp ≤ 0 ∨ pgrp = k.consoleFgPgrp))

def ttyReady : Bool := k.consoleTtyReadReadyFor k.pid k.pgrp

def fdIsConsoleStream (fd : ℤ) : Bool :=
  k.isOpen fd ∧
    ((k.desc fd.toNat).target = .pseudo devConsole ∨ (k.desc fd.toNat).target = .pseudo devTty)

def inputReady (fd dev : ℕ) : Bool :=
  (dev = devInput ∧ (k.evdev.keyboardFdReady (Input.place k.table fd)).2) ∨
    (dev = devInputMouse ∧ (k.evdev.mouseFdReady (Input.place k.table fd)).2)

def pipeHasReaders (p : Fin 8) : Bool := k.pipeLiveReaders p ≠ 0

def pipeHasWriters (p : Fin 8) : Bool := k.pipeLiveWriters p ≠ 0

def timerExpired (t : TimerfdState) : Bool := t.nextNs ≠ 0 ∧ t.nextNs ≤ k.clockNow t.clockid

def pollTarget (fd : ℕ) (events : UInt32) : Revents :=
  let f := k.desc fd
  match f.target with
  | .closed => .none
  | .file =>
    { Revents.none with
      pollin := wants events pollIn, pollout := wants events pollOut ∧ f.flags % 4 ≠ 0 }
  | .eventfd e =>
    { Revents.none with
      pollin := wants events pollIn ∧ k.eventfds e ≠ 0
      pollout := wants events pollOut ∧ k.eventfds e < 2 ^ 64 - 2 }
  | .timerfd i =>
    let tf := k.timerfds i
    { Revents.none with pollin := wants events pollIn ∧ (tf.expirations ≠ 0 ∨ k.timerExpired tf) }
  | .pseudo dev =>
    { Revents.none with
      pollin := wants events pollIn ∧ ((dev = devTty ∧ k.ttyReady) ∨ k.inputReady fd dev) }
  | .socket i side =>
    let ss := k.unixSockets i
    if ss.listener then { Revents.none with pollin := wants events pollIn ∧ ss.pending ≠ [] }
    else if ss.refs ≠ 0 then
      { Revents.none with
        pollin := wants events pollIn ∧ ss.data side ≠ []
        pollout := wants events pollOut ∧ ss.closed (!side) = false ∧
          (ss.data (!side)).length < sockCap
        pollhup := ss.closed (!side)
        pollerr := ss.closed (!side) ∧ wants events pollErr }
    else .none
  | .pipeR p =>
    { Revents.none with
      pollin := wants events pollIn ∧ (k.pipes p).data ≠ []
      pollhup := !k.pipeHasWriters p }
  | .pipeW p =>
    if k.pipeHasReaders p = false then { Revents.none with pollerr := true }
    else { Revents.none with pollout := wants events pollOut ∧ (k.pipes p).data.length < pipeCap }
  | .ptyMaster p =>
    let pp := k.ptySlots p
    { Revents.none with
      pollin := wants events pollIn ∧ pp.ptyMasterReadReady
      pollout := wants events pollOut ∧ pp.slaveOpen ∧ pp.masterToSlave.length < ptyCap
      pollhup := !pp.slaveOpen }
  | .ptySlave p =>
    let pp := k.ptySlots p
    { Revents.none with
      pollin := wants events pollIn ∧ pp.ptySlaveReadReady
      pollout := wants events pollOut ∧ pp.masterOpen ∧ pp.slaveToMaster.length < ptyCap
      pollhup := !pp.masterOpen }
  | .epoll _ => .none

def pollFd (fd : ℤ) (events : UInt32) : Revents :=
  if (fd = 1 ∨ fd = 2) ∧ k.fdIsConsoleStream fd then
    { Revents.none with pollout := wants events pollOut }
  else if k.isOpen fd then k.pollTarget fd.toNat events
  else if 0 ≤ fd then { Revents.none with pollnval := true }
  else .none

def epollTarget (fd : ℕ) (events : UInt32) : Revents :=
  let f := k.desc fd
  match f.target with
  | .closed => .none
  | .file =>
    { Revents.none with
      pollin := wants events pollIn, pollout := wants events pollOut ∧ f.flags % 4 ≠ 0 }
  | .pipeR p =>
    { Revents.none with
      pollin := ((k.pipes p).data ≠ [] ∨ k.pipeHasWriters p = false) ∧ wants events pollIn
      pollhup := !k.pipeHasWriters p }
  | .pipeW p =>
    if k.pipeHasReaders p = false then { Revents.none with pollerr := true }
    else { Revents.none with pollout := wants events pollOut ∧ (k.pipes p).data.length < pipeCap }
  | .pseudo dev =>
    { Revents.none with
      pollin := (dev = devTty ∧ wants events pollIn ∧ k.ttyReady) ∨
        (k.inputReady fd dev ∧ wants events pollIn) }
  | .ptyMaster p =>
    { Revents.none with pollin := wants events pollIn ∧ (k.ptySlots p).ptyMasterReadReady }
  | .ptySlave p =>
    { Revents.none with pollin := wants events pollIn ∧ (k.ptySlots p).ptySlaveReadReady }
  | .eventfd e =>
    { Revents.none with
      pollin := wants events pollIn ∧ k.eventfds e ≠ 0
      pollout := wants events pollOut ∧ k.eventfds e < 2 ^ 64 - 2 }
  | .timerfd i => { Revents.none with pollin := k.timerExpired (k.timerfds i) ∧ wants events pollIn }
  | .socket i side =>
    let ss := k.unixSockets i
    if ss.listener then { Revents.none with pollin := wants events pollIn ∧ ss.pending ≠ [] }
    else if ss.refs ≠ 0 then
      { Revents.none with
        pollin := wants events pollIn ∧ ss.data side ≠ []
        pollout := wants events pollOut ∧ ss.closed (!side) = false ∧
          (ss.data (!side)).length < sockCap
        pollhup := ss.closed (!side)
        pollerr := ss.closed (!side) ∧ wants events pollErr }
    else .none
  | .epoll _ => .none

def epollIsReady (fd : ℤ) (events : UInt32) : Revents :=
  if fd = 1 ∨ fd = 2 then { Revents.none with pollout := wants events pollOut }
  else if k.isOpen fd then k.epollTarget fd.toNat events
  else .none

def epollReady (e : Fin 4) : Bool :=
  (k.epolls e).used ∧
    ∃ i, ((k.epolls e).w i).used ∧
      k.epollIsReady ((k.epolls e).w i).fd ((k.epolls e).w i).events ≠ .none

def selectTarget (fd : ℕ) (wantR wantW : Bool) : Bool × Bool :=
  match (k.desc fd).target with
  | .closed => (false, false)
  | .file => (wantR, wantW)
  | .pseudo dev =>
    (wantR ∧ (dev = devNull ∨ dev = devZero ∨ dev = devRandom ∨ dev = devUrandom ∨
      (dev = devTty ∧ k.ttyReady) ∨
        k.inputReady fd dev),
      wantW ∧ (dev = devNull ∨ dev = devZero ∨ dev = devRandom ∨ dev = devUrandom ∨
        dev = devConsole ∨ dev = devTty))
  | .socket i side =>
    let ss := k.unixSockets i
    if ss.listener then (wantR ∧ ss.pending ≠ [], false)
    else if ss.refs ≠ 0 then
      (wantR ∧ (ss.data side ≠ [] ∨ ss.closed (!side)),
        wantW ∧ ss.closed (!side) = false ∧ (ss.data (!side)).length < sockCap)
    else (false, false)
  | .pipeR p => (wantR ∧ ((k.pipes p).data ≠ [] ∨ k.pipeHasWriters p = false), false)
  | .pipeW p => (false, wantW ∧ k.pipeHasReaders p ∧ (k.pipes p).data.length < pipeCap)
  | .eventfd e => (wantR ∧ k.eventfds e ≠ 0, wantW ∧ k.eventfds e < 2 ^ 64 - 2)
  | .timerfd i => (wantR ∧ ((k.timerfds i).expirations ≠ 0 ∨ k.timerExpired (k.timerfds i)), false)
  | .ptyMaster p =>
    let pp := k.ptySlots p
    (wantR ∧ pp.ptyMasterReadReady, wantW ∧ pp.slaveOpen ∧ pp.masterToSlave.length < ptyCap)
  | .ptySlave p =>
    let pp := k.ptySlots p
    (wantR ∧ pp.ptySlaveReadReady, wantW ∧ pp.masterOpen ∧ pp.slaveToMaster.length < ptyCap)
  | .epoll e => (wantR ∧ k.epollReady e, false)

def selectFdState (fd : ℤ) (wantR wantW : Bool) : Except ℤ (Bool × Bool) :=
  if k.isOpen fd = false then .error (-ebadf)
  else if (fd = 1 ∨ fd = 2) ∧ k.fdIsConsoleStream fd then .ok (false, wantW)
  else .ok (k.selectTarget fd.toNat wantR wantW)

section Agreement

variable {k} {fd : ℤ}

/-- The three calls put a descriptor into the same class. -/
def Agrees (k : Pollable) (fd : ℤ) : Prop :=
  ∃ r w, k.selectFdState fd true true = .ok (r, w) ∧
    (r = true ↔ (k.pollFd fd pollIn).pollin = true ∨ (k.pollFd fd pollIn).pollhup = true) ∧
    (r = true ↔ (k.epollIsReady fd pollIn).pollin = true ∨
      (k.epollIsReady fd pollIn).pollhup = true) ∧
    (w = true ↔ (k.pollFd fd pollOut).pollout = true) ∧
      (w = true ↔ (k.epollIsReady fd pollOut).pollout = true)

/-- When the calls agree on descriptors 1 and 2, which `epoll_is_ready` takes for a console. -/
def UniformOutput (k : Pollable) (fd : ℕ) : Prop :=
  match (k.desc fd).target with
  | .pseudo dev => dev = devConsole ∨ dev = devTty
  | .socket i side =>
    let ss := k.unixSockets i
    ss.listener = false ∧ ss.refs ≠ 0 ∧ ss.data side = [] ∧ ss.closed (!side) = false ∧
      (ss.data (!side)).length < sockCap
  | .pipeW p => k.pipeHasReaders p = true ∧ (k.pipes p).data.length < pipeCap
  | .eventfd e => k.eventfds e = 0
  | .ptyMaster p =>
    let pp := k.ptySlots p
    pp.ptyMasterReadReady = false ∧ pp.slaveOpen = true ∧ pp.masterToSlave.length < ptyCap
  | .ptySlave p =>
    let pp := k.ptySlots p
    pp.ptySlaveReadReady = false ∧ pp.masterOpen = true ∧ pp.slaveToMaster.length < ptyCap
  | _ => False

/-- When the calls agree on another descriptor. -/
def UniformTarget (k : Pollable) (fd : ℕ) : Prop :=
  match (k.desc fd).target with
  | .file => (k.desc fd).flags % 4 ≠ 0
  | .pseudo dev => dev ∉ [devNull, devZero, devConsole, devTty, devRandom, devUrandom]
  | .timerfd i => (k.timerfds i).expirations = 0 ∨ k.timerExpired (k.timerfds i) = true
  | .ptyMaster p => (k.ptySlots p).slaveOpen = false ∨ ptyCap ≤ (k.ptySlots p).masterToSlave.length
  | .ptySlave p => (k.ptySlots p).masterOpen = false ∨ ptyCap ≤ (k.ptySlots p).slaveToMaster.length
  | .epoll e => k.epollReady e = false
  | _ => True

def Uniform (k : Pollable) (fd : ℤ) : Prop :=
  if fd = 1 ∨ fd = 2 then k.UniformOutput fd.toNat else k.UniformTarget fd.toNat

@[simp] theorem wants_pollIn_pollIn : wants pollIn pollIn = true := by decide
@[simp] theorem wants_pollIn_pollOut : wants pollIn pollOut = false := by decide
@[simp] theorem wants_pollOut_pollIn : wants pollOut pollIn = false := by decide
@[simp] theorem wants_pollOut_pollOut : wants pollOut pollOut = true := by decide

theorem ptyMasterReadReady_of_closed {p : PtyState} (h : p.slaveOpen = false) :
    p.ptyMasterReadReady = true := by
  simp [PtyState.ptyMasterReadReady, h]

theorem ptySlaveReadReady_of_closed {p : PtyState} (h : p.masterOpen = false) :
    p.ptySlaveReadReady = true := by
  simp [PtyState.ptySlaveReadReady, h]

theorem agrees_target (hne : ¬ (fd = 1 ∨ fd = 2)) (ho : k.isOpen fd = true) :
    k.Agrees fd ↔ k.UniformTarget fd.toNat := by
  have hsel : k.selectFdState fd true true = .ok (k.selectTarget fd.toNat true true) := by
    simp [selectFdState, ho, hne]
  have hpoll : ∀ events, k.pollFd fd events = k.pollTarget fd.toNat events := by
    intro events
    simp [pollFd, ho, hne]
  have hepoll : ∀ events, k.epollIsReady fd events = k.epollTarget fd.toNat events := by
    intro events
    simp [epollIsReady, ho, hne]
  rw [Agrees, hsel, hpoll, hpoll, hepoll, hepoll]
  simp only [Except.ok.injEq, Prod.ext_iff, ↓existsAndEq, true_and]
  cases ht : (k.desc fd.toNat).target with
  | closed => simp [selectTarget, pollTarget, epollTarget, UniformTarget, ht, Revents.none]
  | file => simp [selectTarget, pollTarget, epollTarget, UniformTarget, ht, Revents.none]
  | pipeR p => simp [selectTarget, pollTarget, epollTarget, UniformTarget, ht, Revents.none]
  | pipeW p =>
    cases hr : k.pipeHasReaders p
      <;> simp [selectTarget, pollTarget, epollTarget, UniformTarget, ht, Revents.none, hr]
  | pseudo dev =>
    by_cases hd : dev ∈ [devNull, devZero, devConsole, devTty, devRandom, devUrandom]
    · have hw : (k.selectTarget fd.toNat true true).2 = true := by
        simp only [List.mem_cons, List.not_mem_nil, or_false] at hd
        simp only [selectTarget, ht, true_and, decide_eq_true_eq]
        tauto
      have hp : (k.pollTarget fd.toNat pollOut).pollout = false := by
        simp [pollTarget, ht, Revents.none]
      have hc : ¬ k.UniformTarget fd.toNat := by simpa only [UniformTarget, ht, not_not] using hd
      simp [hw, hp, hc]
    · have hc : k.UniformTarget fd.toNat := by simpa only [UniformTarget, ht] using hd
      simp only [List.mem_cons, List.not_mem_nil, or_false, not_or] at hd
      simp [selectTarget, pollTarget, epollTarget, ht, Revents.none, hd, hc]
  | socket i side =>
    cases hl : (k.unixSockets i).listener <;> by_cases hr : (k.unixSockets i).refs = 0 <;>
      simp [selectTarget, pollTarget, epollTarget, UniformTarget, ht, Revents.none, hl, hr]
  | eventfd e => simp [selectTarget, pollTarget, epollTarget, UniformTarget, ht, Revents.none]
  | timerfd i =>
    have hexp : k.timerExpired (k.timerfds i) = false ∨ k.timerExpired (k.timerfds i) = true := by
      cases k.timerExpired (k.timerfds i) <;> simp
    obtain he | he :=
      hexp <;> simp [selectTarget, pollTarget, epollTarget, UniformTarget, ht, Revents.none, he]
  | ptyMaster p =>
    have hclosed := ptyMasterReadReady_of_closed (p := k.ptySlots p)
    cases hs : (k.ptySlots p).slaveOpen <;>
      simp [selectTarget, pollTarget, epollTarget, UniformTarget, ht, Revents.none, hs, hclosed]
  | ptySlave p =>
    have hclosed := ptySlaveReadReady_of_closed (p := k.ptySlots p)
    cases hs : (k.ptySlots p).masterOpen <;>
      simp [selectTarget, pollTarget, epollTarget, UniformTarget, ht, Revents.none, hs, hclosed]
  | epoll e => simp [selectTarget, pollTarget, epollTarget, UniformTarget, ht, Revents.none]

theorem agrees_output (h : fd = 1 ∨ fd = 2) (ho : k.isOpen fd = true) :
    k.Agrees fd ↔ k.UniformOutput fd.toNat := by
  have hepoll : ∀ events, k.epollIsReady fd events =
      { Revents.none with pollout := wants events pollOut } := by
    intro events
    rw [epollIsReady, if_pos h]
  by_cases hcs : k.fdIsConsoleStream fd = true
  · have hu : k.UniformOutput fd.toNat := by
      simp only [fdIsConsoleStream, decide_eq_true_eq] at hcs
      obtain ⟨-, ht | ht⟩ := hcs
      · simp [UniformOutput, ht]
      · simp [UniformOutput, ht]
    simp [Agrees, selectFdState, ho, h, hcs, pollFd, hepoll, hu, Revents.none]
  have hsel : k.selectFdState fd true true = .ok (k.selectTarget fd.toNat true true) := by
    simp [selectFdState, ho, hcs]
  have hpoll : ∀ events, k.pollFd fd events = k.pollTarget fd.toNat events := by
    intro events
    simp [pollFd, ho, hcs]
  rw [Agrees, hsel, hpoll, hpoll, hepoll, hepoll]
  simp only [Except.ok.injEq, Prod.ext_iff, ↓existsAndEq, true_and]
  cases ht : (k.desc fd.toNat).target with
  | closed => simp [selectTarget, pollTarget, UniformOutput, ht, Revents.none]
  | file => simp [selectTarget, pollTarget, UniformOutput, ht, Revents.none]
  | pipeR p => simp [selectTarget, pollTarget, UniformOutput, ht, Revents.none]
  | pipeW p =>
    cases hr : k.pipeHasReaders p
      <;> simp [selectTarget, pollTarget, UniformOutput, ht, Revents.none, hr]
  | pseudo dev =>
    have hc : ¬ k.UniformOutput fd.toNat := by
      simpa [UniformOutput, ht, fdIsConsoleStream, ho] using hcs
    have hp : (k.pollTarget fd.toNat pollOut).pollout = false := by
      simp [pollTarget, ht, Revents.none]
    simp [hp, hc]
  | socket i side =>
    cases hl : (k.unixSockets i).listener <;> by_cases hr : (k.unixSockets i).refs = 0 <;>
      cases hc : (k.unixSockets i).closed (!side) <;>
      simp [selectTarget, pollTarget, UniformOutput, ht, Revents.none, hl, hr, hc, and_comm]
  | eventfd e =>
    by_cases he : k.eventfds e = 0
      <;> simp [selectTarget, pollTarget, UniformOutput, ht, Revents.none, he]
  | timerfd i => simp [selectTarget, pollTarget, UniformOutput, ht, Revents.none]
  | ptyMaster p =>
    have hclosed := ptyMasterReadReady_of_closed (p := k.ptySlots p)
    cases hs : (k.ptySlots p).slaveOpen <;>
      simp [selectTarget, pollTarget, UniformOutput, ht, Revents.none, hs, hclosed]
  | ptySlave p =>
    have hclosed := ptySlaveReadReady_of_closed (p := k.ptySlots p)
    cases hs : (k.ptySlots p).masterOpen <;>
      simp [selectTarget, pollTarget, UniformOutput, ht, Revents.none, hs, hclosed]
  | epoll e => simp [selectTarget, pollTarget, UniformOutput, ht, Revents.none]

/-- The three calls agree on a descriptor exactly when its type and state are none of those that one
of them leaves out. -/
theorem readiness_agrees_iff (k : Pollable) (fd : ℤ) (ho : k.isOpen fd = true) :
    k.Agrees fd ↔ k.Uniform fd := by
  rw [Uniform]
  split_ifs with h
  · exact agrees_output h ho
  · exact agrees_target h ho

def booted : Pollable where
  toFds := .init
  evdev := .init fun _ _ ↦ ⟨0, 0, 0, 0, 0⟩
  pendingPos := 0
  pendingLen := 0
  pendingPid := -1
  clockNow := fun _ ↦ 0
  currentTask := 0
  pid := 1
  pgrp := 1

def filledPipe : Pollable :=
  { booted with
    toFds := (Fds.init.sysPipe 0 true).1.modifyPipe 0 fun st ↦ { st with data := [97, 98, 99] } }

theorem readiness_agrees_iff_pipe : (filledPipe.Agrees 3 ∧ filledPipe.Uniform 3) ∧
    (filledPipe.pollFd 3 pollIn).pollin = true ∧
      (filledPipe.epollIsReady 3 pollIn).pollin = true := by
  have ht : (filledPipe.desc 3).target = .pipeR 0 := by decide +kernel
  have hu : filledPipe.Uniform 3 := by
    rw [Uniform, if_neg (by decide), UniformTarget, show (3 : ℤ).toNat = 3 from rfl, ht]
    trivial
  exact ⟨⟨(readiness_agrees_iff filledPipe 3 (by decide +kernel)).2 hu, hu⟩, by decide +kernel,
    by decide +kernel⟩

/-- `select` finds the terminal writable and the others never do. -/
theorem not_agrees_terminal : booted.isOpen 0 = true ∧ ¬ booted.Agrees 0 := by
  refine ⟨by decide, ?_⟩
  rw [agrees_target (by decide) (by decide)]
  exact fun h ↦
    h (by decide : devTty ∈ [devNull, devZero, devConsole, devTty, devRandom, devUrandom])

end Agreement

end Pollable

end YabroOS
