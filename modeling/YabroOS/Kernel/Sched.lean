import YabroOS.Kernel.State

namespace YabroOS

open Memory Function Lib.Asm

def errno (n : ℕ) : UInt64 := 0 - UInt64.ofNat n

def eintr : ℕ := 4
def eagain : ℕ := 11
def enomem : ℕ := 12
def einval : ℕ := 22
def emfile : ℕ := 24
def enosys : ℕ := 38
def etimedout : ℕ := 110

def sigint : ℕ := 2
def sigchld : ℕ := 17
def sigwinch : ℕ := 28
def sigDfl : UInt64 := 0
def sigIgn : UInt64 := 1

def sigValid (s : ℕ) : Bool := 0 < s ∧ s ≤ 64

namespace Task

def sigPendingSet (t : Task) (s : ℕ) : Task := { t with sigPending := update t.sigPending s true }

def sigClearPending (t : Task) (s : ℕ) : Task :=
  { t with sigPending := update t.sigPending s false }

def taskSaveFromFrame (t : Task) (f : SyscallFrame) (fs gs : UInt64) : Task :=
  { t with ctx := ⟨f.regs, f.userRsp, f.userRip, f.userRflags, f.userCr3, fs, gs⟩ }

def interruptIo (t : Task) : Task :=
  let rip := if t.ctx.rip ≤ 0xFFFFFFFFFFFFFFFD then t.ctx.rip + 2 else t.ctx.rip
  let t := { t with ctx := { t.ctx with rip := rip } }
  { (t.setRax (errno eintr)).clearIoWait with
    ioResumeValid := false, ioResumeNr := 0, state := .runnable }

def ttyQueueSignal (t : Task) (sig : ℕ) : Task :=
  if sigValid sig = false then t
  else
    let handler := (t.sigActions sig).saHandler
    if handler = sigIgn ∨ handler = sigDfl ∧ (sig = sigchld ∨ sig = sigwinch) then
      t.sigClearPending sig
    else
      let t := t.sigPendingSet sig
      if t.sigBlocked sig then t
      else if t.state = .blocked ∧ t.ioWaitKind ≠ .none ∧ t.ioWaitValid then
        t.interruptIo
      else if t.state = .blocked ∧ t.wait4Active then
        { (t.setRax (errno eintr)).clearWait4 with state := .runnable }
      else if t.state = .blocked ∧ 0 ≤ t.pipeWaitFd then
        { (t.setRax (errno eintr)).clearPipeWait with state := .runnable }
      else if t.state = .blocked ∧ t.futexAddr ≠ 0 then
        { (t.setRax (errno eintr)).clearFutex with state := .runnable }
      else t

def wakeTimed (t : Task) (now : UInt64) : Task :=
  if t.used = false ∨ t.state ≠ .blocked then t
  else if t.futexAddr ≠ 0 ∧ t.futexDeadlineNs ≠ 0 ∧ t.futexDeadlineNs ≤ now then
    { (t.setRax (errno etimedout)).clearFutex with state := .runnable }
  else if t.ioWaitKind = .none ∨ t.ioWaitDeadlineNs = 0 ∨ now < t.ioWaitDeadlineNs then t
  else { (t.setRax t.ioWaitNr).clearIoWait with state := .runnable }

def wakeIo (t : Task) : Task :=
  if t.ioWaitValid then { (t.setRax t.ioWaitNr).clearIoWait with state := .runnable }
  else { t.clearIoWait with state := .runnable }

end Task

namespace PtyState

def icanon : UInt32 := 2
def veof : ℕ := 4
def veol : ℕ := 11
def veol2 : ℕ := 16

def ttyCcMatch (t : Termios) (i : ℕ) (c : UInt8) : Bool := t.cc i ≠ 0 ∧ c = t.cc i

def ptyCanonAvailable (p : PtyState) : Bool :=
  p.canon.any (fun c ↦ c = 10 ∨ ttyCcMatch p.termios veof c ∨ ttyCcMatch p.termios veol c ∨
    ttyCcMatch p.termios veol2 c)

def ptyMasterReadReady (p : PtyState) : Bool :=
  (p.outputStopped = false ∧ p.slaveToMaster ≠ []) ∨ p.slaveOpen = false

def ptySlaveReadReady (p : PtyState) : Bool :=
  if p.termios.lflag &&& icanon ≠ 0 then p.ptyCanonAvailable || !p.masterOpen
  else p.masterToSlave ≠ [] ∨ p.masterOpen = false

end PtyState

namespace Kernel

variable (k : Kernel)

def taskFilesForTask (i : Slot) : Option (ℕ → FileDesc) :=
  (k.io.taskFdTableId i).map k.io.taskFdTables

def files : ℕ → FileDesc := (k.taskFilesForTask k.currentTask).getD (k.io.taskFdTables 0)

/-- The low 32 bits of a register, as the descriptor number a waiting call was made with; `none`
if it is no descriptor number. -/
def fdOf (r : UInt64) : Option ℕ :=
  let n := r.toNat % 2 ^ 32
  if n < maxFiles then some n else none

def taskPtyReadReady (i : Slot) : Bool :=
  match fdOf ((k.tasks i).ctx.regs .rdi), k.taskFilesForTask i with
  | some fd, some table =>
    if (table fd).inUse = false then true
    else
      match (table fd).target with
      | .ptyMaster p => (k.io.ptySlots p).ptyMasterReadReady
      | .ptySlave p => (k.io.ptySlots p).ptySlaveReadReady
      | _ => true
  | _, _ => true

def taskPtyDrainReady (i : Slot) : Bool :=
  match fdOf ((k.tasks i).ctx.regs .rdi), k.taskFilesForTask i with
  | some fd, some table =>
    if (table fd).inUse = false then true
    else
      match (table fd).target with
      | .ptyMaster p => (k.io.ptySlots p).slaveToMaster = [] ∨ (k.io.ptySlots p).masterOpen = false
      | .ptySlave p => (k.io.ptySlots p).slaveToMaster = [] ∨ (k.io.ptySlots p).masterOpen = false
      | _ => true
  | _, _ => true

def taskSocketWaitReady (i : Slot) : Bool :=
  match fdOf ((k.tasks i).ctx.regs .rdi), k.taskFilesForTask i with
  | some fd, some table =>
    if (table fd).inUse = false then false
    else
      match (table fd).target with
      | .socket n side =>
        let s := k.io.unixSockets n
        match (k.tasks i).ioWaitKind with
        | .socketRead => s.data side ≠ [] ∨ s.closed (!side)
        | .socketWrite => s.closed (!side) ∨ (s.data (!side)).length < sockCap
        | .socketAccept => s.listener ∧ s.pending ≠ []
        | _ => true
      | _ => false
  | _, _ => false

def ioWakes (i : Slot) : Bool :=
  let t := k.tasks i
  if t.used = false ∨ t.state ≠ .blocked then false
  else
    match t.ioWaitKind with
    | .none => false
    | .nanosleep => false
    | .socketRead => k.taskSocketWaitReady i
    | .socketWrite => k.taskSocketWaitReady i
    | .socketAccept => k.taskSocketWaitReady i
    | .ptyRead => k.taskPtyReadReady i
    | .ptyDrain => k.taskPtyDrainReady i
    | .tty => k.io.keyQueue ≠ [] ∧ (0 < k.io.consoleFgPgrp → t.pgrp = k.io.consoleFgPgrp)
    | _ => true

/-- The readiness of a wait depends on the waiting task and the descriptors only, so the loop over
the tasks is a map; the result is the first woken socket reader. -/
def taskWakeIoWaiters : Kernel × Option Slot :=
  ({ k with tasks := fun i ↦ if k.ioWakes i then (k.tasks i).wakeIo else k.tasks i },
    (List.finRange 64).find? (fun i ↦ k.ioWakes i && (k.tasks i).ioWaitValid &&
      (k.tasks i).ioWaitKind = .socketRead))

def taskWakeTimedIoWaiters : Kernel := { k with tasks := fun i ↦ (k.tasks i).wakeTimed k.now }

def pickOrder (cur : Slot) : List Slot := (List.finRange 64).map (fun n ↦ cur + n + 1)

def pickBetter (best : Option Slot) (i : Slot) : Option Slot :=
  let t := k.tasks i
  if t.used = false ∨ t.state ≠ .runnable then best
  else
    match best with
    | none => some i
    | some b =>
      if t.nice < (k.tasks b).nice ∨ t.nice = (k.tasks b).nice ∧
        t.switches < (k.tasks b).switches then some i
      else best

def taskPickNext : Option Slot := (pickOrder k.currentTask).foldl k.pickBetter none

def taskAccountSwitch (next : Slot) : Kernel :=
  k.modifyTask next (fun t ↦ if t.used then { t with switches := t.switches + 1 } else t)

def setRunning (next : Slot) : Kernel :=
  { k.modifyTask next (fun t ↦ t.setState .running) with currentTask := next }

def requestSwitch (next : Slot) : Kernel :=
  { (k.vmmUserActivate (k.tasks next).ctx.cr3).1 with
    taskSwitchPending := true, taskReturnCtx := some next }

def switchTo (next : Slot) : Kernel :=
  ((k.setRunning next).taskAccountSwitch next).requestSwitch next

def taskSave (f : SyscallFrame) : Kernel :=
  k.modifyTask k.currentTask (fun t ↦ t.taskSaveFromFrame f k.msrFsBase k.msrGsBase)

def taskCommitDeferredSwitch (ni : Slot) : Kernel :=
  if (k.tasks ni).used = false ∨ ni = k.currentTask then k
  else
    let k := if k.current.state = .running then k.modifyTask k.currentTask
      (fun t ↦ t.setState .runnable) else k
    (k.setRunning ni).taskAccountSwitch ni

end Kernel

end YabroOS
