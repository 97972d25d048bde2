import YabroOS.Kernel.Process

namespace YabroOS

open Memory Function Lib.Asm

namespace Task

def sigNextDeliverable (t : Task) : Option ℕ :=
  (List.range' 1 64).find? (fun s ↦ t.sigPending s && !t.sigBlocked s)

def sigKill (t : Task) (sig : ℕ) : Task :=
  let t := if sig ≠ sigint then t.sigClearPending sig else t
  { t with exitStatus := 128 + sig, state := .zombie }

def sigintKill (t : Task) : Task :=
  { t.sigClearPending sigint with exitStatus := 130, state := .zombie }

def startHandler (t : Task) (f : SyscallFrame) : Task :=
  { t with sigSavedFrame := f, sigSavedValid := true, sigActive := true }

def endHandler (t : Task) : Task := { t with sigSavedValid := false, sigActive := false }

end Task

namespace SyscallFrame

def enterHandler (f : SyscallFrame) (h : UInt64) (sig : ℕ) : SyscallFrame :=
  { f with
    regs := update (update f.regs .rdi (UInt64.ofNat sig)) .rax 0
    userRsp := f.userRsp - 8
    userRip := h }

end SyscallFrame

namespace Kernel

/-- What `deliver_pending_signal_to_task` finds to do. -/
inductive Delivery
  | nothing
  | ignored (sig : ℕ)
  | killed (sig : ℕ)
  | caught (sig : ℕ) (h rest : UInt64)
  deriving DecidableEq

/-- A signal without restorer or without room on the user stack stays pending. -/
def delivery (k : Kernel) (i : Slot) (f : SyscallFrame) : Delivery :=
  let t := k.tasks i
  if t.sigActive then .nothing
  else
    match t.sigNextDeliverable with
    | none => .nothing
    | some sig =>
      let h := (t.sigActions sig).saHandler
      if h = sigIgn then .ignored sig
      else if h = sigDfl ∧ (sig = sigchld ∨ sig = sigwinch) then .ignored sig
      else if h = sigDfl ∨ userLimit ≤ h.toNat then .killed sig
      else
        let rest := (t.sigActions sig).saRestorer
        if rest = 0 then .nothing
        else if f.userRsp < 8 ∨ k.vm.vmmUserRangeOk (f.userRsp.toNat - 8) 8 true = false then .nothing
        else .caught sig h rest

def deliverPendingSignalToTask (k : Kernel) (i : Slot) (f : SyscallFrame) : Kernel × SyscallFrame :=
  match k.delivery i f with
  | .nothing => (k, f)
  | .ignored sig => (k.modifyTask i (fun t ↦ t.sigClearPending sig), f)
  | .killed sig => (k.modifyTask i (fun t ↦ t.sigKill sig), f)
  | .caught sig h rest =>
    let k := k.modifyTask i (fun t ↦ t.startHandler f)
    match k.userCopyTo (f.userRsp - 8) (quadBytes rest) with
    | (k, rc) =>
      if rc ≠ 0 then (k.modifyTask i Task.endHandler, f)
      else (k.modifyTask i (fun t ↦ t.sigClearPending sig), f.enterHandler h sig)

def deliverPendingSignal (k : Kernel) (f : SyscallFrame) : Kernel × SyscallFrame :=
  k.deliverPendingSignalToTask k.currentTask f

def sysRtSigreturn (k : Kernel) (f : SyscallFrame) : Kernel × SyscallFrame × UInt64 :=
  let t := k.current
  if t.sigActive = false ∨ t.sigSavedValid = false then (k, f, errno einval)
  else
    (k.modifyTask k.currentTask Task.endHandler, t.sigSavedFrame, 0)

end Kernel

/-- A part of a system call that leaves its caller running. -/
inductive CallStep
  | effect (e : Effect)
  | defer (rax : UInt64) (woke : Slot)

inductive Outcome
  | ret (v : UInt64)
  | block (kind : IoWait) (nr deadlineNs : UInt64) (ticks : List (List Effect))
  | pipeBlock (fd : ℤ) (buf count : UInt64)

/-- What a system call meets outside the task table: the effects of a call on files, devices and
memory with its end, the interrupts during a wait, the lazy mappings and the image of `execve`. -/
structure Call where
  steps : List CallStep
  outcome : Outcome
  effects : List Effect
  lazyStack : Bool
  image : Except UInt64 (UInt64 × UInt64 × UInt64)

namespace Kernel

variable (k : Kernel)

def reapChild : Kernel :=
  let t := k.current
  if 0 < t.wait4ReapPid then
    let k :=
      match k.findTask (fun c ↦ c.pid = t.wait4ReapPid ∧ c.ppid = t.pid ∧ c.state = .zombie) with
      | some c => k.reap c
      | none => k
    k.modifyTask k.currentTask (fun t ↦ { t with wait4ReapPid := -1 })
  else k

/-- `syscall_dispatch` makes the caller's address space the current one. -/
def adoptCr3 (f : SyscallFrame) : Kernel :=
  if f.userCr3 = 0 then k
  else
    (k.vmmUserActivate f.userCr3).1.modifyTask k.currentTask (fun t ↦
      if t.used then { t with ctx := { t.ctx with cr3 := f.userCr3 } } else t)

def deferSwitch (f : SyscallFrame) (rax : UInt64) (woke : Slot) : Kernel :=
  if woke ≠ k.currentTask ∧ (k.tasks woke).used ∧ (k.tasks woke).state = .runnable then
    { k.taskSave (f.setRax rax) with
      taskReturnCtx := some woke
      taskSwitchDeferred := true
      taskSwitchPending := true }
  else k

def callStep (f : SyscallFrame) (k : Kernel) : CallStep → Kernel
  | .effect e => k.apply e
  | .defer rax woke => k.deferSwitch f rax woke

def finish (f : SyscallFrame) : Outcome → Option (Kernel × UInt64)
  | .ret v => some (k, v)
  | .block kind nr deadlineNs ticks =>
    (k.taskBlockIoUntil f kind nr deadlineNs ticks).map (fun k ↦ (k, 0))
  | .pipeBlock fd buf count => some (k.pipeBlock f fd buf count)

def sysExecve (c : Call) : Kernel × UInt64 :=
  let k := k.applyAll c.effects
  match c.image with
  | .ok (entry, stack, cr3) => (k.execEnter entry stack cr3, 0)
  | .error e => (k, e)

def syscallBody (f : SyscallFrame) (c : Call) : Option (Kernel × SyscallFrame × UInt64) :=
  let a := f.regs
  let keep : Kernel × UInt64 → Option (Kernel × SyscallFrame × UInt64) := fun r ↦ some (r.1, f, r.2)
  match f.rax.toNat with
  | 15 => some (k.sysRtSigreturn f)
  | 24 => keep (k.sysSchedYield f c.effects)
  | 56 => keep (k.sysClone f (a .rdi) (a .rsi) (a .rdx) (a .r10) (a .r8) c.lazyStack)
  | 57 => keep (k.sysFork f)
  | 59 => keep (k.sysExecve c)
  | 60 => keep (k.sysExit (asInt (a .rdi)), 0)
  | 61 => keep (k.sysWait4 f (asInt (a .rdi)) (a .rsi) (asInt (a .rdx)))
  | 158 => keep (k.sysArchPrctl (a .rdi) (a .rsi))
  | 202 => keep (k.sysFutex f (a .rdi) (a .rsi) (a .rdx) (a .r10))
  | 231 => keep (k.sysExitGroup (asInt (a .rdi)), 0)
  | _ => ((c.steps.foldl (callStep f) k).finish f c.outcome).bind keep

def prologue (f : SyscallFrame) : Kernel :=
  let k := (k.adoptCr3 f).reapChild
  if (f.rax = 1 ∨ f.rax = 44) ∧ k.current.used then k.taskSave f else k

def epilogue (nr : UInt64) (f : SyscallFrame) (ret : UInt64) : Kernel × SyscallFrame :=
  let f := f.setRax ret
  if k.userExecPending then (k, f)
  else
    match if nr = 15 then (k, f) else k.deliverPendingSignal f with
    | (k, f) =>
      ({ k with
        syscallUserRip := f.userRip
        syscallUserRsp := f.userRsp
        syscallUserRflags := f.userRflags
        syscallUserCr3 := f.userCr3 }, f)

def syscallDispatch (f : SyscallFrame) (c : Call) : Option (Kernel × SyscallFrame) :=
  ((k.prologue f).syscallBody f c).map (fun (k, f', ret) ↦ k.epilogue f.rax f' ret)

def storeStatusCr3 (cr3 status : UInt64) (exitStatus : ℤ) : Kernel × ℤ :=
  if status = 0 then (k, 0) else k.userCopyToCr3 cr3 status (waitStatus exitStatus)

def timerWakeParent (c : Slot) : Kernel :=
  match k.findTask (fun p ↦ p.pid = (k.tasks c).ppid) with
  | none => k
  | some i =>
    let k := k.modifyTask i (fun p ↦ p.sigPendingSet sigchld)
    let p := k.tasks i
    let t := k.tasks c
    if p.state = .blocked ∧ p.wait4Active ∧ (p.wait4Pid ≤ 0 ∨ p.wait4Pid = t.pid) then
      match k.storeStatusCr3 p.ctx.cr3 p.wait4StatusPtr t.exitStatus with
      | (k, rc) => if rc ≠ 0 then k else k.modifyTask i (fun p ↦ p.wait4Done t.pid)
    else k

def timerKill : Kernel :=
  let c := k.currentTask
  let k := k.modifyTask c Task.sigintKill
  let k := k.releaseFramebuffer c
  (k.setIo (k.io.taskFdTableRelease c)).timerWakeParent c

def timerSigint : Kernel :=
  let t := k.current
  if t.sigPending sigint ∧ t.sigBlocked sigint = false then
    if (t.sigActions sigint).saHandler = sigIgn then
      k.modifyTask k.currentTask (fun t ↦ t.sigClearPending sigint)
    else if (t.sigActions sigint).saHandler = sigDfl ∧ 1 < t.pid then k.timerKill
    else k
  else k

def timerNext : Option Slot :=
  match k.taskPickNext with
  | some next => some next
  | none =>
    if k.current.state = .zombie ∧ (k.tasks 0).used ∧ (k.tasks 0).state ≠ .zombie then some 0
    else none

def timerPark (u : SyscallFrame) : Kernel :=
  let k := (k.taskSave u).timerSigint
  if k.current.state ≠ .zombie then k.modifyTask k.currentTask (fun t ↦ t.setState .runnable) else k

/-- `timer_preempt_from_user` on the registers of the interrupted user code; `polled` are the
effects of the devices that it polls. -/
def timerPreemptFromUser (u : SyscallFrame) (polled : List Effect) : Kernel × Option Slot :=
  let k := k.applyAll polled
  if k.current.used = false then (k, none)
  else
    let k := k.timerPark u
    match k.timerNext with
    | none => (k.modifyTask k.currentTask (fun t ↦ t.setState .running), none)
    | some next =>
      (((k.setRunning next).taskAccountSwitch next).vmmUserActivate ((k.tasks next).ctx.cr3) |>.1,
        some next)

end Kernel

end YabroOS
