import YabroOS.Kernel.Files
import YabroOS.Memory.UserCopy
import YabroOS.Kernel.Sched

namespace YabroOS

open Memory Function Lib.Asm

/-- What interrupts and system calls other than those of `Process` do to the tasks, one call of
the source at a time. What they do to memory and to the descriptors is left open. -/
inductive Effect
  | wakeIo
  | clock (now : UInt64)
  | queueSignal (i : Slot) (sig : ℕ)
  | pendSignal (i : Slot) (sig : ℕ)
  | sigaction (sig : ℕ) (a : SigAction)
  | sigprocmask (m : Sigset)
  | pipeRead (i : Slot) (rax : UInt64) (copied : Bool)
  | pipeClose (fd : ℕ)
  | ioResume (valid : Bool) (nr rip startNs deadlineNs : UInt64)
  | setGroup (i : Slot) (pgrp session : ℤ)
  | setNice (i : Slot) (nice : ℤ)
  | setTid (addr : UInt64)
  | framebuffer (count users : ℕ)
  | io (io : Io)
  | vm (vm : Vmm)

namespace Task

def pipeReadDone (t : Task) (rax : UInt64) (copied : Bool) : Task :=
  if t.used = false ∨ t.state ≠ .blocked ∨ t.pipeWaitFd < 0 then t
  else if copied then
    { (t.setRax rax).clearPipeWait with
      ioWaitKind := .none, ioWaitValid := false, ioWaitNr := 0, state := .runnable }
  else (t.setRax rax).clearPipeWait

def pipeCloseDone (t : Task) (fd : ℕ) : Task :=
  if t.used ∧ t.state = .blocked ∧ t.pipeWaitFd = fd then
    { (t.setRax 0).clearPipeWait with state := .runnable }
  else t

def registerIoWait (t : Task) (kind : IoWait) (nr deadlineNs : UInt64) : Task :=
  let rip := if 2 ≤ t.ctx.rip then t.ctx.rip - 2 else t.ctx.rip
  { (t.setRax nr) with
    ctx := { (t.setRax nr).ctx with rip := rip }
    ioWaitKind := kind
    ioWaitValid := true
    ioWaitNr := nr
    ioWaitDeadlineNs := deadlineNs
    state := .blocked }

end Task

namespace Kernel

def apply (k : Kernel) : Effect → Kernel
  | .wakeIo => k.taskWakeIoWaiters.1
  | .clock now => { k with now := now }.taskWakeTimedIoWaiters
  | .queueSignal i sig => k.modifyTask i (fun t ↦ if t.used then t.ttyQueueSignal sig else t)
  | .pendSignal i sig =>
    k.modifyTask i (fun t ↦ if t.used ∧ sigValid sig then t.sigPendingSet sig else t)
  | .sigaction sig a =>
    k.modifyTask k.currentTask (fun t ↦
      if sigValid sig ∧ sig ≠ 9 then { t with sigActions := update t.sigActions sig a } else t)
  | .sigprocmask m => k.modifyTask k.currentTask (fun t ↦ { t with sigBlocked := m })
  | .pipeRead i rax copied => k.modifyTask i (fun t ↦ t.pipeReadDone rax copied)
  | .pipeClose fd => { k with tasks := fun i ↦ (k.tasks i).pipeCloseDone fd }
  | .ioResume valid nr rip s d =>
    k.modifyTask k.currentTask (fun t ↦
      { t with
        ioResumeValid := valid, ioResumeNr := nr, ioResumeRip := rip, ioResumeStartNs := s
        ioResumeDeadlineNs := d })
  | .setGroup i pgrp session => k.modifyTask i (fun t ↦ { t with pgrp := pgrp, session := session })
  | .setNice i nice => k.modifyTask i (fun t ↦ { t with nice := nice })
  | .setTid addr => k.modifyTask k.currentTask (fun t ↦ { t with tidAddress := addr })
  | .framebuffer count users =>
    { k.modifyTask k.currentTask (fun t ↦ { t with fbMapCount := count }) with
      framebufferUsers := users }
  | .io io => k.setIo io
  | .vm vm => k.setVm vm

def applyAll (k : Kernel) (l : List Effect) : Kernel := l.foldl apply k

/-- The wait of `task_block_io_until` when no other task can run: each element of `ticks` is one
`kernel_wait_tick`. Without enough of them the call has not returned. -/
def waitTicks (t : Slot) : List (List Effect) → Kernel → Option Kernel
  | ticks, k =>
    if (k.tasks t).state ≠ .blocked then
      match k.taskPickNext with
      | some alt => some (k.switchTo alt)
      | none => some { k.setRunning t with taskSwitchPending := true, taskReturnCtx := some t }
    else
      match ticks with
      | [] => none
      | tick :: ticks => waitTicks t ticks (k.applyAll tick)

def taskBlockIoUntil (k : Kernel) (f : SyscallFrame) (kind : IoWait) (nr deadlineNs : UInt64)
    (ticks : List (List Effect)) : Option Kernel :=
  let i := k.currentTask
  let k := (k.taskSave f).modifyTask i (fun t ↦ t.registerIoWait kind nr deadlineNs)
  match k.taskPickNext with
  | some next => some (k.switchTo next)
  | none => waitTicks i ticks k

end Kernel

def asInt (v : UInt64) : ℤ :=
  let n : ℕ := v.toNat % 2 ^ 32
  if n < 2 ^ 31 then (n : ℤ) else (n : ℤ) - 2 ^ 32

def ofInt (v : ℤ) : UInt64 := UInt64.ofNat (v % 2 ^ 64).toNat

def waitStatus (exitStatus : ℤ) : List UInt8 := [0, UInt8.ofNat (exitStatus % 256).toNat, 0, 0]

def echild : ℕ := 10
def efault : ℕ := 14
def esrch : ℕ := 3

def cloneVm : UInt64 := 0x100
def cloneFs : UInt64 := 0x200
def cloneFiles : UInt64 := 0x400
def cloneSighand : UInt64 := 0x800
def cloneThread : UInt64 := 0x10000
def cloneSettls : UInt64 := 0x80000
def cloneParentSettid : UInt64 := 0x100000
def cloneChildCleartid : UInt64 := 0x200000

def cloneAllowed : UInt64 := 0x7D4FFF

namespace Task

def wait4Done (p : Task) (pid : ℤ) : Task :=
  { (p.setRax (ofInt pid)).clearWait4 with wait4ReapPid := pid, state := .runnable }

def registerWait4 (t : Task) (pid : ℤ) (status : UInt64) : Task :=
  { t with wait4Active := true, wait4Pid := pid, wait4StatusPtr := status }

def registerPipeWait (t : Task) (fd : ℤ) (buf count : UInt64) : Task :=
  { t with pipeWaitFd := fd, pipeWaitBuf := buf, pipeWaitCount := count, state := .blocked }

def registerFutex (t : Task) (uaddr deadlineNs : UInt64) : Task :=
  { t.setRax 0 with
    futexAddr := uaddr
    futexCr3 := t.ctx.cr3 &&& 0xFFFFFFFFFFFFF000
    futexDeadlineNs := deadlineNs }

def enterImage (t : Task) (entry stack cr3 : UInt64) : Task :=
  { t with ctx := ⟨update t.ctx.regs .rax 0, stack, entry, 0x202, cr3, 0, 0⟩ }

def cloned (child parent : Task) (pid : ℤ) (flags ctid : UInt64) : Task :=
  { child with
    used := true
    state := .runnable
    pid := pid
    ppid := parent.pid
    tgid := if flags &&& cloneThread ≠ 0 then parent.tgid else pid
    pgrp := parent.pgrp
    session := parent.session
    exitStatus := 0
    tidAddress := if flags &&& cloneChildCleartid ≠ 0 then ctid else 0
    futexAddr := 0
    futexCr3 := 0
    futexDeadlineNs := 0
    pipeWaitFd := -1
    pipeWaitBuf := 0
    pipeWaitCount := 0
    ioWaitKind := .none
    ioWaitValid := false
    ioWaitNr := 0
    ioWaitDeadlineNs := 0
    ioResumeValid := false
    ioResumeNr := 0
    ioResumeRip := 0
    ioResumeStartNs := 0
    ioResumeDeadlineNs := 0
    wait4Active := false
    wait4Pid := -1
    wait4StatusPtr := 0
    wait4ReapPid := -1
    fbMapCount := 0
    nice := parent.nice
    switches := 0
    ctx := parent.ctx.setRax 0
    sigPending := fun _ ↦ false
    sigBlocked := parent.sigBlocked
    sigActions := fun s ↦ if sigValid s then parent.sigActions s else child.sigActions s
    sigSavedValid := false
    sigActive := false }

end Task

namespace Kernel

variable (k : Kernel)

def findTask (p : Task → Bool) : Option Slot :=
  (List.finRange 64).find? (fun i ↦ (k.tasks i).used && p (k.tasks i))

def taskCr3IsShared (i : Slot) : Bool :=
  (k.tasks i).ctx.cr3 ≠ 0 ∧
    (List.finRange 64).any (fun j ↦ j ≠ i ∧ (k.tasks j).used ∧
      rootOf (k.tasks j).ctx.cr3 = rootOf (k.tasks i).ctx.cr3)

def taskReapResources (i : Slot) : Kernel :=
  if (k.tasks i).used = false then k
  else
    let k := k.setIo (k.io.taskFdTableRelease i)
    let cr3 := (k.tasks i).ctx.cr3
    let k :=
      if cr3 ≠ 0 ∧ cr3 ≠ (k.tasks 0).ctx.cr3 ∧ k.taskCr3IsShared i = false then
        k.setVm (k.vm.vmmUserSpaceDestroy (rootOf cr3)).1
      else k
    k.modifyTask i (fun t ↦ { t with ctx := { t.ctx with cr3 := 0 } })

def reap (i : Slot) : Kernel :=
  (k.taskReapResources i).modifyTask i (fun t ↦ { t with used := false, state := .unused })

def releaseFramebuffer (i : Slot) : Kernel :=
  let n := (k.tasks i).fbMapCount
  { k.modifyTask i (fun t ↦ { t with fbMapCount := 0 }) with
    framebufferUsers := k.framebufferUsers - n }

def wakeFutex (addr : UInt64) (root : ℕ) : Kernel :=
  { k with
    tasks := fun i ↦
      let w := k.tasks i
      if w.used ∧ w.state = .blocked ∧ w.futexAddr = addr ∧ rootOf w.futexCr3 = root then
        { (w.setRax 0).clearFutex with state := .runnable }
      else w }

def taskClearChildTid (i : Slot) : Kernel :=
  let addr := (k.tasks i).tidAddress
  if addr = 0 then k
  else
    let k := (k.userCopyTo addr [0, 0, 0, 0]).1
    let k := k.wakeFutex addr (rootOf (k.tasks i).ctx.cr3)
    k.modifyTask i (fun t ↦ { t with tidAddress := 0 })

def storeStatus (status : UInt64) (exitStatus : ℤ) : Kernel × ℤ :=
  if status = 0 then (k, 0) else k.userCopyTo status (waitStatus exitStatus)

def wakeParent (c : Slot) : List Slot → Kernel → Kernel
  | [], k => k
  | i :: rest, k =>
    let p := k.tasks i
    let t := k.tasks c
    if p.used = false ∨ p.pid ≠ t.ppid ∨ p.state ≠ .blocked ∨ p.wait4Active = false then
      wakeParent c rest k
    else if 0 < p.wait4Pid ∧ p.wait4Pid ≠ t.pid then wakeParent c rest k
    else
      match k.vmmUserActivate p.ctx.cr3 with
      | (k, rc) =>
        if rc ≠ 0 then wakeParent c rest k
        else
          match k.storeStatus p.wait4StatusPtr t.exitStatus with
          | (k, rc) =>
            if rc ≠ 0 then wakeParent c rest k
            else k.modifyTask i (fun p ↦ p.wait4Done t.pid)

def exitNext (ppid : ℤ) : Slot :=
  match if 0 < ppid then k.findTask (fun p ↦ p.pid = ppid ∧ p.state = .runnable) else none with
  | some p => p
  | none => k.taskPickNext.getD 0

def exitTask (status : ℤ) : Kernel :=
  let c := k.currentTask
  let k := (k.releaseFramebuffer c).taskClearChildTid c
  let k := k.setIo (k.io.taskFdTableRelease c)
  k.modifyTask c (fun t ↦ { t with exitStatus := status, state := .zombie })

def signalParent (ppid : ℤ) : Kernel :=
  match k.findTask (fun p ↦ p.pid = ppid) with
  | some i => k.modifyTask i (fun p ↦ p.sigPendingSet sigchld)
  | none => k

def notifyParent (c : Slot) (ppid : ℤ) : Kernel :=
  if 0 < ppid then wakeParent c (List.finRange 64) (k.signalParent ppid) else k

def sysExit (status : ℤ) : Kernel :=
  if k.currentTask = 0 then { k.setIo (k.io.taskFdTableRelease 0) with userExitPending := true }
  else
    let c := k.currentTask
    let k := k.exitTask status
    let ppid := (k.tasks c).ppid
    let k := k.notifyParent c ppid
    k.switchTo (k.exitNext ppid)

def sysExitGroup (status : ℤ) : Kernel :=
  if k.currentTask = 0 then { k with userExitPending := true } else k.sysExit status

def wait4Block (f : SyscallFrame) (pid : ℤ) (status : UInt64) : Kernel × UInt64 :=
  let i := k.currentTask
  let k := (k.modifyTask i (fun t ↦ t.registerWait4 pid status)).taskSave f
  let k := k.modifyTask i (fun t ↦ t.setState .blocked)
  match k.taskPickNext with
  | none => (k.modifyTask i (fun t ↦ t.clearWait4.setState .running), errno eagain)
  | some next => ((k.setRunning next).requestSwitch next, 0)

def sysWait4 (f : SyscallFrame) (pid : ℤ) (status : UInt64) (options : ℤ) : Kernel × UInt64 :=
  let cur := k.current
  if status ≠ 0 ∧ k.vm.vmmUserRangeOk status.toNat 4 true = false then (k, errno efault)
  else if options ≠ 0 ∧ options ≠ 1 then (k, errno einval)
  else
    match k.findTask (fun t ↦ t.ppid = cur.pid ∧ (0 < pid → t.pid = pid) ∧ t.state = .zombie) with
    | some c =>
      match k.storeStatus status (k.tasks c).exitStatus with
      | (k, rc) =>
        if rc ≠ 0 then (k, errno efault)
        else ((k.reap c).modifyTask k.currentTask (fun t ↦ t.sigPendingSet sigchld),
          ofInt (k.tasks c).pid)
    | none => if options = 1 then (k, 0) else k.wait4Block f pid status

def sysSchedYield (f : SyscallFrame) (tick : List Effect) : Kernel × UInt64 :=
  let i := k.currentTask
  let k := (k.taskSave f).modifyTask i (fun t ↦ t.setRax 0)
  match k.taskPickNext with
  | none => (k.applyAll tick, 0)
  | some next => ((k.modifyTask i (fun t ↦ t.setState .runnable)).switchTo next, 0)

def pipeBlock (f : SyscallFrame) (fd : ℤ) (buf count : UInt64) : Kernel × UInt64 :=
  let i := k.currentTask
  let k := (k.taskSave f).modifyTask i (fun t ↦ t.registerPipeWait fd buf count)
  match k.taskPickNext with
  | none => (k.modifyTask i (fun t ↦ t.clearPipeWait.setState .running), errno eagain)
  | some next => (k.switchTo next, 0)

def futexBlock (f : SyscallFrame) (uaddr deadlineNs : UInt64) : Kernel × UInt64 :=
  let i := k.currentTask
  let k := (k.taskSave f).modifyTask i (fun t ↦ t.registerFutex uaddr deadlineNs)
  match k.taskPickNext with
  | none => (k.modifyTask i (fun t ↦ t.clearFutex.setState .running), errno eagain)
  | some next =>
    (((k.modifyTask i (fun t ↦ t.setState .blocked)).setRunning next).requestSwitch next, 0)

def futexWaiters (uaddr : UInt64) (root val : ℕ) : List Slot :=
  ((List.finRange 64).filter (fun i ↦ (k.tasks i).used ∧ (k.tasks i).state = .blocked ∧
    (k.tasks i).futexAddr = uaddr ∧ rootOf (k.tasks i).futexCr3 = root)).take val

def futexWake (uaddr : UInt64) (val : ℕ) : Kernel × UInt64 :=
  let l := k.futexWaiters uaddr (rootOf k.current.ctx.cr3) val
  ({ k with
    tasks := fun i ↦ if i ∈ l then { ((k.tasks i).setRax 0).clearFutex with state := .runnable }
      else k.tasks i },
    UInt64.ofNat l.length)

def leWord (l : List UInt8) : UInt64 := l.foldr (fun b v ↦ v * 256 + b.toUInt64) 0

def futexDeadline (timeout : UInt64) : Except ℕ UInt64 :=
  if timeout = 0 then .ok 0
  else if k.vm.vmmUserRangeOk timeout.toNat 16 false = false then .error efault
  else
    match k.vm.userCopyFromCr3 k.copyRoot timeout.toNat 16 with
    | none => .error efault
    | some ts =>
      let sec := (leWord (ts.take 8)).toNat
      let nsec := (leWord (ts.drop 8)).toNat
      if 2 ^ 63 ≤ sec ∨ 2 ^ 63 ≤ nsec ∨ 1000000000 ≤ nsec then .error einval
      else if sec = 0 ∧ nsec = 0 then .error etimedout
      else if 2 ^ 64 ≤ sec * 1000000000 + nsec ∨ 2 ^ 64 ≤ sec * 1000000000 + nsec + k.now.toNat then
        .error einval
      else .ok (k.now + UInt64.ofNat (sec * 1000000000 + nsec))

def sysFutex (f : SyscallFrame) (uaddr op val timeout : UInt64) : Kernel × UInt64 :=
  if uaddr = 0 ∨ uaddr % 4 ≠ 0 then (k, errno einval)
  else if op.toNat % 128 = 0 then
    match k.vm.userCopyFromCr3 k.copyRoot uaddr.toNat 4 with
    | none => (k, errno efault)
    | some w =>
      if leWord w ≠ val % 2 ^ 32 then (k, errno eagain)
      else
        match k.futexDeadline timeout with
        | .error e => (k, errno e)
        | .ok deadlineNs => k.futexBlock f uaddr deadlineNs
  else if op.toNat % 128 = 1 then
    if k.vm.vmmUserRangeOk uaddr.toNat 4 false = false then (k, errno efault)
    else k.futexWake uaddr (val.toNat % 2 ^ 32)
  else (k, errno enosys)

def cloneCheck (flags childStack ptid ctid tls : UInt64) (lazyStack : Bool) : Option ℕ :=
  if flags &&& cloneSettls ≠ 0 ∧ userLimit ≤ tls.toNat then some efault
  else if flags &&& cloneAllowed ≠ flags then some einval
  else if flags &&& cloneVm = 0 then some enosys
  else if childStack ≠ 0 ∧ (userLimit ≤ childStack.toNat ∨
      k.vm.vmmUserRangeOk (childStack.toNat - 1) 1 true = false ∧ lazyStack = false) then some efault
  else if flags &&& cloneParentSettid ≠ 0 ∧ (ptid = 0 ∨
    k.vm.vmmUserRangeOk ptid.toNat 4 true = false) then some efault
  else if flags &&& cloneChildCleartid ≠ 0 ∧ (ctid = 0 ∨
    k.vm.vmmUserRangeOk ctid.toNat 4 true = false) then
    some efault
  else none

def intBytes (v : ℤ) : List UInt8 :=
  (List.range 4).map (fun i ↦ UInt8.ofNat ((v % 2 ^ 32).toNat / 256 ^ i))

def storePid (child : Slot) (enabled : Bool) (addr : UInt64) : Kernel × Bool :=
  if enabled then
    match k.userCopyTo addr (intBytes (k.tasks child).pid) with
    | (k, rc) =>
      if rc ≠ 0 then
        ((k.setIo (k.io.taskFdTableRelease child)).modifyTask child
          (fun t ↦ { t with used := false }), false)
      else (k, true)
  else (k, true)

def childStart (flags childStack tls : UInt64) (t : Task) : Task :=
  let t := if flags &&& cloneSettls ≠ 0 then { t with ctx := { t.ctx with fsBase := tls } } else t
  if childStack ≠ 0 then
    { t with ctx := { t.ctx with rsp := childStack, regs := update t.ctx.regs .rbp 0 } }
  else t

def spawn (child : Slot) (f : SyscallFrame) (flags ctid : UInt64) : Kernel :=
  let k := k.taskSave f
  { k.modifyTask child (fun t ↦ t.cloned k.current k.nextPid flags ctid) with
    nextPid := k.nextPid + 1 }

def storePids (parent child : Slot) (flags ptid ctid : UInt64) (pid : ℤ) : Kernel × UInt64 :=
  match k.storePid child (flags &&& cloneParentSettid ≠ 0) ptid with
  | (k, false) => (k, errno efault)
  | (k, true) =>
    match k.storePid child (flags &&& cloneChildCleartid ≠ 0) ctid with
    | (k, false) => (k, errno efault)
    | (k, true) => (k.modifyTask parent (fun t ↦ t.setRax (ofInt pid)), ofInt pid)

def sysClone (f : SyscallFrame) (flags childStack ptid ctid tls : UInt64) (lazyStack : Bool) :
    Kernel × UInt64 :=
  match k.cloneCheck flags childStack ptid ctid tls lazyStack with
  | some e => (k, errno e)
  | none =>
    match (List.finRange 64).find? (fun i ↦ (k.tasks i).used = false) with
    | none => (k, errno enomem)
    | some child =>
      let k' := k.spawn child f flags ctid
      match k'.io.taskFdTableClone k.currentTask child (flags &&& cloneFiles ≠ 0) with
      | none => (k'.modifyTask child (fun t ↦ { t with used := false }), errno emfile)
      | some io =>
        ((k'.setIo io).modifyTask child (childStart flags childStack tls)).storePids k.currentTask
          child flags ptid ctid k.nextPid

def sysFork (f : SyscallFrame) : Kernel × UInt64 :=
  match k.sysClone f (cloneVm ||| cloneFs ||| cloneSighand) 0 0 0 0 false with
  | (k, pid) =>
    if 2 ^ 63 ≤ pid then (k, pid)
    else
      match k.findTask (fun t ↦ t.pid = asInt pid) with
      | none => (k, errno esrch)
      | some child =>
        let k := k.modifyTask child (fun t ↦ t.setState .blocked)
        match k.vm.vmmUserSpaceClone (rootOf k.current.ctx.cr3) with
        | (vm, .error _) => ((k.setVm vm).reap child, errno enomem)
        | (vm, .ok root) =>
          ((k.setVm vm).modifyTask child (fun t ↦
            { t with ctx := { t.ctx with
              cr3 := UInt64.ofNat (root * pageSize) }, state := .runnable }), pid)

def archSetGs : UInt64 := 0x1001
def archSetFs : UInt64 := 0x1002
def archGetFs : UInt64 := 0x1003
def archGetGs : UInt64 := 0x1004

def quadBytes (v : UInt64) : List UInt8 :=
  (List.range 8).map (fun i ↦ UInt8.ofNat (v.toNat / 256 ^ i))

def storeBase (addr v : UInt64) : Kernel × UInt64 :=
  match k.userCopyTo addr (quadBytes v) with
  | (k, rc) => (k, if rc ≠ 0 then errno efault else 0)

def sysArchPrctl (code addr : UInt64) : Kernel × UInt64 :=
  let i := k.currentTask
  if code = archSetFs ∨ code = archSetGs then
    if userLimit ≤ addr.toNat ∨ addr ≠ 0 ∧ k.vm.vmmUserTranslate addr.toNat = none then
      (k, errno efault)
    else if code = archSetFs then
      ({ k.modifyTask i (fun t ↦ { t with ctx := { t.ctx with fsBase := addr } }) with
        msrFsBase := addr }, 0)
    else ({ k.modifyTask i (fun t ↦ { t with ctx := { t.ctx with gsBase := addr } }) with
      msrGsBase := addr }, 0)
  else if code = archGetFs ∨ code = archGetGs then
    if addr = 0 ∨ k.vm.vmmUserRangeOk addr.toNat 8 true = false then (k, errno efault)
    else if code = archGetFs then
      (k.modifyTask i (fun t ↦ if t.used then { t with ctx := { t.ctx with fsBase := k.msrFsBase } }
        else t)).storeBase
        addr k.msrFsBase
    else k.storeBase addr k.current.ctx.gsBase
  else (k, errno einval)

def execEnter (entry stack cr3 : UInt64) : Kernel :=
  { k.modifyTask k.currentTask (fun t ↦ t.enterImage entry stack cr3) with
    syscallUserCr3 := cr3
    syscallUserRip := entry
    syscallUserRsp := stack
    syscallUserRflags := 0x202
    userExecPending := true }

end Kernel

end YabroOS
