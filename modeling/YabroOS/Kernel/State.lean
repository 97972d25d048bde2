import YabroOS.Kernel.Task
import YabroOS.Lib.Instances
import YabroOS.Memory.Vmm

namespace YabroOS

open Memory Function

def maxFiles : ℕ := 512
def pipeCap : ℕ := 65536
def sockCap : ℕ := 16384
def ptyCap : ℕ := 65536
def userLimit : ℕ := 0x0000800000000000

abbrev Slot := Fin 64

/-- `type` and `private_data` of a descriptor; `closed` is type 0. A socket descriptor's pointer
carries its side in its lowest bit. -/
inductive Target
  | closed
  | file
  | pipeR (p : Fin 8)
  | pipeW (p : Fin 8)
  | pseudo (dev : ℕ)
  | socket (s : Fin 32) (side : Bool)
  | eventfd (e : Fin 8)
  | timerfd (t : Fin 8)
  | ptyMaster (p : Fin 8)
  | ptySlave (p : Fin 8)
  | epoll (e : Fin 4)
  deriving DecidableEq

structure FileDesc where
  inUse : Bool
  target : Target
  flags : ℕ
  deriving DecidableEq

structure PipeState where
  data : List UInt8
  readers : ℕ
  writers : ℕ
  deriving DecidableEq

structure UnixSocketState where
  data : Bool → List UInt8
  closed : Bool → Bool
  refs : ℕ
  sideRefs : Bool → ℕ
  listener : Bool
  bound : Bool
  connected : Bool
  pending : List ℤ
  path : List UInt8

structure Termios where
  iflag : UInt32
  oflag : UInt32
  lflag : UInt32
  cc : ℕ → UInt8

structure PtyState where
  masterToSlave : List UInt8
  slaveToMaster : List UInt8
  canon : List UInt8
  masterOpen : Bool
  slaveOpen : Bool
  masterRefs : ℕ
  slaveRefs : ℕ
  termios : Termios
  fgPgrp : ℤ
  session : ℤ
  outputStopped : Bool

structure Io where
  taskFdTables : Fin 32 → ℕ → FileDesc
  taskFdTableId : Slot → Option (Fin 32)
  taskFdTableRefs : Fin 32 → ℕ
  pipes : Fin 8 → PipeState
  unixSockets : Fin 32 → UnixSocketState
  ptySlots : Fin 8 → PtyState
  eventfds : Fin 8 → ℕ
  keyQueue : List UInt8
  consoleFgPgrp : ℤ

/-- The kernel's variables, with the two segment base registers of the processor. -/
structure Kernel where
  tasks : Slot → Task
  currentTask : Slot
  nextPid : ℤ
  taskSwitchPending : Bool
  taskSwitchDeferred : Bool
  taskReturnCtx : Option Slot
  userExitPending : Bool
  userExecPending : Bool
  syscallUserRip : UInt64
  syscallUserRsp : UInt64
  syscallUserRflags : UInt64
  syscallUserCr3 : UInt64
  msrFsBase : UInt64
  msrGsBase : UInt64
  framebufferUsers : ℕ
  now : UInt64
  vm : Vmm
  io : Io

def Task.zero : Task where
  used := false
  state := .unused
  pid := 0
  ppid := 0
  tgid := 0
  pgrp := 0
  session := 0
  exitStatus := 0
  tidAddress := 0
  futexAddr := 0
  futexCr3 := 0
  futexDeadlineNs := 0
  pipeWaitFd := 0
  pipeWaitBuf := 0
  pipeWaitCount := 0
  ioWaitKind := .none
  ioWaitValid := false
  ioWaitNr := 0
  ioWaitDeadlineNs := 0
  ioResumeValid := false
  ioResumeNr := 0
  ioResumeRip := 0
  ioResumeStartNs := 0
  ioResumeDeadlineNs := 0
  fbMapCount := 0
  nice := 0
  switches := 0
  wait4Active := false
  wait4Pid := 0
  wait4StatusPtr := 0
  wait4ReapPid := 0
  ctx := ⟨fun _ ↦ 0, 0, 0, 0, 0, 0, 0⟩
  sigPending := fun _ ↦ false
  sigBlocked := fun _ ↦ false
  sigActions := fun _ ↦ ⟨0, 0, 0, 0⟩
  sigSavedFrame := ⟨fun _ ↦ 0, 0, 0, 0, 0⟩
  sigSavedValid := false
  sigActive := false

def Task.root : Task :=
  { Task.zero with
    used := true
    state := .running
    pid := 1
    tgid := 1
    pgrp := 1
    session := 1
    pipeWaitFd := -1
    wait4Pid := -1
    wait4ReapPid := -1 }

def Io.init : Io where
  taskFdTables := fun table fd ↦
    if table = 0 ∧ fd = 0 then ⟨true, .pseudo 4, 0⟩
    else if table = 0 ∧ (fd = 1 ∨ fd = 2) then ⟨true, .pseudo 3, 0⟩
    else ⟨false, .closed, 0⟩
  taskFdTableId := fun i ↦ if i = 0 then some 0 else none
  taskFdTableRefs := fun table ↦ if table = 0 then 1 else 0
  pipes := fun _ ↦ ⟨[], 0, 0⟩
  unixSockets := fun _ ↦ ⟨fun _ ↦ [], fun _ ↦ false, 0, fun _ ↦ 0, false, false, false, [], []⟩
  ptySlots := fun _ ↦ ⟨[], [], [], false, false, 0, 0, ⟨0, 0, 0, fun _ ↦ 0⟩, 0, 0, false⟩
  eventfds := fun _ ↦ 0
  keyQueue := []
  consoleFgPgrp := 0

namespace Kernel

/-- The kernel before its first program, which is to run in the address space `cr3`. -/
def boot (vm : Vmm) (cr3 : UInt64) : Kernel where
  tasks := fun i ↦ if i = 0 then { Task.root with ctx := { Task.root.ctx with cr3 := cr3 } }
    else Task.zero
  currentTask := 0
  nextPid := 100
  taskSwitchPending := false
  taskSwitchDeferred := false
  taskReturnCtx := none
  userExitPending := false
  userExecPending := false
  syscallUserRip := 0
  syscallUserRsp := 0
  syscallUserRflags := 0
  syscallUserCr3 := 0
  msrFsBase := 0
  msrGsBase := 0
  framebufferUsers := 0
  now := 0
  vm := vm
  io := .init

def rootOf (cr3 : UInt64) : ℕ := cr3.toNat / pageSize

def current (k : Kernel) : Task := k.tasks k.currentTask

def setTask (k : Kernel) (i : Slot) (t : Task) : Kernel := { k with tasks := update k.tasks i t }

def modifyTask (k : Kernel) (i : Slot) (g : Task → Task) : Kernel := k.setTask i (g (k.tasks i))

def setVm (k : Kernel) (vm : Vmm) : Kernel := { k with vm := vm }

def setIo (k : Kernel) (io : Io) : Kernel := { k with io := io }

def vmmUserActivate (k : Kernel) (cr3 : UInt64) : Kernel × ℤ :=
  let (vm, rc) := k.vm.vmmUserActivate (rootOf cr3)
  (k.setVm vm, rc)

def copyRoot (k : Kernel) : ℕ :=
  if k.syscallUserCr3 = 0 then k.vm.user.getD 0 else rootOf k.syscallUserCr3

def userCopyToCr3 (k : Kernel) (cr3 dst : UInt64) (data : List UInt8) : Kernel × ℤ :=
  let (vm, rc) := k.vm.userCopyToCr3 (rootOf cr3) dst.toNat data
  (k.setVm vm, rc)

def userCopyTo (k : Kernel) (dst : UInt64) (data : List UInt8) : Kernel × ℤ :=
  let (vm, rc) := k.vm.userCopyToCr3 k.copyRoot dst.toNat data
  (k.setVm vm, rc)

section

variable (k : Kernel) (i j : Slot) (t : Task) (g : Task → Task)

@[simp] theorem setVm_tasks (vm : Vmm) : (k.setVm vm).tasks = k.tasks := rfl
@[simp] theorem setVm_currentTask (vm : Vmm) : (k.setVm vm).currentTask = k.currentTask := rfl
@[simp] theorem setIo_tasks (io : Io) : (k.setIo io).tasks = k.tasks := rfl
@[simp] theorem modifyTask_currentTask : (k.modifyTask i g).currentTask = k.currentTask := rfl

@[simp] theorem modifyTask_self : (k.modifyTask i g).tasks i = g (k.tasks i) := update_self ..

theorem modifyTask_of_ne (h : j ≠ i) : (k.modifyTask i g).tasks j = k.tasks j := update_of_ne h ..

theorem modifyTask_apply :
    (k.modifyTask i g).tasks j = if j = i then g (k.tasks j) else k.tasks j := by
  by_cases h : j = i
  · subst h
    rw [if_pos rfl, modifyTask_self]
  · rw [if_neg h, modifyTask_of_ne k i j g h]


end

end Kernel

end YabroOS
