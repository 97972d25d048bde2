import YabroOS.Lib.Asm

namespace YabroOS

open Lib.Asm

/-- `syscall_frame_t`; it is also what user code can see of the processor apart from the segment
bases. -/
structure SyscallFrame where
  regs : Regs
  userRip : UInt64
  userRflags : UInt64
  userRsp : UInt64
  userCr3 : UInt64

structure TaskContext where
  regs : Regs
  rsp : UInt64
  rip : UInt64
  rflags : UInt64
  cr3 : UInt64
  fsBase : UInt64
  gsBase : UInt64

namespace SyscallFrame

def rax (f : SyscallFrame) : UInt64 := f.regs .rax

def setRax (f : SyscallFrame) (v : UInt64) : SyscallFrame :=
  { f with regs := Function.update f.regs .rax v }

def ofWords (w : ℕ → UInt64) : SyscallFrame where
  regs := fun r ↦ w r.index
  userRip := w 15
  userRflags := w 16
  userRsp := w 17
  userCr3 := w 18

@[simp] theorem setRax_rax (f : SyscallFrame) (v : UInt64) : (f.setRax v).rax = v := by
  simp [setRax, rax]

@[simp] theorem setRax_self (f : SyscallFrame) : f.setRax f.rax = f := by
  simp [setRax, rax]

theorem setRax_eq_self_iff (f : SyscallFrame) (v : UInt64) : f.setRax v = f ↔ f.rax = v := by
  constructor
  · intro h
    have hr : (f.setRax v).rax = f.rax := by rw [h]
    rw [setRax_rax] at hr
    exact hr.symm
  · rintro rfl
    exact setRax_self f

end SyscallFrame

namespace TaskContext

def setRax (c : TaskContext) (v : UInt64) : TaskContext :=
  { c with regs := Function.update c.regs .rax v }

def words (c : TaskContext) (i : ℕ) : UInt64 :=
  match saved[i]? with
  | some r => c.regs r
  | none =>
    match i with
    | 15 => c.rsp
    | 16 => c.rip
    | 17 => c.rflags
    | 18 => c.cr3
    | 19 => c.fsBase
    | 20 => c.gsBase
    | _ => 0

end TaskContext

inductive TaskState
  | unused | runnable | running | blocked | zombie
  deriving DecidableEq

inductive IoWait
  | none | poll | select | epoll | socketRead | socketWrite | socketAccept | nanosleep
  | ptyRead | ptyDrain | tty
  deriving DecidableEq

structure SigAction where
  saHandler : UInt64
  saFlags : UInt64
  saRestorer : UInt64
  saMask : UInt64
  deriving DecidableEq

/-- A set of signals. A valid signal lies in 1..64, so the second word of the source's sets is
never used. -/
abbrev Sigset := ℕ → Bool

structure Task where
  used : Bool
  state : TaskState
  pid : ℤ
  ppid : ℤ
  tgid : ℤ
  pgrp : ℤ
  session : ℤ
  exitStatus : ℤ
  tidAddress : UInt64
  futexAddr : UInt64
  futexCr3 : UInt64
  futexDeadlineNs : UInt64
  pipeWaitFd : ℤ
  pipeWaitBuf : UInt64
  pipeWaitCount : UInt64
  ioWaitKind : IoWait
  ioWaitValid : Bool
  ioWaitNr : UInt64
  ioWaitDeadlineNs : UInt64
  ioResumeValid : Bool
  ioResumeNr : UInt64
  ioResumeRip : UInt64
  ioResumeStartNs : UInt64
  ioResumeDeadlineNs : UInt64
  fbMapCount : ℕ
  nice : ℤ
  switches : ℕ
  wait4Active : Bool
  wait4Pid : ℤ
  wait4StatusPtr : UInt64
  wait4ReapPid : ℤ
  ctx : TaskContext
  sigPending : Sigset
  sigBlocked : Sigset
  sigActions : ℕ → SigAction
  sigSavedFrame : SyscallFrame
  sigSavedValid : Bool
  sigActive : Bool

namespace Task

def setRax (t : Task) (v : UInt64) : Task := { t with ctx := t.ctx.setRax v }

def setState (t : Task) (s : TaskState) : Task := { t with state := s }

def clearIoWait (t : Task) : Task :=
  { t with ioWaitKind := .none, ioWaitValid := false, ioWaitNr := 0, ioWaitDeadlineNs := 0 }

def clearPipeWait (t : Task) : Task :=
  { t with pipeWaitFd := -1, pipeWaitBuf := 0, pipeWaitCount := 0 }

def clearFutex (t : Task) : Task :=
  { t with futexAddr := 0, futexCr3 := 0, futexDeadlineNs := 0 }

def clearWait4 (t : Task) : Task :=
  { t with wait4Active := false, wait4Pid := -1, wait4StatusPtr := 0 }

end Task

end YabroOS
