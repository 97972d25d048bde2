import YabroOS.Entry.Restore
import YabroOS.Kernel.Dispatch

namespace YabroOS

open Memory Function Lib Lib.Asm Entry

/-- A processor that runs user code, with the kernel behind it. `fpu` are the x87 and SSE
registers, which the kernel never touches. -/
structure Machine where
  k : Kernel
  cpu : SyscallFrame
  fpu : ℕ → UInt64

/-- User code runs on, makes a system call, or is stopped by the timer, by another interrupt or a
fault that the kernel resolves, or by a fault that ends its task. -/
inductive Event
  | user (cpu : SyscallFrame) (fpu : ℕ → UInt64) (vm : Vmm)
  | syscall (c : Call) (scratch : Regs)
  | timer (polled : List Effect)
  | interrupt (effects : List Effect)
  | fault (vector : ℕ)

def exceptionSignalForVector : ℕ → ℕ
  | 0 => 8
  | 1 => 5
  | 3 => 5
  | 4 => 5
  | 6 => 4
  | 7 => 8
  | 11 => 7
  | 16 => 8
  | 17 => 7
  | 18 => 7
  | 19 => 8
  | _ => 11

def SyscallFrame.entered (u : SyscallFrame) : SyscallFrame :=
  { u with
    regs := update (update u.regs .rcx (u.userRip + 2)) .r11 u.userRflags
    userRip := u.userRip + 2 }

namespace Kernel

def enterSyscall (k : Kernel) (f : SyscallFrame) : Kernel :=
  { k with
    syscallUserRip := f.userRip
    syscallUserRsp := f.userRsp
    syscallUserRflags := f.userRflags
    syscallUserCr3 := f.userCr3 }

def resume (k : Kernel) (fpu : ℕ → UInt64) (i : Slot) : Machine :=
  let c := (k.tasks i).ctx
  ⟨{ (k.vmmUserActivate c.cr3).1 with msrFsBase := c.fsBase, msrGsBase := c.gsBase },
    frameOfContext c, fpu⟩

def takeSwitch (k : Kernel) (i : Slot) : Kernel :=
  let k := { k with taskSwitchPending := false }
  if k.taskSwitchDeferred then { k with taskSwitchDeferred := false }.taskCommitDeferredSwitch i
  else k

/-- `syscall_entry_asm` after `syscall_dispatch`; `none` if the kernel's shell takes over. -/
def leaveSyscall (k : Kernel) (f : SyscallFrame) (fpu : ℕ → UInt64) (scratch : Regs) :
    Option Machine :=
  if k.userExecPending then
    some ⟨{ k with userExecPending := false, msrFsBase := 0, msrGsBase := 0 },
      ⟨scratch, k.syscallUserRip, 0x202, k.syscallUserRsp, k.syscallUserCr3⟩, fpu⟩
  else if k.taskSwitchPending then k.taskReturnCtx.map (fun i ↦ (k.takeSwitch i).resume fpu i)
  else if k.userExitPending then none
  else some ⟨k, f, fpu⟩

def leaveFault (k : Kernel) (u : SyscallFrame) (fpu : ℕ → UInt64) : Option Machine :=
  if k.taskSwitchPending then
    k.taskReturnCtx.map (fun i ↦ { k with taskSwitchPending := false }.resume fpu i)
  else if k.userExitPending then none
  else some ⟨k, u, fpu⟩

end Kernel

namespace Machine

/-- A `SYSCALL` is fetched from a user address. The counter of the pids is an `int` that must not
overflow. -/
def step (m : Machine) : Event → Option Machine
  | .user cpu fpu vm => some ⟨m.k.setVm vm, { cpu with userCr3 := m.cpu.userCr3 }, fpu⟩
  | .syscall c scratch =>
    if m.cpu.userRip.toNat < userLimit ∧ m.k.nextPid < 2 ^ 31 - 1 then
      let f := m.cpu.entered
      ((m.k.enterSyscall f).syscallDispatch f c).bind (fun (k, f) ↦ k.leaveSyscall f m.fpu scratch)
    else none
  | .timer polled =>
    match m.k.timerPreemptFromUser m.cpu polled with
    | (k, none) => some ⟨k, m.cpu, m.fpu⟩
    | (k, some i) => some (k.resume m.fpu i)
  | .interrupt effects => some { m with k := m.k.applyAll effects }
  | .fault vector => (m.k.sysExit (128 + exceptionSignalForVector vector)).leaveFault m.cpu m.fpu

def run (m : Machine) (l : List Event) : Option Machine := l.foldlM step m

theorem run_cons (m : Machine) (e : Event) (l : List Event) :
    m.run (e :: l) = (m.step e).bind (·.run l) := rfl

/-- The states from the start of the first program on. -/
def Reachable (m : Machine) : Prop :=
  ∃ vm cr3 cpu fpu l, run ⟨.boot vm cr3, cpu, fpu⟩ l = some m

theorem Reachable.step {m m' : Machine} {e : Event} (h : m.Reachable) (hs : m.step e = some m') :
    m'.Reachable := by
  obtain ⟨vm, cr3, cpu, fpu, l, hl⟩ := h
  refine ⟨vm, cr3, cpu, fpu, l ++ [e], ?_⟩
  rw [run, List.foldlM_append, ← run, hl]
  exact congrArg (fun o : Option Machine ↦ o.bind some) hs

theorem entered_eq (u : SyscallFrame) (fs gs : UInt64) (glob : Glob → UInt64) (block : ℕ → UInt64) :
    frameOf ((afterSyscall { u with userRip := u.userRip + 2 } fs gs glob block).run
      syscallEntryAsm) = u.entered :=
  syscallEntryAsm_frame _ fs gs glob block

def oneStackPage : Vmm where
  pmm :=
    { regions := [⟨4096, 4120, 4102⟩]
      hhdm := 0xFFFF800000000000
      freePages := 18
      pageState := fun f ↦ 4097 ≤ f ∧ f ≤ 4101
      reservedState := fun _ ↦ false
      pageRefs := fun f ↦ if 4097 ≤ f ∧ f ≤ 4101 then 1 else 0
      ready := true }
  spaces :=
    let pt : Tab 0 := Slots.empty.set 1 ⟨⟨true, true, true, false, false, false, 0, 0⟩, 4101, false⟩
    let pd : Tab 1 := Slots.empty.set 0 (.next Tab.tableFlags 4100 pt)
    let pdpt : Tab 2 := Slots.empty.set 0 (.next Tab.tableFlags 4099 pd)
    Slots.empty.set 4097 (Slots.empty.set 0 (.next Tab.tableFlags 4098 pdpt))
  user := some 4097
  bytes := fun _ _ ↦ 0
  fbPhys := 0
  fbSize := 0
  upper := fun _ _ ↦ 0
  kernelCr3 := 0

def userAt (rax : UInt64) : SyscallFrame :=
  ⟨fun r ↦ if r = .rax then rax else 0, 0x1000, 0x202, 0x1800, 0x1001000⟩

def callOf (steps : List CallStep) (v : UInt64) : Call := ⟨steps, .ret v, [], false, .error 0⟩

def bootAt (cpu : SyscallFrame) : Machine := ⟨.boot oneStackPage 0x1001000, cpu, fun _ ↦ 0⟩

theorem bootAt_reachable (cpu : SyscallFrame) : (bootAt cpu).Reachable := ⟨_, _, _, _, [], rfl⟩

def userStep (m : Machine) (rax : UInt64) (fpu : ℕ → UInt64) : Option Machine :=
  m.step (.user (userAt rax) fpu m.k.vm)

def syscallStep (m : Machine) (a : Call) : Option Machine := m.step (.syscall a (fun _ ↦ 0))

end Machine

end YabroOS
