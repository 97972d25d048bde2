import YabroOS.Entry.Stubs
import YabroOS.Kernel.Dispatch
import YabroOS.Memory.CowIsolation

namespace YabroOS.Entry

open Lib.Asm Memory

/-- The registers of running user code. Bit 1 of the flags is always set, and bits 3, 5 and 15
are always clear. -/
structure UserCpu extends SyscallFrame where
  reserved : userRflags &&& 0x802A = 2

/-- The frames that the two entry paths hand to `syscall_dispatch` name the same user state, and
the address space that it activates and stores for the task is the one the processor was using. -/
def PathsAgree (k : Kernel) (u : UserCpu) (fs gs rsp0 : UInt64) (glob : Glob → UInt64)
    (block : ℕ → UInt64) : Prop :=
  let s := frameOf ((afterSyscall u.toSyscallFrame fs gs glob block).run syscallEntryAsm)
  let i := frameOf ((afterInterrupt u.toSyscallFrame fs gs rsp0 glob block).run syscallIsrStub)
  i.userRip = s.userRip ∧ i.userRflags = s.userRflags ∧ i.userRsp = s.userRsp ∧
    i.userCr3 = s.userCr3 ∧ (k.adoptCr3 i).vm.user = some (Kernel.rootOf u.userCr3) ∧
      (k.adoptCr3 i).current.ctx.cr3 = u.userCr3

theorem UserCpu.rflags_ne (u : UserCpu) : u.userRflags ≠ userCs := by
  intro h
  have hres := u.reserved
  rw [h] at hres
  exact absurd hres (by decide)

theorem adoptCr3_current (k : Kernel) (f : SyscallFrame) (hcr3 : f.userCr3 ≠ 0)
    (hused : k.current.used = true) : (k.adoptCr3 f).current.ctx.cr3 = f.userCr3 := by
  have hused' : (k.tasks k.currentTask).used = true := hused
  simp [Kernel.adoptCr3, hcr3, Kernel.current, Kernel.vmmUserActivate, Kernel.modifyTask,
    Kernel.setTask, hused']

/-- For no user state do the two paths agree: `int 0x80` puts the stack pointer, which user code
chooses, where `syscall_dispatch` reads the page-table root. -/
theorem paths_disagree (k : Kernel) (u : UserCpu) (fs gs rsp0 : UInt64) (glob : Glob → UInt64)
    (block : ℕ → UInt64) :
    ¬ PathsAgree k u fs gs rsp0 glob block ∧
      (u.userRsp ≠ 0 ∧ k.current.used = true →
        (k.adoptCr3 (frameOf ((afterInterrupt u.toSyscallFrame fs gs rsp0 glob block).run
          syscallIsrStub))).current.ctx.cr3 = u.userRsp) := by
  constructor
  · rintro ⟨-, hflags, -⟩
    rw [syscallEntryAsm_frame, syscallIsrStub_frame] at hflags
    exact u.rflags_ne hflags.symm
  · rintro ⟨hrsp, hused⟩
    rw [syscallIsrStub_frame]
    exact adoptCr3_current k _ hrsp hused

/-- User code in the address space of frame 4097 with a stack pointer of its choice. -/
def chosenStack : UserCpu where
  regs := fun _ ↦ 0
  userRip := 0x400000
  userRflags := 0x202
  userRsp := 0x1234000
  userCr3 := 0x1001000
  reserved := by decide

theorem int80_stores_chosen_root :
    ¬ PathsAgree (.boot Vmm.oneReadOnlyPage 0x1001000) chosenStack 0 0 0 (fun _ ↦ 0) (fun _ ↦ 0) ∧
      ((Kernel.boot Vmm.oneReadOnlyPage 0x1001000).adoptCr3
        (frameOf ((afterInterrupt chosenStack.toSyscallFrame 0 0 0 (fun _ ↦ 0) (fun _ ↦ 0)).run
          syscallIsrStub))).current.ctx.cr3 = 0x1234000 := by
  constructor
  · rintro ⟨-, -, -, -, -, hcr3⟩
    revert hcr3
    rw [syscallIsrStub_frame]
    decide +kernel
  · rw [syscallIsrStub_frame]
    decide +kernel

theorem paths_disagree_chosenStack :
    ¬ PathsAgree (.boot Vmm.oneReadOnlyPage 0x1001000) chosenStack 0 0 0 (fun _ ↦ 0) (fun _ ↦ 0) :=
  (paths_disagree (.boot Vmm.oneReadOnlyPage 0x1001000) chosenStack 0 0 0 (fun _ ↦ 0) (fun _ ↦ 0)).1

end YabroOS.Entry
