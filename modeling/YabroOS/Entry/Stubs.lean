import YabroOS.Kernel.Task

namespace YabroOS.Entry

open Lib.Asm

/-- The variables of the kernel that the stubs name. -/
inductive Glob
  | kernelCr3 | kernelRsp | syscallUserRsp | syscallUserCr3 | syscallUserRip | syscallUserRflags
  | syscallSavedRax | syscallSavedR12 | syscallSavedR13
  deriving DecidableEq

def userCs : UInt64 := 0x23
def userSs : UInt64 := 0x2b

def pushAll : List (Instr Glob) := saved.reverse.map .push

def popAll : List (Instr Glob) := saved.map .pop

def syscallEntryAsm : List (Instr Glob) :=
  [.store .r12 .syscallSavedR12, .store .r13 .syscallSavedR13, .readRsp .r12, .readCr3 .r13,
    .store .r12 .syscallUserRsp, .store .r13 .syscallUserCr3, .store .rcx .syscallUserRip,
    .store .r11 .syscallUserRflags, .store .rax .syscallSavedRax,
    .load .kernelCr3 .rax, .writeCr3 .rax, .loadRsp .kernelRsp,
    .load .syscallSavedRax .rax, .load .syscallSavedR12 .r12, .load .syscallSavedR13 .r13,
    .pushGlob .syscallUserCr3, .pushGlob .syscallUserRsp, .pushGlob .syscallUserRflags,
    .pushGlob .syscallUserRip] ++ pushAll

def syscallIsrStub : List (Instr Glob) := pushAll

def loadRegs (l : List Reg) : List (Instr Glob) := l.map (fun r ↦ .loadBlock (8 * r.index) r)

def writeBase (off : ℕ) (msr : UInt64) : List (Instr Glob) :=
  [.loadBlock off .rax, .mov .rax .r10, .shr 32 .r10, .movl .r10 .rdx, .imm msr .rcx, .wrmsr]

def buildIretFrame : List (Instr Glob) :=
  [.growStack 5, .loadBlock 128 .rax, .storeStack .rax 0, .imm userCs .rax, .storeStack .rax 8,
    .loadBlock 136 .rax, .storeStack .rax 16, .loadBlock 120 .rax, .storeStack .rax 24,
    .imm userSs .rax, .storeStack .rax 32]

def writeBases : List (Instr Glob) := writeBase 152 Cpu.msrFsBase ++ writeBase 160 Cpu.msrGsBase

def taskSwitchRegular : List (Instr Glob) := buildIretFrame ++ writeBases

def taskSwitchFinish : List (Instr Glob) := [.loadBlock 144 .r14, .writeCr3 .r14] ++ loadRegs saved

def replaceRegs : List (Instr Glob) :=
  saved.flatMap (fun r ↦ [.loadBlock (8 * r.index) .rcx, .storeStack .rcx (8 * r.index)])

def replaceIretFrame : List (Instr Glob) :=
  [.loadBlock 128 .rcx, .storeStack .rcx 120, .imm userCs .rcx, .storeStack .rcx 128,
    .loadBlock 136 .rcx, .storeStack .rcx 136, .loadBlock 120 .rcx, .storeStack .rcx 144,
    .imm userSs .rcx, .storeStack .rcx 152]

def timerSwitch : List (Instr Glob) := replaceRegs ++ (replaceIretFrame ++ writeBases)

def timerFinish : List (Instr Glob) := [.loadBlock 144 .r14, .writeCr3 .r14] ++ popAll

def normalReturn : List (Instr Glob) :=
  [.loadBlock 120 .rax, .storeBlock .rax 152, .imm userCs .rax, .storeBlock .rax 160,
    .loadBlock 128 .rax, .storeBlock .rax 168, .loadBlock 136 .rax, .storeBlock .rax 176,
    .imm userSs .rax, .storeBlock .rax 184]

def normalFinish : List (Instr Glob) :=
  [.loadBlock 144 .rax, .writeCr3 .rax] ++ loadRegs (saved.take 14) ++
  [.stackAtBlock 152, .loadBlock 112 .r15]

def iretq (s : Cpu Glob) : SyscallFrame where
  regs := s.reg
  userRip := s.stack.getD 0 0
  userRflags := s.stack.getD 2 0
  userRsp := s.stack.getD 3 0
  userCr3 := s.cr3

/-- A call of a C function: the registers that the calling convention does not preserve are
arbitrary afterwards. -/
def call (s : Cpu Glob) (scratch : Regs) : Cpu Glob :=
  { s with reg := fun r ↦ if r ∈ [Reg.rbx, .rbp, .r12, .r13, .r14, .r15] then s.reg r else scratch r }

def interruptFrame (u : SyscallFrame) : List UInt64 :=
  [u.userRip, userCs, u.userRflags, u.userRsp, userSs]

/-- The processor after user code's `SYSCALL`; `userRip` is the address of the next instruction. -/
def afterSyscall (u : SyscallFrame) (fs gs : UInt64) (glob : Glob → UInt64) (block : ℕ → UInt64) :
    Cpu Glob where
  reg := Function.update (Function.update u.regs .rcx u.userRip) .r11 u.userRflags
  rsp := u.userRsp
  stack := []
  cr3 := u.userCr3
  fsBase := fs
  gsBase := gs
  glob := glob
  block := block

/-- The processor after an interrupt gate was taken from user code. -/
def afterInterrupt (u : SyscallFrame) (fs gs rsp0 : UInt64) (glob : Glob → UInt64)
    (block : ℕ → UInt64) : Cpu Glob where
  reg := u.regs
  rsp := rsp0
  stack := interruptFrame u
  cr3 := u.userCr3
  fsBase := fs
  gsBase := gs
  glob := glob
  block := block

def frameOf (s : Cpu Glob) : SyscallFrame := .ofWords (fun i ↦ s.stack.getD i 0)

variable (u : SyscallFrame) (fs gs rsp0 : UInt64) (glob : Glob → UInt64) (block : ℕ → UInt64)

theorem pushAll_stack (s : Cpu Glob) : (s.run pushAll).stack = saved.map s.reg ++ s.stack := by
  rw [pushAll, (s.run_push saved.reverse).1, List.map_reverse, List.reverse_reverse]

theorem frameOf_pushAll (s : Cpu Glob) :
    frameOf (s.run pushAll) =
      ⟨s.reg, s.stack.getD 0 0, s.stack.getD 1 0, s.stack.getD 2 0, s.stack.getD 3 0⟩ := by
  have hreg : ∀ r : Reg, (saved.map s.reg ++ s.stack).getD r.index 0 = s.reg r := by
    intro r
    cases r <;> rfl
  simp only [frameOf, SyscallFrame.ofWords, pushAll_stack, hreg]
  rfl

theorem syscallEntryAsm_frame :
    frameOf ((afterSyscall u fs gs glob block).run syscallEntryAsm) =
      ⟨Function.update (Function.update u.regs .rcx u.userRip) .r11 u.userRflags, u.userRip,
        u.userRflags, u.userRsp, u.userCr3⟩ := by
  rw [syscallEntryAsm, Cpu.run_append, frameOf_pushAll]
  congr 1
  funext r
  cases r <;> rfl

theorem syscallIsrStub_frame :
    frameOf ((afterInterrupt u fs gs rsp0 glob block).run syscallIsrStub) =
      ⟨u.regs, u.userRip, userCs, u.userRflags, u.userRsp⟩ := by
  rw [syscallIsrStub, frameOf_pushAll]
  rfl

end YabroOS.Entry
