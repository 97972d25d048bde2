import Mathlib.Data.UInt

namespace YabroOS.Lib.Asm

inductive Reg
  | rax | rbx | rcx | rdx | rsi | rdi | rbp | r8 | r9 | r10 | r11 | r12 | r13 | r14 | r15
  deriving DecidableEq

def Reg.index : Reg → ℕ
  | .rax => 0 | .rbx => 1 | .rcx => 2 | .rdx => 3 | .rsi => 4 | .rdi => 5 | .rbp => 6 | .r8 => 7
  | .r9 => 8 | .r10 => 9 | .r11 => 10 | .r12 => 11 | .r13 => 12 | .r14 => 13 | .r15 => 14

def saved : List Reg :=
  [.rax, .rbx, .rcx, .rdx, .rsi, .rdi, .rbp, .r8, .r9, .r10, .r11, .r12, .r13, .r14, .r15]

abbrev Regs := Reg → UInt64

theorem saved_index (r : Reg) : saved[r.index]? = some r := by
  cases r <;> rfl

/-- A processor between two instructions. `stack` holds the words from `rsp` upwards, `glob` the
named memory words and `block` the words of the memory block that `r15` points to. -/
structure Cpu (γ : Type) where
  reg : Regs
  rsp : UInt64
  stack : List UInt64
  cr3 : UInt64
  fsBase : UInt64
  gsBase : UInt64
  glob : γ → UInt64
  block : ℕ → UInt64

inductive Instr (γ : Type)
  | push (r : Reg)
  | pushGlob (g : γ)
  | pop (r : Reg)
  | mov (src dst : Reg)
  | movl (src dst : Reg)
  | imm (v : UInt64) (dst : Reg)
  | shr (n : UInt64) (r : Reg)
  | store (src : Reg) (g : γ)
  | load (g : γ) (dst : Reg)
  | loadBlock (off : ℕ) (dst : Reg)
  | storeBlock (src : Reg) (off : ℕ)
  | storeStack (src : Reg) (off : ℕ)
  | stackAtBlock (off : ℕ)
  | growStack (words : ℕ)
  | readRsp (dst : Reg)
  | loadRsp (g : γ)
  | readCr3 (dst : Reg)
  | writeCr3 (src : Reg)
  | wrmsr

variable {γ : Type} [DecidableEq γ]

namespace Cpu

def setReg (s : Cpu γ) (r : Reg) (v : UInt64) : Cpu γ := { s with reg := Function.update s.reg r v }

def msrFsBase : UInt64 := 0xC0000100
def msrGsBase : UInt64 := 0xC0000101

def exec (s : Cpu γ) : Instr γ → Cpu γ
  | .push r => { s with rsp := s.rsp - 8, stack := s.reg r :: s.stack }
  | .pushGlob g => { s with rsp := s.rsp - 8, stack := s.glob g :: s.stack }
  | .pop r =>
    { s with
      rsp := s.rsp + 8, stack := s.stack.tail, reg := Function.update s.reg r (s.stack.headD 0) }
  | .mov src dst => s.setReg dst (s.reg src)
  | .movl src dst => s.setReg dst (s.reg src % 2 ^ 32)
  | .imm v dst => s.setReg dst v
  | .shr n r => s.setReg r (s.reg r >>> n)
  | .store src g => { s with glob := Function.update s.glob g (s.reg src) }
  | .load g dst => s.setReg dst (s.glob g)
  | .loadBlock off dst => s.setReg dst (s.block (off / 8))
  | .storeBlock src off => { s with block := Function.update s.block (off / 8) (s.reg src) }
  | .stackAtBlock off => { s with stack := (List.range 5).map (fun i ↦ s.block (off / 8 + i)) }
  | .storeStack src off => { s with stack := s.stack.set (off / 8) (s.reg src) }
  | .growStack words =>
    { s with rsp := s.rsp - 8 * UInt64.ofNat words, stack := List.replicate words 0 ++ s.stack }
  | .readRsp dst => s.setReg dst s.rsp
  | .loadRsp g => { s with rsp := s.glob g, stack := [] }
  | .readCr3 dst => s.setReg dst s.cr3
  | .writeCr3 src => { s with cr3 := s.reg src }
  | .wrmsr =>
    let v := (s.reg .rdx % 2 ^ 32) * 2 ^ 32 + s.reg .rax % 2 ^ 32
    if s.reg .rcx % 2 ^ 32 = msrFsBase then { s with fsBase := v }
    else if s.reg .rcx % 2 ^ 32 = msrGsBase then { s with gsBase := v }
    else s

def run (s : Cpu γ) (l : List (Instr γ)) : Cpu γ := l.foldl exec s

theorem run_append (s : Cpu γ) (l l' : List (Instr γ)) : s.run (l ++ l') = (s.run l).run l' :=
  List.foldl_append

theorem run_push (s : Cpu γ) (l : List Reg) :
    (s.run (l.map .push)).stack = (l.map s.reg).reverse ++ s.stack ∧
      (s.run (l.map .push)).reg = s.reg := by
  induction l generalizing s with
  | nil => exact ⟨rfl, rfl⟩
  | cons r l ih =>
    obtain ⟨hs, hr⟩ := ih (s.exec (.push r))
    refine ⟨?_, hr⟩
    have h : (s.run ((r :: l).map .push)).stack = ((s.exec (.push r)).run (l.map .push)).stack := rfl
    rw [h, hs]
    simp [exec]

end Cpu

end YabroOS.Lib.Asm
