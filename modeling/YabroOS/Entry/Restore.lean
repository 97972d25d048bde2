import YabroOS.Entry.Stubs
import YabroOS.Kernel.Sched

namespace YabroOS.Entry

open Lib.Asm Function

def frameOfContext (c : TaskContext) : SyscallFrame := ⟨c.regs, c.rip, c.rflags, c.rsp, c.cr3⟩

variable (c : TaskContext) (s : Cpu Glob) (scratch : Regs)

theorem wrmsr_halves (v : UInt64) : (v >>> 32 % 2 ^ 32) % 2 ^ 32 * 2 ^ 32 + v % 2 ^ 32 = v := by
  apply UInt64.toNat_inj.1
  have h := v.toNat_lt
  have hs : (v >>> 32).toNat = v.toNat / 2 ^ 32 := by
    rw [UInt64.toNat_shiftRight]
    simp [Nat.shiftRight_eq_div_pow]
  have hp : (2 ^ 32 : UInt64).toNat = 2 ^ 32 := rfl
  rw [UInt64.toNat_add, UInt64.toNat_mul, UInt64.toNat_mod, UInt64.toNat_mod,
    UInt64.toNat_mod, hs, hp]
  omega

theorem writeBase_fs (off : ℕ) :
    s.run (writeBase off Cpu.msrFsBase) =
      { s with reg := (s.run (writeBase off Cpu.msrFsBase)).reg, fsBase := s.block (off / 8) } := by
  have h := wrmsr_halves (s.block (off / 8))
  conv_rhs => rw [← h]
  rfl

theorem writeBase_gs (off : ℕ) :
    s.run (writeBase off Cpu.msrGsBase) =
      { s with reg := (s.run (writeBase off Cpu.msrGsBase)).reg, gsBase := s.block (off / 8) } := by
  have h := wrmsr_halves (s.block (off / 8))
  conv_rhs => rw [← h]
  rfl

theorem run_writeBases :
    ∃ r, s.run writeBases = { s with reg := r, fsBase := s.block 19, gsBase := s.block 20 } := by
  rw [writeBases, Cpu.run_append, writeBase_fs, writeBase_gs]
  exact ⟨_, rfl⟩

theorem loadRegs_reg (l : List Reg) (r : Reg) (h : s.block = c.words) :
    (s.run (loadRegs l)).reg r = if r ∈ l then c.regs r else s.reg r := by
  have hword : ∀ q : Reg, c.words (8 * q.index / 8) = c.regs q := by
    intro q
    cases q <;> rfl
  induction l generalizing s with
  | nil => rfl
  | cons q l ih =>
    have hstep : s.run (loadRegs (q :: l)) = (s.setReg q (c.regs q)).run (loadRegs l) := by
      rw [← hword q, ← h]
      rfl
    rw [hstep, ih (s.setReg q (c.regs q)) h]
    by_cases hr : r = q
    · subst hr
      simp [Cpu.setReg]
    · simp [Cpu.setReg, hr]

theorem loadRegs_rest (l : List Reg) :
    s.run (loadRegs l) = { s with reg := (s.run (loadRegs l)).reg } := by
  induction l generalizing s with
  | nil => rfl
  | cons q l ih => exact ih (s.setReg q (s.block (8 * q.index / 8)))

theorem run_loadRegs (h : s.block = c.words) :
    s.run (loadRegs saved) = { s with reg := c.regs } := by
  rw [loadRegs_rest]
  congr 1
  funext r
  have hr : r ∈ saved := List.mem_of_getElem? (saved_index r)
  rw [loadRegs_reg c s saved r h, if_pos hr]

structure Restored (s : Cpu Glob) (c : TaskContext) : Prop where
  frame : iretq s = frameOfContext c
  fsBase : s.fsBase = c.fsBase
  gsBase : s.gsBase = c.gsBase

theorem taskSwitch_restored (h : s.block = c.words) :
    Restored ((call (s.run taskSwitchRegular) scratch).run taskSwitchFinish) c := by
  obtain ⟨r, hr⟩ := run_writeBases (s.run buildIretFrame)
  have hword : ∀ i, s.block i = c.words i := fun i ↦ by rw [h]
  rw [taskSwitchRegular, Cpu.run_append, hr, taskSwitchFinish, Cpu.run_append,
    run_loadRegs c _ (by exact h)]
  refine ⟨?_, hword 19, hword 20⟩
  simp only [iretq, frameOfContext]
  congr 1
  · exact hword 16
  · exact hword 17
  · exact hword 15
  · exact hword 18

theorem run_copyRegs (l : List Reg) :
    ∃ r, s.run (l.flatMap
      (fun q ↦ [.loadBlock (8 * q.index) .rcx, .storeStack .rcx (8 * q.index)])) =
      { s with
        reg := r
        stack := l.foldl (fun st q ↦ st.set q.index (s.block q.index)) s.stack } := by
  induction l generalizing s with
  | nil => exact ⟨s.reg, rfl⟩
  | cons q l ih =>
    have hstep : s.run [.loadBlock (8 * q.index) .rcx, .storeStack .rcx (8 * q.index)] =
        { s with
          reg := Function.update s.reg .rcx (s.block q.index)
          stack := s.stack.set q.index (s.block q.index) } := by
      simp [Cpu.run, Cpu.exec, Cpu.setReg]
    obtain ⟨r, hr⟩ := ih (s.run [.loadBlock (8 * q.index) .rcx, .storeStack .rcx (8 * q.index)])
    rw [hstep] at hr
    rw [List.flatMap_cons, Cpu.run_append, hstep, hr]
    exact ⟨r, rfl⟩

theorem run_replaceRegs (h : s.block = c.words) (u : SyscallFrame)
    (hs : s.stack = saved.map u.regs ++ interruptFrame u) :
    ∃ r, s.run replaceRegs = { s with reg := r, stack := saved.map c.regs ++ interruptFrame u } := by
  obtain ⟨r, hr⟩ := run_copyRegs s saved
  have hregs : saved.foldl (fun st q ↦ st.set q.index (s.block q.index)) s.stack =
      saved.map c.regs ++ interruptFrame u := by
    rw [hs, h]
    rfl
  rw [hregs] at hr
  exact ⟨r, hr⟩

theorem run_replaceIretFrame (l frame : List UInt64) (hl : l.length = 15) (hf : frame.length = 5)
    (hs : s.stack = l ++ frame) :
    ∃ r, s.run replaceIretFrame = { s with
      reg := r
      stack := l ++ [s.block 16, userCs, s.block 17, s.block 15, userSs] } := by
  obtain ⟨a, b, d, e, g, rfl⟩ : ∃ a b d e g, frame = [a, b, d, e, g] := by
    match frame, hf with
    | [a, b, d, e, g], _ => exact ⟨a, b, d, e, g, rfl⟩
  refine ⟨(s.run replaceIretFrame).reg, ?_⟩
  have hstack : (s.run replaceIretFrame).stack =
      ((((s.stack.set 15 (s.block 16)).set 16 userCs).set 17 (s.block 17)).set 18 (s.block 15)).set
        19 userSs := rfl
  have hset : (s.run replaceIretFrame).stack = l ++
      [s.block 16, userCs, s.block 17, s.block 15, userSs] := by
    rw [hstack, hs]
    simp [hl]
  rw [← hset]
  rfl

theorem run_popAll (g : Reg → UInt64) (rest : List UInt64) (hs : s.stack = saved.map g ++ rest) :
    s.run popAll = { s with reg := g, rsp := (s.run popAll).rsp, stack := rest } := by
  obtain ⟨reg, rsp, stack, cr3, fs, gs, glob, block⟩ := s
  subst hs
  have hreg : ((⟨reg, rsp, saved.map g ++ rest, cr3, fs, gs, glob, block⟩ : Cpu Glob).run
      popAll).reg = g := by
    funext q
    cases q <;> rfl
  conv_rhs => rw [← hreg]
  rfl

theorem timerSwitch_restored (u : SyscallFrame) (h : s.block = c.words)
    (hs : s.stack = saved.map u.regs ++ interruptFrame u) :
    Restored ((call (s.run timerSwitch) scratch).run timerFinish) c := by
  have hword : ∀ i, s.block i = c.words i := fun i ↦ by rw [h]
  obtain ⟨r₁, h₁⟩ := run_replaceRegs c s h u hs
  obtain ⟨r₂, h₂⟩ :=
    run_replaceIretFrame { s with reg := r₁, stack := saved.map c.regs ++ interruptFrame u }
    (saved.map c.regs) (interruptFrame u) rfl rfl rfl
  obtain ⟨r₃, h₃⟩ := run_writeBases { s with
    reg := r₂
    stack := saved.map c.regs ++ [s.block 16, userCs, s.block 17, s.block 15, userSs] }
  rw [timerSwitch, Cpu.run_append, Cpu.run_append, h₁, h₂, h₃, timerFinish, Cpu.run_append,
    run_popAll _ c.regs [s.block 16, userCs, s.block 17, s.block 15, userSs] rfl]
  refine ⟨?_, hword 19, hword 20⟩
  simp only [iretq, frameOfContext]
  congr 1
  · exact hword 16
  · exact hword 17
  · exact hword 15
  · exact hword 18

theorem timerCurrent_restored (u : SyscallFrame)
    (hs : s.stack = saved.map u.regs ++ interruptFrame u) (hcr3 : s.cr3 = u.userCr3) :
    iretq (s.run popAll) = u ∧ (s.run popAll).fsBase = s.fsBase ∧
      (s.run popAll).gsBase = s.gsBase := by
  rw [run_popAll s u.regs (interruptFrame u) hs]
  refine ⟨?_, rfl, rfl⟩
  simp only [iretq, hcr3]
  rfl

theorem normalReturn_restored (f : SyscallFrame) (w : ℕ → UInt64) (hf : SyscallFrame.ofWords w = f)
    (hs : s.block = w) :
    iretq ((call (s.run normalReturn) scratch).run normalFinish) = f ∧
      ((call (s.run normalReturn) scratch).run normalFinish).fsBase = s.fsBase ∧
      ((call (s.run normalReturn) scratch).run normalFinish).gsBase = s.gsBase := by
  subst hs hf
  refine ⟨?_, rfl, rfl⟩
  have hreg : ((call (s.run normalReturn) scratch).run normalFinish).reg = fun r ↦
      s.block r.index := by
    funext q
    cases q <;> rfl
  simp only [iretq, SyscallFrame.ofWords, hreg]
  rfl

/-- User code goes on in a state. -/
structure Resumes (s : Cpu Glob) (u : SyscallFrame) (fs gs : UInt64) : Prop where
  frame : iretq s = u
  fsBase : s.fsBase = fs
  gsBase : s.gsBase = gs

def timerContext : TaskContext where
  regs := fun r ↦ s.stack.getD r.index 0
  rsp := s.stack.getD 18 0
  rip := s.stack.getD 15 0
  rflags := s.stack.getD 17 0
  cr3 := s.cr3
  fsBase := s.fsBase
  gsBase := s.gsBase

def switchedTo : Cpu Glob :=
  (call ({ s with block := c.words }.run taskSwitchRegular) scratch).run taskSwitchFinish

def preemptedFor (u : SyscallFrame) : Cpu Glob :=
  (call ({ s with stack := saved.map u.regs ++ interruptFrame u, block := c.words }.run timerSwitch)
    scratch).run timerFinish

theorem timerContext_pushAll (u : SyscallFrame) (fs gs rsp0 : UInt64) (glob : Glob → UInt64)
    (block : ℕ → UInt64) :
    timerContext ((afterInterrupt u fs gs rsp0 glob block).run pushAll) =
      ⟨u.regs, u.userRsp, u.userRip, u.userRflags, u.userCr3, fs, gs⟩ := by
  have hstack := pushAll_stack (afterInterrupt u fs gs rsp0 glob block)
  have hreg : ∀ r : Reg, (saved.map u.regs ++ interruptFrame u).getD r.index 0 = u.regs r := by
    intro r
    cases r <;> rfl
  rw [timerContext, hstack]
  congr 1
  exact funext hreg

/-- Code that the timer interrupts goes on as if nothing had been, at once or whenever a system call
or the timer, in whatever task, switches back to it. -/
theorem timer_transparent (u v : SyscallFrame) (fs gs rsp0 : UInt64) (glob : Glob → UInt64)
    (block : ℕ → UInt64) :
    Resumes (((afterInterrupt u fs gs rsp0 glob block).run pushAll).run popAll) u fs gs ∧
      Resumes (switchedTo (timerContext ((afterInterrupt u fs gs rsp0 glob block).run pushAll)) s
        scratch) u fs gs ∧
      Resumes (preemptedFor (timerContext ((afterInterrupt u fs gs rsp0 glob block).run pushAll)) s
        scratch v) u fs gs := by
  rw [timerContext_pushAll]
  refine ⟨?_, ?_, ?_⟩
  · obtain ⟨hframe, hfs, hgs⟩ :=
      timerCurrent_restored ((afterInterrupt u fs gs rsp0 glob block).run pushAll) u
        (pushAll_stack _) rfl
    exact ⟨hframe, hfs, hgs⟩
  · obtain ⟨hframe, hfs, hgs⟩ := taskSwitch_restored _ { s with block := _ } scratch rfl
    exact ⟨hframe, hfs, hgs⟩
  · obtain ⟨hframe, hfs, hgs⟩ :=
      timerSwitch_restored _ { s with stack := saved.map v.regs ++ interruptFrame v, block := _ }
        scratch v rfl rfl
    exact ⟨hframe, hfs, hgs⟩

/-- A system call that is not switched away returns with the frame on its stack, where it has put a
result. -/
def returned (rax : UInt64) (k : Cpu Glob) : Cpu Glob :=
  (call ({ s with block := update (fun i ↦ k.stack.getD i 0) 0 rax }.run normalReturn) scratch).run
    normalFinish

theorem ofWords_update (w : ℕ → UInt64) (v : UInt64) :
    SyscallFrame.ofWords (update w 0 v) = (SyscallFrame.ofWords w).setRax v := by
  simp only [SyscallFrame.ofWords, SyscallFrame.setRax]
  congr 1
  funext r
  cases r <;> rfl

/-- Code that makes a system call that changes its frame in `rax` only goes on behind it, at once or
whenever it is switched back to; the frame is as before but in `rax` and in `rcx` and `r11`, which
`SYSCALL` itself changes. -/
theorem syscall_transparent (u v : SyscallFrame) (fs gs rax : UInt64) (glob : Glob → UInt64)
    (block : ℕ → UInt64) (t : Task) : let k := (afterSyscall u fs gs glob block).run syscallEntryAsm
    let c := (t.taskSaveFromFrame (frameOf k) fs gs).ctx.setRax rax
    let u' := { u with
      regs := update (update (update u.regs .rcx u.userRip) .r11 u.userRflags) .rax rax }
    Resumes (returned s scratch rax k) u' s.fsBase s.gsBase ∧ Resumes (switchedTo c s scratch) u' fs
      gs ∧ Resumes (preemptedFor c s scratch v) u' fs gs := by
  intro k c u'
  have hk : frameOf k =
      { u with regs := update (update u.regs .rcx u.userRip) .r11 u.userRflags } :=
        syscallEntryAsm_frame u fs gs glob block
  have hc : frameOfContext c = u' := by
    show (frameOf k).setRax rax = u'
    rw [hk]
    rfl
  refine ⟨?_, ?_, ?_⟩
  · obtain ⟨hframe, hfs, hgs⟩ :=
      normalReturn_restored { s with block := update (fun i ↦ k.stack.getD i 0) 0 rax } scratch _
        _ rfl rfl
    rw [ofWords_update] at hframe
    exact ⟨hframe.trans hc, hfs, hgs⟩
  · obtain ⟨hframe, hfs, hgs⟩ := taskSwitch_restored c { s with block := c.words } scratch rfl
    exact ⟨hframe.trans hc, hfs, hgs⟩
  · obtain ⟨hframe, hfs, hgs⟩ :=
      timerSwitch_restored c
        { s with stack := saved.map v.regs ++ interruptFrame v, block := c.words } scratch v rfl rfl
    exact ⟨hframe.trans hc, hfs, hgs⟩

end YabroOS.Entry
