import YabroOS.Kernel.Steps

namespace YabroOS

open Memory Function Lib Lib.Asm Entry

namespace Machine

open Kernel

/-- User code goes on in `m'` as it was at the event in `m`. After a system call `rax` holds the
result, or the call is made again. -/
def Continues (m : Machine) (m' : Machine) : Event → Prop
  | .syscall .. =>
    (∀ r, r ≠ .rax → m'.cpu.regs r = m.cpu.entered.regs r) ∧
      (m'.cpu.userRip = m.cpu.entered.userRip ∨ m'.cpu.userRip = m.cpu.entered.userRip - 2) ∧
      m'.cpu.userRsp = m.cpu.userRsp ∧ m'.cpu.userRflags = m.cpu.userRflags ∧
        m'.cpu.userCr3 = m.cpu.userCr3 ∧
      m'.k.msrFsBase = m.k.msrFsBase ∧ m'.k.msrGsBase = m.k.msrGsBase
  | _ => m'.cpu = m.cpu ∧ m'.k.msrFsBase = m.k.msrFsBase ∧ m'.k.msrGsBase = m.k.msrGsBase

variable {m m' m₁ m₂ : Machine} {e e' : Event} {c : Slot} {p : ℤ}

structure FromContext (m : Machine) : Prop where
  cpu : m.cpu = frameOfContext m.k.current.ctx
  fsBase : m.k.msrFsBase = m.k.current.ctx.fsBase
  gsBase : m.k.msrGsBase = m.k.current.ctx.gsBase

theorem Resumed.fromContext (h : Resumed m e m') : FromContext m' := ⟨h.cpu, h.fsBase, h.gsBase⟩

theorem Keeps.continues (h : m.Keeps e m'.k.current) (hc : FromContext m') : Continues m m' e := by
  have hexact : m'.k.current.Exact m.cpu m.k.msrFsBase m.k.msrGsBase →
      m'.cpu = m.cpu ∧ m'.k.msrFsBase = m.k.msrFsBase ∧ m'.k.msrGsBase = m.k.msrGsBase := by
    intro h
    refine ⟨?_, ?_, ?_⟩
    · rw [hc.cpu, h.2]
      rfl
    · rw [hc.fsBase, h.2]
    · rw [hc.gsBase, h.2]
  cases e with
  | syscall =>
    obtain ⟨-, hs⟩ := h
    refine ⟨fun r hr ↦ ?_, ?_, ?_, ?_, ?_, ?_, ?_⟩
    · rw [hc.cpu]
      exact hs.regs r hr
    · rw [hc.cpu]
      exact hs.rip
    · rw [hc.cpu]
      exact hs.rsp
    · rw [hc.cpu]
      exact hs.rflags
    · rw [hc.cpu]
      exact hs.cr3
    · rw [hc.fsBase]
      exact hs.fsBase
    · rw [hc.gsBase]
      exact hs.gsBase
  | user => exact hexact h
  | timer => exact hexact h
  | interrupt => exact hexact h
  | fault => exact hexact h

/-- While the task with pid `p` in slot `c` is suspended its context stays, unless it has ended;
once it runs again, it runs from there. -/
structure Suspended (m₀ : Machine) (e : Event) (c : Slot) (p : ℤ) (m : Machine) : Prop where
  sane : m.Sane
  lt : p < m.k.nextPid
  keeps : (m.k.tasks c).used = true → (m.k.tasks c).pid = p →
    c ≠ 0 ∧ c ≠ m.k.currentTask ∧ (m.k.tasks c).state = .zombie ∨ m₀.Keeps e (m.k.tasks c)
  resumed : m.k.currentTask = c → FromContext m

theorem Suspended.step (h : Suspended m e c p m₁) (hc : m₁.k.currentTask ≠ c)
    (hs : m₁.step e' = some m₂) : Suspended m e c p m₂ := by
  have ht := step_took h.sane hs
  have hlt := lt_of_lt_of_le h.lt ht.away.nextPid
  refine ⟨ht.sane, hlt, fun hu hp ↦ ?_, fun hcur ↦ ?_⟩
  · have hborn : ∀ q, ¬ Born m₁.k.nextPid q c (m₂.k.tasks c) := by
      intro q hb
      have hle := hb.pid
      have := h.lt
      omega
    cases hu₁ : (m₁.k.tasks c).used with
    | true =>
      rcases ht.away.others c (Ne.symm hc) hu₁ with he | ⟨-, hgone | hb⟩
      · refine (h.keeps hu₁ (he.pid.symm.trans hp)).imp
          (fun ⟨h₀, _, hz⟩ ↦ ⟨h₀, ?_, he.zombie h₀ hz⟩) (·.evolves he)
        -- a task that has ended is not chosen again
        rintro rfl
        rcases ht.next with ⟨-, hcur⟩ | ⟨-, hr⟩
        · exact hc hcur.symm
        · have hnew := hr.picked.new h₀ (Ne.symm hc) hu₁ hz
          have := h.lt
          omega
      · cases hgone.symm.trans hu
      · exact (hborn _ hb).elim
    | false =>
      rcases ht.away.fresh c hu₁ with hgone | hb
      · cases hgone.symm.trans hu
      · exact (hborn _ hb).elim
  · rcases ht.next with ⟨-, hstay⟩ | ⟨-, hr⟩
    · exact absurd (hstay.symm.trans hcur) hc
    · exact hr.fromContext

theorem step_fpu (hs : m.step e = some m') (hu : ∀ cpu fpu vm, e ≠ .user cpu fpu vm) :
    m'.fpu = m.fpu := by
  cases e with
  | user cpu fpu vm => exact absurd rfl (hu cpu fpu vm)
  | syscall a scratch =>
    unfold step leaveSyscall at hs
    dsimp only at hs
    split_ifs at hs
    obtain ⟨⟨k, f⟩, -, hl⟩ := Option.bind_eq_some_iff.1 hs
    dsimp only at hl
    split_ifs at hl
    · obtain rfl := Option.some.inj hl
      rfl
    · obtain ⟨j, -, rfl⟩ := Option.map_eq_some_iff.1 hl
      rfl
    · obtain rfl := Option.some.inj hl
      rfl
  | timer polled =>
    unfold step at hs
    dsimp only at hs
    split at hs
    · obtain rfl := Option.some.inj hs
      rfl
    · obtain rfl := Option.some.inj hs
      rfl
  | interrupt effects =>
    obtain rfl := Option.some.inj hs
    rfl
  | fault vector =>
    unfold step leaveFault at hs
    dsimp only at hs
    split_ifs at hs
    · obtain ⟨j, -, rfl⟩ := Option.map_eq_some_iff.1 hs
      rfl
    · obtain rfl := Option.some.inj hs
      rfl

/-- A task that is suspended goes on with the registers that it had, whatever the other tasks do in
the meantime. -/
theorem context_preserved {l : List Event} (hm : m.Reachable) (hsus : m.Suspends e)
    (h₁ : m.step e = some m₁) (hw : m.k.currentTask ≠ 0 ∨ m.k.current.OneWait)
    (hrun : Steps step (fun m' _ ↦ m'.k.currentTask ≠ m.k.currentTask) m₁ l m₂)
    (hcur : m₂.k.currentTask = m.k.currentTask) (hpid : m₂.k.current.pid = m.k.current.pid) :
    Continues m m₂ e ∧ m₁.fpu = m.fpu := by
  have ht := step_took hm.sane h₁
  have hr : Resumed m e m₁ := by
    rcases ht.next with ⟨hn, -⟩ | ⟨-, hr⟩
    · exact absurd hsus hn
    · exact hr
  have hone : m.k.current.OneWait := hw.elim (fun hc ↦ hm.sane.oneWait _ hc hm.sane.ready.used) id
  have hstart : Suspended m e m.k.currentTask m.k.current.pid m₁ :=
    { sane := ht.sane
      lt := lt_of_lt_of_le (hm.sane.pids.lt _ hm.sane.ready.used) ht.away.nextPid
      keeps := fun _ _ ↦ hr.kept.imp id (fun hk ↦ hk hone)
      resumed := fun _ ↦ hr.fromContext }
  have hend := hrun.invariant (I := Suspended m e m.k.currentTask m.k.current.pid)
    (fun _ _ _ h hok hs ↦ h.step hok hs) hstart
  have hu : (m₂.k.tasks m.k.currentTask).used = true := hcur ▸ hend.sane.ready.used
  have hp : (m₂.k.tasks m.k.currentTask).pid = m.k.current.pid := by
    rw [← hcur]
    exact hpid
  refine ⟨?_, step_fpu h₁ (fun cpu fpu vm he ↦ ?_)⟩
  · rcases hend.keeps hu hp with ⟨-, hne, -⟩ | hk
    · exact absurd hcur.symm hne
    · refine Keeps.continues ?_ (hend.resumed hcur)
      rw [current, hcur]
      exact hk
  · subst he
    exact hsus

/-- The first task forks and loads an x87 register; the timer gives the processor to the child,
which loads the register too, and back. -/
theorem fork_and_load :
    ∃ m₀ ∈ (bootAt (userAt 57)).syscallStep (callOf [] 0), ∃ m ∈ m₀.userStep 0 (fun _ ↦ 1),
    m.k.currentTask = 0 ∧ m.k.current.ioWaitKind = .none ∧ m.k.current.wait4Active = false ∧
    m.k.current.pipeWaitFd < 0 ∧ m.k.current.futexAddr = 0 ∧
      (m.k.timerPreemptFromUser m.cpu []).2 ≠ none ∧ m.fpu 0 = 1 ∧
    ∃ m₁ ∈ m.step (.timer []), m₁.k.currentTask ≠ 0 ∧
      ∃ m₂ ∈ m₁.userStep 0 (fun _ ↦ 2), m₂.k.currentTask ≠ 0 ∧
    ∃ m₃ ∈ m₂.step (.timer []), m₃.k.currentTask = 0 ∧ m₃.k.current.pid = m.k.current.pid ∧
      m₃.fpu 0 = 2 := by
  decide +kernel

theorem fpu_not_preserved :
    ¬ ∀ (m m₁ m₂ : Machine) (e : Event) (l : List Event), m.Reachable → m.Suspends e →
    m.step e = some m₁ → (m.k.currentTask ≠ 0 ∨ m.k.current.OneWait) →
    Steps step (fun m' _ ↦ m'.k.currentTask ≠ m.k.currentTask) m₁ l m₂ →
      m₂.k.currentTask = m.k.currentTask →
    m₂.k.current.pid = m.k.current.pid → Continues m m₂ e ∧ m₂.fpu = m.fpu := by
  intro hall
  obtain ⟨m₀, h₀, m, hm, hc, hi₁, hi₂, hi₃, hi₄, hsus, hf, m₁, h₁, hne₁, m₂, h₂, hne₂, m₃, h₃, hc₃,
    hp, hf₃⟩ :=
    fork_and_load
  have hidle : m.k.current.Idle := ⟨hi₁, hi₂, hi₃, hi₄⟩
  have hreach := ((bootAt_reachable (userAt 57)).step h₀).step hm
  rw [← hc] at hne₁ hne₂ hc₃
  have hcpu :=
    (hall m m₁ m₃ (.timer []) [.user (userAt 0) (fun _ ↦ 2) m₁.k.vm, .timer []] hreach hsus h₁
    (.inr hidle.oneWait) ⟨hne₁, m₂, h₂, hne₂, m₃, h₃, rfl⟩ hc₃ hp).2
  rw [hcpu, hf] at hf₃
  exact absurd hf₃ (by decide)

theorem context_preserved_fork :
    ∃ m m₁ m₂ : Machine, m.step (.timer []) = some m₁ ∧ m₁.k.currentTask ≠ m.k.currentTask ∧
    m₂.k.currentTask = m.k.currentTask ∧ Continues m m₂ (.timer []) ∧ m₁.fpu = m.fpu := by
  obtain ⟨m₀, h₀, m, hm, hc, hi₁, hi₂, hi₃, hi₄, hsus, hf, m₁, h₁, hne₁, m₂, h₂, hne₂, m₃, h₃, hc₃,
    hp, hf₃⟩ :=
    fork_and_load
  have hidle : m.k.current.Idle := ⟨hi₁, hi₂, hi₃, hi₄⟩
  have hreach := ((bootAt_reachable (userAt 57)).step h₀).step hm
  rw [← hc] at hne₁ hne₂ hc₃
  exact ⟨m, m₁, m₃, h₁, hne₁, hc₃,
    context_preserved (l := [.user (userAt 0) (fun _ ↦ 2) m₁.k.vm, .timer []]) hreach hsus h₁
    (.inr hidle.oneWait) ⟨hne₁, m₂, h₂, hne₂, m₃, h₃, rfl⟩ hc₃ hp⟩

end Machine

end YabroOS
