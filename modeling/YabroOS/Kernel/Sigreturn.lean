import YabroOS.Kernel.Steps

namespace YabroOS

open Memory Function Lib Lib.Asm Entry

namespace Kernel

variable {k k' : Kernel} {i j : Slot}

theorem same_modifyTask {g : Task → Task} (h : ∀ t, Task.Same t (g t)) (j : Slot) :
    Task.Same (k.tasks j) ((k.modifyTask i g).tasks j) := by
  rw [modifyTask_apply]
  split_ifs
  · exact h _
  · exact .refl _

theorem same_setState (s : TaskState) (t : Task) : Task.Same t (t.setState s) :=
  .of_eq rfl rfl rfl rfl rfl rfl

theorem taskAccountSwitch_same (k : Kernel) (i j : Slot) :
    Task.Same (k.tasks j) ((k.taskAccountSwitch i).tasks j) :=
  ((taskAccountSwitch_evolves k i).tasks j).toSame

theorem takeSwitch_same (k : Kernel) (i j : Slot) :
    Task.Same (k.tasks j) ((k.takeSwitch i).tasks j) := by
  have hrun : ∀ k : Kernel, Task.Same (k.tasks j)
      (((k.setRunning i).taskAccountSwitch i).tasks j) := by
    intro k
    refine Task.Same.trans ?_ (taskAccountSwitch_same _ i j)
    exact same_modifyTask (same_setState .running) j
  unfold takeSwitch taskCommitDeferredSwitch
  dsimp only
  split_ifs
  · exact .refl _
  · exact (same_modifyTask (same_setState .runnable) j).trans (hrun _)
  · exact hrun _
  · exact .refl _

theorem leaveSyscall_same {f : SyscallFrame} {fpu : ℕ → UInt64} {scratch : Regs} {m : Machine}
    (h : k.leaveSyscall f fpu scratch = some m) (j : Slot) :
    Task.Same (k.tasks j) (m.k.tasks j) := by
  unfold leaveSyscall at h
  split_ifs at h
  · obtain rfl := Option.some.inj h
    exact .refl _
  · obtain ⟨i, -, rfl⟩ := Option.map_eq_some_iff.1 h
    exact takeSwitch_same k i j
  · obtain rfl := Option.some.inj h
    exact .refl _

theorem leaveSyscall_normal (hx : k.userExecPending = false) (hp : k.taskSwitchPending = false)
    (he : k.userExitPending = false) (f : SyscallFrame) (fpu : ℕ → UInt64) (scratch : Regs) :
    k.leaveSyscall f fpu scratch = some ⟨k, f, fpu⟩ := by
  unfold leaveSyscall
  rw [hx, hp, he]
  rfl

end Kernel

namespace Machine

open Kernel

/-- What the system call of the current task computes, before a signal is delivered. -/
def body (m : Machine) (a : Call) : Option (Kernel × SyscallFrame × UInt64) :=
  ((m.k.enterSyscall m.cpu.entered).prologue m.cpu.entered).syscallBody m.cpu.entered a

/-- The end of the system call delivers a caught signal to the task in slot `i`, which by then is
the current one, and interrupts the frame `f`. -/
structure Delivers (m : Machine) (a : Call) (i : Slot) (f : SyscallFrame) (sig : ℕ)
    (h rest : UInt64) : Prop where
  nr : m.cpu.rax ≠ 15
  at_end : ∃ k f₀ v, m.body a = some (k, f₀, v) ∧ k.userExecPending = false ∧ k.currentTask = i ∧
    f₀.setRax v = f ∧ k.delivery i f = .caught sig h rest ∧
    (k.userCopyTo (f.userRsp - 8) (quadBytes rest)).2 = 0

variable {m m₁ m₂ : Machine} {a : Call} {scratch : Regs} {i : Slot} {f : SyscallFrame} {sig : ℕ}
    {h rest : UInt64}

theorem body_ends (hm : m.Sane) (hrip : m.cpu.userRip.toNat < userLimit)
    (hn : m.k.nextPid < 2 ^ 31 - 1) {k : Kernel} {v : UInt64} (hb : m.body a = some (k, f, v)) :
    Ends m.k.currentTask m.cpu.entered m.k k := by
  have henter : Stays m.k.currentTask m.k (m.k.enterSyscall m.cpu.entered) := .of_tasks _ rfl rfl rfl
  have hstays := henter.trans (prologue_stays (henter.pids hm.pids) m.cpu.entered)
  have hn' : ((m.k.enterSyscall m.cpu.entered).prologue m.cpu.entered).nextPid < 2 ^ 31 := by
    rw [prologue_nextPid]
    change m.k.nextPid < 2 ^ 31
    omega
  exact hstays.then (syscallBody_ends (hstays.ready hm.ready) (hstays.pids hm.pids)
    (hstays.rooted hm.pids hm.ready.used hm.rooted) hn' (two_le_entered m.cpu hrip) hb)

theorem step_syscall (hm : m.step (.syscall a scratch) = some m₁) :
    m.cpu.userRip.toNat < userLimit ∧ m.k.nextPid < 2 ^ 31 - 1 ∧ ∃ k f v, m.body a = some (k, f, v) ∧
      (k.epilogue m.cpu.rax f v).1.leaveSyscall (k.epilogue m.cpu.rax f v).2 m.fpu scratch =
        some m₁ := by
  unfold step at hm
  dsimp only at hm
  split_ifs at hm with hg
  obtain ⟨r, hd, hl⟩ := Option.bind_eq_some_iff.1 hm
  obtain ⟨⟨k, f, v⟩, hb, rfl⟩ := Option.map_eq_some_iff.1 hd
  exact ⟨hg.1, hg.2, k, f, v, hb, hl⟩

def Saves (f : SyscallFrame) (t : Task) : Prop :=
  t.sigActive = true ∧ t.sigSavedValid = true ∧ t.sigSavedFrame = f

theorem Saves.same {t t' : Task} (hs : Saves f t) (he : Task.Same t t') : Saves f t' := by
  obtain ⟨ha, hv, hf⟩ := he.saved hs.1
  exact ⟨ha, hv.trans hs.2.1, hf.trans hs.2.2⟩

theorem epilogue_caught {k : Kernel} {f₀ : SyscallFrame} {v nr : UInt64} (hnr : nr ≠ 15)
    (hx : k.userExecPending = false)
    (hd : k.delivery k.currentTask (f₀.setRax v) = .caught sig h rest)
    (hc : (k.userCopyTo ((f₀.setRax v).userRsp - 8) (quadBytes rest)).2 = 0) :
    (k.epilogue nr f₀ v).2 = (f₀.setRax v).enterHandler h sig ∧
      (k.epilogue nr f₀ v).1.tasks =
        update k.tasks k.currentTask
          (((k.tasks k.currentTask).startHandler (f₀.setRax v)).sigClearPending sig) ∧
      (k.epilogue nr f₀ v).1.vm = (k.userCopyTo ((f₀.setRax v).userRsp - 8) (quadBytes rest)).1.vm ∧
      (k.epilogue nr f₀ v).1.ctl = k.ctl := by
  unfold epilogue deliverPendingSignal deliverPendingSignalToTask
  dsimp only
  rw [hx, if_neg Bool.false_ne_true, if_neg hnr, hd]
  have hcopy : ((k.modifyTask k.currentTask (fun t ↦ t.startHandler (f₀.setRax v))).userCopyTo
      ((f₀.setRax v).userRsp - 8) (quadBytes rest)).2 = 0 := hc
  dsimp only
  rw [if_neg (not_not.2 hcopy)]
  refine ⟨rfl, ?_, rfl, rfl⟩
  show update (update k.tasks k.currentTask ((k.tasks k.currentTask).startHandler (f₀.setRax v)))
    k.currentTask _ = _
  rw [update_idem, userCopyTo_tasks, modifyTask_self]

theorem Delivers.saves (hm : m.Sane) (hd : m.Delivers a i f sig h rest)
    (hs : m.step (.syscall a scratch) = some m₁) :
    (m₁.k.tasks i).used = true ∧ Saves f (m₁.k.tasks i) := by
  obtain ⟨hrip, hn, k, f₀, v, hb, hl⟩ := step_syscall hs
  obtain ⟨k', f', v', hb', hx, rfl, rfl, hc, hcopy⟩ := hd.at_end
  obtain ⟨rfl, rfl, rfl⟩ : k' = k ∧ f' = f₀ ∧ v' = v := by
    have heq := Option.some.inj (hb'.symm.trans hb)
    exact ⟨congrArg Prod.fst heq, congrArg (fun r ↦ r.2.1) heq, congrArg (fun r ↦ r.2.2) heq⟩
  obtain ⟨-, htasks, -, -⟩ := epilogue_caught hd.nr hx hc hcopy
  have hsame := leaveSyscall_same hl k'.currentTask
  rw [htasks, update_self] at hsame
  have hused : (k'.tasks k'.currentTask).used = true :=
    (body_ends hm hrip hn hb).current_used hm.ready.used
  exact ⟨hsame.used.trans hused, Saves.same ⟨rfl, rfl, rfl⟩ hsame⟩

theorem saves_step {e : Event} {p : ℤ} (hm : m.Sane) (hp : p < m.k.nextPid)
    (hs : (m.k.tasks i).used = true → (m.k.tasks i).pid = p → Saves f (m.k.tasks i))
    (hok : ¬ (m.k.currentTask = i ∧ m.Sigreturns e)) (h₁ : m.step e = some m₁) :
    p < m₁.k.nextPid ∧
      ((m₁.k.tasks i).used = true → (m₁.k.tasks i).pid = p → Saves f (m₁.k.tasks i)) := by
  have ht := step_took hm h₁
  refine ⟨lt_of_lt_of_le hp ht.away.nextPid, fun hu hpid ↦ ?_⟩
  by_cases hc : m.k.currentTask = i
  · subst hc
    have hsame := ht.saved (fun hr ↦ hok ⟨rfl, hr⟩)
    exact (hs (hsame.used.symm.trans hu) (hsame.pid.symm.trans hpid)).same hsame
  have hborn : ∀ n q, Born n q i (m₁.k.tasks i) → m.k.nextPid ≤ n → False := by
    intro n q hb hle
    have := hb.pid
    omega
  cases hu₀ : (m.k.tasks i).used with
  | true =>
    rcases ht.away.others i (Ne.symm hc) hu₀ with he | ⟨-, hgone | hb⟩
    · exact (hs hu₀ (he.pid.symm.trans hpid)).same he.toSame
    · cases hgone.symm.trans hu
    · exact (hborn _ _ hb le_rfl).elim
  | false =>
    rcases ht.away.fresh i hu₀ with hgone | hb
    · cases hgone.symm.trans hu
    · exact (hborn _ _ hb le_rfl).elim

theorem sigreturn_step (hm : m.Sane) (hrip : m.cpu.userRip.toNat < userLimit)
    (hn : m.k.nextPid < 2 ^ 31 - 1) (h15 : m.cpu.rax = 15) (hs : Saves f m.k.current) (a : Call)
    (scratch : Regs) :
    ∃ k, m.step (.syscall a scratch) = some ⟨k, f.setRax 0, m.fpu⟩ ∧
      k.currentTask = m.k.currentTask := by
  have henter : Stays m.k.currentTask m.k (m.k.enterSyscall m.cpu.entered) := .of_tasks _ rfl rfl rfl
  have hstays := henter.trans (prologue_stays (henter.pids hm.pids) m.cpu.entered)
  have hnr : m.cpu.entered.rax.toNat = 15 := congrArg UInt64.toNat h15
  unfold step syscallDispatch
  dsimp only
  rw [if_pos ⟨hrip, hn⟩]
  generalize (m.k.enterSyscall m.cpu.entered).prologue m.cpu.entered = k at hstays
  have hsaved : Saves f k.current := by
    rw [current, hstays.currentTask]
    exact hs.same hstays.saved
  have hret : k.sysRtSigreturn m.cpu.entered =
      (k.modifyTask k.currentTask Task.endHandler, f, 0) := by
    unfold sysRtSigreturn
    dsimp only
    rw [if_neg (by rw [hsaved.1, hsaved.2.1]; simp), hsaved.2.2]
  have hbody : k.syscallBody m.cpu.entered a =
      some (k.modifyTask k.currentTask Task.endHandler, f, 0) := by
    unfold syscallBody
    rw [hnr]
    exact congrArg some hret
  have hx : k.userExecPending = false :=
    (congrArg (fun t ↦ t.2.2.2.2.2.1) hstays.ctl).trans (congrArg Prod.snd hm.flags)
  have hp : k.taskSwitchPending = false :=
    (congrArg (fun t ↦ t.2.1) hstays.ctl).trans hm.ready.pending
  have he : k.userExitPending = false :=
    (congrArg (fun t ↦ t.2.2.2.2.1) hstays.ctl).trans (congrArg Prod.fst hm.flags)
  have hnr' : m.cpu.entered.rax = 15 := h15
  have hepi : ∀ k' : Kernel, k'.userExecPending = false →
      ∃ k'', k'.epilogue 15 f 0 = (k'', f.setRax 0) ∧ k''.ctl = k'.ctl := by
    intro k' hx'
    unfold epilogue
    dsimp only
    rw [hx', if_neg Bool.false_ne_true, if_pos rfl]
    exact ⟨_, rfl, rfl⟩
  obtain ⟨k'', hk'', hctl⟩ := hepi (k.modifyTask k.currentTask Task.endHandler) hx
  rw [hbody, Option.map_some, Option.bind_some, hnr', hk'']
  have hctl' : k''.ctl = k.ctl := hctl
  refine ⟨k'', leaveSyscall_normal ?_ ?_ ?_ _ _ _,
    (congrArg Prod.fst hctl').trans hstays.currentTask⟩
  · exact (congrArg (fun t ↦ t.2.2.2.2.2.1) hctl').trans hx
  · exact (congrArg (fun t ↦ t.2.1) hctl').trans hp
  · exact (congrArg (fun t ↦ t.2.2.2.2.1) hctl').trans he

/-- After a delivered signal, the `rt_sigreturn` of its task resumes the interrupted frame exactly
if the system call had returned 0. -/
theorem sigreturn_resumes_iff {s : Regs} {l : List Event} (hm : m.Reachable)
    (hd : m.Delivers a i f sig h rest) (h₁ : m.step (.syscall a s) = some m₁)
    (hrun : Steps step (fun m e ↦ ¬ (m.k.currentTask = i ∧ m.Sigreturns e)) m₁ l m₂)
    (hcur : m₂.k.currentTask = i) (hpid : (m₂.k.tasks i).pid = (m₁.k.tasks i).pid)
    (h15 : m₂.cpu.rax = 15) (hrip : m₂.cpu.userRip.toNat < userLimit)
    (hn : m₂.k.nextPid < 2 ^ 31 - 1) (a' : Call) (s' : Regs) :
    ∃ m₃, m₂.step (.syscall a' s') = some m₃ ∧ m₃.k.currentTask = i ∧ (m₃.cpu = f ↔ f.rax = 0) := by
  have hsane := (step_took hm.sane h₁).sane
  obtain ⟨hu, hs⟩ := hd.saves hm.sane h₁
  -- the frame stays saved along the run, as long as the slot belongs to the same task
  have hinv := hrun.invariant (I := fun m ↦ m.Sane ∧ (m₁.k.tasks i).pid < m.k.nextPid ∧
      ((m.k.tasks i).used = true → (m.k.tasks i).pid = (m₁.k.tasks i).pid → Saves f (m.k.tasks i)))
    (fun m e m' hi hok hs ↦ ⟨(step_took hi.1 hs).sane, saves_step hi.1 hi.2.1 hi.2.2 hok hs⟩)
    ⟨hsane, hsane.pids.lt i hu, fun _ _ ↦ hs⟩
  obtain ⟨hsane₂, -, hsaved⟩ := hinv
  have hs₂ : Saves f m₂.k.current := by
    rw [current, hcur]
    exact hsaved (hcur ▸ hsane₂.ready.used) hpid
  obtain ⟨k, hk, hc⟩ := sigreturn_step hsane₂ hrip hn h15 hs₂ a' s'
  exact ⟨_, hk, hc.trans hcur, f.setRax_eq_self_iff 0⟩

def sigintRun : List Event :=
  [.syscall (callOf [.effect (.sigaction sigint ⟨0x1100, 0x4000000, 0x1200, 0⟩)] 0) (fun _ ↦ 0),
    .timer [.queueSignal 0 sigint], .user (userAt 39) (fun _ ↦ 0) oneStackPage]

theorem sigint_delivers : ∃ m ∈ (bootAt (userAt 13)).run sigintRun, m.cpu.rax ≠ 15 ∧
    (∃ r ∈ m.body (callOf [] 1), r.1.userExecPending = false ∧ r.1.currentTask = 0 ∧
      (r.2.1.setRax r.2.2).rax = 1 ∧
      r.1.delivery 0 (r.2.1.setRax r.2.2) = .caught sigint 0x1100 0x1200 ∧
      (r.1.userCopyTo ((r.2.1.setRax r.2.2).userRsp - 8) (quadBytes 0x1200)).2 = 0) ∧
    ∃ m₁ ∈ m.syscallStep (callOf [] 1), ∃ m₂ ∈ m₁.userStep 15 (fun _ ↦ 0),
      m₂.k.currentTask = 0 ∧ (m₂.k.tasks 0).pid = (m₁.k.tasks 0).pid ∧ m₂.cpu.rax = 15 ∧
      m₂.cpu.userRip.toNat < userLimit ∧ m₂.k.nextPid < 2 ^ 31 - 1 ∧
      ∃ m₃ ∈ m₂.syscallStep (callOf [] 0), m₃.cpu.rax = 0 := by
  decide +kernel

/-- The `rt_sigreturn` after the `getpid` loses its result. -/
theorem sigreturn_loses_rax :
    ¬ ∀ (m m₁ m₂ : Machine) (a a' : Call) (s s' : Regs) (l : List Event) (i : Slot)
    (f : SyscallFrame) (sig : ℕ) (h rest : UInt64), m.Reachable → m.Delivers a i f sig h rest →
    m.step (.syscall a s) = some m₁ →
      Steps step (fun m e ↦ ¬ (m.k.currentTask = i ∧ m.Sigreturns e)) m₁ l m₂ →
    m₂.k.currentTask = i → (m₂.k.tasks i).pid = (m₁.k.tasks i).pid → m₂.cpu.rax = 15 →
    m₂.cpu.userRip.toNat < userLimit → m₂.k.nextPid < 2 ^ 31 - 1 →
    ∃ m₃, m₂.step (.syscall a' s') = some m₃ ∧ m₃.k.currentTask = i ∧ m₃.cpu = f := by
  intro hall
  obtain ⟨m, hm, hnr, ⟨r, hb, hx, hi, hf, hd, hc⟩, m₁, h₁, m₂, h₂, hcur, hpid, h15, hrip, hn, m₃,
    h₃, hr⟩ :=
    sigint_delivers
  have hreach : m.Reachable := ⟨_, _, _, _, _, hm⟩
  obtain ⟨m₃', h₃', -, hcpu⟩ := hall m m₁ m₂ _ (callOf [] 0) _ (fun _ ↦ 0)
    [.user (userAt 15) (fun _ ↦ 0) m₁.k.vm] 0 (r.2.1.setRax r.2.2) _ _ _ hreach
    ⟨hnr, r.1, r.2.1, r.2.2, hb, hx, hi, rfl, hd, hc⟩ h₁ ⟨fun hs ↦ hs.2, m₂, h₂, rfl⟩ hcur hpid
      h15 hrip hn
  obtain rfl := Option.some.inj (h₃'.symm.trans h₃)
  rw [hcpu, hf] at hr
  exact absurd hr (by decide)

theorem sigreturn_resumes_iff_sigint : ∃ m₁ m₂ m₃ : Machine, ∃ f : SyscallFrame, f.rax = 1 ∧
    m₁.userStep 15 (fun _ ↦ 0) = some m₂ ∧ m₂.syscallStep (callOf [] 0) = some m₃ ∧
    m₃.k.currentTask = 0 ∧ (m₃.cpu = f ↔ f.rax = 0) := by
  obtain ⟨m, hm, hnr, ⟨r, hb, hx, hi, hf, hd, hc⟩, m₁, h₁, m₂, h₂, hcur, hpid, h15, hrip, hn, -⟩ :=
    sigint_delivers
  have hreach : m.Reachable := ⟨_, _, _, _, _, hm⟩
  obtain ⟨m₃, h₃⟩ := sigreturn_resumes_iff (l := [.user (userAt 15) (fun _ ↦ 0) m₁.k.vm]) hreach
    ⟨hnr, r.1, r.2.1, r.2.2, hb, hx, hi, rfl, hd, hc⟩ h₁ ⟨fun hs ↦ hs.2, m₂, h₂, rfl⟩ hcur hpid
      h15 hrip hn
    (callOf [] 0) (fun _ ↦ 0)
  exact ⟨m₁, m₂, m₃, _, hf, h₂, h₃⟩

end Machine

end YabroOS
