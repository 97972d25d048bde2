import YabroOS.Kernel.Kin
import YabroOS.Kernel.Sigreturn

namespace YabroOS

open Memory Function Lib Lib.Asm

namespace Kernel

variable {k : Kernel} {i j : Slot}

/-- At its next system call the task in slot `j` gets rid of the one in slot `i`: its `wait4` has
reported that one already, or a `wait4` reports it now. -/
def Collects (k : Kernel) (j i : Slot) (f : SyscallFrame) : Prop :=
  let r := ({ k with currentTask := j }.prologue f).sysWait4 f (k.tasks i).pid 0 1
  ((r.1.tasks i).used = false) ∧
    ((k.tasks j).wait4ReapPid = (k.tasks i).pid ∨ r.2 = ofInt (k.tasks i).pid)

theorem reapChild_tasks (hi : i ≠ k.currentTask) (hr : (k.tasks i).pid ≠ k.current.wait4ReapPid) :
    k.reapChild.tasks i = k.tasks i := by
  unfold reapChild
  dsimp only
  split_ifs
  · rw [modifyTask_apply]
    split
    · next c hc =>
      have hne : i ≠ c := by
        rintro rfl
        exact hr (of_decide_eq_true (findTask_spec hc).2).1
      have hcur : (k.reap c).currentTask = k.currentTask :=
        congrArg Prod.fst (taskReapResources_ctl k c).1
      rw [hcur, if_neg hi, reap_tasks k hne]
    · rw [if_neg hi]
  · rfl

theorem prologue_tasks (hp : k.Pids) (f : SyscallFrame) (hi : i ≠ k.currentTask)
    (hr : (k.tasks i).pid ≠ k.current.wait4ReapPid) : (k.prologue f).tasks i = k.tasks i := by
  have hadopt : ∀ j, ((k.adoptCr3 f).tasks j).wait4ReapPid = (k.tasks j).wait4ReapPid ∧
      (j ≠ k.currentTask → (k.adoptCr3 f).tasks j = k.tasks j) := by
    intro j
    unfold adoptCr3
    split_ifs
    · exact ⟨rfl, fun _ ↦ rfl⟩
    · rw [modifyTask_apply]
      refine ⟨?_, fun hj ↦ if_neg hj⟩
      split_ifs <;> rfl
  have hs := adoptCr3_stays k f
  have hreap : (k.adoptCr3 f).reapChild.tasks i = k.tasks i := by
    rw [reapChild_tasks (hs.currentTask ▸ hi), (hadopt i).2 hi]
    rw [(hadopt i).2 hi, current, hs.currentTask, (hadopt _).1]
    exact hr
  unfold prologue
  dsimp only
  split_ifs
  · have hcur := (reapChild_stays (hs.pids hp)).currentTask.trans hs.currentTask
    rw [taskSave, modifyTask_of_ne _ _ _ _ (hcur ▸ hi)]
    exact hreap
  · exact hreap

theorem sysWait4_collects (hp : k.Pids) (f : SyscallFrame) (hu : (k.tasks i).used = true)
    (hz : (k.tasks i).state = .zombie) (hpp : (k.tasks i).ppid = k.current.pid) :
    ((k.sysWait4 f (k.tasks i).pid 0 1).1.tasks i).used = false ∧
      (k.sysWait4 f (k.tasks i).pid 0 1).2 = ofInt (k.tasks i).pid := by
  obtain ⟨c, hc⟩ := findTask_isSome (fun t ↦ t.ppid = k.current.pid ∧
    (0 < (k.tasks i).pid → t.pid = (k.tasks i).pid) ∧
    t.state = .zombie) hu (decide_eq_true ⟨hpp, fun _ ↦ rfl, hz⟩)
  obtain ⟨huc, hq⟩ := findTask_spec hc
  obtain rfl := hp.inj c i huc hu ((of_decide_eq_true hq).2.1 (hp.pos i hu))
  have hne := hp.child_ne hu hpp
  have heq : k.sysWait4 f (k.tasks c).pid 0 1 =
      ((k.reap c).modifyTask k.currentTask (fun t ↦ t.sigPendingSet sigchld),
        ofInt (k.tasks c).pid) := by
    unfold sysWait4
    dsimp only
    rw [hc]
    rfl
  rw [heq]
  refine ⟨?_, rfl⟩
  rw [modifyTask_of_ne _ _ _ _ hne]
  exact reap_used k c

theorem collects (hp : k.Pids) (f : SyscallFrame) (hu : (k.tasks i).used = true)
    (hz : (k.tasks i).state = .zombie) (hpp : (k.tasks i).ppid = (k.tasks j).pid) :
    k.Collects j i f := by
  let k' : Kernel := { k with currentTask := j }
  have hp' : k'.Pids := ⟨hp.pos, hp.lt, hp.ppid, hp.inj⟩
  have hstays := prologue_stays hp' f
  by_cases hr : (k.tasks i).pid = (k.tasks j).wait4ReapPid
  · refine ⟨?_, .inl hr.symm⟩
    have hgone := prologue_used (k := k') hp' f hu hz hpp hr
    have hkin :=
      sysWait4_kin (d := fun _ ↦ False) (p := False) (hstays.pids hp') f (k.tasks i).pid 0 1
    exact (hkin.fresh i hgone).elim id fun h ↦ h.1.elim
  · have hi : i ≠ j := hp.child_ne hu hpp
    have ht : (k'.prologue f).tasks i = k.tasks i := prologue_tasks (k := k') hp' f hi hr
    have hpid : (k'.prologue f).current.pid = (k.tasks j).pid := by
      rw [current, hstays.currentTask]
      exact hstays.pid
    have hw := sysWait4_collects (i := i) (hstays.pids hp') f (by rwa [ht]) (by rwa [ht])
      (by rw [ht, hpid]; exact hpp)
    rw [ht] at hw
    exact ⟨hw.1, .inr hw.2⟩

end Kernel

namespace Machine

open Kernel

variable {m m' : Machine} {e : Event} {i j : Slot} {a : Call} {scratch : Regs}

/-- The current task makes a call that makes tasks. -/
def Spawns (m : Machine) : Event → Prop
  | .syscall .. => MakesTask m.cpu.rax
  | _ => False

/-- The event ends the task in slot `i`: by an exit, a fault or a signal. The signal at the end of a
system call is for the task that the call has switched to. -/
def Dies (m : Machine) (i : Slot) : Event → Prop
  | .syscall a _ => i = m.k.currentTask ∧ EndsTask m.cpu.rax ∨
      ∃ k f v, m.body a = some (k, f, v) ∧ k.Kills m.cpu.rax f v i
  | .timer polled => i = m.k.currentTask ∧ ((m.k.applyAll polled).tasks i).SigintFatal
  | .fault _ => i = m.k.currentTask
  | _ => False

theorem enters (h : m.Sane) (hn : m.k.nextPid < 2 ^ 31 - 1) :
    let k := (m.k.enterSyscall m.cpu.entered).prologue m.cpu.entered
    Reaps m.k.currentTask m.k k ∧ k.Pids ∧ k.currentTask = m.k.currentTask ∧
      (k.tasks k.currentTask).used = true ∧ k.nextPid < 2 ^ 31 := by
  have henter : Stays m.k.currentTask m.k (m.k.enterSyscall m.cpu.entered) := .of_tasks _ rfl rfl rfl
  have hp := henter.pids h.pids
  have hstays := henter.trans (prologue_stays hp m.cpu.entered)
  have hreaps : Reaps m.k.currentTask m.k (m.k.enterSyscall m.cpu.entered) := .of_tasks rfl
  refine ⟨hreaps.trans (prologue_reaps hp m.cpu.entered), hstays.pids h.pids,
    hstays.currentTask, ?_, ?_⟩
  · rw [hstays.currentTask, hstays.used]
    exact h.ready.used
  · rw [prologue_nextPid]
    change m.k.nextPid < 2 ^ 31
    omega

theorem syscall_kin (h : m.Sane) (hs : m.step (.syscall a scratch) = some m') :
    Kin m.k.currentTask (m.Dies · (.syscall a scratch))
    (m.Spawns (.syscall a scratch)) m.k m'.k := by
  obtain ⟨-, hn, k, f, v, hb, hl⟩ := step_syscall hs
  obtain ⟨hreaps, hp, hcur, hu, hn'⟩ := enters h hn
  have hbody := syscallBody_kin hp hu hn' hb
  rw [hcur] at hbody
  have hfirst : Kin m.k.currentTask (m.Dies · (.syscall a scratch)) (MakesTask m.cpu.rax) m.k k :=
    (hreaps.then hbody).mono (fun _ ↦ .inl) id
  have hkill : ∀ i, k.Kills m.cpu.rax f v i → m.Dies i (.syscall a scratch) :=
    fun i hi ↦ .inr ⟨k, f, v, hb, hi⟩
  have hlast := ((epilogue_remain k m.cpu.rax f v).mono hkill).trans (leaveSyscall_remain _ hl)
  refine hfirst.then hlast fun hm i hi hd ↦ ?_
  rcases hd with ⟨hd, -⟩ | ⟨k', f', v', hb', -, -, hd, -⟩
  · exact hi hd
  · obtain rfl : k' = k := congrArg Prod.fst (Option.some.inj (hb'.symm.trans hb))
    exact hi (hd.trans ((syscallBody_currentTask (f := m.cpu.entered) hp hu hn' hm hb).trans hcur))

theorem step_kin (h : m.Sane) (hs : m.step e = some m') :
    Kin m.k.currentTask (m.Dies · e) (m.Spawns e) m.k m'.k := by
  cases e with
  | user cpu fpu vm =>
    obtain rfl := Option.some.inj hs
    exact Remain.kin (remain_of_tasks rfl)
  | syscall a scratch => exact syscall_kin h hs
  | timer polled =>
    have hcur := (applyAll_stays polled h.ready.live.not_blocked).currentTask
    have hi := timerPreemptFromUser_remain (d := (m.Dies · (.timer polled))) m.k m.cpu polled
      fun hd ↦ ⟨hcur, hd⟩
    unfold step at hs
    dsimp only at hs
    split at hs
    · next k he =>
      obtain rfl := Option.some.inj hs
      rw [he] at hi
      exact hi.kin
    · next k i he =>
      obtain rfl := Option.some.inj hs
      rw [he] at hi
      exact Remain.kin (hi.trans (remain_of_tasks rfl))
  | interrupt effects =>
    obtain rfl := Option.some.inj hs
    exact (applyAll_remain m.k effects).kin
  | fault vector =>
    have hexit : Remain (m.Dies · (.fault vector)) m.k
        (m.k.sysExit (128 + exceptionSignalForVector vector)) :=
      sysExit_remain m.k _ rfl
    exact (hexit.trans (leaveFault_remain _ hs)).kin

theorem syscall_gone (h : m.Sane) (hs : m.step (.syscall a scratch) = some m')
    (hm : ¬ m.Spawns (.syscall a scratch)) (hu : (m.k.tasks j).used = true)
    (hz : (m.k.tasks j).state = .zombie) (hpp : (m.k.tasks j).ppid = m.k.current.pid)
    (hr : (m.k.tasks j).pid = m.k.current.wait4ReapPid) : (m'.k.tasks j).used = false := by
  obtain ⟨-, hn, k, f, v, hb, hl⟩ := step_syscall hs
  obtain ⟨-, hp, -, hu', hn'⟩ := enters h hn
  have hgone :=
    prologue_used (k := m.k.enterSyscall m.cpu.entered) ⟨h.pids.pos, h.pids.lt, h.pids.ppid,
      h.pids.inj⟩
    m.cpu.entered hu hz hpp hr
  have hbody : (k.tasks j).used = false :=
    ((syscallBody_kin hp hu' hn' hb).fresh j hgone).elim id fun ht ↦ absurd ht.1 hm
  have hend := (epilogue_remain k m.cpu.rax f v).trans (leaveSyscall_remain _ hl)
  exact (hend j).used.trans hbody

/-- The `wait4` of the task in slot `i` has reported the one in slot `j`, which leaves with the call
that the former makes now. -/
def Reported (m : Machine) (i j : Slot) : Event → Prop
  | .syscall .. =>
    i = m.k.currentTask ∧ (m.k.tasks j).state = .zombie ∧
      (m.k.tasks j).pid = (m.k.tasks i).wait4ReapPid
  | _ => False

/-- A task that ends is a process other than the first one, and it leaves no children behind; a task
that has been killed and still runs makes no more of them. -/
structure Orderly (m : Machine) (e : Event) : Prop where
  spawns : m.Spawns e → m.k.current.state ≠ .zombie ∧ ¬ m.Dies m.k.currentTask e
  process : ∀ i, (m.k.tasks i).used = true → m.Dies i e → i ≠ 0 ∧
    (m.k.tasks i).tgid = (m.k.tasks i).pid
  childless : ∀ i j, (m.k.tasks i).used = true → m.Dies i e → (m.k.tasks j).used = true →
    (m.k.tasks j).ppid = (m.k.tasks i).pid → m.Reported i j e

structure Parented (k : Kernel) : Prop where
  parent : ∀ i, i ≠ 0 → (k.tasks i).used = true →
    ∃ j, (k.tasks j).used = true ∧ (k.tasks j).state ≠ .zombie ∧ (k.tasks j).pid = (k.tasks i).ppid
  process : ∀ i, (k.tasks i).used = true → (k.tasks i).state = .zombie → i ≠ 0 ∧
    (k.tasks i).tgid = (k.tasks i).pid

theorem boot_parented (vm : Vmm) (cr3 : UInt64) : Parented (.boot vm cr3) := by
  have hused : ∀ i, i ≠ 0 → ((Kernel.boot vm cr3).tasks i).used = false := by
    intro i hi
    unfold boot
    dsimp only
    rw [if_neg hi]
    rfl
  refine ⟨fun i hi hu ↦ ?_, fun i hu hz ↦ ?_⟩
  · rw [hused i hi] at hu
    cases hu
  · by_cases hi : i = 0
    · subst hi
      cases hz
    · rw [hused i hi] at hu
      cases hu

theorem Orderly.parent_lives (ho : m.Orderly e) (h : m.Sane) (hs : m.step e = some m')
    (hu : (m.k.tasks i).used = true) (hu' : (m'.k.tasks i).used = true)
    (hj : (m.k.tasks j).used = true) (hz : (m.k.tasks j).state ≠ .zombie)
    (hp : (m.k.tasks j).pid = (m.k.tasks i).ppid) :
    (m'.k.tasks j).used = true ∧ (m'.k.tasks j).state ≠ .zombie ∧
      (m'.k.tasks j).pid = (m.k.tasks j).pid := by
  have hr : Task.Remains (m.Dies j e) (m.k.tasks j) (m'.k.tasks j) :=
    ((step_kin h hs).kept j hj).resolve_right fun hk ↦ hz hk.1
  refine ⟨hr.used.trans hj, fun hz' ↦ ?_, hr.pid⟩
  have hd := (hr.ended hz').resolve_left hz
  have hrep := ho.childless j i hj hd hu hp.symm
  cases e with
  | syscall a scratch =>
    obtain ⟨rfl, hzi, hri⟩ := hrep
    have hm : ¬ m.Spawns (.syscall a scratch) := fun hm ↦ (ho.spawns hm).2 hd
    rw [syscall_gone h hs hm hu hzi hp.symm hri] at hu'
    cases hu'
  | user => exact hrep
  | timer => exact hrep
  | interrupt => exact hrep
  | fault => exact hrep

theorem Orderly.turned (ho : m.Orderly e) (h : m.Sane) (hs : m.step e = some m')
    (ht : Turned m.k.currentTask (m.Spawns e) m.k m'.k i) (hu : (m'.k.tasks i).used = true) :
    (m'.k.tasks i).state ≠ .zombie ∧
      ∃ j, (m'.k.tasks j).used = true ∧ (m'.k.tasks j).state ≠ .zombie ∧
        (m'.k.tasks j).pid = (m'.k.tasks i).ppid := by
  obtain ⟨hm, -, hpp, hz⟩ := ht.resolve_left fun hf ↦ by simp [hu] at hf
  have hr : Task.Remains (m.Dies m.k.currentTask e) m.k.current (m'.k.tasks m.k.currentTask) :=
    ((step_kin h hs).kept _ h.ready.used).resolve_right fun hk ↦ hk.2.1 rfl
  obtain ⟨halive, hd⟩ := ho.spawns hm
  exact ⟨hz, m.k.currentTask, hr.used.trans h.ready.used, fun hz' ↦ (hr.ended hz').elim halive hd,
    hr.pid.trans hpp.symm⟩

theorem Parented.step (hk : Parented m.k) (h : m.Sane) (ho : m.Orderly e)
    (hs : m.step e = some m') : Parented m'.k := by
  have hkin := step_kin h hs
  refine ⟨fun i hi hu' ↦ ?_, fun i hu' hz' ↦ ?_⟩
  · rcases hused : (m.k.tasks i).used with _ | _
    · exact (ho.turned h hs (hkin.fresh i hused) hu').2
    · rcases hkin.kept i hused with hr | ⟨-, -, ht⟩
      · obtain ⟨j, hj, hz, hp⟩ := hk.parent i hi hused
        obtain ⟨hj', hz', hp'⟩ := ho.parent_lives h hs hused hu' hj hz hp
        exact ⟨j, hj', hz', hp'.trans (hp.trans hr.ppid.symm)⟩
      · exact (ho.turned h hs ht hu').2
  · rcases hused : (m.k.tasks i).used with _ | _
    · exact absurd hz' (ho.turned h hs (hkin.fresh i hused) hu').1
    · rcases hkin.kept i hused with hr | ⟨-, -, ht⟩
      · rw [hr.tgid, hr.pid]
        exact (hr.ended hz').elim (hk.process i hused) (ho.process i hused)
      · exact absurd hz' (ho.turned h hs ht hu').1

/-- Along a run of orderly steps every ended task is a process whose parent has not ended and can
collect it. -/
theorem zombies_collected {vm : Vmm} {cr3 : UInt64} {cpu : SyscallFrame} {fpu : ℕ → UInt64}
    {l : List Event} (hrun : Steps step Orderly ⟨.boot vm cr3, cpu, fpu⟩ l m)
    (hu : (m.k.tasks i).used = true) (hz : (m.k.tasks i).state = .zombie) :
    (m.k.tasks i).tgid = (m.k.tasks i).pid ∧ ∃ j, (m.k.tasks j).used = true ∧ (m.k.tasks j).state ≠
      .zombie ∧ (m.k.tasks j).pid = (m.k.tasks i).ppid ∧ ∀ f, m.k.Collects j i f := by
  have hinv := hrun.invariant (I := fun m ↦ m.Sane ∧ Parented m.k)
    (fun _ _ _ hi ho hs ↦ ⟨(step_took hi.1 hs).sane, hi.2.step hi.1 ho hs⟩)
    ⟨boot_sane vm cr3 cpu fpu, boot_parented vm cr3⟩
  obtain ⟨hsane, hk⟩ := hinv
  obtain ⟨h₀, hg⟩ := hk.process i hu hz
  obtain ⟨j, hj, hzj, hp⟩ := hk.parent i h₀ hu
  exact ⟨hg, j, hj, hzj, hp, fun f ↦ collects hsane.pids f hu hz hp.symm⟩

theorem not_dies_syscall (hnr : ¬ EndsTask m.cpu.rax)
    (h : ∀ r ∈ m.body a, r.1.delivery r.1.currentTask (r.2.1.setRax r.2.2) = .nothing) :
    ¬ m.Dies i (.syscall a scratch) := by
  rintro (⟨-, he⟩ | ⟨k, f, v, hb, -, -, rfl, sig, hsig⟩)
  · exact hnr he
  · have hnone := h _ hb
    rw [hsig] at hnone
    cases hnone

theorem Orderly.of_not_dies (hd : ∀ i, ¬ m.Dies i e) (hz : m.k.current.state ≠ .zombie) :
    m.Orderly e where
  spawns _ := ⟨hz, hd _⟩
  process i _ hi := absurd hi (hd i)
  childless i _ _ hi := absurd hi (hd i)

set_option synthInstance.maxSize 1024 in
theorem exit_run :
    ∃ m₁ ∈ (bootAt (userAt 57)).syscallStep (callOf [] 0), ∃ m₂ ∈ m₁.step (.timer []),
    ∃ m₃ ∈ m₂.userStep 60 (fun _ ↦ 0), ∃ m ∈ m₃.syscallStep (callOf [] 0),
    (∀ r ∈ (bootAt (userAt 57)).body (callOf [] 0), r.1.delivery r.1.currentTask
      (r.2.1.setRax r.2.2) = .nothing) ∧
    m₁.k.current.state ≠ .zombie ∧ (m₁.k.tasks m₁.k.currentTask).sigPending sigint = false ∧
    m₂.k.current.state ≠ .zombie ∧ m₃.k.currentTask = 1 ∧ m₃.cpu.rax = 60 ∧
    (∀ r ∈ m₃.body (callOf [] 0), r.1.delivery r.1.currentTask (r.2.1.setRax r.2.2) =
      .ignored sigchld) ∧
    (m₃.k.tasks 1).tgid = (m₃.k.tasks 1).pid ∧
    (∀ j, (m₃.k.tasks j).used = true → (m₃.k.tasks j).ppid ≠ (m₃.k.tasks 1).pid) ∧
    (m.k.tasks 1).used = true ∧ (m.k.tasks 1).state = .zombie := by
  decide +kernel

theorem zombies_collected_fork :
    ∃ m : Machine, (m.k.tasks 1).state = .zombie ∧ ∃ j, (m.k.tasks j).used = true ∧
    (m.k.tasks j).pid = (m.k.tasks 1).ppid ∧ ∀ f, m.k.Collects j 1 f := by
  obtain ⟨m₁, h₁, m₂, h₂, m₃, h₃, m, h, hn₁, hz₁, hs₁, hz₂, hc₃, hr₃, hn₃, hg, hno, hu, hz⟩ :=
    exit_run
  have hfork : (bootAt (userAt 57)).Orderly (.syscall (callOf [] 0) (fun _ ↦ 0)) :=
    .of_not_dies (fun _ ↦ not_dies_syscall (by unfold EndsTask; decide) hn₁) nofun
  have htimer : m₁.Orderly (.timer []) := by
    refine .of_not_dies (fun i hd ↦ ?_) hz₁
    obtain ⟨rfl, ⟨hp, -⟩, -⟩ := hd
    cases hs₁.symm.trans hp
  have hexit : m₃.Orderly (.syscall (callOf [] 0) (fun _ ↦ 0)) := by
    have hself : ∀ i, m₃.Dies i (.syscall (callOf [] 0) (fun _ ↦ 0)) → i = 1 := by
      rintro i (⟨rfl, -⟩ | ⟨k, f, v, hb, -, -, rfl, sig, hsig⟩)
      · exact hc₃
      · cases hsig.symm.trans (hn₃ _ hb)
    refine ⟨fun hm ↦ ?_, fun i _ hd ↦ ?_, fun i j _ hd hj hp ↦ ?_⟩
    · rcases hm with hm | hm <;> rw [hr₃] at hm <;> cases hm
    · obtain rfl := hself i hd
      exact ⟨by decide, hg⟩
    · obtain rfl := hself i hd
      exact absurd hp (hno j hj)
  obtain ⟨-, j, hj, -, hp, hcol⟩ := zombies_collected (i := 1)
    (l := [.syscall (callOf [] 0) (fun _ ↦ 0), .timer [], .user (userAt 60) (fun _ ↦ 0) m₂.k.vm,
      .syscall (callOf [] 0) (fun _ ↦ 0)])
    ⟨hfork, m₁, h₁, htimer, m₂, h₂, .of_not_dies (fun _ ↦ id) hz₂, m₃, h₃, hexit, m, h, rfl⟩ hu hz
  exact ⟨m, hz, j, hj, hp, hcol⟩

def callStep (m : Machine) (rax : UInt64) : Option Machine :=
  (m.userStep rax (fun _ ↦ 0)).bind (·.syscallStep (callOf [] 0))

theorem Reachable.callStep {rax : UInt64} (h : m.Reachable) (hs : m.callStep rax = some m') :
    m'.Reachable := by
  obtain ⟨m₁, h₁, h₂⟩ := Option.bind_eq_some_iff.1 hs
  exact (h.step h₁).step h₂

set_option synthInstance.maxSize 512 in
theorem orphan_run :
    ∃ m₁ ∈ (bootAt (userAt 0)).callStep 57, ∃ m₂ ∈ m₁.step (.timer []), ∃ m₃ ∈ m₂.callStep 57,
    ∃ m₄ ∈ m₃.callStep 60, ∃ m₅ ∈ m₄.step (.timer []), ∃ m ∈ m₅.callStep 60,
    (m.k.tasks 2).used = true ∧ (m.k.tasks 2).state = .zombie ∧
      ∀ j, (m.k.tasks j).used = true → (m.k.tasks j).pid = (m.k.tasks 2).ppid →
        (m.k.tasks j).state = .zombie := by
  decide +kernel

theorem orphaned_zombie : ¬ ∀ (m : Machine) (i : Slot), m.Reachable → (m.k.tasks i).used = true →
    (m.k.tasks i).state = .zombie → (m.k.tasks i).tgid = (m.k.tasks i).pid ∧
      ∃ j, (m.k.tasks j).used = true ∧
      (m.k.tasks j).state ≠ .zombie ∧ (m.k.tasks j).pid = (m.k.tasks i).ppid ∧
        ∀ f, m.k.Collects j i f := by
  intro hall
  obtain ⟨m₁, h₁, m₂, h₂, m₃, h₃, m₄, h₄, m₅, h₅, m, h, hu, hz, hno⟩ := orphan_run
  have hreach :=
    (((((bootAt_reachable (userAt 0)).callStep h₁).step h₂).callStep h₃).callStep h₄).step h₅
  obtain ⟨-, j, hj, hzj, hp, -⟩ := hall m 2 (hreach.callStep h) hu hz
  exact hzj (hno j hj hp)

end Machine

end YabroOS
