import YabroOS.Kernel.Steps

namespace YabroOS

open Memory Function Lib.Asm

namespace Task

def ident (t : Task) : Bool × ℤ × ℤ × ℤ := (t.used, t.pid, t.ppid, t.tgid)

/-- The task is the same one, and it has ended only if it had ended before or `p` holds. -/
structure Remains (p : Prop) (t t' : Task) : Prop where
  ident : t'.ident = t.ident
  ended : t'.state = .zombie → t.state = .zombie ∨ p

variable {p q : Prop} {t t' t'' : Task}

theorem Remains.same (hi : t'.ident = t.ident) (hs : t'.state = t.state) : Remains p t t' :=
  ⟨hi, fun hz ↦ .inl (hs.symm.trans hz)⟩

theorem Remains.lives (hi : t'.ident = t.ident) (hs : t'.state ≠ .zombie) : Remains p t t' :=
  ⟨hi, fun hz ↦ absurd hz hs⟩

theorem Remains.ends (hi : t'.ident = t.ident) (hp : p) : Remains p t t' := ⟨hi, fun _ ↦ .inr hp⟩

theorem Remains.refl (t : Task) : Remains p t t := .same rfl rfl

theorem Remains.trans (h : Remains p t t') (h' : Remains p t' t'') : Remains p t t'' :=
  ⟨h'.ident.trans h.ident, fun hz ↦ (h'.ended hz).elim h.ended .inr⟩

theorem Remains.mono (h : Remains p t t') (hpq : p → q) : Remains q t t' :=
  ⟨h.ident, fun hz ↦ (h.ended hz).imp id hpq⟩

theorem Remains.used (h : Remains p t t') : t'.used = t.used := congrArg Prod.fst h.ident

theorem Remains.pid (h : Remains p t t') : t'.pid = t.pid := congrArg (·.2.1) h.ident

theorem Remains.ppid (h : Remains p t t') : t'.ppid = t.ppid := congrArg (·.2.2.1) h.ident

theorem Remains.tgid (h : Remains p t t') : t'.tgid = t.tgid := congrArg (·.2.2.2) h.ident

theorem ttyQueueSignal_remains (t : Task) (sig : ℕ) : Remains p t (t.ttyQueueSignal sig) := by
  unfold ttyQueueSignal
  dsimp only
  split_ifs
  · exact .refl t
  · exact .same rfl rfl
  · exact .same rfl rfl
  · exact .lives rfl nofun
  · exact .lives rfl nofun
  · exact .lives rfl nofun
  · exact .lives rfl nofun
  · exact .same rfl rfl

theorem wakeTimed_remains (t : Task) (now : UInt64) : Remains p t (t.wakeTimed now) := by
  unfold wakeTimed
  split_ifs
  · exact .refl t
  · exact .lives rfl nofun
  · exact .refl t
  · exact .lives rfl nofun

theorem wakeIo_remains (t : Task) : Remains p t t.wakeIo := by
  unfold wakeIo
  split_ifs <;> exact .lives rfl nofun

theorem pipeReadDone_remains (t : Task) (rax : UInt64) (copied : Bool) :
    Remains p t (t.pipeReadDone rax copied) := by
  unfold pipeReadDone
  split_ifs
  · exact .refl t
  · exact .lives rfl nofun
  · exact .same rfl rfl

theorem pipeCloseDone_remains (t : Task) (fd : ℕ) : Remains p t (t.pipeCloseDone fd) := by
  unfold pipeCloseDone
  split_ifs
  · exact .lives rfl nofun
  · exact .refl t

def SigintFatal (t : Task) : Prop :=
  (t.sigPending sigint = true ∧ t.sigBlocked sigint = false) ∧
    (t.sigActions sigint).saHandler ≠ sigIgn ∧ (t.sigActions sigint).saHandler = sigDfl ∧ 1 < t.pid

end Task

namespace Kernel

variable {k k' k'' : Kernel} {d d' : Slot → Prop} {i : Slot}

/-- Every slot holds the task that it held, and only the tasks in `d` may have ended. -/
def Remain (d : Slot → Prop) (k k' : Kernel) : Prop :=
  ∀ i, Task.Remains (d i) (k.tasks i) (k'.tasks i)

theorem Remain.trans (h : Remain d k k') (h' : Remain d k' k'') : Remain d k k'' :=
  fun i ↦ (h i).trans (h' i)

theorem Remain.mono (h : Remain d k k') (hd : ∀ i, d i → d' i) : Remain d' k k' :=
  fun i ↦ (h i).mono (hd i)

theorem remain_of_tasks (h : k'.tasks = k.tasks) : Remain d k k' := by
  intro i
  rw [h]
  exact .refl _

theorem Remain.since (h : Remain d k' k'') (ht : k'.tasks = k.tasks) : Remain d k k'' :=
  (remain_of_tasks ht).trans h

theorem remain_of_update {t : Task} (h : k'.tasks = update k.tasks i t)
    (ht : Task.Remains (d i) (k.tasks i) t) : Remain d k k' := by
  intro j
  rw [h, update_apply]
  split_ifs with hj
  · subst hj
    exact ht
  · exact .refl _

theorem modifyTask_remain (k : Kernel) (i : Slot) (g : Task → Task)
    (h : ∀ t, Task.Remains (d i) t (g t)) : Remain d k (k.modifyTask i g) :=
  remain_of_update rfl (h _)

section Frame

variable (k : Kernel) (i : Slot) {f : SyscallFrame}

theorem apply_remain (e : Effect) : Remain d k (k.apply e) := by
  cases e with
  | wakeIo =>
    intro i
    simp only [apply, taskWakeIoWaiters]
    split_ifs
    · exact Task.wakeIo_remains _
    · exact .refl _
  | clock now => exact fun i ↦ Task.wakeTimed_remains _ _
  | queueSignal i sig =>
    refine remain_of_update rfl ?_
    dsimp only
    split_ifs
    · exact Task.ttyQueueSignal_remains _ _
    · exact .refl _
  | pendSignal i sig =>
    refine remain_of_update rfl ?_
    dsimp only
    split_ifs <;> exact .same rfl rfl
  | sigaction sig a =>
    refine remain_of_update rfl ?_
    dsimp only
    split_ifs <;> exact .same rfl rfl
  | sigprocmask m => exact remain_of_update rfl (.same rfl rfl)
  | pipeRead i v copied => exact remain_of_update rfl (Task.pipeReadDone_remains _ _ _)
  | pipeClose fd => exact fun i ↦ Task.pipeCloseDone_remains _ _
  | ioResume valid nr rip s d => exact remain_of_update rfl (.same rfl rfl)
  | setGroup i pgrp session => exact remain_of_update rfl (.same rfl rfl)
  | setNice i nice => exact remain_of_update rfl (.same rfl rfl)
  | setTid addr => exact remain_of_update rfl (.same rfl rfl)
  | framebuffer count users => exact remain_of_update rfl (.same rfl rfl)
  | io io => exact remain_of_tasks rfl
  | vm vm => exact remain_of_tasks rfl

theorem applyAll_remain (l : List Effect) : Remain d k (k.applyAll l) := by
  induction l generalizing k with
  | nil => exact remain_of_tasks rfl
  | cons e l ih => exact (apply_remain k e).trans (ih (k.apply e))

theorem setState_remain (s : TaskState) (hs : s ≠ .zombie) :
    Remain d k (k.modifyTask i (fun t ↦ t.setState s)) :=
  modifyTask_remain k i _ fun _ ↦ .lives rfl hs

theorem setRunning_remain : Remain d k (k.setRunning i) := remain_of_update rfl (.lives rfl nofun)

theorem taskAccountSwitch_remain : Remain d k (k.taskAccountSwitch i) := by
  refine remain_of_update rfl ?_
  dsimp only
  split_ifs <;> exact .same rfl rfl

theorem switchTo_remain : Remain d k (k.switchTo i) :=
  (setRunning_remain k i).trans (taskAccountSwitch_remain (k.setRunning i) i)

theorem taskSave_remain (f : SyscallFrame) : Remain d k (k.taskSave f) :=
  remain_of_update rfl (.same rfl rfl)

theorem taskCommitDeferredSwitch_remain : Remain d k (k.taskCommitDeferredSwitch i) := by
  unfold taskCommitDeferredSwitch
  dsimp only
  split_ifs
  · exact remain_of_tasks rfl
  · refine (setState_remain k k.currentTask .runnable nofun).trans ?_
    exact (setRunning_remain _ i).trans (taskAccountSwitch_remain _ i)
  · exact (setRunning_remain k i).trans (taskAccountSwitch_remain _ i)

theorem waitTicks_remain {ticks : List (List Effect)} (h : waitTicks i ticks k = some k') :
    Remain d k k' := by
  induction ticks generalizing k with
  | nil =>
    unfold waitTicks at h
    split_ifs at h
    split at h
    · obtain rfl := Option.some.inj h
      exact switchTo_remain k _
    · obtain rfl := Option.some.inj h
      exact setRunning_remain k i
  | cons tick ticks ih =>
    unfold waitTicks at h
    split_ifs at h
    · split at h
      · obtain rfl := Option.some.inj h
        exact switchTo_remain k _
      · obtain rfl := Option.some.inj h
        exact setRunning_remain k i
    · exact (applyAll_remain k tick).trans (ih _ h)

theorem taskSave_modifyTask_remain (f : SyscallFrame) (g : Task → Task)
    (h : ∀ t, Task.Remains (d k.currentTask) t (g t)) :
    Remain d k ((k.taskSave f).modifyTask k.currentTask g) :=
  (taskSave_remain k f).trans (modifyTask_remain _ _ g h)

theorem taskBlockIoUntil_remain {kind : IoWait} {nr w : UInt64} {ticks : List (List Effect)}
    (h : k.taskBlockIoUntil f kind nr w ticks = some k') : Remain d k k' := by
  have hreg : Remain d k _ :=
    taskSave_modifyTask_remain k f (fun t ↦ t.registerIoWait kind nr w) fun _ ↦ .lives rfl nofun
  unfold taskBlockIoUntil at h
  dsimp only at h
  split at h
  · obtain rfl := Option.some.inj h
    exact hreg.trans (switchTo_remain _ _)
  · exact hreg.trans (waitTicks_remain _ _ h)

theorem sysSchedYield_remain (f : SyscallFrame) (tick : List Effect) :
    Remain d k (k.sysSchedYield f tick).1 := by
  have hsave : Remain d k _ := taskSave_modifyTask_remain k f (fun t ↦ t.setRax 0) fun _ ↦
    .same rfl rfl
  unfold sysSchedYield
  dsimp only
  split
  · exact hsave.trans (applyAll_remain _ _)
  · exact (hsave.trans (setState_remain _ _ .runnable nofun)).trans (switchTo_remain _ _)

theorem pipeBlock_remain (f : SyscallFrame) (fd : ℤ) (buf count : UInt64) :
    Remain d k (k.pipeBlock f fd buf count).1 := by
  have hreg : Remain d k _ :=
    taskSave_modifyTask_remain k f (fun t ↦ t.registerPipeWait fd buf count) fun _ ↦ .lives rfl nofun
  unfold pipeBlock
  dsimp only
  split
  · exact hreg.trans (modifyTask_remain _ _ (fun t ↦ t.clearPipeWait.setState .running) fun _ ↦
      .lives rfl nofun)
  · exact hreg.trans (switchTo_remain _ _)

theorem futexBlock_remain (f : SyscallFrame) (uaddr w : UInt64) :
    Remain d k (k.futexBlock f uaddr w).1 := by
  have hreg : Remain d k _ :=
    taskSave_modifyTask_remain k f (fun t ↦ t.registerFutex uaddr w) fun _ ↦ .same rfl rfl
  unfold futexBlock
  dsimp only
  split
  · exact hreg.trans (modifyTask_remain _ _ (fun t ↦ t.clearFutex.setState .running) fun _ ↦
      .lives rfl nofun)
  · exact (hreg.trans (setState_remain _ _ .blocked nofun)).trans (setRunning_remain _ _)

theorem wait4Block_remain (f : SyscallFrame) (pid : ℤ) (status : UInt64) :
    Remain d k (k.wait4Block f pid status).1 := by
  have hreg : Remain d k (k.modifyTask k.currentTask (fun t ↦ t.registerWait4 pid status)) :=
    modifyTask_remain k _ (fun t ↦ t.registerWait4 pid status) fun _ ↦ .same rfl rfl
  have hblock :=
    (hreg.trans (taskSave_remain _ f)).trans (setState_remain _ k.currentTask .blocked nofun)
  unfold wait4Block
  dsimp only
  split
  · exact hblock.trans (modifyTask_remain _ _ (fun t ↦ t.clearWait4.setState .running) fun _ ↦
      .lives rfl nofun)
  · exact hblock.trans (setRunning_remain _ _)

theorem futexWake_remain (uaddr : UInt64) (val : ℕ) : Remain d k (k.futexWake uaddr val).1 := by
  intro i
  simp only [futexWake]
  split_ifs
  · exact .lives rfl nofun
  · exact .refl _

theorem sysFutex_remain (f : SyscallFrame) (uaddr op val timeout : UInt64) :
    Remain d k (k.sysFutex f uaddr op val timeout).1 := by
  unfold sysFutex
  split_ifs
  · exact remain_of_tasks rfl
  · split
    · exact remain_of_tasks rfl
    · split_ifs
      · exact remain_of_tasks rfl
      · split
        · exact remain_of_tasks rfl
        · exact futexBlock_remain _ _ _ _
  · exact remain_of_tasks rfl
  · exact futexWake_remain _ _ _
  · exact remain_of_tasks rfl

theorem sysArchPrctl_remain (code addr : UInt64) : Remain d k (k.sysArchPrctl code addr).1 := by
  unfold sysArchPrctl
  dsimp only
  split_ifs
  · exact remain_of_tasks rfl
  · exact remain_of_update rfl (.same rfl rfl)
  · exact remain_of_update rfl (.same rfl rfl)
  · exact remain_of_tasks rfl
  · refine remain_of_update rfl ?_
    dsimp only
    split_ifs <;> exact .same rfl rfl
  · exact remain_of_tasks rfl
  · exact remain_of_tasks rfl

theorem sysExecve_remain (a : Call) : Remain d k (k.sysExecve a).1 := by
  unfold sysExecve
  dsimp only
  split
  · exact (applyAll_remain k _).trans (remain_of_update rfl (.same rfl rfl))
  · exact applyAll_remain k _

theorem sysRtSigreturn_remain (f : SyscallFrame) : Remain d k (k.sysRtSigreturn f).1 := by
  unfold sysRtSigreturn
  dsimp only
  split_ifs
  · exact remain_of_tasks rfl
  · exact remain_of_update rfl (.same rfl rfl)

theorem releaseFramebuffer_remain : Remain d k (k.releaseFramebuffer i) :=
  remain_of_update rfl (.same rfl rfl)

theorem wakeFutex_remain (addr : UInt64) (root : ℕ) : Remain d k (k.wakeFutex addr root) := by
  intro i
  simp only [wakeFutex]
  split_ifs
  · exact .lives rfl nofun
  · exact .refl _

theorem taskClearChildTid_remain : Remain d k (k.taskClearChildTid i) := by
  unfold taskClearChildTid
  dsimp only
  split_ifs
  · exact remain_of_tasks rfl
  · refine (remain_of_tasks rfl).trans
      ((wakeFutex_remain _ _ _).trans
        (modifyTask_remain _ _ (fun t ↦ { t with tidAddress := 0 }) fun _ ↦ .same rfl rfl))

theorem exitTask_remain (status : ℤ) (hd : d k.currentTask) : Remain d k (k.exitTask status) := by
  have hfree :=
    (releaseFramebuffer_remain (d := d) k k.currentTask).trans
      (taskClearChildTid_remain _ k.currentTask)
  exact hfree.trans
    (modifyTask_remain _ _ (fun t ↦ { t with exitStatus := status, state := .zombie }) fun _ ↦
      .ends rfl hd)

theorem signalParent_remain (ppid : ℤ) : Remain d k (k.signalParent ppid) := by
  unfold signalParent
  split
  · exact modifyTask_remain _ _ (fun p ↦ p.sigPendingSet sigchld) fun _ ↦ .same rfl rfl
  · exact remain_of_tasks rfl

theorem wakeParent_remain (c : Slot) (l : List Slot) : Remain d k (wakeParent c l k) := by
  induction l generalizing k with
  | nil => exact remain_of_tasks rfl
  | cons j l ih =>
    unfold wakeParent
    dsimp only
    split_ifs with h₁ h₂ h₃ h₄
    · exact ih k
    · exact ih k
    · exact (ih (k.vmmUserActivate _).1).since rfl
    · exact (ih _).since (storeStatus_tasks _ _ _)
    · have hstore := storeStatus_tasks (k.vmmUserActivate (k.tasks j).ctx.cr3).1
        (k.tasks j).wait4StatusPtr (k.tasks c).exitStatus
      exact (modifyTask_remain _ j (fun p ↦ p.wait4Done (k.tasks c).pid) fun _ ↦
        .lives rfl (by simp [Task.wait4Done])).since hstore

theorem notifyParent_remain (c : Slot) (ppid : ℤ) : Remain d k (k.notifyParent c ppid) := by
  unfold notifyParent
  split_ifs
  · exact (signalParent_remain _ _).trans (wakeParent_remain _ _ _)
  · exact remain_of_tasks rfl

theorem sysExit_remain (status : ℤ) (hd : d k.currentTask) : Remain d k (k.sysExit status) := by
  unfold sysExit
  dsimp only
  split_ifs
  · exact remain_of_tasks rfl
  · exact ((exitTask_remain k status hd).trans (notifyParent_remain _ _ _)).trans
      (switchTo_remain _ _)

theorem sysExitGroup_remain (status : ℤ) (hd : d k.currentTask) :
    Remain d k (k.sysExitGroup status) := by
  unfold sysExitGroup
  split_ifs
  · exact remain_of_tasks rfl
  · exact sysExit_remain k status hd

theorem callStep_remain (f : SyscallFrame) (s : CallStep) : Remain d k (callStep f k s) := by
  cases s with
  | effect e => exact apply_remain k e
  | defer rax woke =>
    simp only [callStep, deferSwitch]
    split_ifs
    · exact taskSave_remain k _
    · exact remain_of_tasks rfl

theorem callSteps_remain (f : SyscallFrame) (l : List CallStep) :
    Remain d k (l.foldl (callStep f) k) := by
  induction l generalizing k with
  | nil => exact remain_of_tasks rfl
  | cons s l ih => exact (callStep_remain k f s).trans (ih _)

theorem finish_remain {o : Outcome} {r : Kernel × UInt64} (h : k.finish f o = some r) :
    Remain d k r.1 := by
  cases o with
  | ret v =>
    obtain rfl := Option.some.inj h
    exact remain_of_tasks rfl
  | block kind nr d ticks =>
    obtain ⟨k', hk, rfl⟩ := Option.map_eq_some_iff.1 h
    exact taskBlockIoUntil_remain k hk
  | pipeBlock fd buf count =>
    obtain rfl := Option.some.inj h
    exact pipeBlock_remain k f fd buf count

def Kills (k : Kernel) (nr : UInt64) (f : SyscallFrame) (ret : UInt64) (i : Slot) : Prop :=
  k.userExecPending = false ∧ nr ≠ 15 ∧ i = k.currentTask ∧
    ∃ sig, k.delivery i (f.setRax ret) = .killed sig

theorem deliverPendingSignalToTask_remain (f : SyscallFrame)
    (hd : ∀ sig, k.delivery i f = .killed sig → d i) :
    Remain d k (k.deliverPendingSignalToTask i f).1 := by
  unfold deliverPendingSignalToTask
  split
  · exact remain_of_tasks rfl
  · exact modifyTask_remain k i (fun t ↦ t.sigClearPending _) fun _ ↦ .same rfl rfl
  · next sig hsig =>
    refine modifyTask_remain k i (fun t ↦ t.sigKill sig) fun t ↦ .ends ?_ (hd sig hsig)
    unfold Task.sigKill
    dsimp only
    split_ifs <;> rfl
  · have hstart : Remain d k (k.modifyTask i (fun t ↦ t.startHandler f)) :=
      modifyTask_remain k i _ fun _ ↦ .same rfl rfl
    dsimp only
    split_ifs
    · exact hstart.trans (modifyTask_remain _ _ Task.endHandler fun _ ↦ .same rfl rfl)
    · exact hstart.trans (modifyTask_remain _ _ (fun t ↦ t.sigClearPending _) fun _ ↦ .same rfl rfl)

theorem epilogue_remain (nr : UInt64) (f : SyscallFrame) (ret : UInt64) :
    Remain (k.Kills nr f ret) k (k.epilogue nr f ret).1 := by
  unfold epilogue
  dsimp only
  split_ifs with hx hnr
  · exact remain_of_tasks rfl
  · exact remain_of_tasks rfl
  · have hd :=
      deliverPendingSignalToTask_remain (d := k.Kills nr f ret) k k.currentTask (f.setRax ret)
        fun sig hsig ↦
      ⟨Bool.eq_false_of_not_eq_true hx, hnr, rfl, sig, hsig⟩
    exact hd

theorem takeSwitch_remain : Remain d k (k.takeSwitch i) := by
  unfold takeSwitch
  dsimp only
  split_ifs
  · exact (taskCommitDeferredSwitch_remain _ _).since rfl
  · exact remain_of_tasks rfl

theorem leaveSyscall_remain {fpu : ℕ → UInt64} {scratch : Regs} {m : Machine}
    (h : k.leaveSyscall f fpu scratch = some m) : Remain d k m.k := by
  unfold leaveSyscall at h
  split_ifs at h
  · obtain rfl := Option.some.inj h
    exact remain_of_tasks rfl
  · obtain ⟨j, -, rfl⟩ := Option.map_eq_some_iff.1 h
    exact takeSwitch_remain k j
  · obtain rfl := Option.some.inj h
    exact remain_of_tasks rfl

theorem leaveFault_remain {u : SyscallFrame} {fpu : ℕ → UInt64} {m : Machine}
    (h : k.leaveFault u fpu = some m) : Remain d k m.k := by
  unfold leaveFault at h
  split_ifs at h
  · obtain ⟨j, -, rfl⟩ := Option.map_eq_some_iff.1 h
    exact remain_of_tasks rfl
  · obtain rfl := Option.some.inj h
    exact remain_of_tasks rfl

theorem timerWakeParent_remain (c : Slot) : Remain d k (k.timerWakeParent c) := by
  unfold timerWakeParent
  split
  · exact remain_of_tasks rfl
  · next j hj =>
    have hpend : Remain d k (k.modifyTask j (fun p ↦ p.sigPendingSet sigchld)) :=
      modifyTask_remain k j _ fun _ ↦ .same rfl rfl
    have hstore := fun k cr3 status e ↦ (storeStatusCr3_tasks k cr3 status e).1
    dsimp only
    split_ifs
    · exact hpend.trans (remain_of_tasks (hstore _ _ _ _))
    · exact (hpend.trans (remain_of_tasks (hstore _ _ _ _))).trans
        (modifyTask_remain _ _ (fun p ↦ p.wait4Done _) fun _ ↦ .lives rfl nofun)
    · exact hpend

theorem timerSigint_remain (hd : k.current.SigintFatal → d k.currentTask) :
    Remain d k k.timerSigint := by
  unfold timerSigint timerKill
  dsimp only
  split_ifs with h₁ h₂ h₃
  · exact modifyTask_remain k k.currentTask (fun t ↦ t.sigClearPending sigint) fun _ ↦ .same rfl rfl
  · have hkill : Remain d k (k.modifyTask k.currentTask Task.sigintKill) :=
      modifyTask_remain k _ Task.sigintKill fun _ ↦ .ends rfl (hd ⟨h₁, h₂, h₃⟩)
    exact (hkill.trans (releaseFramebuffer_remain _ _)).trans
      ((timerWakeParent_remain _ _).since rfl)
  · exact remain_of_tasks rfl
  · exact remain_of_tasks rfl

theorem timerPark_remain (u : SyscallFrame) (hd : k.current.SigintFatal → d k.currentTask) :
    Remain d k (k.timerPark u) := by
  have hfatal : (k.taskSave u).current.SigintFatal → d (k.taskSave u).currentTask := by
    rw [current, taskSave, modifyTask_currentTask, modifyTask_self]
    exact hd
  have hsig := (taskSave_remain k u).trans (timerSigint_remain _ hfatal)
  unfold timerPark
  dsimp only
  split_ifs
  · exact hsig.trans (setState_remain _ _ .runnable (by decide))
  · exact hsig

theorem timerPreemptFromUser_remain (u : SyscallFrame) (polled : List Effect)
    (hd : (k.applyAll polled).current.SigintFatal → d (k.applyAll polled).currentTask) :
    Remain d k (k.timerPreemptFromUser u polled).1 := by
  have hall : Remain d k (k.applyAll polled) := applyAll_remain k polled
  unfold timerPreemptFromUser
  dsimp only
  split_ifs
  · exact hall
  · have hpark := hall.trans (timerPark_remain _ u hd)
    split
    · exact hpark.trans (setState_remain _ _ .running nofun)
    · exact hpark.trans (switchTo_remain _ _)

end Frame

end Kernel

end YabroOS
