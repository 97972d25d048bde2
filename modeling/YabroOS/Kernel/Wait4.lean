import YabroOS.Kernel.Orphans

namespace YabroOS

open Memory Function Lib Lib.Asm

namespace Kernel

/-- A task that has not been reaped and that a `wait4` of the one in slot `p` is for. -/
structure Child (k : Kernel) (p : Slot) (pid : ℤ) (c : Slot) : Prop where
  used : (k.tasks c).used = true
  ppid : (k.tasks c).ppid = (k.tasks p).pid
  named : 0 < pid → (k.tasks c).pid = pid

/-- The task in slot `p` sleeps in a `wait4` that is for the one in slot `c`. -/
structure AwaitsChild (k : Kernel) (p c : Slot) : Prop where
  used : (k.tasks p).used = true
  blocked : (k.tasks p).state = .blocked
  active : (k.tasks p).wait4Active = true
  child : Child k p (k.tasks p).wait4Pid c

structure Stores (k : Kernel) (p : Slot) (exitStatus : ℤ) : Prop where
  activated : (k.vmmUserActivate (k.tasks p).ctx.cr3).2 = 0
  stored : ((k.vmmUserActivate (k.tasks p).ctx.cr3).1.storeStatus (k.tasks p).wait4StatusPtr
    exitStatus).2 = 0

/-- A child in slot `c` stays there as long as the one in slot `p` sleeps, and its exit ends the
sleep. -/
structure Endable (p c : Slot) : Prop where
  kept : ∀ {m m' : Machine} {l : List Event} {pid : ℤ}, m.Reachable → (m.k.tasks p).used = true →
    Child m.k p pid c →
    Steps Machine.step (fun m _ ↦ (m.k.tasks p).state = .blocked) m l m' → Child m'.k p pid c
  exit : ∀ (k : Kernel) (status : ℤ), k.Pids → k.Rooted → k.currentTask = c → AwaitsChild k p c →
    (k.tasks p).futexAddr = 0 → ((k.exitTask status).signalParent (k.tasks p).pid).Stores p status →
      ((k.sysExit status).tasks p).state = .running ∧
        ((k.sysExit status).tasks p).ctx.regs .rax = ofInt (k.tasks c).pid

/-- A `wait4` sleeps only with a child whose exit can end the wait, and fails without one. -/
structure Wait4Sound (k : Kernel) (f : SyscallFrame) (pid : ℤ) (status : UInt64) : Prop where
  sleeps : ((k.sysWait4 f pid status 0).1.tasks k.currentTask).state = .blocked →
    ∃ c, AwaitsChild (k.sysWait4 f pid status 0).1 k.currentTask c ∧
      ((k.sysWait4 f pid status 0).1.tasks c).state ≠ .zombie ∧ Endable k.currentTask c
  childless : (∀ c, ¬ Child k k.currentTask pid c) → (k.sysWait4 f pid status 0).2 = errno echild

variable {k k' : Kernel} {p c i : Slot} {f : SyscallFrame} {pid : ℤ} {status : UInt64}
    {d : Slot → Prop}

theorem Child.remain (h : Child k p pid c) (hr : Remain d k k') : Child k' p pid c :=
  ⟨(hr c).used.trans h.used, (hr c).ppid.trans (h.ppid.trans (hr p).pid.symm),
    fun hp ↦ (hr c).pid.trans (h.named hp)⟩

theorem Child.step {m m' : Machine} {e : Event} (hm : m.Sane) (hs : m.step e = some m')
    (hu : (m.k.tasks p).used = true) (hb : (m.k.tasks p).state = .blocked) (h : Child m.k p pid c) :
    Child m'.k p pid c ∧ (m'.k.tasks p).used = true := by
  have haway := (Machine.step_took hm hs).away
  have hp : p ≠ m.k.currentTask := by
    rintro rfl
    exact hm.ready.live.not_blocked hb
  have hparent : Task.Remains (m.Dies p e) (m.k.tasks p) (m'.k.tasks p) := by
    refine ((Machine.step_kin hm hs).kept p hu).resolve_right fun hz ↦ ?_
    rw [hb] at hz
    cases hz.1
  have hkept : (m'.k.tasks c).used = (m.k.tasks c).used ∧ (m'.k.tasks c).pid = (m.k.tasks c).pid ∧
      (m'.k.tasks c).ppid = (m.k.tasks c).ppid := by
    by_cases hc : c = m.k.currentTask
    · subst hc
      exact ⟨haway.used, haway.pid, haway.ppid⟩
    · rcases haway.others c hc h.used with he | ⟨hpp, -⟩
      · exact ⟨he.used, he.pid, he.ppid⟩
      · exact absurd (hm.pids.inj _ _ hu hm.ready.used (h.ppid.symm.trans hpp)) hp
  exact ⟨⟨hkept.1.trans h.used, hkept.2.2.trans (h.ppid.trans hparent.pid.symm),
    fun hpos ↦ hkept.2.1.trans (h.named hpos)⟩,
    hparent.used.trans hu⟩

theorem Child.run {m m' : Machine} {l : List Event} (hm : m.Reachable)
    (hu : (m.k.tasks p).used = true) (h : Child m.k p pid c)
    (hl : Steps Machine.step (fun m _ ↦ (m.k.tasks p).state = .blocked) m l m') :
    Child m'.k p pid c := by
  have hinv := hl.invariant (I := fun m ↦ m.Sane ∧ (m.k.tasks p).used = true ∧ Child m.k p pid c)
    (fun _ _ _ hi hb hs ↦ by
      obtain ⟨hchild, hu⟩ := hi.2.2.step hi.1 hs hi.2.1 hb
      exact ⟨(Machine.step_took hi.1 hs).sane, hu, hchild⟩)
    ⟨hm.sane, hu, h⟩
  exact hinv.2.2

theorem exitTask_other (st : ℤ) (hp : p ≠ k.currentTask) (hf : (k.tasks p).futexAddr = 0) :
    (k.exitTask st).tasks p = k.tasks p := by
  have hfree : (k.releaseFramebuffer k.currentTask).tasks p = k.tasks p :=
    modifyTask_of_ne k _ _ (fun t ↦ { t with fbMapCount := 0 }) hp
  have hclear : ((k.releaseFramebuffer k.currentTask).taskClearChildTid k.currentTask).tasks p =
      k.tasks p := by
    unfold taskClearChildTid
    dsimp only
    split_ifs with haddr
    · exact hfree
    · rw [modifyTask_of_ne _ _ _ _ hp]
      show (if _ then _ else _) = _
      rw [if_neg]
      · exact hfree
      · rintro ⟨-, -, he, -⟩
        refine haddr (he.symm.trans ?_)
        exact (congrArg Task.futexAddr hfree).trans hf
  unfold exitTask
  dsimp only
  rw [modifyTask_of_ne _ _ _ _ hp]
  exact hclear

theorem wakeParent_finds {l : List Slot} (hp : p ∈ l) (hothers : ∀ i ∈ l, i ≠ p →
    (k.tasks i).used = false ∨ (k.tasks i).pid ≠ (k.tasks c).ppid) (h : AwaitsChild k p c)
    (hs : Stores k p (k.tasks c).exitStatus) :
    (wakeParent c l k).tasks = update k.tasks p ((k.tasks p).wait4Done (k.tasks c).pid) := by
  induction l with
  | nil => cases hp
  | cons i l ih =>
    unfold wakeParent
    dsimp only
    by_cases hi : i = p
    · subst hi
      have hmatch : ¬ (0 < (k.tasks i).wait4Pid ∧ (k.tasks i).wait4Pid ≠ (k.tasks c).pid) :=
        fun hm ↦ hm.2 (h.child.named hm.1).symm
      rw [if_neg, if_neg hmatch, if_neg (not_not.2 hs.activated), if_neg (not_not.2 hs.stored)]
      · show update ((k.vmmUserActivate (k.tasks i).ctx.cr3).1.storeStatus (k.tasks i).wait4StatusPtr
          (k.tasks c).exitStatus).1.tasks i _ = _
        rw [storeStatus_tasks]
        rfl
      · rintro (hu | hpid | hb | ha)
        · rw [h.used] at hu
          cases hu
        · exact hpid h.child.ppid.symm
        · exact hb h.blocked
        · rw [h.active] at ha
          cases ha
    · rw [if_pos]
      · exact ih ((List.mem_cons.1 hp).resolve_left (Ne.symm hi)) (fun j hj ↦ hothers j (.tail _ hj))
      · exact (hothers i (.head _) hi).imp id .inl

theorem signalParent_tasks (ppid : ℤ) (i : Slot) :
    (k.signalParent ppid).tasks i = k.tasks i ∨
      (k.signalParent ppid).tasks i = (k.tasks i).sigPendingSet sigchld := by
  unfold signalParent
  split
  · rw [modifyTask_apply]
    split_ifs
    · exact .inr rfl
    · exact .inl rfl
  · exact .inl rfl

theorem Pids.remain (h : k.Pids) (hn : k'.nextPid = k.nextPid) (hr : Remain d k k') : k'.Pids :=
  h.congr hn (fun i hi ↦ ⟨(hr i).used.symm.trans hi, (hr i).pid, (hr i).ppid⟩)

theorem exitTask_nextPid (k : Kernel) (st : ℤ) : (k.exitTask st).nextPid = k.nextPid := by
  unfold exitTask taskClearChildTid
  dsimp only
  split_ifs <;> rfl

theorem notifyParent_wakes (hp : k.Pids) (h : AwaitsChild k p c)
    (hs : (k.signalParent (k.tasks p).pid).Stores p (k.tasks c).exitStatus) :
    ∃ t : Task, (k.notifyParent c (k.tasks p).pid).tasks p = t.wait4Done (k.tasks c).pid := by
  have hsignal := signalParent_remain (d := fun _ ↦ False) k (k.tasks p).pid
  have hfields : ∀ i, ((k.signalParent (k.tasks p).pid).tasks i).state = (k.tasks i).state ∧
      ((k.signalParent (k.tasks p).pid).tasks i).wait4Active = (k.tasks i).wait4Active ∧
      ((k.signalParent (k.tasks p).pid).tasks i).wait4Pid = (k.tasks i).wait4Pid ∧
      ((k.signalParent (k.tasks p).pid).tasks i).exitStatus = (k.tasks i).exitStatus := by
    intro i
    rcases signalParent_tasks (k := k) (k.tasks p).pid i with he | he <;> rw [he]
      <;> exact ⟨rfl, rfl, rfl, rfl⟩
  obtain ⟨hstate, hactive, hwpid, -⟩ := hfields p
  have hawaits : AwaitsChild (k.signalParent (k.tasks p).pid) p c := by
    refine ⟨(hsignal p).used.trans h.used, hstate.trans h.blocked, hactive.trans h.active, ?_⟩
    rw [hwpid]
    exact h.child.remain hsignal
  have hwake : (k.notifyParent c (k.tasks p).pid).tasks =
      update (k.signalParent (k.tasks p).pid).tasks p
      (((k.signalParent (k.tasks p).pid).tasks p).wait4Done
        ((k.signalParent (k.tasks p).pid).tasks c).pid) := by
    unfold notifyParent
    rw [if_pos (hp.pos p h.used)]
    refine wakeParent_finds (List.mem_finRange p) (fun i _ hi ↦ ?_) hawaits
      (by rwa [(hfields c).2.2.2])
    rcases hu : ((k.signalParent (k.tasks p).pid).tasks i).used with _ | _
    · exact .inl rfl
    · refine .inr fun hpid ↦ hi (hp.inj i p ((hsignal i).used.symm.trans hu) h.used ?_)
      rw [(hsignal i).pid, (hsignal c).ppid] at hpid
      exact hpid.trans h.child.ppid
  refine ⟨(k.signalParent (k.tasks p).pid).tasks p, ?_⟩
  rw [hwake, update_self, (hsignal c).pid]

theorem exitNext_parent (hp : k.Pids) (hu : (k.tasks p).used = true)
    (hs : (k.tasks p).state = .runnable) : k.exitNext (k.tasks p).pid = p := by
  obtain ⟨j, hj⟩ :=
    findTask_isSome (fun t ↦ t.pid = (k.tasks p).pid ∧ t.state = .runnable) hu
      (decide_eq_true ⟨rfl, hs⟩)
  obtain ⟨huj, hq⟩ := findTask_spec hj
  obtain rfl := hp.inj j p huj hu (of_decide_eq_true hq).1
  unfold exitNext
  rw [if_pos (hp.pos j hu), hj]

theorem switchTo_self (k : Kernel) (i : Slot) : ((k.switchTo i).tasks i).state = .running ∧
    ((k.switchTo i).tasks i).ctx = (k.tasks i).ctx := by
  show (((k.setRunning i).taskAccountSwitch i).tasks i).state = .running ∧
    (((k.setRunning i).taskAccountSwitch i).tasks i).ctx = _
  have hrun : (k.setRunning i).tasks i = (k.tasks i).setState .running :=
    modifyTask_self k i (fun t ↦ t.setState .running)
  rw [taskAccountSwitch, modifyTask_self, hrun]
  split_ifs <;> exact ⟨rfl, rfl⟩

theorem sysExit_wakes (hp : k.Pids) (h₀ : k.Rooted) (hc : k.currentTask = c) (st : ℤ)
    (h : AwaitsChild k p c) (hf : (k.tasks p).futexAddr = 0)
    (hs : ((k.exitTask st).signalParent (k.tasks p).pid).Stores p st) :
    ((k.sysExit st).tasks p).state = .running ∧
      ((k.sysExit st).tasks p).ctx.regs .rax = ofInt (k.tasks c).pid := by
  subst hc
  have hne : k.currentTask ≠ p := hp.child_ne h.child.used h.child.ppid
  have hc₀ : k.currentTask ≠ 0 := by
    intro hz
    have hpos := hp.pos p h.used
    have hpp := h.child.ppid
    rw [hz, h₀.ppid] at hpp
    omega
  have hexit : Remain (fun _ ↦ True) k (k.exitTask st) := exitTask_remain k st trivial
  have hother : (k.exitTask st).tasks p = k.tasks p := exitTask_other st (Ne.symm hne) hf
  have hppid : ((k.exitTask st).tasks k.currentTask).ppid = ((k.exitTask st).tasks p).pid :=
    (hexit _).ppid.trans (h.child.ppid.trans (congrArg Task.pid hother).symm)
  have hstatus : ((k.exitTask st).tasks k.currentTask).exitStatus = st := by
    unfold exitTask
    dsimp only
    rw [modifyTask_self]
  have hp₁ : (k.exitTask st).Pids := hp.remain (exitTask_nextPid k st) hexit
  have hawaits : AwaitsChild (k.exitTask st) p k.currentTask := by
    refine ⟨by rw [hother]; exact h.used, by rw [hother]; exact h.blocked,
      by rw [hother]; exact h.active, ?_⟩
    rw [hother]
    exact h.child.remain hexit
  obtain ⟨t, ht⟩ := notifyParent_wakes hp₁ hawaits (by rwa [hstatus, hother])
  have hnotify :=
    notifyParent_remain (d := fun _ ↦ True) (k.exitTask st) k.currentTask
      ((k.exitTask st).tasks p).pid
  have hnext : ((k.exitTask st).notifyParent k.currentTask ((k.exitTask st).tasks p).pid).exitNext
      ((k.exitTask st).tasks p).pid = p := by
    have hself := exitNext_parent (hp₁.remain (notifyParent_evolves _ _ _).nextPid hnotify)
      ((hnotify p).used.trans hawaits.used) (by rw [ht]; rfl)
    rwa [(hnotify p).pid] at hself
  have hsys : k.sysExit st =
      ((k.exitTask st).notifyParent k.currentTask ((k.exitTask st).tasks p).pid).switchTo p := by
    unfold sysExit
    rw [if_neg hc₀]
    dsimp only
    rw [hppid, hnext]
  obtain ⟨hrun, hctx⟩ :=
    switchTo_self ((k.exitTask st).notifyParent k.currentTask ((k.exitTask st).tasks p).pid) p
  rw [hsys]
  refine ⟨hrun, ?_⟩
  rw [hctx, ht, (hexit _).pid]
  simp [Task.wait4Done, Task.clearWait4, Task.setRax, TaskContext.setRax]

theorem endable (p c : Slot) : Endable p c where
  kept := fun hm hu hc hl ↦ hc.run hm hu hl
  exit := fun _ st hp h₀ hc h hf hs ↦ sysExit_wakes hp h₀ hc st h hf hs

theorem wait4Block_sleeps
    (h : ((k.wait4Block f pid status).1.tasks k.currentTask).state = .blocked) :
    ((k.wait4Block f pid status).1.tasks k.currentTask).wait4Active = true ∧
      ((k.wait4Block f pid status).1.tasks k.currentTask).wait4Pid = pid ∧
      ∀ i, ((k.wait4Block f pid status).1.tasks i).state = .zombie →
        (k.tasks i).state = .zombie := by
  have hremain := wait4Block_remain (d := fun _ ↦ False) k f pid status
  have hzombie : ∀ i, ((k.wait4Block f pid status).1.tasks i).state = .zombie →
      (k.tasks i).state = .zombie :=
    fun i hz ↦ ((hremain i).ended hz).resolve_right id
  have hself :
      (((k.modifyTask k.currentTask (fun t ↦ t.registerWait4 pid status)).taskSave f).modifyTask
      k.currentTask (fun t ↦ t.setState .blocked)).tasks k.currentTask =
      (((k.tasks k.currentTask).registerWait4 pid status).taskSaveFromFrame f k.msrFsBase
        k.msrGsBase).setState
        .blocked := by
    rw [modifyTask_self]
    refine congrArg (Task.setState · .blocked) ?_
    show ((k.modifyTask k.currentTask _).modifyTask k.currentTask _).tasks k.currentTask = _
    rw [modifyTask_self, modifyTask_self]
    rfl
  suffices hw : ((k.wait4Block f pid status).1.tasks k.currentTask).wait4Active = true ∧
      ((k.wait4Block f pid status).1.tasks k.currentTask).wait4Pid = pid from ⟨hw.1, hw.2, hzombie⟩
  unfold wait4Block at h ⊢
  dsimp only at h ⊢
  split at h
  · rw [modifyTask_self] at h
    cases h
  · next next hnext =>
    have hne : k.currentTask ≠ next := by
      rintro rfl
      have hrun := (taskPickNext_runnable hnext).2
      rw [hself] at hrun
      cases hrun
    have hback : ∀ k₁ : Kernel, ((k₁.setRunning next).requestSwitch next).tasks k.currentTask =
        k₁.tasks k.currentTask :=
      fun k₁ ↦ modifyTask_of_ne k₁ _ _ (fun t ↦ t.setState .running) hne
    dsimp only
    rw [hback, hself]
    exact ⟨rfl, rfl⟩

theorem wait4Block_ret (k : Kernel) (f : SyscallFrame) (pid : ℤ) (status : UInt64) :
    (k.wait4Block f pid status).2 ≠ errno echild := by
  unfold wait4Block
  dsimp only
  split <;> dsimp only <;> decide

theorem sysWait4_cases (hp : k.Pids) (f : SyscallFrame) (pid : ℤ) (status : UInt64) :
    k.sysWait4 f pid status 0 = (k, errno efault) ∨
      (∃ c, Child k k.currentTask pid c ∧
        ((k.sysWait4 f pid status 0).1.tasks k.currentTask).state = (k.tasks k.currentTask).state) ∨
      (∀ c, Child k k.currentTask pid c → (k.tasks c).state ≠ .zombie) ∧
        k.sysWait4 f pid status 0 = k.wait4Block f pid status := by
  unfold sysWait4
  dsimp only
  split_ifs with hstatus hoptions hnohang
  · exact .inl rfl
  · exact absurd hoptions (by decide)
  · cases hnohang
  split
  · next c hc =>
    obtain ⟨hu, hq⟩ := findTask_spec hc
    obtain ⟨hpp, hnamed, -⟩ := of_decide_eq_true hq
    have hstore := storeStatus_tasks k status (k.tasks c).exitStatus
    generalize k.storeStatus status (k.tasks c).exitStatus = r at hstore ⊢
    obtain ⟨k₁, rc⟩ := r
    dsimp only at hstore ⊢
    refine .inr (.inl ⟨c, ⟨hu, hpp, hnamed⟩, ?_⟩)
    split_ifs
    · rw [hstore]
    · rw [modifyTask_apply]
      have hne : k.currentTask ≠ c := (hp.child_ne hu hpp).symm
      split_ifs
      · show ((k₁.reap c).tasks k.currentTask).state = _
        rw [reap_tasks k₁ hne, hstore]
      · rw [reap_tasks k₁ hne, hstore]
  · next hnone =>
    refine .inr (.inr ⟨fun c hc hz ↦ ?_, rfl⟩)
    obtain ⟨j, hj⟩ := findTask_isSome (fun t ↦ t.ppid = k.current.pid ∧ (0 < pid → t.pid = pid) ∧
      t.state = .zombie) hc.used (decide_eq_true ⟨hc.ppid, hc.named, hz⟩)
    rw [hj] at hnone
    cases hnone

theorem wait4Sound_of_kernel (hp : k.Pids) (hb : (k.tasks k.currentTask).state ≠ .blocked)
    (hu : (k.tasks k.currentTask).used = true) :
    Wait4Sound k f pid status ↔ ∃ c, Child k k.currentTask pid c := by
  constructor
  · intro h
    by_contra hno
    push Not at hno
    have hret := h.childless hno
    rcases sysWait4_cases hp f pid status with he | ⟨c, hc, -⟩ | ⟨-, he⟩
    · rw [he] at hret
      exact absurd (show errno efault = errno echild from hret) (by decide)
    · exact hno c hc
    · rw [he] at hret
      exact wait4Block_ret k f pid status hret
  · rintro ⟨c, hc⟩
    refine ⟨fun hsleeps ↦ ?_, fun hno ↦ absurd hc (hno c)⟩
    rcases sysWait4_cases hp f pid status with he | ⟨-, -, hs⟩ | ⟨hz, he⟩
    · rw [he] at hsleeps
      exact absurd hsleeps hb
    · exact absurd (hs.symm.trans hsleeps) hb
    · rw [he] at hsleeps ⊢
      have hremain := wait4Block_remain (d := fun _ ↦ False) k f pid status
      obtain ⟨hactive, hwpid, hzombie⟩ := wait4Block_sleeps hsleeps
      refine ⟨c, ⟨(hremain _).used.trans hu, hsleeps, hactive, ?_⟩,
        fun hzc ↦ hz c hc (hzombie c hzc), endable _ c⟩
      rw [hwpid]
      exact hc.remain hremain

end Kernel

namespace Machine

open Kernel

def atCall (m : Machine) : Kernel := (m.k.enterSyscall m.cpu.entered).prologue m.cpu.entered

theorem atCall_ready {m : Machine} (hm : m.Reachable) :
    m.atCall.Pids ∧ Ready m.atCall.currentTask m.atCall := by
  have henter : Stays m.k.currentTask m.k (m.k.enterSyscall m.cpu.entered) := .of_tasks _ rfl rfl rfl
  have hstays : Stays m.k.currentTask m.k m.atCall :=
    henter.trans (prologue_stays (henter.pids hm.sane.pids) m.cpu.entered)
  have hready := hstays.ready hm.sane.ready
  refine ⟨hstays.pids hm.sane.pids, ?_⟩
  rw [show m.atCall.currentTask = m.k.currentTask from hready.current]
  exact hready

/-- `sys_wait4` looks for a child that has ended, but not for one that can end. -/
theorem wait4Sound_iff {m : Machine} (hm : m.Reachable) (pid : ℤ) (status : UInt64) :
    Wait4Sound m.atCall m.cpu.entered pid status ↔
      ∃ c, Child m.atCall m.atCall.currentTask pid c := by
  obtain ⟨hp, hready⟩ := atCall_ready hm
  exact wait4Sound_of_kernel hp hready.live.not_blocked hready.used

theorem wait4_run :
    ∃ m₁ ∈ (bootAt (userAt 57)).syscallStep (callOf [] 0), ∃ m₂ ∈ m₁.step (.timer []),
    (m₁.atCall.tasks 1).used = true ∧
      (m₁.atCall.tasks 1).ppid = (m₁.atCall.tasks m₁.atCall.currentTask).pid ∧
    (∀ c, (m₂.atCall.tasks c).used = true →
      (m₂.atCall.tasks c).ppid ≠ (m₂.atCall.tasks m₂.atCall.currentTask).pid) ∧
    ((m₂.atCall.sysWait4 m₂.cpu.entered (-1) 0 0).1.tasks m₂.atCall.currentTask).state =
      .blocked := by
  decide +kernel

theorem wait4Sound_fork :
    ∃ m : Machine, (m.atCall.tasks 1).used = true ∧ Wait4Sound m.atCall m.cpu.entered (-1) 0 := by
  obtain ⟨m₁, h₁, m₂, -, hu, hpp, -⟩ := wait4_run
  exact ⟨m₁, hu, (wait4Sound_iff ((bootAt_reachable (userAt 57)).step h₁) (-1) 0).2
    ⟨1, hu, hpp, fun h ↦ absurd h (by decide)⟩⟩

/-- The child sleeps, and no exit will wake it. -/
theorem not_wait4Sound :
    ∃ m : Machine, m.Reachable ∧ (∀ c, ¬ Child m.atCall m.atCall.currentTask (-1) c) ∧
    ((m.atCall.sysWait4 m.cpu.entered (-1) 0 0).1.tasks m.atCall.currentTask).state = .blocked ∧
      ¬ Wait4Sound m.atCall m.cpu.entered (-1) 0 := by
  obtain ⟨m₁, h₁, m₂, h₂, -, -, hno, hblocked⟩ := wait4_run
  have hm := ((bootAt_reachable (userAt 57)).step h₁).step h₂
  have hchildless : ∀ c, ¬ Child m₂.atCall m₂.atCall.currentTask (-1) c :=
    fun c hc ↦ hno c hc.used hc.ppid
  obtain ⟨hp, hready⟩ := atCall_ready hm
  refine ⟨m₂, hm, hchildless, hblocked, fun h ↦ ?_⟩
  obtain ⟨c, hc⟩ := (wait4Sound_of_kernel hp hready.live.not_blocked hready.used).1 h
  exact hchildless c hc

end Machine

end YabroOS
