import YabroOS.Kernel.Blocking

namespace YabroOS

open Memory Function Lib.Asm

namespace Kernel

variable {k k' k₀ k₁ : Kernel} {c i j : Slot} {f : SyscallFrame}

theorem Goes.apply (hg : Goes c f k₀ k) (hf : 2 ≤ f.userRip) (e : Effect) :
    Goes c f k₀ (k.apply e) := by
  have he := apply_evolves k e
  have hs := apply_stays hg.live.not_blocked e
  have hctl := apply_ctl k e
  have hp : (k.apply e).taskSwitchPending = k.taskSwitchPending := congrArg (fun t ↦ t.2.1) hctl
  have hd : (k.apply e).taskSwitchDeferred = k.taskSwitchDeferred := congrArg (fun t ↦ t.2.2.1) hctl
  have hr : (k.apply e).taskReturnCtx = k.taskReturnCtx := congrArg (fun t ↦ t.2.2.2.1) hctl
  refine
    { acts := hg.acts.trans hs.toActs
      current := hs.currentTask.trans hg.current
      start := hg.start
      live := ?_
      used := hs.used.trans hg.used
      idle := fun h ↦ ?_
      fsBase := (congrArg (fun t ↦ t.2.2.2.2.2.2.1) hctl).trans hg.fsBase
      gsBase := (congrArg (fun t ↦ t.2.2.2.2.2.2.2) hctl).trans hg.gsBase
      flags := Eq.trans (congrArg (fun t ↦ (t.2.2.2.2.1, t.2.2.2.2.2.1)) hctl) hg.flags
      switch := ?_ }
  · rw [Task.Live, hs.state]
    exact hg.live
  · have hone := (hg.idle h).oneWait.congr hs.waiting
    exact hone.idle (hs.state ▸ hg.live.not_blocked)
  · rw [hp, hd, hr]
    refine hg.switch.imp id ?_
    rintro ⟨h₁, h₂, h₃, j, hj, hu, hst⟩
    refine ⟨h₁, h₂, h₃.evolves hf (he.tasks c), j, hj, ?_, ?_⟩
    · exact (he.tasks j).used.trans hu
    · have hw := apply_waiting (k := k) (i := j) (by simp [hst]) e
      exact (congrArg Prod.fst hw).trans hst

theorem Goes.deferSwitch (hg : Goes c f k₀ k) (v : UInt64) (woke : Slot) :
    Goes c f k₀ (k.deferSwitch f v woke) := by
  unfold Kernel.deferSwitch
  split_ifs with hw
  · obtain rfl := hg.current
    have hs := taskSave_stays k (f.setRax v)
    have hself : (k.taskSave (f.setRax v)).tasks k.currentTask =
        (k.tasks k.currentTask).taskSaveFromFrame (f.setRax v) k.msrFsBase k.msrGsBase :=
          modifyTask_self _ _ _
    have he : Evolves (k.taskSave (f.setRax v)) { k.taskSave (f.setRax v) with
        taskReturnCtx := some woke, taskSwitchDeferred := true, taskSwitchPending :=
          true } := evolves_of_tasks rfl rfl
    have hacts := hs.toActs.trans (he.acts k.currentTask)
    exact
      { acts := hg.acts.trans hacts
        current := rfl
        start := hg.start
        live := by
          rw [Task.Live]
          show ((k.taskSave (f.setRax v)).tasks k.currentTask).state = _ ∨
            ((k.taskSave (f.setRax v)).tasks k.currentTask).state = _
          rw [hs.state]
          exact hg.live
        used := hacts.used.trans hg.used
        idle := fun h ↦ by
          have hone := (hg.idle h).oneWait.congr hs.waiting
          exact hone.idle (hs.state ▸ hg.live.not_blocked)
        fsBase := hg.fsBase
        gsBase := hg.gsBase
        flags := hg.flags
        switch := by
          refine .inr ⟨rfl, rfl, ?_, woke, rfl, ?_⟩
          · show Task.SavedFrom f _ _ ((k.taskSave (f.setRax v)).tasks k.currentTask)
            rw [hself, ← hg.fsBase, ← hg.gsBase]
            exact saved_running (t := k.tasks k.currentTask) (v := v) rfl hg.live.not_blocked
          · show ((k.taskSave (f.setRax v)).tasks woke).used = true ∧
              ((k.taskSave (f.setRax v)).tasks woke).state = .runnable
            rw [taskSave, modifyTask_of_ne _ _ _ _ hw.1]
            exact hw.2 }
  · exact hg

theorem Goes.callSteps (hg : Goes c f k₀ k) (hf : 2 ≤ f.userRip) (l : List CallStep) :
    Goes c f k₀ (l.foldl (callStep f) k) := by
  induction l generalizing k with
  | nil => exact hg
  | cons s l ih =>
    cases s with
    | effect e => exact ih (hg.apply hf e)
    | defer v woke => exact ih (hg.deferSwitch v woke)

theorem Goes.finish (hg : Goes c f k₀ k) (hf : 2 ≤ f.userRip) {o : Outcome} {r : Kernel × UInt64}
    (h : k.finish f o = some r) : Ends c f k₀ r.1 := by
  cases o with
  | ret v =>
    cases h
    exact hg.ends
  | block kind nr deadlineNs ticks =>
    obtain ⟨k', hk', rfl⟩ := Option.map_eq_some_iff.1 h
    exact taskBlockIoUntil_ends hg hf hk'
  | pipeBlock fd buf count =>
    cases h
    exact pipeBlock_ends hg hf fd buf count

theorem storeStatus_stays (c : Slot) (k : Kernel) (status : UInt64) (e : ℤ) :
    Stays c k (k.storeStatus status e).1 := by
  unfold storeStatus
  split_ifs
  · exact .refl c k
  · exact userCopyTo_stays c k _ _

theorem wait4Block_ends (hr : Ready c k) (hf : 2 ≤ f.userRip) (pid : ℤ) (status : UInt64) :
    Ends c f k (k.wait4Block f pid status).1 := by
  obtain rfl := hr.current
  have hreg : Acts k.currentTask k
      (k.modifyTask k.currentTask (fun t ↦ t.registerWait4 pid status)) := by
    refine acts_modifyTask ?_
    exact .of_eq rfl rfl rfl rfl rfl rfl
  have hacts :=
    hreg.trans (acts_save (k.modifyTask k.currentTask (fun t ↦ t.registerWait4 pid status)) f
    (g := fun t ↦ t.setState .blocked) (fun t ↦ .of_eq rfl rfl rfl rfl rfl rfl))
  have hself :
      (((k.modifyTask k.currentTask (fun t ↦ t.registerWait4 pid status)).taskSave f).modifyTask
      k.currentTask (fun t ↦ t.setState .blocked)).tasks k.currentTask =
      (((k.tasks k.currentTask).registerWait4 pid status).taskSaveFromFrame f k.msrFsBase
        k.msrGsBase).setState
        .blocked := by
    have h := save_self (k.modifyTask k.currentTask (fun t ↦ t.registerWait4 pid status)) f
      (fun t ↦ t.setState .blocked)
    refine h.trans ?_
    rw [modifyTask_currentTask, modifyTask_self]
    rfl
  have hrax :=
    save_setRax ((k.tasks k.currentTask).registerWait4 pid status) f k.msrFsBase k.msrGsBase
  unfold wait4Block
  dsimp only
  split
  · have hback := back_self hself (fun t ↦ t.clearWait4.setState .running)
    refine (hr.goes.own
      (hacts.trans (acts_modifyTask (g := fun t ↦ t.clearWait4.setState .running) ?_)) rfl hback
      (.inl rfl) (fun hi ↦ clearWait4_idle hi f _ _ pid status) (saved_running hrax nofun)
        (fun j hj ↦ ?_)).ends
    · exact .of_eq rfl rfl rfl rfl rfl rfl
    · rw [modifyTask_of_ne _ _ _ _ hj, modifyTask_currentTask, modifyTask_of_ne _ _ _ _ hj, taskSave,
        modifyTask_currentTask, modifyTask_of_ne _ _ _ _ hj, modifyTask_of_ne _ _ _ _ hj]
  · next next hnext =>
    have hc := taskPickNext_choosable hnext
    refine ends_switched hr.goes hf hacts hself (fun hi ↦ ?_) (fun hi ↦ ?_)
      ((setRunning_evolves hc).trans (requestSwitch_evolves _ next))
        (requestSwitch_switched hc.1) rfl
    · exact registerWait4_oneWait hi f _ _ pid status
    · have hi' : ((k.tasks k.currentTask).registerWait4 pid status).ioWaitKind = .none := hi.io
      refine Task.SavedFrom.congr (v := f.rax) (Task.SavedFrom.saved _ f _ _ (fun hw ↦ hw.2.1 hi'))
        hrax (fun hw ↦ ?_)
      exact absurd hi' hw.2.1

theorem sysWait4_ends (hr : Ready c k) (hp : k.Pids) (hf : 2 ≤ f.userRip) (pid : ℤ)
    (status : UInt64) (options : ℤ) : Ends c f k (k.sysWait4 f pid status options).1 := by
  obtain rfl := hr.current
  unfold sysWait4
  dsimp only
  split
  · exact (Stays.refl _ k).ends hr
  split
  · exact (Stays.refl _ k).ends hr
  · split
    · next i hi =>
      obtain ⟨hu, hchild⟩ := findTask_spec hi
      have hchild := of_decide_eq_true hchild
      have hs := storeStatus_stays k.currentTask k status (k.tasks i).exitStatus
      have htasks : (k.storeStatus status (k.tasks i).exitStatus).1.tasks = k.tasks := by
        unfold storeStatus
        split_ifs <;> rfl
      generalize k.storeStatus status (k.tasks i).exitStatus = r at hs htasks ⊢
      split_ifs
      · exact hs.ends hr
      · have hpp : (r.1.tasks i).ppid = (r.1.tasks k.currentTask).pid := by
          rw [htasks]
          exact hchild.1
        have hreap := hs.trans (reap_stays (hp.child_ne hu hchild.1) hpp)
        refine (hreap.trans ?_).ends hr
        rw [hs.currentTask]
        refine stays_modifyTask (g := fun t ↦ t.sigPendingSet sigchld) ?_ rfl
        exact .of_eq rfl rfl rfl rfl rfl rfl
    · split_ifs
      · exact (Stays.refl _ k).ends hr
      · exact wait4Block_ends hr hf pid status

theorem futexWake_stays (hc : (k.tasks c).state ≠ .blocked) {uaddr : UInt64} (ha : uaddr ≠ 0)
    (val : ℕ) : Stays c k (k.futexWake uaddr val).1 := by
  have hmem : ∀ i, i ∈ k.futexWaiters uaddr (rootOf k.current.ctx.cr3) val →
      (k.tasks i).state = .blocked ∧ (k.tasks i).futexAddr ≠ 0 := by
    intro i hi
    have hi' := List.mem_filter.1 (List.mem_of_mem_take hi)
    have hi' := of_decide_eq_true hi'.2
    exact ⟨hi'.2.1, by rw [hi'.2.2.1]; exact ha⟩
  refine Evolves.stays ⟨rfl, fun i ↦ ?_⟩ rfl ?_
  · unfold futexWake
    dsimp only
    split_ifs with hi
    · exact Task.futexWoken_evolves (hmem i hi).1 (hmem i hi).2 0
    · exact .refl i _
  · unfold futexWake
    dsimp only
    rw [if_neg (fun hi ↦ hc (hmem c hi).1)]

theorem sysFutex_ends (hr : Ready c k) (hf : 2 ≤ f.userRip) (uaddr op val timeout : UInt64) :
    Ends c f k (k.sysFutex f uaddr op val timeout).1 := by
  have hrefl : Ends c f k k := (Stays.refl c k).ends hr
  unfold sysFutex
  split_ifs with ha hop hop' hok
  · exact hrefl
  · split
    · exact hrefl
    · split_ifs
      · exact hrefl
      · split
        · exact hrefl
        · exact futexBlock_ends hr.goes hf uaddr _
  · exact hrefl
  · have ha : uaddr ≠ 0 := fun h ↦ ha (.inl h)
    exact (futexWake_stays hr.live.not_blocked ha _).ends hr
  · exact hrefl

theorem ends_here (hr : Ready c k) (hacts : Acts c k k') (hcur : k'.currentTask = k.currentTask)
    (hp : k'.taskSwitchPending = k.taskSwitchPending)
    (hd : k'.taskSwitchDeferred = k.taskSwitchDeferred)
    (hx : k'.userExitPending = k.userExitPending ∨ k'.userExecPending = k.userExecPending)
    (hw : (k'.tasks c).waiting = (k.tasks c).waiting) : Ends c f k k' where
  away := hacts.toAway
  saved _ := hacts.saved
  oneWait _ h := h.congr hw
  flags := .inr ⟨hp, hx⟩
  control := by
    refine .stays (hcur.trans hr.current) (hp.trans hr.pending) (hd.trans hr.deferred) ?_
    rw [Task.Live, show (k'.tasks c).state = (k.tasks c).state from congrArg Prod.fst hw]
    exact hr.live

theorem storeBase_stays (c : Slot) (k : Kernel) (addr v : UInt64) :
    Stays c k (k.storeBase addr v).1 :=
  userCopyTo_stays c k addr (quadBytes v)

theorem ends_modifyTask {g : Task → Task} (hr : Ready c k)
    (hs : Task.Same (k.tasks c) (g (k.tasks c)))
    (hw : (g (k.tasks c)).waiting = (k.tasks c).waiting) (ht : k'.tasks = (k.modifyTask c g).tasks)
    (hn : k'.nextPid = k.nextPid) (hcur : k'.currentTask = k.currentTask)
    (hp : k'.taskSwitchPending = k.taskSwitchPending)
    (hd : k'.taskSwitchDeferred = k.taskSwitchDeferred)
    (hx : k'.userExitPending = k.userExitPending) : Ends c f k k' := by
  have he : Evolves (k.modifyTask c g) k' := evolves_of_tasks hn ht
  refine ends_here hr ((acts_modifyTask hs).trans (he.acts c)) hcur hp hd (.inl hx) ?_
  rw [ht, modifyTask_self, hw]

theorem sysArchPrctl_ends (hr : Ready c k) (code addr : UInt64) :
    Ends c f k (k.sysArchPrctl code addr).1 := by
  obtain rfl := hr.current
  have hrefl : Ends k.currentTask f k k := (Stays.refl _ k).ends hr
  unfold sysArchPrctl
  dsimp only
  split_ifs
  · exact hrefl
  · refine ends_modifyTask (g := fun t ↦ { t with ctx := { t.ctx with fsBase := addr } }) hr ?_ rfl
      rfl rfl rfl rfl rfl rfl
    exact .of_eq rfl rfl rfl rfl rfl rfl
  · refine ends_modifyTask (g := fun t ↦ { t with ctx := { t.ctx with gsBase := addr } }) hr ?_ rfl
      rfl rfl rfl rfl rfl rfl
    exact .of_eq rfl rfl rfl rfl rfl rfl
  · exact hrefl
  · refine (Stays.trans (stays_modifyTask ?_ ?_) (storeBase_stays _ _ _ _)).ends hr
    · split_ifs
      · exact .of_eq rfl rfl rfl rfl rfl rfl
      · exact .refl _
    · split_ifs <;> rfl
  · exact (storeBase_stays _ _ _ _).ends hr
  · exact hrefl

theorem Stays.then (h : Stays c k k₁) (he : Ends c f k₁ k') : Ends c f k k' where
  away := h.toAway.trans he.away
  saved hf := h.saved.trans (he.saved hf)
  oneWait hc hw := he.oneWait hc (hw.congr h.waiting)
  flags := by
    have hp : k₁.taskSwitchPending = k.taskSwitchPending := congrArg (fun t ↦ t.2.1) h.ctl
    have hx : k₁.userExitPending = k.userExitPending := congrArg (fun t ↦ t.2.2.2.2.1) h.ctl
    have hec : k₁.userExecPending = k.userExecPending := congrArg (fun t ↦ t.2.2.2.2.2.1) h.ctl
    have hfl : k₁.flags = k.flags := Prod.ext hx hec
    rw [← hfl, ← hp, ← hx, ← hec]
    exact he.flags
  control := by
    have hfs : k₁.msrFsBase = k.msrFsBase := congrArg (fun t ↦ t.2.2.2.2.2.2.1) h.ctl
    have hgs : k₁.msrGsBase = k.msrGsBase := congrArg (fun t ↦ t.2.2.2.2.2.2.2) h.ctl
    cases he.control with
    | stays hcur hp hd hl => exact .stays hcur hp hd hl
    | deferred j hcur hp hd hr hl hj hs => exact .deferred j hcur hp hd hr hl hj (hfs ▸ hgs ▸ hs)
    | switched j hcur hp hr hj hpick hs =>
      obtain ⟨k₂, ha, hu, hz, hpid⟩ := hpick
      refine .switched j hcur hp hr hj ⟨k₂, h.toAway.trans ha, hu, hz, hpid⟩
        (hs.imp id (fun hs hw ↦ ?_))
      rw [← hfs, ← hgs]
      exact hs (hw.congr h.waiting)

theorem execEnter_ends (hr : Ready c k) (entry stack cr3 : UInt64) :
    Ends c f k (k.execEnter entry stack cr3) := by
  obtain rfl := hr.current
  refine ends_modifyTask (g := fun t ↦ t.enterImage entry stack cr3) hr ?_ rfl rfl rfl rfl
    rfl rfl rfl
  exact .of_eq rfl rfl rfl rfl rfl rfl

theorem sysExecve_ends (hr : Ready c k) (a : Call) : Ends c f k (k.sysExecve a).1 := by
  have hs := applyAll_stays (c := c) a.effects hr.live.not_blocked
  unfold sysExecve
  dsimp only
  split
  · exact hs.then (execEnter_ends (hs.ready hr) _ _ _)
  · exact hs.ends hr

theorem away_modifyTask {g : Task → Task} (hu : (g (k.tasks c)).used = (k.tasks c).used)
    (hp : (g (k.tasks c)).pid = (k.tasks c).pid) (hpp : (g (k.tasks c)).ppid = (k.tasks c).ppid) :
    Away c k (k.modifyTask c g) where
  nextPid := le_refl _
  used := by rw [modifyTask_self, hu]
  pid := by rw [modifyTask_self, hp]
  ppid := by rw [modifyTask_self, hpp]
  others i hi _ := by
    rw [modifyTask_of_ne _ _ _ _ hi]
    exact .inl (.refl i _)
  fresh i hi := by
    left
    rw [modifyTask_apply]
    split_ifs with hic
    · subst hic
      exact hu.trans hi
    · exact hi
  pids h := by
    refine h.congr rfl (fun i hi ↦ ?_)
    rw [modifyTask_apply] at hi ⊢
    split_ifs at hi ⊢ with hic
    · subst hic
      exact ⟨hu ▸ hi, hp, hpp⟩
    · exact ⟨hi, rfl, rfl⟩

theorem sysRtSigreturn_ends (hr : Ready c k) (hnr : f.rax = 15) :
    Ends c f k (k.sysRtSigreturn f).1 := by
  obtain rfl := hr.current
  unfold sysRtSigreturn
  dsimp only
  split_ifs
  · exact (Stays.refl _ k).ends hr
  · have hself : (k.modifyTask k.currentTask Task.endHandler).tasks k.currentTask =
        (k.tasks k.currentTask).endHandler := modifyTask_self k k.currentTask Task.endHandler
    exact
      { away := away_modifyTask (g := Task.endHandler) rfl rfl rfl
        saved := fun h ↦ absurd hnr h
        oneWait := fun _ hw ↦ by
          rw [hself]
          exact hw.congr rfl
        flags := .inl rfl
        control := by
          refine .stays rfl hr.pending hr.deferred ?_
          rw [hself]
          exact hr.live }

theorem releaseFramebuffer_stays (c : Slot) (k : Kernel) : Stays c k (k.releaseFramebuffer c) := by
  have h : Stays c k (k.modifyTask c (fun t ↦ { t with fbMapCount := 0 })) := by
    refine stays_modifyTask ?_ ?_
    · exact .of_eq rfl rfl rfl rfl rfl rfl
    · rfl
  exact h.trans (.of_tasks c rfl rfl rfl)

theorem wakeFutex_stays (hc : (k.tasks c).state ≠ .blocked) {addr : UInt64} (ha : addr ≠ 0)
    (root : ℕ) : Stays c k (k.wakeFutex addr root) := by
  refine Evolves.stays ⟨rfl, fun i ↦ ?_⟩ rfl ?_
  · unfold wakeFutex
    dsimp only
    split_ifs with hi
    · exact Task.futexWoken_evolves hi.2.1 (by rw [hi.2.2.1]; exact ha) 0
    · exact .refl i _
  · unfold wakeFutex
    dsimp only
    rw [if_neg (fun hi ↦ hc hi.2.1)]

theorem taskClearChildTid_stays (hc : (k.tasks c).state ≠ .blocked) :
    Stays c k (k.taskClearChildTid c) := by
  unfold taskClearChildTid
  dsimp only
  split_ifs with ha
  · exact .refl c k
  · have h₁ := userCopyTo_stays c k (k.tasks c).tidAddress [0, 0, 0, 0]
    have hc' : ((k.userCopyTo (k.tasks c).tidAddress [0, 0, 0, 0]).1.tasks c).state ≠ .blocked := hc
    refine (h₁.trans (wakeFutex_stays hc' ha _)).trans (stays_modifyTask ?_ ?_)
    · exact .of_eq rfl rfl rfl rfl rfl rfl
    · rfl

theorem signalParent_evolves (k : Kernel) (ppid : ℤ) : Evolves k (k.signalParent ppid) := by
  unfold signalParent
  split
  · refine evolves_modifyTask ?_
    exact Task.sigPendingSet_evolves _ _ _
  · exact .refl k

theorem storeStatus_evolves (k : Kernel) (status : UInt64) (e : ℤ) :
    Evolves k (k.storeStatus status e).1 := by
  unfold storeStatus
  split_ifs
  · exact .refl k
  · exact evolves_of_tasks rfl rfl

theorem storeStatus_tasks (k : Kernel) (status : UInt64) (e : ℤ) :
    (k.storeStatus status e).1.tasks = k.tasks := by
  unfold storeStatus
  split_ifs <;> rfl

theorem wakeParent_evolves (l : List Slot) (k : Kernel) : Evolves k (wakeParent c l k) := by
  induction l generalizing k with
  | nil => exact .refl k
  | cons i rest ih =>
    unfold wakeParent
    dsimp only
    have hvm : Evolves k (k.vmmUserActivate (k.tasks i).ctx.cr3).1 := evolves_of_tasks rfl rfl
    split_ifs with hno hpid hact
    · exact ih k
    · exact ih k
    · exact hvm.trans (ih _)
    · exact (hvm.trans (storeStatus_evolves _ _ _)).trans (ih _)
    · refine (hvm.trans (storeStatus_evolves _ _ _)).trans (evolves_modifyTask ?_)
      push Not at hno
      rw [storeStatus_tasks]
      exact Task.wait4Done_evolves hno.2.2.1 (by simpa using hno.2.2.2) _

theorem exitNext_choosable (h₀ : (k.tasks 0).used = true) (ppid : ℤ) :
    k.Choosable (k.exitNext ppid) := by
  unfold exitNext
  split
  · next i hi =>
    split_ifs at hi
    obtain ⟨hu, hp⟩ := findTask_spec hi
    exact ⟨hu, .inl (of_decide_eq_true hp).2⟩
  · cases hn : k.taskPickNext with
    | none => exact ⟨h₀, .inr rfl⟩
    | some i => exact taskPickNext_choosable hn

theorem exitTask_acts (hr : Ready c k) (status : ℤ) : Acts c k (k.exitTask status) ∧
    ((k.exitTask status).tasks c).state = .zombie ∧
    ((k.tasks c).Idle → ((k.exitTask status).tasks c).Idle) ∧ (k.exitTask status).ctl = k.ctl := by
  obtain rfl := hr.current
  have h₁ := releaseFramebuffer_stays k.currentTask k
  have h₂ := taskClearChildTid_stays (h₁.ready hr).live.not_blocked
  have h₁₂ := h₁.trans h₂
  unfold exitTask
  dsimp only
  generalize (k.releaseFramebuffer k.currentTask).taskClearChildTid k.currentTask = k₂ at h₁₂ ⊢
  have h₃ : Stays k.currentTask k (k₂.setIo (k₂.io.taskFdTableRelease k.currentTask)) :=
    h₁₂.trans (.of_tasks _ rfl rfl rfl)
  generalize k₂.setIo (k₂.io.taskFdTableRelease k.currentTask) = k₃ at h₃ ⊢
  refine ⟨h₃.toActs.trans (acts_modifyTask ?_), ?_, fun hi ↦ ?_, h₃.ctl⟩
  · exact .of_eq rfl rfl rfl rfl rfl rfl
  · rw [modifyTask_self]
  · rw [modifyTask_self]
    have hone := hi.oneWait.congr h₃.waiting
    exact (hone.idle (h₃.state ▸ hr.live.not_blocked)).congr rfl rfl rfl rfl

theorem wakeParent_ctl (l : List Slot) (k : Kernel) : (wakeParent c l k).ctl = k.ctl := by
  have hstore : ∀ (k : Kernel) (status : UInt64) (e : ℤ), (k.storeStatus status e).1.ctl =
      k.ctl := by
    intro k status e
    unfold storeStatus
    split_ifs <;> rfl
  induction l generalizing k with
  | nil => rfl
  | cons i rest ih =>
    unfold wakeParent
    dsimp only
    split_ifs
    · exact ih k
    · exact ih k
    · exact ih _
    · exact (ih _).trans (hstore _ _ _)
    · exact hstore _ _ _

theorem notifyParent_ctl (k : Kernel) (c : Slot) (ppid : ℤ) :
    (k.notifyParent c ppid).ctl = k.ctl := by
  have hsignal : (k.signalParent ppid).ctl = k.ctl := by
    unfold signalParent
    split <;> rfl
  unfold notifyParent
  split_ifs
  · exact (wakeParent_ctl _ _).trans hsignal
  · rfl

theorem notifyParent_evolves (k : Kernel) (c : Slot) (ppid : ℤ) :
    Evolves k (k.notifyParent c ppid) := by
  unfold notifyParent
  split_ifs
  · exact (signalParent_evolves k ppid).trans (wakeParent_evolves _ _)
  · exact .refl k

theorem acts_of_tasks (c : Slot) (hn : k'.nextPid = k.nextPid) (ht : k'.tasks = k.tasks) :
    Acts c k k' :=
  (evolves_of_tasks hn ht).acts c

structure Rooted (k : Kernel) : Prop where
  used : (k.tasks 0).used = true
  ppid : (k.tasks 0).ppid = 0

theorem Away.rooted (h : Away c k k') (hp : k.Pids) (hu : (k.tasks c).used = true) (h₀ : k.Rooted) :
    k'.Rooted := by
  by_cases hc : c = 0
  · subst hc
    exact ⟨h.used.trans h₀.used, h.ppid.trans h₀.ppid⟩
  · rcases h.others 0 (Ne.symm hc) h₀.used with he | ⟨hpp, -⟩
    · exact ⟨he.used.trans h₀.used, he.ppid.trans h₀.ppid⟩
    · have hpos := hp.pos c hu
      rw [h₀.ppid] at hpp
      omega

/-- The task in slot `c` has ended and the one in slot `j` runs. -/
structure Exited (c j : Slot) (k k' : Kernel) : Prop where
  acts : Acts c k k'
  next : Switched j k'
  ne : c ≠ j
  zombie : (k'.tasks c).state = .zombie
  oneWait : (k.tasks c).OneWait → (k'.tasks c).OneWait
  flags : k'.flags = k.flags
  deferred : k'.taskSwitchDeferred = k.taskSwitchDeferred

theorem sysExit_exited (hr : Ready c k) (hp : k.Pids) (h₀ : k.Rooted) (hz : c ≠ 0) (status : ℤ) :
    ∃ j, Exited c j k (k.sysExit status) := by
  obtain rfl := hr.current
  unfold sysExit
  dsimp only
  rw [if_neg hz]
  obtain ⟨hacts, hzombie, hidle, hctl⟩ := exitTask_acts hr status
  generalize k.exitTask status = k₁ at hacts hzombie hidle hctl ⊢
  have hn := notifyParent_evolves k₁ k.currentTask (k₁.tasks k.currentTask).ppid
  have hctl' := (notifyParent_ctl k₁ k.currentTask (k₁.tasks k.currentTask).ppid).trans hctl
  generalize (k₁.tasks k.currentTask).ppid = ppid at hn hctl' ⊢
  have hc := exitNext_choosable ((hn.tasks 0).used.trans (hacts.rooted hp hr.used h₀).used) ppid
  have he := hn.trans (switchTo_evolves hc)
  have hsw := switchTo_switched hc.1
  have hzombie' := (he.tasks _).zombie hz hzombie
  refine ⟨_, hacts.trans (he.acts _), hsw, ?_, hzombie', fun hw ↦ ?_, ?_, ?_⟩
  · intro heq
    have hrun := hsw.running
    rw [← heq] at hrun hzombie'
    cases hrun.symm.trans hzombie'
  · exact (he.tasks _).oneWait hz (hidle (hw.idle hr.live.not_blocked)).oneWait
  · exact congrArg (fun t ↦ (t.2.2.2.2.1, t.2.2.2.2.2.1)) hctl'
  · exact congrArg (fun t ↦ t.2.2.1) hctl'

theorem sysExit_ends (hr : Ready c k) (hp : k.Pids) (h₀ : k.Rooted) (status : ℤ) :
    Ends c f k (k.sysExit status) := by
  by_cases hz : c = 0
  · obtain rfl := hr.current
    unfold sysExit
    rw [if_pos hz]
    exact ends_here hr (acts_of_tasks _ rfl rfl) rfl rfl rfl (.inr rfl) rfl
  · obtain ⟨j, h⟩ := sysExit_exited hr hp h₀ hz status
    exact
      { away := h.acts.toAway
        saved := fun _ ↦ h.acts.saved
        oneWait := fun _ ↦ h.oneWait
        flags := .inl h.flags
        control := .switched j h.next.current h.next.pending h.next.ctx
          ⟨h.next.used, .inl h.next.running⟩
          (h.next.picked h.acts.toAway) (.inl ⟨hz, h.ne, h.zombie⟩) }

theorem sysExitGroup_ends (hr : Ready c k) (hp : k.Pids) (h₀ : k.Rooted) (status : ℤ) :
    Ends c f k (k.sysExitGroup status) := by
  obtain rfl := hr.current
  unfold sysExitGroup
  split_ifs
  · exact ends_here hr (acts_of_tasks _ rfl rfl) rfl rfl rfl (.inr rfl) rfl
  · exact sysExit_ends hr hp h₀ status

theorem toNat_eq_iff (f : SyscallFrame) (n : ℕ) (hn : n < 2 ^ 64) :
    f.rax.toNat = n ↔ f.rax = UInt64.ofNat n := by
  rw [← UInt64.toNat_inj, UInt64.toNat_ofNat']
  rw [Nat.mod_eq_of_lt hn]

theorem syscallBody_ends {a : Call} {r : Kernel × SyscallFrame × UInt64} (hr : Ready c k)
    (hp : k.Pids) (h₀ : k.Rooted) (hn : k.nextPid < 2 ^ 31) (hf : 2 ≤ f.userRip)
    (h : k.syscallBody f a = some r) : Ends c f k r.1 := by
  unfold syscallBody at h
  dsimp only at h
  split at h
  · next hnr =>
    obtain rfl := Option.some.inj h
    exact sysRtSigreturn_ends hr ((toNat_eq_iff f 15 (by decide)).1 hnr)
  · obtain rfl := Option.some.inj h
    exact sysSchedYield_ends hr hf a.effects
  · obtain rfl := Option.some.inj h
    obtain rfl := hr.current
    exact (sysClone_stays hr.used f _ _ _ _ _ _).ends hr
  · obtain rfl := Option.some.inj h
    obtain rfl := hr.current
    have hs := sysFork_stays hp hr.used hn f
    dsimp only
    exact hs.ends hr
  · obtain rfl := Option.some.inj h
    exact sysExecve_ends hr a
  · obtain rfl := Option.some.inj h
    exact sysExit_ends hr hp h₀ _
  · obtain rfl := Option.some.inj h
    exact sysWait4_ends hr hp hf _ _ _
  · obtain rfl := Option.some.inj h
    exact sysArchPrctl_ends hr _ _
  · obtain rfl := Option.some.inj h
    exact sysFutex_ends hr hf _ _ _ _
  · obtain rfl := Option.some.inj h
    exact sysExitGroup_ends hr hp h₀ _
  · obtain ⟨r', hr', h⟩ := Option.bind_eq_some_iff.1 h
    obtain rfl := Option.some.inj h
    exact (hr.goes.callSteps hf a.steps).finish hf hr'

end Kernel

end YabroOS
