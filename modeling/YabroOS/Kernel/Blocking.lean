import YabroOS.Kernel.Calls

namespace YabroOS

open Memory Function Lib.Asm

/-- The state of a task that user code runs in; a killed task runs on until the next switch. -/
def Task.Live (t : Task) : Prop := t.state = .running ∨ t.state = .zombie

theorem Task.Live.not_blocked {t : Task} (h : t.Live) : t.state ≠ .blocked := by
  rcases h with h | h <;> rw [h] <;> nofun

namespace Kernel

structure Ready (c : Slot) (k : Kernel) : Prop where
  current : k.currentTask = c
  pending : k.taskSwitchPending = false
  deferred : k.taskSwitchDeferred = false
  live : (k.tasks c).Live
  used : (k.tasks c).used = true

def Picked (c j : Slot) (k₀ k : Kernel) : Prop :=
  ∃ k₁, Away c k₀ k₁ ∧ (k₁.tasks j).used = true ∧ (k₁.tasks j).state ≠ .zombie ∧
    (k.tasks j).pid = (k₁.tasks j).pid

/-- How a system call of the task in slot `c` leaves the scheduler; the call has started in `k₀`
with the frame `f`. -/
inductive Control (c : Slot) (f : SyscallFrame) (k₀ k : Kernel) : Prop
  | stays (hcur : k.currentTask = c) (hp : k.taskSwitchPending = false)
    (hd : k.taskSwitchDeferred = false)
      (hl : (k.tasks c).Live)
  | deferred (j : Slot) (hcur : k.currentTask = c) (hp : k.taskSwitchPending = true)
      (hd : k.taskSwitchDeferred = true) (hr : k.taskReturnCtx = some j) (hl : (k.tasks c).Live)
      (hj : (k.tasks j).used = true ∧ (k.tasks j).state = .runnable)
      (hs : (k.tasks c).SavedFrom f k₀.msrFsBase k₀.msrGsBase)
  | switched (j : Slot) (hcur : k.currentTask = j) (hp : k.taskSwitchPending = true)
      (hr : k.taskReturnCtx = some j) (hj : (k.tasks j).used = true ∧ (k.tasks j).Live)
        (hpick : Picked c j k₀ k)
      (hs : c ≠ 0 ∧ c ≠ j ∧ (k.tasks c).state = .zombie ∨
        ((k₀.tasks c).OneWait → (k.tasks c).SavedFrom f k₀.msrFsBase k₀.msrGsBase))

def flags (k : Kernel) : Bool × Bool := (k.userExitPending, k.userExecPending)

structure Ends (c : Slot) (f : SyscallFrame) (k₀ k : Kernel) : Prop where
  away : Away c k₀ k
  saved : f.rax ≠ 15 → Task.Same (k₀.tasks c) (k.tasks c)
  oneWait : c ≠ 0 → (k₀.tasks c).OneWait → (k.tasks c).OneWait
  flags : k.flags = k₀.flags ∨ k.taskSwitchPending = k₀.taskSwitchPending ∧
    (k.userExitPending = k₀.userExitPending ∨ k.userExecPending = k₀.userExecPending)
  control : Control c f k₀ k

variable {k k' k₀ k₁ : Kernel} {c i j : Slot} {f : SyscallFrame}

theorem Stays.ready (h : Stays c k k') (hr : Ready c k) : Ready c k' where
  current := h.currentTask.trans hr.current
  pending := (congrArg (fun t ↦ t.2.1) h.ctl).trans hr.pending
  deferred := (congrArg (fun t ↦ t.2.2.1) h.ctl).trans hr.deferred
  live := by
    rw [Task.Live, h.state]
    exact hr.live
  used := h.used.trans hr.used

theorem Stays.ends (h : Stays c k k') (hr : Ready c k) : Ends c f k k' where
  away := h.toAway
  saved _ := h.saved
  oneWait _ hw := hw.congr h.waiting
  flags := .inl (congrArg (fun t ↦ (t.2.2.2.2.1, t.2.2.2.2.2.1)) h.ctl)
  control := .stays (h.ready hr).current (h.ready hr).pending (h.ready hr).deferred (h.ready hr).live

structure Switched (j : Slot) (k : Kernel) : Prop where
  current : k.currentTask = j
  pending : k.taskSwitchPending = true
  ctx : k.taskReturnCtx = some j
  used : (k.tasks j).used = true
  running : (k.tasks j).state = .running

theorem setRunning_self (k : Kernel) (j : Slot) :
    (k.setRunning j).tasks j = (k.tasks j).setState .running :=
  modifyTask_self k j (fun t ↦ t.setState .running)

theorem requestSwitch_switched (hu : (k.tasks j).used = true) :
    Switched j ((k.setRunning j).requestSwitch j) where
  current := rfl
  pending := rfl
  ctx := rfl
  used := by
    have h := congrArg Task.used (setRunning_self k j)
    exact h.trans hu
  running := congrArg Task.state (setRunning_self k j)

theorem switchTo_switched (hu : (k.tasks j).used = true) : Switched j (k.switchTo j) where
  current := rfl
  pending := rfl
  ctx := rfl
  used := by
    have h := (taskAccountSwitch_evolves (k.setRunning j) j).tasks j
    exact h.used.trans (requestSwitch_switched hu).used
  running := by
    have hacc : ((k.setRunning j).taskAccountSwitch j).tasks j =
        if ((k.setRunning j).tasks j).used then
          { (k.setRunning j).tasks j with switches := ((k.setRunning j).tasks j).switches + 1 }
        else (k.setRunning j).tasks j := modifyTask_self _ j _
    have hstate := congrArg Task.state hacc
    refine hstate.trans ?_
    split_ifs
    · exact congrArg Task.state (setRunning_self k j)
    · exact congrArg Task.state (setRunning_self k j)

/-- The task in slot `c` is in the middle of a system call; a switch may be due when it returns. -/
structure Goes (c : Slot) (f : SyscallFrame) (k₀ k : Kernel) : Prop where
  acts : Acts c k₀ k
  current : k.currentTask = c
  start : (k₀.tasks c).state ≠ .blocked
  live : (k.tasks c).Live
  used : (k.tasks c).used = true
  idle : (k₀.tasks c).Idle → (k.tasks c).Idle
  fsBase : k.msrFsBase = k₀.msrFsBase
  gsBase : k.msrGsBase = k₀.msrGsBase
  flags : k.flags = k₀.flags
  switch : k.taskSwitchPending = false ∧ k.taskSwitchDeferred = false ∨
    k.taskSwitchPending = true ∧ k.taskSwitchDeferred = true ∧
      (k.tasks c).SavedFrom f k₀.msrFsBase k₀.msrGsBase ∧
      ∃ j, k.taskReturnCtx = some j ∧ (k.tasks j).used = true ∧ (k.tasks j).state = .runnable

theorem Ready.goes (hr : Ready c k) : Goes c f k k where
  acts := .refl c k
  current := hr.current
  start := hr.live.not_blocked
  live := hr.live
  used := hr.used
  idle := id
  fsBase := rfl
  gsBase := rfl
  flags := rfl
  switch := .inl ⟨hr.pending, hr.deferred⟩

theorem Goes.ends (hg : Goes c f k₀ k) : Ends c f k₀ k where
  away := hg.acts.toAway
  saved _ := hg.acts.saved
  oneWait _ hw := (hg.idle (hw.idle hg.start)).oneWait
  flags := .inl hg.flags
  control := by
    rcases hg.switch with ⟨hp, hd⟩ | ⟨hp, hd, hs, j, hj, hu, hst⟩
    · exact .stays hg.current hp hd hg.live
    · exact .deferred j hg.current hp hd hj hg.live ⟨hu, hst⟩ hs

theorem Switched.picked (h : Switched j k) (ha : Away c k₀ k) : Picked c j k₀ k :=
  ⟨k, ha, h.used, by rw [h.running]; nofun, rfl⟩

theorem ends_switched {t : Task} (hg : Goes c f k₀ k) (hf : 2 ≤ f.userRip) (hacts : Acts c k k₁)
    (ht : k₁.tasks c = t) (hone : (k.tasks c).Idle → t.OneWait)
    (hs : (k.tasks c).Idle → t.SavedFrom f k.msrFsBase k.msrGsBase) (he : Evolves k₁ k')
    (hsw : Switched j k') (hx : k'.flags = k.flags) : Ends c f k₀ k' where
  away := ((hg.acts.trans hacts).trans (he.acts c)).toAway
  saved _ := ((hg.acts.trans hacts).trans (he.acts c)).saved
  oneWait hc hw := (he.tasks c).oneWait hc (ht ▸ hone (hg.idle (hw.idle hg.start)))
  flags := .inl (hx.trans hg.flags)
  control := by
    have haway := ((hg.acts.trans hacts).trans (he.acts c)).toAway
    refine .switched j hsw.current hsw.pending hsw.ctx ⟨hsw.used, .inl hsw.running⟩
      (hsw.picked haway) (.inr (fun hw ↦ ?_))
    rw [← hg.fsBase, ← hg.gsBase]
    exact (ht ▸ hs (hg.idle (hw.idle hg.start))).evolves hf (he.tasks c)

theorem Goes.own {t : Task} (hg : Goes c f k₀ k) (hacts : Acts c k k') (hctl : k'.ctl = k.ctl)
    (ht : k'.tasks c = t) (hl : t.Live) (hidle : (k.tasks c).Idle → t.Idle)
    (hs : t.SavedFrom f k.msrFsBase k.msrGsBase) (ho : ∀ j, j ≠ c → k'.tasks j = k.tasks j) :
    Goes c f k₀ k' where
  acts := hg.acts.trans hacts
  current := (congrArg Prod.fst hctl).trans hg.current
  start := hg.start
  live := ht ▸ hl
  used := hacts.used.trans hg.used
  idle h := ht ▸ hidle (hg.idle h)
  fsBase := (congrArg (fun t ↦ t.2.2.2.2.2.2.1) hctl).trans hg.fsBase
  gsBase := (congrArg (fun t ↦ t.2.2.2.2.2.2.2) hctl).trans hg.gsBase
  flags := Eq.trans (congrArg (fun t ↦ (t.2.2.2.2.1, t.2.2.2.2.2.1)) hctl) hg.flags
  switch := by
    have hp : k'.taskSwitchPending = k.taskSwitchPending := congrArg (fun t ↦ t.2.1) hctl
    have hd : k'.taskSwitchDeferred = k.taskSwitchDeferred := congrArg (fun t ↦ t.2.2.1) hctl
    have hr : k'.taskReturnCtx = k.taskReturnCtx := congrArg (fun t ↦ t.2.2.2.1) hctl
    rw [hp, hd, hr, ht, ← hg.fsBase, ← hg.gsBase]
    refine hg.switch.imp id (fun ⟨h₁, h₂, _, j, hj, hu, hst⟩ ↦ ⟨h₁, h₂, hs, j, hj, ?_⟩)
    have hne : j ≠ c := by
      rintro rfl
      rcases hg.live with hl | hl <;> cases hl.symm.trans hst
    rw [ho j hne]
    exact ⟨hu, hst⟩

theorem acts_save (k : Kernel) (f : SyscallFrame) {g : Task → Task} (hg : ∀ t, Task.Same t (g t)) :
    Acts k.currentTask k ((k.taskSave f).modifyTask k.currentTask g) :=
  (taskSave_stays k f).toActs.trans (acts_modifyTask (hg _))

theorem save_self (k : Kernel) (f : SyscallFrame) (g : Task → Task) :
    ((k.taskSave f).modifyTask k.currentTask g).tasks k.currentTask =
      g ((k.tasks k.currentTask).taskSaveFromFrame f k.msrFsBase k.msrGsBase) := by
  rw [modifyTask_self, taskSave, modifyTask_self]

section

variable {t : Task} (h : t.Idle) (f : SyscallFrame) (fs gs : UInt64)
include h

theorem registerIoWait_oneWait (kind : IoWait) (nr deadlineNs : UInt64) :
    ((t.taskSaveFromFrame f fs gs).registerIoWait kind nr deadlineNs).OneWait := by
  cases t
  exact h.waits rfl (.inl ⟨rfl, rfl, rfl⟩)

theorem registerPipeWait_oneWait (fd : ℤ) (buf count : UInt64) :
    ((t.taskSaveFromFrame f fs gs).registerPipeWait fd buf count).OneWait := by
  cases t
  exact h.waits rfl (.inr ⟨rfl, .inr ⟨rfl, .inl rfl⟩⟩)

theorem clearPipeWait_idle (fd : ℤ) (buf count : UInt64) :
    (((t.taskSaveFromFrame f fs gs).registerPipeWait fd buf count).clearPipeWait.setState
      .running).Idle := by
  cases t
  exact h.of_eq rfl (.inl rfl) (.inr rfl) (.inl rfl)

theorem registerFutex_oneWait (uaddr deadlineNs : UInt64) :
    (((t.taskSaveFromFrame f fs gs).registerFutex uaddr deadlineNs).setState .blocked).OneWait := by
  cases t
  exact h.waits rfl (.inr ⟨rfl, .inr ⟨rfl, .inr rfl⟩⟩)

theorem clearFutex_idle (uaddr deadlineNs : UInt64) :
    (((t.taskSaveFromFrame f fs gs).registerFutex uaddr deadlineNs).clearFutex.setState
      .running).Idle := by
  cases t
  exact h.of_eq rfl (.inl rfl) (.inl rfl) (.inr rfl)

theorem registerWait4_oneWait (pid : ℤ) (status : UInt64) :
    (((t.registerWait4 pid status).taskSaveFromFrame f fs gs).setState .blocked).OneWait := by
  cases t
  exact h.waits rfl (.inr ⟨rfl, .inl ⟨rfl, rfl⟩⟩)

theorem clearWait4_idle (pid : ℤ) (status : UInt64) :
    ((((t.registerWait4 pid status).taskSaveFromFrame f fs gs).setState
      .blocked).clearWait4.setState .running).Idle := by
  cases t
  exact h.of_eq rfl (.inr rfl) (.inl rfl) (.inl rfl)

end

theorem registerIoWait_saved (t : Task) (f : SyscallFrame) (fs gs : UInt64) (hf : 2 ≤ f.userRip)
    (kind : IoWait) (nr deadlineNs : UInt64) :
    ((t.taskSaveFromFrame f fs gs).registerIoWait kind nr deadlineNs).SavedFrom f fs gs := by
  have hrip : ((t.taskSaveFromFrame f fs gs).registerIoWait kind nr deadlineNs).ctx.rip =
      f.userRip - 2 := by
    show (if 2 ≤ f.userRip then f.userRip - 2 else f.userRip) = _
    rw [if_pos hf]
  exact
    { regs := fun r hr ↦ update_of_ne hr ..
      rsp := rfl
      rflags := rfl
      cr3 := rfl
      fsBase := rfl
      gsBase := rfl
      rip := .inr hrip
      waits := fun _ ↦ hrip }

theorem applyAll_flags (k : Kernel) (l : List Effect) : (k.applyAll l).flags = k.flags := by
  induction l generalizing k with
  | nil => rfl
  | cons e l ih =>
    have he := congrArg (fun t ↦ (t.2.2.2.2.1, t.2.2.2.2.2.1)) (apply_ctl k e)
    exact (ih (k.apply e)).trans he

theorem waitTicks_spec (ticks : List (List Effect)) (hu : (k.tasks i).used = true)
    (hs : (k.tasks i).state = .blocked ∨ (k.tasks i).state = .runnable)
    (h : waitTicks i ticks k = some k') :
    Evolves k k' ∧ k'.flags = k.flags ∧ ∃ j, Switched j k' := by
  have hgo : ∀ (k : Kernel) (ticks : List (List Effect)), (k.tasks i).used = true →
      (k.tasks i).state = .runnable →
      waitTicks i ticks k = some k' → Evolves k k' ∧ k'.flags = k.flags ∧ ∃ j, Switched j k' := by
    intro k ticks hu hr h
    rw [waitTicks.eq_def] at h
    dsimp only at h
    rw [if_pos (by simp [hr])] at h
    cases halt : k.taskPickNext with
    | some alt =>
      rw [halt] at h
      cases h
      exact ⟨switchTo_evolves (taskPickNext_choosable halt), rfl, alt,
        switchTo_switched (taskPickNext_choosable halt).1⟩
    | none =>
      rw [halt] at h
      cases h
      have hsw := requestSwitch_switched hu
      exact ⟨(setRunning_evolves ⟨hu, .inl hr⟩).trans (evolves_of_tasks rfl rfl), rfl, i, rfl, rfl,
        rfl, hsw.used,
        hsw.running⟩
  induction ticks generalizing k with
  | nil =>
    by_cases hb : (k.tasks i).state = .blocked
    · rw [waitTicks, if_neg (not_not.2 hb)] at h
      cases h
    · exact hgo k _ hu (hs.resolve_left hb) h
  | cons tick ticks ih =>
    by_cases hb : (k.tasks i).state ≠ .blocked
    · exact hgo k _ hu (hs.resolve_left hb) h
    · rw [waitTicks, if_neg hb] at h
      have he := applyAll_evolves k tick
      obtain ⟨he', hx, hj⟩ := ih ((he.tasks i).used.trans hu) (applyAll_woken tick (not_not.1 hb)) h
      exact ⟨he.trans he', hx.trans (applyAll_flags k tick), hj⟩

theorem taskBlockIoUntil_ends (hg : Goes c f k₀ k) (hf : 2 ≤ f.userRip) {kind : IoWait}
    {nr deadlineNs : UInt64} {ticks : List (List Effect)}
    (h : k.taskBlockIoUntil f kind nr deadlineNs ticks = some k') : Ends c f k₀ k' := by
  obtain rfl := hg.current
  have hself := save_self k f (fun t ↦ t.registerIoWait kind nr deadlineNs)
  have hacts := acts_save k f (g := fun t ↦ t.registerIoWait kind nr deadlineNs)
    (fun t ↦ .of_eq rfl rfl rfl rfl rfl rfl)
  have hone := fun hi : (k.tasks k.currentTask).Idle ↦
    registerIoWait_oneWait hi f k.msrFsBase k.msrGsBase kind nr deadlineNs
  have hsaved :=
    registerIoWait_saved (k.tasks k.currentTask) f k.msrFsBase k.msrGsBase hf kind nr deadlineNs
  unfold taskBlockIoUntil at h
  dsimp only at h
  split at h
  · next next hnext =>
    cases h
    have hc := taskPickNext_choosable hnext
    exact ends_switched hg hf hacts hself hone (fun _ ↦ hsaved) (switchTo_evolves hc)
      (switchTo_switched hc.1) rfl
  · obtain ⟨he, hx, j, hj⟩ :=
      waitTicks_spec ticks (by rw [hself]; exact hg.used) (.inl (by rw [hself]; rfl)) h
    exact ends_switched hg hf hacts hself hone (fun _ ↦ hsaved) he hj hx

theorem back_self {t : Task} (h : k.tasks c = t) (g : Task → Task) :
    (k.modifyTask c g).tasks c = g t := by
  rw [modifyTask_self, h]

theorem saved_wait {t t' : Task} {fs gs v : UInt64} (hi : t.Idle)
    (hc : t'.ctx = (t.taskSaveFromFrame f fs gs).ctx.setRax v) (hk : t'.ioWaitKind = t.ioWaitKind) :
    t'.SavedFrom f fs gs :=
  (Task.SavedFrom.saved t f fs gs hi.not_waitsIo).congr hc (fun hw ↦ absurd (hk.trans hi.io) hw.2.1)

theorem saved_running {t t' : Task} {fs gs v : UInt64}
    (hc : t'.ctx = (t.taskSaveFromFrame f fs gs).ctx.setRax v) (hs : t'.state ≠ .blocked) :
    t'.SavedFrom f fs gs where
  regs r hr := by rw [hc]; exact update_of_ne hr ..
  rsp := by rw [hc]; rfl
  rflags := by rw [hc]; rfl
  cr3 := by rw [hc]; rfl
  fsBase := by rw [hc]; rfl
  gsBase := by rw [hc]; rfl
  rip := .inl (by rw [hc]; rfl)
  waits hw := absurd hw.1 hs

theorem save_setRax (t : Task) (f : SyscallFrame) (fs gs : UInt64) :
    (t.taskSaveFromFrame f fs gs).ctx = (t.taskSaveFromFrame f fs gs).ctx.setRax f.rax := by
  simp [Task.taskSaveFromFrame, TaskContext.setRax, SyscallFrame.rax]

theorem pipeBlock_ends (hg : Goes c f k₀ k) (hf : 2 ≤ f.userRip) (fd : ℤ) (buf count : UInt64) :
    Ends c f k₀ (k.pipeBlock f fd buf count).1 := by
  obtain rfl := hg.current
  have hself := save_self k f (fun t ↦ t.registerPipeWait fd buf count)
  have hacts := acts_save k f (g := fun t ↦ t.registerPipeWait fd buf count)
    (fun t ↦ .of_eq rfl rfl rfl rfl rfl rfl)
  have hrax := save_setRax (k.tasks k.currentTask) f k.msrFsBase k.msrGsBase
  unfold pipeBlock
  dsimp only
  split
  · have hback := back_self hself (fun t ↦ t.clearPipeWait.setState .running)
    refine (hg.own
      (hacts.trans (acts_modifyTask (g := fun t ↦ t.clearPipeWait.setState .running) ?_)) rfl hback
      (.inl rfl) (fun hi ↦ clearPipeWait_idle hi f _ _ fd buf count) (saved_running hrax nofun)
        (fun j hj ↦ ?_)).ends
    · exact .of_eq rfl rfl rfl rfl rfl rfl
    · rw [modifyTask_of_ne _ _ _ _ hj, modifyTask_of_ne _ _ _ _ hj, taskSave,
        modifyTask_of_ne _ _ _ _ hj]
  · next next hnext =>
    have hc := taskPickNext_choosable hnext
    refine ends_switched hg hf hacts hself (fun hi ↦ ?_) (fun hi ↦ ?_) (switchTo_evolves hc)
      (switchTo_switched hc.1) rfl
    · exact registerPipeWait_oneWait hi f _ _ fd buf count
    · exact saved_wait hi hrax rfl

theorem futexBlock_ends (hg : Goes c f k₀ k) (hf : 2 ≤ f.userRip) (uaddr deadlineNs : UInt64) :
    Ends c f k₀ (k.futexBlock f uaddr deadlineNs).1 := by
  obtain rfl := hg.current
  have hself := save_self k f (fun t ↦ t.registerFutex uaddr deadlineNs)
  have hacts := acts_save k f (g := fun t ↦ t.registerFutex uaddr deadlineNs)
    (fun t ↦ .of_eq rfl rfl rfl rfl rfl rfl)
  unfold futexBlock
  dsimp only
  split
  · have hback := back_self hself (fun t ↦ t.clearFutex.setState .running)
    refine (hg.own (hacts.trans (acts_modifyTask (g := fun t ↦ t.clearFutex.setState .running) ?_))
      rfl hback
      (.inl rfl) (fun hi ↦ clearFutex_idle hi f _ _ uaddr deadlineNs)
        (saved_running (v := 0) rfl nofun)
      (fun j hj ↦ ?_)).ends
    · exact .of_eq rfl rfl rfl rfl rfl rfl
    · rw [modifyTask_of_ne _ _ _ _ hj, modifyTask_of_ne _ _ _ _ hj, taskSave,
        modifyTask_of_ne _ _ _ _ hj]
  · next next hnext =>
    have hc := taskPickNext_runnable hnext
    have hne : next ≠ k.currentTask := by
      rintro rfl
      rw [hself] at hc
      rcases hg.live with hl | hl <;> cases hl.symm.trans hc.2
    have hblock := back_self hself (fun t ↦ t.setState .blocked)
    have hc' : Choosable
        (((k.taskSave f).modifyTask k.currentTask
          (fun t ↦ t.registerFutex uaddr deadlineNs)).modifyTask
        k.currentTask (fun t ↦ t.setState .blocked)) next := by
      rw [Choosable, modifyTask_of_ne _ _ _ _ hne]
      exact ⟨hc.1, .inl hc.2⟩
    refine ends_switched hg hf (hacts.trans (acts_modifyTask ?_)) hblock (fun hi ↦ ?_) (fun hi ↦ ?_)
      ((setRunning_evolves hc').trans (requestSwitch_evolves _ next))
        (requestSwitch_switched hc'.1) rfl
    · exact .of_eq rfl rfl rfl rfl rfl rfl
    · exact registerFutex_oneWait hi f _ _ uaddr deadlineNs
    · exact saved_wait (v := 0) hi rfl rfl

theorem sysSchedYield_ends (hr : Ready c k) (hf : 2 ≤ f.userRip) (tick : List Effect) :
    Ends c f k (k.sysSchedYield f tick).1 := by
  obtain rfl := hr.current
  have hself := save_self k f (fun t ↦ t.setRax 0)
  have hstays : Stays k.currentTask k
      ((k.taskSave f).modifyTask k.currentTask (fun t ↦ t.setRax 0)) := by
    refine (taskSave_stays k f).trans (stays_modifyTask ?_ ?_)
    · exact .of_eq rfl rfl rfl rfl rfl rfl
    · rfl
  unfold sysSchedYield
  dsimp only
  split
  · have hb : (((k.taskSave f).modifyTask k.currentTask (fun t ↦ t.setRax 0)).tasks
        k.currentTask).state ≠ .blocked := by
      rw [hstays.state]
      exact hr.live.not_blocked
    exact (hstays.trans (applyAll_stays tick hb)).ends hr
  · next next hnext =>
    have hc := taskPickNext_runnable hnext
    have hne : next ≠ k.currentTask := by
      rintro rfl
      rw [hself] at hc
      rcases hr.live with hl | hl <;> cases hl.symm.trans hc.2
    have hrun := back_self hself (fun t ↦ t.setState .runnable)
    have hc' : Choosable (((k.taskSave f).modifyTask k.currentTask (fun t ↦ t.setRax 0)).modifyTask
        k.currentTask (fun t ↦ t.setState .runnable)) next := by
      rw [Choosable, modifyTask_of_ne _ _ _ _ hne]
      exact ⟨hc.1, .inl hc.2⟩
    refine ends_switched hr.goes hf (hstays.toActs.trans (acts_modifyTask ?_)) hrun (fun hi ↦ ?_)
      (fun hi ↦ ?_) (switchTo_evolves hc') (switchTo_switched hc'.1) rfl
    · exact .of_eq rfl rfl rfl rfl rfl rfl
    · exact Task.Idle.oneWait (hi.congr rfl rfl rfl rfl)
    · exact saved_wait (v := 0) hi rfl rfl

end Kernel

end YabroOS
