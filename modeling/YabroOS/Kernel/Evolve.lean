import YabroOS.Kernel.Wait

namespace YabroOS

open Memory Function Lib.Asm

namespace Kernel

def ctl (k : Kernel) : Slot × Bool × Bool × Option Slot × Bool × Bool × UInt64 × UInt64 :=
  (k.currentTask, k.taskSwitchPending, k.taskSwitchDeferred, k.taskReturnCtx, k.userExitPending,
    k.userExecPending,
    k.msrFsBase, k.msrGsBase)

/-- The pids of the used slots are positive, pairwise different and given out already, and a task
is younger than its parent. -/
structure Pids (k : Kernel) : Prop where
  pos : ∀ i, (k.tasks i).used = true → 0 < (k.tasks i).pid
  lt : ∀ i, (k.tasks i).used = true → (k.tasks i).pid < k.nextPid
  ppid : ∀ i, (k.tasks i).used = true → (k.tasks i).ppid < (k.tasks i).pid
  inj : ∀ i j, (k.tasks i).used = true → (k.tasks j).used = true →
    (k.tasks i).pid = (k.tasks j).pid → i = j

structure Evolves (k k' : Kernel) : Prop where
  nextPid : k'.nextPid = k.nextPid
  tasks : ∀ i, Task.Evolves i (k.tasks i) (k'.tasks i)

/-- A child of the task with pid `p` whose pid is at least `n`. -/
structure Born (n p : ℤ) (i : Slot) (t : Task) : Prop where
  pid : n ≤ t.pid
  ppid : t.ppid = p
  oneWait : i ≠ 0 → t.OneWait

/-- The task in slot `c` acts: the other ones evolve, and only its children leave or appear. -/
structure Away (c : Slot) (k k' : Kernel) : Prop where
  nextPid : k.nextPid ≤ k'.nextPid
  used : (k'.tasks c).used = (k.tasks c).used
  pid : (k'.tasks c).pid = (k.tasks c).pid
  ppid : (k'.tasks c).ppid = (k.tasks c).ppid
  others : ∀ i, i ≠ c → (k.tasks i).used = true → Task.Evolves i (k.tasks i) (k'.tasks i) ∨
    (k.tasks i).ppid = (k.tasks c).pid ∧
      ((k'.tasks i).used = false ∨ Born k.nextPid (k.tasks c).pid i (k'.tasks i))
  fresh : ∀ i, (k.tasks i).used = false →
    (k'.tasks i).used = false ∨ Born k.nextPid (k.tasks c).pid i (k'.tasks i)
  pids : k.Pids → k'.Pids

structure Acts (c : Slot) (k k' : Kernel) : Prop extends Away c k k' where
  saved : Task.Same (k.tasks c) (k'.tasks c)

structure Stays (c : Slot) (k k' : Kernel) : Prop extends Acts c k k' where
  ctl : k'.ctl = k.ctl
  waiting : (k'.tasks c).waiting = (k.tasks c).waiting

variable {k k' k'' : Kernel} {c i : Slot} {g : Task → Task}

theorem Evolves.refl (k : Kernel) : Evolves k k := ⟨rfl, fun i ↦ .refl i _⟩

theorem Evolves.trans (h : Evolves k k') (h' : Evolves k' k'') : Evolves k k'' :=
  ⟨h'.nextPid.trans h.nextPid, fun i ↦ (h.tasks i).trans (h'.tasks i)⟩

theorem Pids.congr (h : k.Pids) (hn : k'.nextPid = k.nextPid) (hu : ∀ i, (k'.tasks i).used = true →
    (k.tasks i).used = true ∧ (k'.tasks i).pid = (k.tasks i).pid ∧
      (k'.tasks i).ppid = (k.tasks i).ppid) :
    k'.Pids where
  pos i hi := by
    rw [(hu i hi).2.1]
    exact h.pos i (hu i hi).1
  lt i hi := by
    rw [(hu i hi).2.1, hn]
    exact h.lt i (hu i hi).1
  ppid i hi := by
    rw [(hu i hi).2.1, (hu i hi).2.2]
    exact h.ppid i (hu i hi).1
  inj i j hi hj hp := by
    rw [(hu i hi).2.1, (hu j hj).2.1] at hp
    exact h.inj i j (hu i hi).1 (hu j hj).1 hp

theorem Born.mono {n n' p : ℤ} {t : Task} (h : Born n p i t) (hn : n' ≤ n) : Born n' p i t :=
  ⟨hn.trans h.pid, h.ppid, h.oneWait⟩

theorem Born.evolves {n p : ℤ} {t t' : Task} (h : Born n p i t) (he : Task.Evolves i t t') :
    Born n p i t' :=
  ⟨he.pid ▸ h.pid, he.ppid.trans h.ppid, fun hi ↦ he.oneWait hi (h.oneWait hi)⟩

theorem Acts.of_evolves (hn : k'.nextPid = k.nextPid) (hs : Task.Same (k.tasks c) (k'.tasks c))
    (ho : ∀ i, i ≠ c → Task.Evolves i (k.tasks i) (k'.tasks i)) : Acts c k k' := by
  have hsame : ∀ i, Task.Same (k.tasks i) (k'.tasks i) := by
    intro i
    by_cases hi : i = c
    · rw [hi]
      exact hs
    · exact (ho i hi).toSame
  exact
    { nextPid := le_of_eq hn.symm
      used := hs.used
      pid := hs.pid
      ppid := hs.ppid
      others := fun i hi _ ↦ .inl (ho i hi)
      fresh := fun i hi ↦ .inl ((hsame i).used.trans hi)
      pids := fun h ↦ h.congr hn (fun i hi ↦ ⟨(hsame i).used ▸ hi, (hsame i).pid, (hsame i).ppid⟩)
      saved := hs }

theorem Evolves.acts (h : Evolves k k') (c : Slot) : Acts c k k' :=
  .of_evolves h.nextPid (h.tasks c).toSame (fun i _ ↦ h.tasks i)

theorem Acts.refl (c : Slot) (k : Kernel) : Acts c k k := (Evolves.refl k).acts c

theorem Away.trans (h : Away c k k') (h' : Away c k' k'') : Away c k k'' where
  nextPid := h.nextPid.trans h'.nextPid
  used := h'.used.trans h.used
  pid := h'.pid.trans h.pid
  ppid := h'.ppid.trans h.ppid
  others i hi hu := by
    rcases h.others i hi hu with he | ⟨hp, hgone | hborn⟩
    · rcases h'.others i hi (he.used.trans hu) with he' | ⟨hp', hgone⟩
      · exact .inl (he.trans he')
      · refine .inr ⟨he.ppid ▸ h.pid ▸ hp', hgone.imp id (fun hb ↦ ?_)⟩
        exact h.pid ▸ hb.mono h.nextPid
    · refine .inr ⟨hp, (h'.fresh i hgone).imp id (fun hb ↦ ?_)⟩
      exact h.pid ▸ hb.mono h.nextPid
    · refine .inr ⟨hp, ?_⟩
      cases hu' : (k'.tasks i).used with
      | false => exact (h'.fresh i hu').imp id (fun hb ↦ h.pid ▸ hb.mono h.nextPid)
      | true =>
        rcases h'.others i hi hu' with he' | ⟨-, hgone⟩
        · exact .inr (hborn.evolves he')
        · exact hgone.imp id (fun hb ↦ h.pid ▸ hb.mono h.nextPid)
  fresh i hu := by
    cases hu' : (k'.tasks i).used with
    | false => exact (h'.fresh i hu').imp id (fun hb ↦ h.pid ▸ hb.mono h.nextPid)
    | true =>
      have hi : i ≠ c := by
        rintro rfl
        rw [h.used, hu] at hu'
        cases hu'
      rcases h.fresh i hu with hgone | hborn
      · rw [hgone] at hu'
        cases hu'
      · rcases h'.others i hi hu' with he' | ⟨-, hgone⟩
        · exact .inr (hborn.evolves he')
        · exact hgone.imp id (fun hb ↦ h.pid ▸ hb.mono h.nextPid)
  pids hp := h'.pids (h.pids hp)

theorem Acts.trans (h : Acts c k k') (h' : Acts c k' k'') : Acts c k k'' :=
  ⟨h.toAway.trans h'.toAway, h.saved.trans h'.saved⟩

theorem Stays.refl (c : Slot) (k : Kernel) : Stays c k k := ⟨.refl c k, rfl, rfl⟩

theorem Stays.trans (h : Stays c k k') (h' : Stays c k' k'') : Stays c k k'' :=
  ⟨h.toActs.trans h'.toActs, h'.ctl.trans h.ctl, h'.waiting.trans h.waiting⟩

theorem Stays.currentTask (h : Stays c k k') : k'.currentTask = k.currentTask :=
  congrArg Prod.fst h.ctl

theorem Stays.state (h : Stays c k k') : (k'.tasks c).state = (k.tasks c).state :=
  congrArg Prod.fst h.waiting

theorem evolves_of_tasks (hn : k'.nextPid = k.nextPid) (ht : k'.tasks = k.tasks) : Evolves k k' :=
  ⟨hn, fun i ↦ by rw [ht]; exact .refl i _⟩

theorem Stays.of_tasks (c : Slot) (hn : k'.nextPid = k.nextPid) (ht : k'.tasks = k.tasks)
    (hc : k'.ctl = k.ctl) : Stays c k k' :=
  ⟨(evolves_of_tasks hn ht).acts c, hc, by rw [ht]⟩

theorem evolves_modifyTask (h : Task.Evolves i (k.tasks i) (g (k.tasks i))) :
    Evolves k (k.modifyTask i g) := by
  refine ⟨rfl, fun j ↦ ?_⟩
  rw [modifyTask_apply]
  split_ifs with hj
  · subst hj
    exact h
  · exact .refl j _

theorem acts_modifyTask (h : Task.Same (k.tasks c) (g (k.tasks c))) :
    Acts c k (k.modifyTask c g) := by
  refine .of_evolves rfl ?_ (fun j hj ↦ ?_)
  · rw [modifyTask_self]
    exact h
  · rw [modifyTask_of_ne k c j g hj]
    exact .refl j _

theorem stays_modifyTask (h : Task.Same (k.tasks c) (g (k.tasks c)))
    (hw : (g (k.tasks c)).waiting = (k.tasks c).waiting) : Stays c k (k.modifyTask c g) :=
  ⟨acts_modifyTask h, rfl, by rw [modifyTask_self, hw]⟩

theorem Evolves.stays (h : Evolves k k') (hc : k'.ctl = k.ctl)
    (hw : (k'.tasks c).waiting = (k.tasks c).waiting) : Stays c k k' :=
  ⟨h.acts c, hc, hw⟩

theorem taskSave_stays (k : Kernel) (f : SyscallFrame) : Stays k.currentTask k (k.taskSave f) :=
  stays_modifyTask (.of_eq rfl rfl rfl rfl rfl rfl) rfl

theorem ioWakes_blocked (h : k.ioWakes i = true) :
    (k.tasks i).used = true ∧ (k.tasks i).state = .blocked ∧ (k.tasks i).ioWaitKind ≠ .none := by
  simp only [ioWakes] at h
  split_ifs at h with hidle
  push Not at hidle
  refine ⟨by simpa using hidle.1, hidle.2, fun hk ↦ ?_⟩
  rw [hk] at h
  cases h

theorem apply_evolves (k : Kernel) (e : Effect) : Evolves k (k.apply e) := by
  cases e with
  | wakeIo =>
    refine ⟨rfl, fun i ↦ ?_⟩
    simp only [apply, taskWakeIoWaiters]
    split_ifs with hw
    · exact Task.wakeIo_evolves (ioWakes_blocked hw).2.1 (ioWakes_blocked hw).2.2
    · exact .refl i _
  | clock now => exact ⟨rfl, fun i ↦ Task.wakeTimed_evolves i _ _⟩
  | queueSignal i sig =>
    simp only [apply]
    refine evolves_modifyTask ?_
    split_ifs
    · exact Task.ttyQueueSignal_evolves i _ sig
    · exact .refl i _
  | pendSignal i sig =>
    simp only [apply]
    refine evolves_modifyTask ?_
    split_ifs
    · exact Task.sigPendingSet_evolves i _ sig
    · exact .refl i _
  | sigaction sig a =>
    simp only [apply]
    refine evolves_modifyTask ?_
    split_ifs
    · exact .quiet (.of_eq rfl rfl rfl rfl rfl rfl) rfl rfl rfl
    · exact .refl _ _
  | sigprocmask m =>
    simp only [apply]
    refine evolves_modifyTask ?_
    exact .quiet (.of_eq rfl rfl rfl rfl rfl rfl) rfl rfl rfl
  | pipeRead i v copied =>
    simp only [apply]
    refine evolves_modifyTask ?_
    exact Task.pipeReadDone_evolves i _ v copied
  | pipeClose fd => exact ⟨rfl, fun i ↦ Task.pipeCloseDone_evolves i _ fd⟩
  | ioResume valid nr rip s d =>
    simp only [apply]
    refine evolves_modifyTask ?_
    exact .quiet (.of_eq rfl rfl rfl rfl rfl rfl) rfl rfl rfl
  | setGroup i pgrp session =>
    simp only [apply]
    refine evolves_modifyTask ?_
    exact .quiet (.of_eq rfl rfl rfl rfl rfl rfl) rfl rfl rfl
  | setNice i nice =>
    simp only [apply]
    refine evolves_modifyTask ?_
    exact .quiet (.of_eq rfl rfl rfl rfl rfl rfl) rfl rfl rfl
  | setTid addr =>
    simp only [apply]
    refine evolves_modifyTask ?_
    exact .quiet (.of_eq rfl rfl rfl rfl rfl rfl) rfl rfl rfl
  | framebuffer count users =>
    have h : Evolves k (k.modifyTask k.currentTask (fun t ↦ { t with fbMapCount := count })) := by
      refine evolves_modifyTask ?_
      exact .quiet (.of_eq rfl rfl rfl rfl rfl rfl) rfl rfl rfl
    exact h.trans (evolves_of_tasks rfl rfl)
  | io io => exact evolves_of_tasks rfl rfl
  | vm vm => exact evolves_of_tasks rfl rfl

theorem applyAll_evolves (k : Kernel) (l : List Effect) : Evolves k (k.applyAll l) := by
  induction l generalizing k with
  | nil => exact .refl k
  | cons e l ih => exact (apply_evolves k e).trans (ih (k.apply e))

theorem apply_ctl (k : Kernel) (e : Effect) : (k.apply e).ctl = k.ctl := by
  cases e <;> rfl

theorem stirs_modifyTask {j : Slot} (h : Task.Stirs (k.tasks i) (g (k.tasks i))) :
    Task.Stirs (k.tasks i) ((k.modifyTask j g).tasks i) := by
  rw [modifyTask_apply]
  split_ifs
  · exact h
  · exact .inl rfl

theorem apply_stirs (k : Kernel) (i : Slot) (e : Effect) :
    Task.Stirs (k.tasks i) ((k.apply e).tasks i) := by
  cases e with
  | wakeIo =>
    simp only [apply, taskWakeIoWaiters]
    split_ifs with hw
    · refine .inr ⟨(ioWakes_blocked hw).2.1, .inl ?_⟩
      simp only [Task.wakeIo]
      split_ifs <;> rfl
    · exact .inl rfl
  | clock now =>
    simp only [apply, taskWakeTimedIoWaiters, Task.wakeTimed]
    split_ifs with hidle hfut hio
    · exact .inl rfl
    · exact .inr ⟨(not_or.1 hidle).2 |> not_not.1, .inl rfl⟩
    · exact .inl rfl
    · exact .inr ⟨(not_or.1 hidle).2 |> not_not.1, .inl rfl⟩
  | queueSignal j sig =>
    simp only [apply]
    refine stirs_modifyTask ?_
    split_ifs
    · exact Task.ttyQueueSignal_stirs _ sig
    · exact .inl rfl
  | pendSignal j sig =>
    simp only [apply]
    refine stirs_modifyTask (.inl ?_)
    split_ifs <;> rfl
  | sigaction sig a =>
    simp only [apply]
    refine stirs_modifyTask (.inl ?_)
    split_ifs <;> rfl
  | sigprocmask m =>
    simp only [apply]
    exact stirs_modifyTask (.inl rfl)
  | pipeRead j v copied =>
    simp only [apply]
    refine stirs_modifyTask ?_
    simp only [Task.pipeReadDone]
    split_ifs with hidle hcopied
    · exact .inl rfl
    · push Not at hidle
      exact .inr ⟨hidle.2.1, .inl rfl⟩
    · push Not at hidle
      exact .inr ⟨hidle.2.1, .inr hidle.2.1⟩
  | pipeClose fd =>
    simp only [apply, Task.pipeCloseDone]
    split_ifs with hw
    · exact .inr ⟨hw.2.1, .inl rfl⟩
    · exact .inl rfl
  | ioResume valid nr rip s d =>
    simp only [apply]
    exact stirs_modifyTask (.inl rfl)
  | setGroup j pgrp session =>
    simp only [apply]
    exact stirs_modifyTask (.inl rfl)
  | setNice j nice =>
    simp only [apply]
    exact stirs_modifyTask (.inl rfl)
  | setTid addr =>
    simp only [apply]
    exact stirs_modifyTask (.inl rfl)
  | framebuffer count users =>
    simp only [apply]
    exact stirs_modifyTask (.inl rfl)
  | io io => exact .inl rfl
  | vm vm => exact .inl rfl

theorem apply_waiting (h : (k.tasks i).state ≠ .blocked) (e : Effect) :
    ((k.apply e).tasks i).waiting = (k.tasks i).waiting :=
  (apply_stirs k i e).resolve_right (fun hb ↦ h hb.1)

theorem applyAll_woken (l : List Effect) (h : (k.tasks i).state = .blocked) :
    ((k.applyAll l).tasks i).state = .blocked ∨ ((k.applyAll l).tasks i).state = .runnable := by
  have hstep : ∀ (k : Kernel) (e : Effect), (k.tasks i).state = .blocked ∨
      (k.tasks i).state = .runnable →
      ((k.apply e).tasks i).state = .blocked ∨ ((k.apply e).tasks i).state = .runnable := by
    intro k e hk
    rcases apply_stirs k i e with hw | ⟨-, hr | hb⟩
    · rw [show ((k.apply e).tasks i).state = (k.tasks i).state from congrArg Prod.fst hw]
      exact hk
    · exact .inr hr
    · exact .inl hb
  have hall : ∀ (l : List Effect) (k : Kernel), (k.tasks i).state = .blocked ∨
      (k.tasks i).state = .runnable →
      ((k.applyAll l).tasks i).state = .blocked ∨ ((k.applyAll l).tasks i).state = .runnable := by
    intro l
    induction l with
    | nil => exact fun _ hk ↦ hk
    | cons e l ih => exact fun k hk ↦ ih (k.apply e) (hstep k e hk)
  exact hall l k (.inl h)

theorem apply_stays (h : (k.tasks c).state ≠ .blocked) (e : Effect) : Stays c k (k.apply e) :=
  (apply_evolves k e).stays (apply_ctl k e) (apply_waiting h e)

theorem applyAll_stays (l : List Effect) (h : (k.tasks c).state ≠ .blocked) :
    Stays c k (k.applyAll l) := by
  induction l generalizing k with
  | nil => exact .refl c k
  | cons e l ih =>
    have he := apply_stays h e
    exact he.trans (ih (he.state ▸ h))

theorem taskPickNext_runnable (h : k.taskPickNext = some i) :
    (k.tasks i).used = true ∧ (k.tasks i).state = .runnable := by
  have hbest : ∀ (l : List Slot) (best : Option Slot),
      (∀ b, best = some b → (k.tasks b).used = true ∧ (k.tasks b).state = .runnable) →
      ∀ b, l.foldl k.pickBetter best = some b → (k.tasks b).used = true ∧
        (k.tasks b).state = .runnable := by
    intro l
    induction l with
    | nil => exact fun best hb ↦ hb
    | cons j l ih =>
      intro best hb
      refine ih _ (fun b hb' ↦ ?_)
      simp only [pickBetter] at hb'
      split_ifs at hb' with hj
      · exact hb b hb'
      · push Not at hj
        have hrun : (k.tasks j).used = true ∧ (k.tasks j).state = .runnable :=
          ⟨by simpa using hj.1, hj.2⟩
        cases best with
        | none =>
          cases hb'
          exact hrun
        | some b₀ =>
          simp only at hb'
          split_ifs at hb'
          · cases hb'
            exact hrun
          · exact hb b hb'
  exact hbest _ none (by simp) i h

def Choosable (k : Kernel) (i : Slot) : Prop :=
  (k.tasks i).used = true ∧ ((k.tasks i).state = .runnable ∨ i = 0)

theorem taskPickNext_choosable (h : k.taskPickNext = some i) : k.Choosable i :=
  ⟨(taskPickNext_runnable h).1, .inl (taskPickNext_runnable h).2⟩

theorem setRunning_evolves (h : k.Choosable i) : Evolves k (k.setRunning i) := by
  have hrun : Evolves k (k.modifyTask i (fun t ↦ t.setState .running)) := by
    refine evolves_modifyTask ?_
    rcases h.2 with hs | hi
    · exact Task.restate_evolves (.inr hs) nofun
    · exact .restate (.of_eq rfl rfl rfl rfl rfl rfl) (fun _ ↦ .inl hi) nofun
        (fun hn ↦ absurd hi hn) rfl rfl
  exact hrun.trans (evolves_of_tasks rfl rfl)

theorem taskAccountSwitch_evolves (k : Kernel) (i : Slot) : Evolves k (k.taskAccountSwitch i) := by
  refine evolves_modifyTask ?_
  split_ifs
  · exact .quiet (.of_eq rfl rfl rfl rfl rfl rfl) rfl rfl rfl
  · exact .refl i _

theorem requestSwitch_evolves (k : Kernel) (i : Slot) : Evolves k (k.requestSwitch i) :=
  evolves_of_tasks rfl rfl

theorem switchTo_evolves (h : k.Choosable i) : Evolves k (k.switchTo i) :=
  ((setRunning_evolves h).trans (taskAccountSwitch_evolves _ i)).trans (requestSwitch_evolves _ i)

theorem taskCommitDeferredSwitch_evolves (h : k.Choosable i) :
    Evolves k (k.taskCommitDeferredSwitch i) := by
  simp only [taskCommitDeferredSwitch]
  split_ifs with hskip hrun
  · exact .refl k
  · have hne : i ≠ k.currentTask := fun hi ↦ hskip (.inr hi)
    have h₁ : Evolves k (k.modifyTask k.currentTask (fun t ↦ t.setState .runnable)) :=
      evolves_modifyTask (Task.restate_evolves (.inl hrun) nofun)
    refine (h₁.trans (setRunning_evolves ?_)).trans (taskAccountSwitch_evolves _ i)
    rw [Choosable, modifyTask_of_ne _ _ _ _ hne]
    exact h
  · exact (setRunning_evolves h).trans (taskAccountSwitch_evolves _ i)

end Kernel

end YabroOS
