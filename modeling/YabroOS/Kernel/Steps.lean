import YabroOS.Kernel.Delivery
import YabroOS.Kernel.Machine

namespace YabroOS

open Memory Function Lib Lib.Asm Entry

def Task.Exact (f : SyscallFrame) (fs gs : UInt64) (t : Task) : Prop :=
  t.state ≠ .blocked ∧ t.ctx = ⟨f.regs, f.userRsp, f.userRip, f.userRflags, f.userCr3, fs, gs⟩

theorem Task.Exact.evolves {i : Slot} {t t' : Task} {f : SyscallFrame} {fs gs : UInt64}
    (h : t.Exact f fs gs) (he : Task.Evolves i t t') : t'.Exact f fs gs :=
  ⟨(he.active h.1).1, (he.active h.1).2.1.trans h.2⟩

namespace Kernel

variable {k k' k₀ : Kernel} {c i j : Slot} {u : SyscallFrame}

theorem storeStatusCr3_tasks (k : Kernel) (cr3 status : UInt64) (e : ℤ) :
    (k.storeStatusCr3 cr3 status e).1.tasks = k.tasks ∧ (k.storeStatusCr3 cr3 status e).1.nextPid =
      k.nextPid ∧ (k.storeStatusCr3 cr3 status e).1.ctl = k.ctl := by
  unfold storeStatusCr3
  split_ifs
  · exact ⟨rfl, rfl, rfl⟩
  · exact ⟨rfl, rfl, rfl⟩

theorem timerWakeParent_evolves (k : Kernel) (c : Slot) :
    Evolves k (k.timerWakeParent c) ∧ (k.timerWakeParent c).ctl = k.ctl := by
  unfold timerWakeParent
  split
  · exact ⟨.refl k, rfl⟩
  · next i hi =>
    have hset : Evolves k (k.modifyTask i (fun p ↦ p.sigPendingSet sigchld)) := by
      refine evolves_modifyTask ?_
      exact Task.sigPendingSet_evolves _ _ _
    have hctl : (k.modifyTask i (fun p ↦ p.sigPendingSet sigchld)).ctl = k.ctl := rfl
    dsimp only
    generalize k.modifyTask i (fun p ↦ p.sigPendingSet sigchld) = k₁ at hset hctl ⊢
    split_ifs with hw hrc
    · obtain ⟨ht, hn, hc⟩ :=
        storeStatusCr3_tasks k₁ (k₁.tasks i).ctx.cr3 (k₁.tasks i).wait4StatusPtr
          (k₁.tasks c).exitStatus
      exact ⟨hset.trans (evolves_of_tasks hn ht), hc.trans hctl⟩
    · obtain ⟨ht, hn, hc⟩ :=
        storeStatusCr3_tasks k₁ (k₁.tasks i).ctx.cr3 (k₁.tasks i).wait4StatusPtr
          (k₁.tasks c).exitStatus
      refine ⟨(hset.trans (evolves_of_tasks hn ht)).trans (evolves_modifyTask ?_), hc.trans hctl⟩
      rw [ht]
      exact Task.wait4Done_evolves hw.1 hw.2.1 _
    · exact ⟨hset, hctl⟩

theorem timerWakeParent_state (k : Kernel) (d : Slot) (hb : (k.tasks c).state ≠ .blocked) :
    ((k.timerWakeParent d).tasks c).state = (k.tasks c).state := by
  unfold timerWakeParent
  split
  · rfl
  · next i hi =>
    have hset : ((k.modifyTask i (fun p ↦ p.sigPendingSet sigchld)).tasks c).state =
        (k.tasks c).state := by
      rw [modifyTask_apply]
      split_ifs <;> rfl
    dsimp only
    generalize k.modifyTask i (fun p ↦ p.sigPendingSet sigchld) = k₁ at hset ⊢
    split_ifs with hw hrc
    · rw [(storeStatusCr3_tasks k₁ _ _ _).1, hset]
    · have hne : c ≠ i := by
        rintro rfl
        exact hb (hset.symm.trans hw.1)
      rw [modifyTask_of_ne _ _ _ _ hne, (storeStatusCr3_tasks k₁ _ _ _).1, hset]
    · exact hset

theorem sigintKill_evolves {t : Task} (hb : t.state ≠ .blocked) :
    Task.Evolves i t t.sigintKill := by
  refine .restate (.of_eq rfl rfl rfl rfl rfl rfl) (fun _ ↦ .inr rfl) nofun (fun _ h ↦ ?_) rfl rfl
  exact Task.Idle.oneWait ((h.idle hb).congr rfl rfl rfl rfl)

theorem releaseFramebuffer_evolves (k : Kernel) (c : Slot) :
    Evolves k (k.releaseFramebuffer c) := by
  have h : Evolves k (k.modifyTask c (fun t ↦ { t with fbMapCount := 0 })) := by
    refine evolves_modifyTask ?_
    exact .quiet (.of_eq rfl rfl rfl rfl rfl rfl) rfl rfl rfl
  exact h.trans (evolves_of_tasks rfl rfl)

theorem timerKill_spec (hb : (k.tasks k.currentTask).state ≠ .blocked) :
    Evolves k k.timerKill ∧ k.timerKill.ctl = k.ctl ∧
      (k.timerKill.tasks k.currentTask).state = .zombie := by
  have h₁ : Evolves k (k.modifyTask k.currentTask Task.sigintKill) := by
    refine evolves_modifyTask ?_
    exact sigintKill_evolves hb
  have hz : ((k.modifyTask k.currentTask Task.sigintKill).tasks k.currentTask).state = .zombie := by
    rw [modifyTask_self]
    rfl
  have hc : (k.modifyTask k.currentTask Task.sigintKill).ctl = k.ctl := rfl
  unfold timerKill
  dsimp only
  generalize k.modifyTask k.currentTask Task.sigintKill = k₁ at h₁ hz hc ⊢
  have h₂ := h₁.trans (releaseFramebuffer_evolves k₁ k.currentTask)
  have hs := releaseFramebuffer_stays k.currentTask k₁
  have hz₂ := hs.state.trans hz
  have hc₂ := hs.ctl.trans hc
  generalize k₁.releaseFramebuffer k.currentTask = k₂ at h₂ hz₂ hc₂ ⊢
  have h₃ : Evolves k (k₂.setIo (k₂.io.taskFdTableRelease k.currentTask)) :=
    h₂.trans (evolves_of_tasks rfl rfl)
  have hz₃ : ((k₂.setIo (k₂.io.taskFdTableRelease k.currentTask)).tasks k.currentTask).state =
      .zombie := hz₂
  have hc₃ : (k₂.setIo (k₂.io.taskFdTableRelease k.currentTask)).ctl = k.ctl := hc₂
  generalize k₂.setIo (k₂.io.taskFdTableRelease k.currentTask) = k₃ at h₃ hz₃ hc₃ ⊢
  obtain ⟨h₄, hc₄⟩ := timerWakeParent_evolves k₃ k.currentTask
  refine ⟨h₃.trans h₄, hc₄.trans hc₃, ?_⟩
  rw [timerWakeParent_state k₃ _ (by rw [hz₃]; nofun), hz₃]

theorem timerSigint_spec (hb : (k.tasks k.currentTask).state ≠ .blocked) :
    Evolves k k.timerSigint ∧ k.timerSigint.ctl = k.ctl ∧
      ((k.timerSigint.tasks k.currentTask).state = (k.tasks k.currentTask).state ∨
        (k.timerSigint.tasks k.currentTask).state = .zombie) := by
  unfold timerSigint
  dsimp only
  split_ifs
  · refine ⟨evolves_modifyTask ?_, rfl, .inl ?_⟩
    · exact Task.sigClearPending_evolves _ _ _
    · rw [modifyTask_self]
      rfl
  · obtain ⟨he, hc, hz⟩ := timerKill_spec hb
    exact ⟨he, hc, .inr hz⟩
  · exact ⟨.refl k, rfl, .inl rfl⟩
  · exact ⟨.refl k, rfl, .inl rfl⟩

/-- The interrupted task has its registers in its context and does not run. -/
structure Parked (c : Slot) (u : SyscallFrame) (k₀ k : Kernel) : Prop where
  acts : Acts c k₀ k
  ctl : k.ctl = k₀.ctl
  state : (k.tasks c).state = .runnable ∨ (k.tasks c).state = .zombie
  ctx : (k.tasks c).ctx = ⟨u.regs, u.userRsp, u.userRip, u.userRflags, u.userCr3, k₀.msrFsBase,
    k₀.msrGsBase⟩
  oneWait : c ≠ 0 → (k₀.tasks c).OneWait → (k.tasks c).OneWait

theorem timerPark_parked (hr : Ready c k) (u : SyscallFrame) : Parked c u k (k.timerPark u) := by
  obtain rfl := hr.current
  have hs := taskSave_stays k u
  have hctx : ((k.taskSave u).tasks k.currentTask).ctx =
      ⟨u.regs, u.userRsp, u.userRip, u.userRflags, u.userCr3, k.msrFsBase, k.msrGsBase⟩ := by
    rw [taskSave, modifyTask_self]
    rfl
  have hlive := (hs.ready hr).live
  have hcur : (k.taskSave u).currentTask = k.currentTask := rfl
  unfold timerPark
  dsimp only
  generalize k.taskSave u = k₁ at hs hctx hlive hcur ⊢
  rw [← hcur] at hctx hs hlive ⊢
  obtain ⟨he, hc, hst⟩ := timerSigint_spec hlive.not_blocked
  have hcur' : k₁.timerSigint.currentTask = k₁.currentTask := congrArg Prod.fst hc
  have hctx' := ((he.tasks k₁.currentTask).active hlive.not_blocked).2.1
  have hlive' : (k₁.timerSigint.tasks k₁.currentTask).Live := by
    rcases hst with hst | hst
    · rw [Task.Live, hst]
      exact hlive
    · exact .inr hst
  have hacts := hs.toActs.trans (he.acts k₁.currentTask)
  have hone : k₁.currentTask ≠ 0 → (k.tasks k₁.currentTask).OneWait →
      (k₁.timerSigint.tasks k₁.currentTask).OneWait :=
    fun hne hw ↦ (he.tasks _).oneWait hne (hw.congr hs.waiting)
  rw [current, hcur']
  generalize k₁.timerSigint = k₂ at hc hcur' hctx' hlive' hacts hone ⊢
  split_ifs with hz
  · refine ⟨hacts.trans (acts_modifyTask ?_), hc.trans hs.ctl, .inl ?_, ?_, fun hne hw ↦ ?_⟩
    · exact .of_eq rfl rfl rfl rfl rfl rfl
    · rw [modifyTask_self]
      rfl
    · rw [modifyTask_self]
      exact hctx'.trans hctx
    · rw [modifyTask_self]
      exact Task.Idle.oneWait (((hone hne hw).idle hlive'.not_blocked).congr rfl rfl rfl rfl)
  · exact ⟨hacts, hc.trans hs.ctl, .inr (not_not.1 hz), hctx'.trans hctx, hone⟩

theorem timerNext_choosable (h : k.timerNext = some j) :
    k.Choosable j ∧ (k.tasks j).state ≠ .zombie := by
  unfold timerNext at h
  split at h
  · next i hi =>
    obtain rfl := Option.some.inj h
    refine ⟨taskPickNext_choosable hi, ?_⟩
    rw [(taskPickNext_runnable hi).2]
    nofun
  · split_ifs at h with hz
    obtain rfl := Option.some.inj h
    exact ⟨⟨hz.2.1, .inr rfl⟩, hz.2.2⟩

theorem timer_none {polled : List Effect} (hr : Ready c k)
    (h : k.timerPreemptFromUser u polled = (k', none)) :
    Acts c k k' ∧ k'.ctl = k.ctl ∧ (k'.tasks c).Live ∧
      (c ≠ 0 → (k.tasks c).OneWait → (k'.tasks c).OneWait) := by
  have hs := applyAll_stays polled hr.live.not_blocked
  have hr' := hs.ready hr
  unfold timerPreemptFromUser at h
  dsimp only at h
  generalize k.applyAll polled = k₁ at hs hr' h
  have hpark := timerPark_parked hr' u
  split at h
  · obtain rfl := (Prod.mk.inj h).1
    exact ⟨hs.toActs, hs.ctl, hr'.live, fun _ hw ↦ hw.congr hs.waiting⟩
  · generalize k₁.timerPark u = k₂ at hpark h
    have hcur : k₂.currentTask = c := (congrArg Prod.fst hpark.ctl).trans hr'.current
    split at h
    · obtain rfl := (Prod.mk.inj h).1
      rw [hcur]
      refine ⟨(hs.toActs.trans hpark.acts).trans (acts_modifyTask ?_), hpark.ctl.trans hs.ctl,
        .inl ?_, fun hne hw ↦ ?_⟩
      · exact .of_eq rfl rfl rfl rfl rfl rfl
      · rw [modifyTask_self]
        rfl
      · rw [modifyTask_self]
        have hb : (k₂.tasks c).state ≠ .blocked := by
          rcases hpark.state with hst | hst <;> rw [hst] <;> nofun
        exact Task.Idle.oneWait
          (((hpark.oneWait hne (hw.congr hs.waiting)).idle hb).congr rfl rfl rfl rfl)
    · cases (Prod.mk.inj h).2

/-- The interrupted task keeps its registers, and the next one was ready to run. -/
structure Preempted (c j : Slot) (u : SyscallFrame) (k₀ k : Kernel) : Prop where
  acts : Acts c k₀ k
  current : k.currentTask = j
  pending : k.taskSwitchPending = k₀.taskSwitchPending
  deferred : k.taskSwitchDeferred = k₀.taskSwitchDeferred
  flags : k.flags = k₀.flags
  used : (k.tasks j).used = true
  running : (k.tasks j).state = .running
  kept : (k.tasks c).Exact u k₀.msrFsBase k₀.msrGsBase
  oneWait : c ≠ 0 → (k₀.tasks c).OneWait → (k.tasks c).OneWait

theorem timer_some {polled : List Effect} (hr : Ready c k)
    (h : k.timerPreemptFromUser u polled = (k', some j)) : Preempted c j u k k' := by
  have hs := applyAll_stays polled hr.live.not_blocked
  have hr' := hs.ready hr
  unfold timerPreemptFromUser at h
  dsimp only at h
  generalize k.applyAll polled = k₁ at hs hr' h
  have hpark := timerPark_parked hr' u
  split at h
  · cases (Prod.mk.inj h).2
  · generalize k₁.timerPark u = k₂ at hpark h
    split at h
    · cases (Prod.mk.inj h).2
    · next next hnext =>
      obtain ⟨rfl, hj⟩ := Prod.mk.inj h
      obtain rfl := Option.some.inj hj
      have hc := (timerNext_choosable hnext).1
      have he : Evolves k₂ (((k₂.setRunning next).taskAccountSwitch next).vmmUserActivate
          (k₂.tasks next).ctx.cr3).1 :=
        ((setRunning_evolves hc).trans (taskAccountSwitch_evolves _ next)).trans
          (evolves_of_tasks rfl rfl)
      have hsw := switchTo_switched hc.1
      have hctl := hpark.ctl.trans hs.ctl
      have hb : (k₂.tasks c).state ≠ .blocked := by
        rcases hpark.state with hst | hst <;> rw [hst] <;> nofun
      have hfs : k₁.msrFsBase = k.msrFsBase := congrArg (fun t ↦ t.2.2.2.2.2.2.1) hs.ctl
      have hgs : k₁.msrGsBase = k.msrGsBase := congrArg (fun t ↦ t.2.2.2.2.2.2.2) hs.ctl
      have hkept : (k₂.tasks c).Exact u k.msrFsBase k.msrGsBase := ⟨hb, by rw [hpark.ctx, hfs, hgs]⟩
      exact
        { acts := (hs.toActs.trans hpark.acts).trans (he.acts c)
          current := rfl
          pending := congrArg (fun t ↦ t.2.1) hctl
          deferred := congrArg (fun t ↦ t.2.2.1) hctl
          flags := congrArg (fun t ↦ (t.2.2.2.2.1, t.2.2.2.2.2.1)) hctl
          used := hsw.used
          running := hsw.running
          kept := hkept.evolves (he.tasks c)
          oneWait := fun hne hw ↦ (he.tasks c).oneWait hne (hpark.oneWait hne (hw.congr hs.waiting)) }

theorem Picked.new (h : Picked c j k₀ k) (hj : j ≠ 0) (hne : j ≠ c) (hu : (k₀.tasks j).used = true)
    (hz : (k₀.tasks j).state = .zombie) : k₀.nextPid ≤ (k.tasks j).pid := by
  obtain ⟨k₁, ha, hu₁, hz₁, hp⟩ := h
  rcases ha.others j hne hu with he | ⟨-, hgone | hborn⟩
  · exact absurd (he.zombie hj hz) hz₁
  · rw [hgone] at hu₁
    cases hu₁
  · exact hp ▸ hborn.pid

end Kernel

namespace Machine

open Kernel

/-- What holds whenever user code runs. -/
structure Sane (m : Machine) : Prop where
  ready : Ready m.k.currentTask m.k
  flags : m.k.flags = (false, false)
  pids : m.k.Pids
  rooted : m.k.Rooted
  oneWait : ∀ i, i ≠ 0 → (m.k.tasks i).used = true → (m.k.tasks i).OneWait

/-- The event takes the processor from the current task, which goes on from its saved context if
it goes on at all. -/
def Suspends (m : Machine) : Event → Prop
  | .user .. => False
  | .syscall c _ => ∃ r, (m.k.enterSyscall m.cpu.entered).syscallDispatch m.cpu.entered c = some r ∧
      r.1.userExecPending = false ∧ r.1.taskSwitchPending = true
  | .timer polled => (m.k.timerPreemptFromUser m.cpu polled).2 ≠ none
  | .interrupt _ => False
  | .fault _ => m.k.currentTask ≠ 0

/-- The current task makes the system call `rt_sigreturn`. -/
def Sigreturns (m : Machine) : Event → Prop
  | .syscall .. => m.cpu.rax = 15
  | _ => False

/-- The context of a task that has been suspended by an event. A system call may return a value or
be made again. -/
def Keeps (m : Machine) : Event → Task → Prop
  | .syscall .., t =>
    2 ≤ m.cpu.entered.userRip ∧ t.SavedFrom m.cpu.entered m.k.msrFsBase m.k.msrGsBase
  | _, t => t.Exact m.cpu m.k.msrFsBase m.k.msrGsBase

theorem Keeps.evolves {m : Machine} {e : Event} {i : Slot} {t t' : Task} (h : m.Keeps e t)
    (he : Task.Evolves i t t') : m.Keeps e t' := by
  cases e with
  | syscall => exact ⟨h.1, h.2.evolves h.1 he⟩
  | user => exact Task.Exact.evolves h he
  | timer => exact Task.Exact.evolves h he
  | interrupt => exact Task.Exact.evolves h he
  | fault => exact Task.Exact.evolves h he

/-- The current task runs from its context. The one that has run before it keeps its registers or
has ended. -/
structure Resumed (m : Machine) (e : Event) (m' : Machine) : Prop where
  cpu : m'.cpu = frameOfContext m'.k.current.ctx
  fsBase : m'.k.msrFsBase = m'.k.current.ctx.fsBase
  gsBase : m'.k.msrGsBase = m'.k.current.ctx.gsBase
  picked : Picked m.k.currentTask m'.k.currentTask m.k m'.k
  kept : m.k.currentTask ≠ 0 ∧ m.k.currentTask ≠ m'.k.currentTask ∧
    (m'.k.tasks m.k.currentTask).state = .zombie ∨
    ((m.k.tasks m.k.currentTask).OneWait → m.Keeps e (m'.k.tasks m.k.currentTask))

/-- What an event does, as far as the tasks can tell. -/
structure Took (m : Machine) (e : Event) (m' : Machine) : Prop where
  away : Away m.k.currentTask m.k m'.k
  sane : m'.Sane
  saved : ¬ m.Sigreturns e → Task.Same (m.k.tasks m.k.currentTask) (m'.k.tasks m.k.currentTask)
  next : ¬ m.Suspends e ∧ m'.k.currentTask = m.k.currentTask ∨ m.Suspends e ∧ Resumed m e m'

variable {m m' : Machine} {c i j : Slot} {k k' : Kernel} {f : SyscallFrame} {e : Event} {a : Call}
  {scratch : Regs}

theorem Sane.of_away (h : m.Sane) (ha : Away m.k.currentTask m.k k) (hr : Ready k.currentTask k)
    (hf : k.flags = (false, false))
    (ho : m.k.currentTask ≠ 0 → (m.k.tasks m.k.currentTask).OneWait →
      (k.tasks m.k.currentTask).OneWait)
    (cpu : SyscallFrame) (fpu : ℕ → UInt64) : Sane ⟨k, cpu, fpu⟩ where
  ready := hr
  flags := hf
  pids := ha.pids h.pids
  rooted := ha.rooted h.pids h.ready.used h.rooted
  oneWait i hi hu := by
    by_cases hc : i = m.k.currentTask
    · subst hc
      exact ho hi (h.oneWait _ hi h.ready.used)
    cases hu₀ : (m.k.tasks i).used with
    | true =>
      rcases ha.others i hc hu₀ with he | ⟨-, hgone | hborn⟩
      · exact he.oneWait hi (h.oneWait i hi hu₀)
      · rw [show (k.tasks i).used = true from hu] at hgone
        cases hgone
      · exact hborn.oneWait hi
    | false =>
      rcases ha.fresh i hu₀ with hgone | hborn
      · rw [show (k.tasks i).used = true from hu] at hgone
        cases hgone
      · exact hborn.oneWait hi

theorem took_resume (h : m.Sane) (ha : Away m.k.currentTask m.k k)
    (hs : ¬ m.Sigreturns e → Task.Same (m.k.tasks m.k.currentTask) (k.tasks m.k.currentTask))
    (hr : Ready j k) (hf : k.flags = (false, false))
    (ho : m.k.currentTask ≠ 0 → (m.k.tasks m.k.currentTask).OneWait →
      (k.tasks m.k.currentTask).OneWait)
    (hpick : Picked m.k.currentTask j m.k k)
    (hkept : m.k.currentTask ≠ 0 ∧ m.k.currentTask ≠ j ∧ (k.tasks m.k.currentTask).state = .zombie ∨
      ((m.k.tasks m.k.currentTask).OneWait → m.Keeps e (k.tasks m.k.currentTask)))
    (hsus : m.Suspends e) (fpu : ℕ → UInt64) : Took m e (k.resume fpu j) := by
  obtain rfl := hr.current
  have hev : Evolves k (k.resume fpu k.currentTask).k := evolves_of_tasks rfl rfl
  have ha' := ha.trans (hev.acts m.k.currentTask).toAway
  have hr' : Ready (k.resume fpu k.currentTask).k.currentTask (k.resume fpu k.currentTask).k :=
    ⟨rfl, hr.pending, hr.deferred, hr.live, hr.used⟩
  exact
    { away := ha'
      sane := h.of_away ha' hr' hf ho _ _
      saved := hs
      next := .inr ⟨hsus, rfl, rfl, rfl, hpick, hkept⟩ }

theorem took_timer {polled : List Effect} (h : m.Sane) (hs : m.step (.timer polled) = some m') :
    Took m (.timer polled) m' := by
  obtain ⟨k, cpu, fpu⟩ := m
  unfold step at hs
  dsimp only at hs
  split at hs
  · next k' hk =>
    obtain rfl := Option.some.inj hs
    obtain ⟨ha, hctl, hl, ho⟩ := timer_none h.ready hk
    have hcur : k'.currentTask = k.currentTask := congrArg Prod.fst hctl
    have hr : Ready k'.currentTask k' := by
      refine ⟨rfl, ?_, ?_, hcur ▸ hl, ?_⟩
      · exact (congrArg (fun t ↦ t.2.1) hctl).trans h.ready.pending
      · exact (congrArg (fun t ↦ t.2.2.1) hctl).trans h.ready.deferred
      · rw [hcur]
        exact ha.used.trans h.ready.used
    have hf : k'.flags = (false, false) :=
      Eq.trans (congrArg (fun t ↦ (t.2.2.2.2.1, t.2.2.2.2.2.1)) hctl) h.flags
    refine ⟨ha.toAway, h.of_away ha.toAway hr hf ho _ _, fun _ ↦ ha.saved, .inl ⟨?_, hcur⟩⟩
    intro hn
    exact hn (congrArg Prod.snd hk)
  · next k' j hk =>
    obtain rfl := Option.some.inj hs
    have hp := timer_some h.ready hk
    have hr : Ready j k' :=
      ⟨hp.current, hp.pending.trans h.ready.pending, hp.deferred.trans h.ready.deferred,
        .inl hp.running, hp.used⟩
    have hpick : Picked k.currentTask j k k' :=
      ⟨k', hp.acts.toAway, hp.used, by rw [hp.running]; nofun, rfl⟩
    refine took_resume (e := .timer polled) h hp.acts.toAway (fun _ ↦ hp.acts.saved) hr
      (hp.flags.trans h.flags) hp.oneWait hpick (.inr (fun _ ↦ hp.kept)) ?_ fpu
    intro hn
    exact nomatch hn.symm.trans (congrArg Prod.snd hk)

theorem two_le_entered (u : SyscallFrame) (hu : u.userRip.toNat < userLimit) :
    2 ≤ u.entered.userRip := by
  rw [UInt64.le_iff_toNat_le]
  have hlt : u.userRip.toNat < 0x0000800000000000 := hu
  show 2 ≤ (u.userRip + 2).toNat
  rw [UInt64.toNat_add]
  show 2 ≤ (u.userRip.toNat + 2) % 2 ^ 64
  omega

theorem commit_spec (hj : (k.tasks j).used = true ∧ (k.tasks j).state = .runnable)
    (hl : k.current.Live) :
    Evolves k (k.taskCommitDeferredSwitch j) ∧ (k.taskCommitDeferredSwitch j).currentTask = j ∧
      ((k.taskCommitDeferredSwitch j).tasks j).used = true ∧
      ((k.taskCommitDeferredSwitch j).tasks j).state = .running := by
  have hne : j ≠ k.currentTask := by
    rintro rfl
    rcases hl with hl | hl <;> cases hl.symm.trans hj.2
  have hskip : ¬ ((k.tasks j).used = false ∨ j = k.currentTask) := by
    rw [hj.1]
    exact not_or.2 ⟨nofun, hne⟩
  refine ⟨taskCommitDeferredSwitch_evolves ⟨hj.1, .inl hj.2⟩, ?_⟩
  unfold taskCommitDeferredSwitch
  rw [if_neg hskip]
  dsimp only
  split_ifs
  · have hu : ((k.modifyTask k.currentTask (fun t ↦ t.setState .runnable)).tasks j).used = true := by
      rw [modifyTask_of_ne _ _ _ _ hne]
      exact hj.1
    exact ⟨rfl, (switchTo_switched hu).used, (switchTo_switched hu).running⟩
  · exact ⟨rfl, (switchTo_switched hj.1).used, (switchTo_switched hj.1).running⟩

theorem commit_ctl (k : Kernel) (j : Slot) :
    ((k.taskCommitDeferredSwitch j).taskSwitchPending,
      (k.taskCommitDeferredSwitch j).taskSwitchDeferred,
      (k.taskCommitDeferredSwitch j).flags) =
        (k.taskSwitchPending, k.taskSwitchDeferred, k.flags) := by
  unfold taskCommitDeferredSwitch
  dsimp only
  split_ifs <;> rfl

theorem Control.stays_of_pending (h : Control c f k k') (hp : k'.taskSwitchPending = false) :
    k'.currentTask = c ∧ k'.taskSwitchDeferred = false ∧ (k'.tasks c).Live := by
  cases h with
  | stays hcur _ hd hl => exact ⟨hcur, hd, hl⟩
  | deferred _ _ hp' => cases hp'.symm.trans hp
  | switched _ _ hp' => cases hp'.symm.trans hp

theorem took_stay (h : m.Sane) (ha : Away m.k.currentTask m.k k)
    (hs : ¬ m.Sigreturns e → Task.Same (m.k.tasks m.k.currentTask) (k.tasks m.k.currentTask))
    (hr : Ready m.k.currentTask k) (hf : k.flags = (false, false))
    (ho : m.k.currentTask ≠ 0 → (m.k.tasks m.k.currentTask).OneWait →
      (k.tasks m.k.currentTask).OneWait)
    (hsus : ¬ m.Suspends e) (cpu : SyscallFrame) (fpu : ℕ → UInt64) : Took m e ⟨k, cpu, fpu⟩ where
  away := ha
  sane := h.of_away ha (hr.current.symm ▸ hr) hf ho cpu fpu
  saved := hs
  next := .inl ⟨hsus, hr.current⟩

theorem took_switch (h : m.Sane) (hrip : 2 ≤ m.cpu.entered.userRip)
    (he : Ends m.k.currentTask m.cpu.entered m.k k) (hp : k.taskSwitchPending = true)
    (hsus : m.Suspends (.syscall a scratch)) (hs : k.taskReturnCtx = some j) :
    Took m (.syscall a scratch) ((k.takeSwitch j).resume m.fpu j) := by
  have hfl : k.flags = (false, false) := by
    rcases he.flags with hf | ⟨hp', -⟩
    · exact hf.trans h.flags
    · cases hp.symm.trans (hp'.trans h.ready.pending)
  have hev : Evolves k { k with taskSwitchPending := false, taskSwitchDeferred := false } :=
    evolves_of_tasks rfl rfl
  cases he.control with
  | stays _ hp' => cases hp.symm.trans hp'
  | deferred i hcur _ hd hr hl hj hsaved =>
    obtain rfl := Option.some.inj (hs.symm.trans hr)
    obtain ⟨he₁, hcur₁, hu₁, hs₁⟩ := commit_spec
      (k := { k with taskSwitchPending := false, taskSwitchDeferred := false }) hj
      (show (k.tasks k.currentTask).Live from hcur ▸ hl)
    have hctl := commit_ctl { k with taskSwitchPending := false, taskSwitchDeferred := false } j
    have hk : k.takeSwitch j =
        { k with taskSwitchPending := false, taskSwitchDeferred := false }.taskCommitDeferredSwitch
          j := if_pos hd
    rw [← hk] at he₁ hcur₁ hu₁ hs₁ hctl
    have he' := hev.trans he₁
    have ha := he.away.trans (he'.acts _).toAway
    refine took_resume (e := .syscall a scratch) h ha
      (fun hn ↦ (he.saved hn).trans (he'.tasks _).toSame)
      ⟨hcur₁, congrArg Prod.fst hctl, congrArg (fun t ↦ t.2.1) hctl, .inl hs₁, hu₁⟩
      (Eq.trans (congrArg (fun t ↦ t.2.2) hctl) hfl)
        (fun hc hw ↦ (he'.tasks _).oneWait hc (he.oneWait hc hw))
      ⟨_, ha, hu₁, by rw [hs₁]; nofun, rfl⟩ (.inr (fun _ ↦ ?_)) hsus m.fpu
    exact ⟨hrip, hsaved.evolves hrip (he'.tasks _)⟩
  | switched i hcur _ hr hj hpick hsaved =>
    obtain rfl := Option.some.inj (hs.symm.trans hr)
    have hk : k.takeSwitch j =
        { k with taskSwitchPending := false, taskSwitchDeferred := false } := by
      unfold takeSwitch
      dsimp only
      split_ifs with hd
      · unfold taskCommitDeferredSwitch
        exact if_pos (.inr hcur.symm)
      · rw [← Bool.eq_false_of_not_eq_true hd]
    rw [hk]
    have ha := he.away.trans (hev.acts m.k.currentTask).toAway
    refine took_resume (e := .syscall a scratch) h ha he.saved ⟨hcur, rfl, rfl, hj.2, hj.1⟩ hfl
      he.oneWait ?_ (hsaved.imp id (fun hk hw ↦ ⟨hrip, hk hw⟩)) hsus m.fpu
    exact hpick

theorem took_leave (h : m.Sane) (hrip : 2 ≤ m.cpu.entered.userRip)
    (hd : (m.k.enterSyscall m.cpu.entered).syscallDispatch m.cpu.entered a = some (k, f))
    (he : Ends m.k.currentTask m.cpu.entered m.k k) (hs : k.leaveSyscall f m.fpu scratch = some m') :
    Took m (.syscall a scratch) m' := by
  have hsus : m.Suspends (.syscall a scratch) ↔ k.userExecPending = false ∧
      k.taskSwitchPending = true := by
    constructor
    · rintro ⟨r, hr, hx⟩
      obtain rfl := Option.some.inj (hd.symm.trans hr)
      exact hx
    · exact fun hx ↦ ⟨_, hd, hx⟩
  unfold leaveSyscall at hs
  split at hs
  · -- `execve` has replaced the image, and the task goes on in the new one
    next hx =>
    obtain rfl := Option.some.inj hs
    have hp : k.taskSwitchPending = false ∧ k.userExitPending = false := by
      rcases he.flags with hf | ⟨hp, hexit | hexec⟩
      · cases hx.symm.trans (congrArg Prod.snd (hf.trans h.flags))
      · exact ⟨hp.trans h.ready.pending, hexit.trans (congrArg Prod.fst h.flags)⟩
      · cases hx.symm.trans (hexec.trans (congrArg Prod.snd h.flags))
    obtain ⟨hcur, hdef, hl⟩ := Control.stays_of_pending he.control hp.1
    have hev : Evolves k { k with userExecPending := false, msrFsBase := 0, msrGsBase := 0 } :=
      evolves_of_tasks rfl rfl
    refine took_stay (e := .syscall a scratch) h (he.away.trans (hev.acts _).toAway) he.saved
      ⟨hcur, hp.1, hdef, hl, he.away.used.trans h.ready.used⟩
      (Prod.ext hp.2 rfl) he.oneWait (fun hn ↦ ?_) _ _
    cases hx.symm.trans (hsus.1 hn).1
  next hx =>
  have hx' : k.userExecPending = false := by simpa using hx
  split at hs
  · next hp =>
    obtain ⟨j, hj, rfl⟩ := Option.map_eq_some_iff.1 hs
    exact took_switch h hrip he hp (hsus.2 ⟨hx', hp⟩) hj
  next hp =>
  split at hs
  · cases hs
  next hexit =>
  obtain rfl := Option.some.inj hs
  have hp' : k.taskSwitchPending = false := by simpa using hp
  obtain ⟨hcur, hdef, hl⟩ := Control.stays_of_pending he.control hp'
  refine took_stay (e := .syscall a scratch) h he.away he.saved
    ⟨hcur, hp', hdef, hl, he.away.used.trans h.ready.used⟩
    (Prod.ext (Bool.eq_false_of_not_eq_true hexit) hx') he.oneWait (fun hn ↦ ?_) _ _
  exact hp (hsus.1 hn).2

theorem took_syscall (h : m.Sane) (hs : m.step (.syscall a scratch) = some m') :
    Took m (.syscall a scratch) m' := by
  unfold step at hs
  dsimp only at hs
  split_ifs at hs with hg
  obtain ⟨⟨k, f⟩, hd, hl⟩ := Option.bind_eq_some_iff.1 hs
  have hstays : Stays m.k.currentTask m.k (m.k.enterSyscall m.cpu.entered) := .of_tasks _ rfl rfl rfl
  have hrip := two_le_entered m.cpu hg.1
  have he := syscallDispatch_ends (hstays.ready h.ready) (hstays.pids h.pids)
    (hstays.rooted h.pids h.ready.used h.rooted) (by have := hg.2; change m.k.nextPid < _; omega)
      hrip hd
  exact took_leave h hrip hd (hstays.then he) hl

theorem took_fault {vector : ℕ} (h : m.Sane) (hs : m.step (.fault vector) = some m') :
    Took m (.fault vector) m' := by
  unfold step leaveFault at hs
  dsimp only at hs
  by_cases hz : m.k.currentTask = 0
  · have hexit : m.k.sysExit (128 + exceptionSignalForVector vector) =
        { m.k.setIo (m.k.io.taskFdTableRelease 0) with userExitPending := true } := if_pos hz
    have hp : (m.k.sysExit (128 + exceptionSignalForVector vector)).taskSwitchPending ≠ true := by
      rw [hexit]
      exact ne_of_eq_of_ne h.ready.pending nofun
    rw [if_neg hp, hexit, if_pos rfl] at hs
    cases hs
  · obtain ⟨j, he⟩ :=
      sysExit_exited h.ready h.pids h.rooted hz (128 + exceptionSignalForVector vector)
    generalize m.k.sysExit (128 + exceptionSignalForVector vector) = k at he hs
    rw [if_pos he.next.pending] at hs
    obtain ⟨i, hi, rfl⟩ := Option.map_eq_some_iff.1 hs
    obtain rfl := Option.some.inj (he.next.ctx.symm.trans hi)
    have hev : Evolves k { k with taskSwitchPending := false } := evolves_of_tasks rfl rfl
    have ha := he.acts.toAway.trans (hev.acts _).toAway
    exact took_resume (e := .fault vector) h ha (fun _ ↦ he.acts.saved)
      ⟨he.next.current, rfl, he.deferred.trans h.ready.deferred, .inl he.next.running, he.next.used⟩
      (he.flags.trans h.flags) (fun _ ↦ he.oneWait) (he.next.picked he.acts.toAway)
        (.inl ⟨hz, he.ne, he.zombie⟩) hz m.fpu

theorem step_took (h : m.Sane) (hs : m.step e = some m') : Took m e m' := by
  cases e with
  | user cpu fpu vm =>
    obtain rfl := Option.some.inj hs
    have hst : Stays m.k.currentTask m.k (m.k.setVm vm) := .of_tasks _ rfl rfl rfl
    exact took_stay h hst.toAway (fun _ ↦ hst.saved) (hst.ready h.ready) h.flags
      (fun _ hw ↦ hw.congr hst.waiting) id _ _
  | syscall a scratch => exact took_syscall h hs
  | timer polled => exact took_timer h hs
  | interrupt effects =>
    obtain rfl := Option.some.inj hs
    have hst := applyAll_stays effects h.ready.live.not_blocked
    exact took_stay h hst.toAway (fun _ ↦ hst.saved) (hst.ready h.ready)
      (Eq.trans (congrArg (fun t ↦ (t.2.2.2.2.1, t.2.2.2.2.2.1)) hst.ctl) h.flags)
      (fun _ hw ↦ hw.congr hst.waiting) id _ _
  | fault vector => exact took_fault h hs

theorem boot_sane (vm : Vmm) (cr3 : UInt64) (cpu : SyscallFrame) (fpu : ℕ → UInt64) :
    Sane ⟨.boot vm cr3, cpu, fpu⟩ := by
  have hused : ∀ i, ((Kernel.boot vm cr3).tasks i).used = true → i = 0 := by
    intro i hi
    by_contra hne
    have : ((Kernel.boot vm cr3).tasks i).used = false := by
      unfold boot
      dsimp only
      rw [if_neg hne]
      rfl
    rw [this] at hi
    cases hi
  refine ⟨⟨rfl, rfl, rfl, .inl rfl, rfl⟩, rfl, ⟨?_, ?_, ?_, ?_⟩, ⟨rfl, rfl⟩,
    fun i hi hu ↦ absurd (hused i hu) hi⟩
  · intro i hi
    obtain rfl := hused i hi
    exact Int.one_pos
  · intro i hi
    obtain rfl := hused i hi
    show (1 : ℤ) < 100
    decide
  · intro i hi
    obtain rfl := hused i hi
    exact Int.one_pos
  · intro i j hi hj _
    rw [hused i hi, hused j hj]

theorem run_steps {l : List Event} (h : m.run l = some m') :
    Steps step (fun _ _ ↦ True) m l m' := by
  induction l generalizing m with
  | nil => exact (Option.some.inj h).symm
  | cons e l ih =>
    rw [run_cons] at h
    obtain ⟨m₁, h₁, h⟩ := Option.bind_eq_some_iff.1 h
    exact ⟨trivial, m₁, h₁, ih h⟩

theorem Reachable.sane (h : m.Reachable) : m.Sane := by
  obtain ⟨vm, cr3, cpu, fpu, l, hl⟩ := h
  exact (run_steps hl).invariant (I := Sane) (fun _ _ _ hi _ hs ↦ (step_took hi hs).sane)
    (boot_sane vm cr3 cpu fpu)

end Machine

end YabroOS
