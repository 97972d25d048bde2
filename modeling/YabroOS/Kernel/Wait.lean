import YabroOS.Kernel.Dispatch

namespace YabroOS

open Memory Function Lib.Asm

namespace Task

/-- The task is the same one, and a frame that waits for `rt_sigreturn` is still saved. -/
structure Same (t t' : Task) : Prop where
  used : t'.used = t.used
  pid : t'.pid = t.pid
  ppid : t'.ppid = t.ppid
  saved : t.sigActive = true → t'.sigActive = true ∧ t'.sigSavedValid = t.sigSavedValid ∧
    t'.sigSavedFrame = t.sigSavedFrame

def WaitsIo (t : Task) : Prop := t.state = .blocked ∧ t.ioWaitKind ≠ .none ∧ t.ioWaitValid = true

structure Idle (t : Task) : Prop where
  io : t.ioWaitKind = .none
  wait4 : t.wait4Active = false
  pipe : t.pipeWaitFd < 0
  futex : t.futexAddr = 0

/-- At most one wait is registered, and only while the task is blocked. -/
structure OneWait (t : Task) : Prop where
  io : t.ioWaitKind ≠ .none → t.state = .blocked ∧ t.wait4Active = false ∧ t.pipeWaitFd < 0 ∧
    t.futexAddr = 0
  wait4 : t.wait4Active = true → t.state = .blocked ∧ t.pipeWaitFd < 0 ∧ t.futexAddr = 0
  pipe : 0 ≤ t.pipeWaitFd → t.state = .blocked ∧ t.futexAddr = 0
  futex : t.futexAddr ≠ 0 → t.state = .blocked

/-- What the others can do to a task that is not running: end its wait with a result, queue signals
and choose it to run. A task that does not wait keeps its context. -/
structure Evolves (i : Slot) (t t' : Task) : Prop extends Same t t' where
  zombie : i ≠ 0 → t.state = .zombie → t'.state = .zombie
  oneWait : i ≠ 0 → t.OneWait → t'.OneWait
  regs : ∀ r, r ≠ .rax → t'.ctx.regs r = t.ctx.regs r
  rsp : t'.ctx.rsp = t.ctx.rsp
  rflags : t'.ctx.rflags = t.ctx.rflags
  cr3 : t'.ctx.cr3 = t.ctx.cr3
  fsBase : t'.ctx.fsBase = t.ctx.fsBase
  gsBase : t'.ctx.gsBase = t.ctx.gsBase
  active : t.state ≠ .blocked → t'.state ≠ .blocked ∧ t'.ctx = t.ctx ∧
    t'.wait4ReapPid = t.wait4ReapPid
  rip : t'.ctx.rip = t.ctx.rip ∨ t.WaitsIo ∧ t'.state ≠ .blocked ∧
    t'.ctx.rip = if t.ctx.rip ≤ 0xFFFFFFFFFFFFFFFD then t.ctx.rip + 2 else t.ctx.rip
  waits : t'.state = .blocked → t'.ioWaitKind = t.ioWaitKind ∧ t'.ioWaitValid = t.ioWaitValid

variable {i : Slot} {t t' t'' : Task}

theorem Same.refl (t : Task) : Same t t := ⟨rfl, rfl, rfl, fun h ↦ ⟨h, rfl, rfl⟩⟩

theorem Same.trans (h : Same t t') (h' : Same t' t'') : Same t t'' where
  used := h'.used.trans h.used
  pid := h'.pid.trans h.pid
  ppid := h'.ppid.trans h.ppid
  saved ha := by
    obtain ⟨ha', hv, hf⟩ := h.saved ha
    obtain ⟨ha'', hv', hf'⟩ := h'.saved ha'
    exact ⟨ha'', hv'.trans hv, hf'.trans hf⟩

theorem OneWait.idle (h : t.OneWait) (hb : t.state ≠ .blocked) : t.Idle where
  io := by
    by_contra hn
    exact hb (h.io hn).1
  wait4 := by
    by_contra hn
    exact hb (h.wait4 (by simpa using hn)).1
  pipe := by
    by_contra hn
    exact hb (h.pipe (by omega)).1
  futex := by
    by_contra hn
    exact hb (h.futex hn)

theorem Idle.oneWait (h : t.Idle) : t.OneWait where
  io hn := absurd h.io hn
  wait4 hn := by rw [h.wait4] at hn; cases hn
  pipe hn := by have := h.pipe; omega
  futex hn := absurd h.futex hn

theorem Idle.not_waitsIo (h : t.Idle) : ¬ t.WaitsIo := fun hw ↦ hw.2.1 h.io

theorem Evolves.refl (i : Slot) (t : Task) : Evolves i t t where
  toSame := .refl t
  zombie _ h := h
  oneWait _ h := h
  regs _ _ := rfl
  rsp := rfl
  rflags := rfl
  cr3 := rfl
  fsBase := rfl
  gsBase := rfl
  active h := ⟨h, rfl, rfl⟩
  rip := .inl rfl
  waits _ := ⟨rfl, rfl⟩

theorem Evolves.blocked (h : Evolves i t t') (hb : t'.state = .blocked) : t.state = .blocked := by
  by_contra hn
  exact (h.active hn).1 hb

theorem Evolves.trans (h : Evolves i t t') (h' : Evolves i t' t'') : Evolves i t t'' where
  toSame := h.toSame.trans h'.toSame
  zombie hi hz := h'.zombie hi (h.zombie hi hz)
  oneWait hi hw := h'.oneWait hi (h.oneWait hi hw)
  regs r hr := (h'.regs r hr).trans (h.regs r hr)
  rsp := h'.rsp.trans h.rsp
  rflags := h'.rflags.trans h.rflags
  cr3 := h'.cr3.trans h.cr3
  fsBase := h'.fsBase.trans h.fsBase
  gsBase := h'.gsBase.trans h.gsBase
  active hb := by
    obtain ⟨hb', hc, hr⟩ := h.active hb
    obtain ⟨hb'', hc', hr'⟩ := h'.active hb'
    exact ⟨hb'', hc'.trans hc, hr'.trans hr⟩
  rip := by
    rcases h.rip with hr | ⟨hw, hb', hr⟩
    · rcases h'.rip with hr' | ⟨⟨hb', hk, hv⟩, hb'', hr'⟩
      · exact .inl (hr'.trans hr)
      · obtain ⟨hk', hv'⟩ := h.waits hb'
        exact .inr ⟨⟨h.blocked hb', hk' ▸ hk, hv' ▸ hv⟩, hb'', by rw [hr', hr]⟩
    · exact .inr ⟨hw, (h'.active hb').1, by rw [(h'.active hb').2.1, hr]⟩
  waits hb'' := by
    obtain ⟨hk', hv'⟩ := h'.waits hb''
    obtain ⟨hk, hv⟩ := h.waits (h'.blocked hb'')
    exact ⟨hk'.trans hk, hv'.trans hv⟩

def waiting (t : Task) : TaskState × IoWait × Bool × Bool × ℤ × UInt64 :=
  (t.state, t.ioWaitKind, t.ioWaitValid, t.wait4Active, t.pipeWaitFd, t.futexAddr)

theorem OneWait.congr (h : t.OneWait) (hw : t'.waiting = t.waiting) : t'.OneWait := by
  obtain ⟨h₁, h₂, h₃, h₄⟩ := h
  simp only [waiting, Prod.mk.injEq] at hw
  obtain ⟨hs, hk, -, h4, hp, hf⟩ := hw
  refine ⟨?_, ?_, ?_, ?_⟩
  · rw [hs, hk, h4, hp, hf]
    exact h₁
  · rw [hs, h4, hp, hf]
    exact h₂
  · rw [hs, hp, hf]
    exact h₃
  · rw [hs, hf]
    exact h₄

theorem Evolves.quiet (h : Same t t') (hw : t'.waiting = t.waiting) (hc : t'.ctx = t.ctx)
    (hr : t'.wait4ReapPid = t.wait4ReapPid) : Evolves i t t' := by
  have hone : t.OneWait → t'.OneWait := fun h ↦ h.congr hw
  simp only [waiting, Prod.mk.injEq] at hw
  obtain ⟨hs, hk, hv, -, -, -⟩ := hw
  exact
    { toSame := h
      zombie := fun _ hz ↦ hs.trans hz
      oneWait := fun _ ↦ hone
      regs := fun _ _ ↦ by rw [hc]
      rsp := by rw [hc]
      rflags := by rw [hc]
      cr3 := by rw [hc]
      fsBase := by rw [hc]
      gsBase := by rw [hc]
      active := fun hb ↦ ⟨hs ▸ hb, hc, hr⟩
      rip := .inl (by rw [hc])
      waits := fun _ ↦ ⟨hk, hv⟩ }

theorem Evolves.wake (h : Same t t') (hb : t.state = .blocked) (hs : t'.state = .runnable)
    (hi : t.OneWait → t'.Idle) {v : UInt64} (hc : t'.ctx = t.ctx.setRax v) : Evolves i t t' where
  toSame := h
  zombie _ hz := by rw [hb] at hz; cases hz
  oneWait _ hw := (hi hw).oneWait
  regs r hr := by rw [hc]; exact update_of_ne hr ..
  rsp := by rw [hc]; rfl
  rflags := by rw [hc]; rfl
  cr3 := by rw [hc]; rfl
  fsBase := by rw [hc]; rfl
  gsBase := by rw [hc]; rfl
  active hn := absurd hb hn
  rip := .inl (by rw [hc]; rfl)
  waits hb' := by rw [hs] at hb'; cases hb'

theorem Evolves.restate (h : Same t t') (hz : t.state = .zombie → i = 0 ∨ t'.state = .zombie)
    (hb : t'.state ≠ .blocked) (hi : i ≠ 0 → t.OneWait → t'.OneWait) (hc : t'.ctx = t.ctx)
    (hr : t'.wait4ReapPid = t.wait4ReapPid) : Evolves i t t' where
  toSame := h
  zombie hi h := (hz h).resolve_left hi
  oneWait := hi
  regs _ _ := by rw [hc]
  rsp := by rw [hc]
  rflags := by rw [hc]
  cr3 := by rw [hc]
  fsBase := by rw [hc]
  gsBase := by rw [hc]
  active _ := ⟨hb, hc, hr⟩
  rip := .inl (by rw [hc])
  waits h := absurd h hb

theorem Same.of_eq (hu : t'.used = t.used) (hp : t'.pid = t.pid) (hpp : t'.ppid = t.ppid)
    (ha : t'.sigActive = t.sigActive) (hv : t'.sigSavedValid = t.sigSavedValid)
    (hf : t'.sigSavedFrame = t.sigSavedFrame) : Same t t' :=
  ⟨hu, hp, hpp, fun h ↦ ⟨ha.trans h, hv, hf⟩⟩

theorem sigPendingSet_evolves (i : Slot) (t : Task) (sig : ℕ) : Evolves i t (t.sigPendingSet sig) :=
  .quiet (.of_eq rfl rfl rfl rfl rfl rfl) rfl rfl rfl

theorem sigClearPending_evolves (i : Slot) (t : Task) (sig : ℕ) :
    Evolves i t (t.sigClearPending sig) :=
  .quiet (.of_eq rfl rfl rfl rfl rfl rfl) rfl rfl rfl

theorem OneWait.io_idle (h : t.OneWait) (hk : t.ioWaitKind ≠ .none) : t.clearIoWait.Idle :=
  ⟨rfl, (h.io hk).2.1, (h.io hk).2.2.1, (h.io hk).2.2.2⟩

theorem OneWait.wait4_idle (h : t.OneWait) (hw : t.wait4Active = true) : t.clearWait4.Idle := by
  refine ⟨?_, rfl, (h.wait4 hw).2.1, (h.wait4 hw).2.2⟩
  by_contra hk
  have h4 := (h.io hk).2.1
  rw [hw] at h4
  cases h4

theorem OneWait.pipe_idle (h : t.OneWait) (hp : 0 ≤ t.pipeWaitFd) : t.clearPipeWait.Idle := by
  refine ⟨?_, ?_, show (-1 : ℤ) < 0 by decide, (h.pipe hp).2⟩
  · by_contra hk
    have hlt := (h.io hk).2.2.1
    omega
  · by_contra hw
    have hlt := (h.wait4 (Bool.eq_true_of_not_eq_false hw)).2.1
    omega

theorem OneWait.futex_idle (h : t.OneWait) (hf : t.futexAddr ≠ 0) : t.clearFutex.Idle := by
  refine ⟨?_, ?_, ?_, rfl⟩
  · by_contra hk
    exact hf (h.io hk).2.2.2
  · by_contra hw
    exact hf (h.wait4 (Bool.eq_true_of_not_eq_false hw)).2.2
  · by_contra hp
    exact hf (h.pipe (not_lt.1 hp)).2

theorem Idle.congr (h : t.Idle) (hk : t'.ioWaitKind = t.ioWaitKind)
    (h4 : t'.wait4Active = t.wait4Active) (hp : t'.pipeWaitFd = t.pipeWaitFd)
    (hf : t'.futexAddr = t.futexAddr) : t'.Idle :=
  ⟨hk.trans h.io, h4.trans h.wait4, by rw [hp]; exact h.pipe, hf.trans h.futex⟩

theorem Idle.of_eq (h : t.Idle) (hk : t'.ioWaitKind = t.ioWaitKind)
    (h4 : t'.wait4Active = t.wait4Active ∨ t'.wait4Active = false)
    (hp : t'.pipeWaitFd = t.pipeWaitFd ∨ t'.pipeWaitFd = -1)
    (hf : t'.futexAddr = t.futexAddr ∨ t'.futexAddr = 0) : t'.Idle where
  io := hk.trans h.io
  wait4 := h4.elim (fun h4 ↦ h4.trans h.wait4) id
  pipe := by
    have := h.pipe
    omega
  futex := hf.elim (fun hf ↦ hf.trans h.futex) id

theorem Idle.waits (h : t.Idle) (hs : t'.state = .blocked)
    (hw : t'.wait4Active = t.wait4Active ∧ t'.pipeWaitFd = t.pipeWaitFd ∧
      t'.futexAddr = t.futexAddr ∨
      t'.ioWaitKind = t.ioWaitKind ∧ (t'.pipeWaitFd = t.pipeWaitFd ∧ t'.futexAddr = t.futexAddr ∨
        t'.wait4Active = t.wait4Active ∧
          (t'.futexAddr = t.futexAddr ∨ t'.pipeWaitFd = t.pipeWaitFd))) :
    t'.OneWait := by
  obtain ⟨h₁, h₂, h₃, h₄⟩ := h
  refine ⟨fun hn ↦ ⟨hs, ?_⟩, fun hn ↦ ⟨hs, ?_⟩, fun hn ↦ ⟨hs, ?_⟩, fun _ ↦ hs⟩
  · grind
  · grind
  · grind

theorem interruptIo_evolves (hw : t.WaitsIo) : Evolves i t t.interruptIo where
  toSame := .of_eq rfl rfl rfl rfl rfl rfl
  zombie _ hz := by rw [hw.1] at hz; cases hz
  oneWait _ h := Idle.oneWait ((h.io_idle hw.2.1).congr rfl rfl rfl rfl)
  regs r hr := update_of_ne hr ..
  rsp := rfl
  rflags := rfl
  cr3 := rfl
  fsBase := rfl
  gsBase := rfl
  active hn := absurd hw.1 hn
  rip := .inr ⟨hw, nofun, rfl⟩
  waits hb' := by cases hb'

theorem ioWoken_evolves (hb : t.state = .blocked) (hk : t.ioWaitKind ≠ .none) (v : UInt64) :
    Evolves i t { (t.setRax v).clearIoWait with state := .runnable } :=
  .wake (v := v) (.of_eq rfl rfl rfl rfl rfl rfl) hb rfl
    (fun h ↦ (h.io_idle hk).congr rfl rfl rfl rfl) rfl

theorem wait4Woken_evolves (hb : t.state = .blocked) (hw : t.wait4Active = true) (v : UInt64) :
    Evolves i t { (t.setRax v).clearWait4 with state := .runnable } :=
  .wake (v := v) (.of_eq rfl rfl rfl rfl rfl rfl) hb rfl
    (fun h ↦ (h.wait4_idle hw).congr rfl rfl rfl rfl) rfl

theorem pipeWoken_evolves (hb : t.state = .blocked) (hp : 0 ≤ t.pipeWaitFd) (v : UInt64) :
    Evolves i t { (t.setRax v).clearPipeWait with state := .runnable } :=
  .wake (v := v) (.of_eq rfl rfl rfl rfl rfl rfl) hb rfl
    (fun h ↦ (h.pipe_idle hp).congr rfl rfl rfl rfl) rfl

theorem futexWoken_evolves (hb : t.state = .blocked) (hf : t.futexAddr ≠ 0) (v : UInt64) :
    Evolves i t { (t.setRax v).clearFutex with state := .runnable } :=
  .wake (v := v) (.of_eq rfl rfl rfl rfl rfl rfl) hb rfl
    (fun h ↦ (h.futex_idle hf).congr rfl rfl rfl rfl) rfl

theorem ttyQueueSignal_evolves (i : Slot) (t : Task) (sig : ℕ) :
    Evolves i t (t.ttyQueueSignal sig) := by
  have hset := sigPendingSet_evolves i t sig
  simp only [ttyQueueSignal]
  generalize t.sigPendingSet sig = u at hset ⊢
  split_ifs with hvalid hign hblk hio hw4 hpipe hfut
  · exact .refl i t
  · exact sigClearPending_evolves i t sig
  · exact hset
  · exact hset.trans (interruptIo_evolves hio)
  · exact hset.trans (wait4Woken_evolves hw4.1 hw4.2 _)
  · exact hset.trans (pipeWoken_evolves hpipe.1 hpipe.2 _)
  · exact hset.trans (futexWoken_evolves hfut.1 hfut.2 _)
  · exact hset

theorem wakeTimed_evolves (i : Slot) (t : Task) (now : UInt64) : Evolves i t (t.wakeTimed now) := by
  simp only [wakeTimed]
  split_ifs with hidle hfut hio
  · exact .refl i t
  · push Not at hidle
    exact futexWoken_evolves hidle.2 hfut.1 _
  · exact .refl i t
  · push Not at hidle
    exact ioWoken_evolves hidle.2 (fun hn ↦ hio (.inl hn)) _

theorem wakeIo_evolves (hb : t.state = .blocked) (hk : t.ioWaitKind ≠ .none) :
    Evolves i t t.wakeIo := by
  simp only [wakeIo]
  split_ifs
  · exact ioWoken_evolves hb hk _
  · refine .wake (v := t.ctx.regs .rax) (.of_eq rfl rfl rfl rfl rfl rfl) hb rfl
      (fun h ↦ (h.io_idle hk).congr rfl rfl rfl rfl) ?_
    simp [TaskContext.setRax, clearIoWait]

theorem pipeReadDone_evolves (i : Slot) (t : Task) (v : UInt64) (copied : Bool) :
    Evolves i t (t.pipeReadDone v copied) := by
  simp only [pipeReadDone]
  split_ifs with hidle hcopied
  · exact .refl i t
  · push Not at hidle
    exact .wake (v := v) (.of_eq rfl rfl rfl rfl rfl rfl) hidle.2.1 rfl
      (fun h ↦ (h.pipe_idle hidle.2.2).congr (h.pipe_idle hidle.2.2).io.symm rfl rfl rfl) rfl
  · push Not at hidle
    obtain ⟨-, hb, hp⟩ := hidle
    exact
      { toSame := .of_eq rfl rfl rfl rfl rfl rfl
        zombie := fun _ hz ↦ by rw [hb] at hz; cases hz
        oneWait := fun _ h ↦ Idle.oneWait ((h.pipe_idle hp).congr rfl rfl rfl rfl)
        regs := fun r hr ↦ update_of_ne hr ..
        rsp := rfl
        rflags := rfl
        cr3 := rfl
        fsBase := rfl
        gsBase := rfl
        active := fun hn ↦ absurd hb hn
        rip := .inl rfl
        waits := fun _ ↦ ⟨rfl, rfl⟩ }

theorem pipeCloseDone_evolves (i : Slot) (t : Task) (fd : ℕ) :
    Evolves i t (t.pipeCloseDone fd) := by
  simp only [pipeCloseDone]
  split_ifs with hw
  · have hp : 0 ≤ t.pipeWaitFd := by
      rw [hw.2.2]
      exact Int.natCast_nonneg fd
    exact pipeWoken_evolves hw.2.1 hp _
  · exact .refl i t

theorem wait4Done_evolves (hb : t.state = .blocked) (hw : t.wait4Active = true) (pid : ℤ) :
    Evolves i t (t.wait4Done pid) :=
  .wake (v := ofInt pid) (.of_eq rfl rfl rfl rfl rfl rfl) hb rfl
    (fun h ↦ (h.wait4_idle hw).congr rfl rfl rfl rfl) rfl

def Stirs (t t' : Task) : Prop :=
  t'.waiting = t.waiting ∨ t.state = .blocked ∧ (t'.state = .runnable ∨ t'.state = .blocked)

theorem ttyQueueSignal_stirs (t : Task) (sig : ℕ) : Stirs t (t.ttyQueueSignal sig) := by
  simp only [ttyQueueSignal]
  split_ifs with hvalid hign hblk hio hw4 hpipe hfut
  · exact .inl rfl
  · exact .inl rfl
  · exact .inl rfl
  · exact .inr ⟨hio.1, .inl rfl⟩
  · exact .inr ⟨hw4.1, .inl rfl⟩
  · exact .inr ⟨hpipe.1, .inl rfl⟩
  · exact .inr ⟨hfut.1, .inl rfl⟩
  · exact .inl rfl

theorem restate_evolves (hs : t.state = .running ∨ t.state = .runnable) {st : TaskState}
    (hst : st ≠ .blocked) : Evolves i t (t.setState st) := by
  have hb : t.state ≠ .blocked := by
    rcases hs with hs | hs <;> rw [hs] <;> nofun
  refine .restate (.of_eq rfl rfl rfl rfl rfl rfl) (fun hz ↦ ?_) hst
    (fun _ h ↦ Idle.oneWait ((h.idle hb).congr rfl rfl rfl rfl)) rfl rfl
  rcases hs with hs | hs <;> rw [hs] at hz <;> cases hz

/-- The context holds what the frame and the segment bases held, apart from `rax`; the call is made
again or has returned. -/
structure SavedFrom (f : SyscallFrame) (fs gs : UInt64) (t : Task) : Prop where
  regs : ∀ r, r ≠ .rax → t.ctx.regs r = f.regs r
  rsp : t.ctx.rsp = f.userRsp
  rflags : t.ctx.rflags = f.userRflags
  cr3 : t.ctx.cr3 = f.userCr3
  fsBase : t.ctx.fsBase = fs
  gsBase : t.ctx.gsBase = gs
  rip : t.ctx.rip = f.userRip ∨ t.ctx.rip = f.userRip - 2
  waits : t.WaitsIo → t.ctx.rip = f.userRip - 2

variable {f : SyscallFrame} {fs gs : UInt64}

theorem SavedFrom.evolves (hf : 2 ≤ f.userRip) (hs : t.SavedFrom f fs gs) (h : Evolves i t t') :
    t'.SavedFrom f fs gs where
  regs r hr := (h.regs r hr).trans (hs.regs r hr)
  rsp := h.rsp.trans hs.rsp
  rflags := h.rflags.trans hs.rflags
  cr3 := h.cr3.trans hs.cr3
  fsBase := h.fsBase.trans hs.fsBase
  gsBase := h.gsBase.trans hs.gsBase
  rip := by
    rcases h.rip with hr | ⟨hw, -, hr⟩
    · rw [hr]
      exact hs.rip
    · left
      rw [hs.waits hw] at hr
      have hle : f.userRip - 2 ≤ 0xFFFFFFFFFFFFFFFD := by
        rw [UInt64.le_iff_toNat_le] at hf ⊢
        rw [UInt64.toNat_sub_of_le _ _ hf]
        have := f.userRip.toNat_lt
        change f.userRip.toNat - 2 ≤ 18446744073709551613
        omega
      rw [hr, if_pos hle, UInt64.sub_add_cancel]
  waits hw := by
    obtain ⟨hk, hv⟩ := h.waits hw.1
    have hw₀ : t.WaitsIo := ⟨h.blocked hw.1, hk ▸ hw.2.1, hv ▸ hw.2.2⟩
    rcases h.rip with hr | ⟨-, hb, -⟩
    · rw [hr, hs.waits hw₀]
    · exact absurd hw.1 hb

theorem SavedFrom.saved (t : Task) (f : SyscallFrame) (fs gs : UInt64) (hw : ¬ t.WaitsIo) :
    (t.taskSaveFromFrame f fs gs).SavedFrom f fs gs :=
  ⟨fun _ _ ↦ rfl, rfl, rfl, rfl, rfl, rfl, .inl rfl, fun h ↦ absurd h hw⟩

theorem SavedFrom.congr (hs : t.SavedFrom f fs gs) {v : UInt64} (hc : t'.ctx = t.ctx.setRax v)
    (hw : t'.WaitsIo → t.WaitsIo) : t'.SavedFrom f fs gs where
  regs r hr := by
    rw [hc, ← hs.regs r hr]
    exact update_of_ne hr ..
  rsp := by rw [hc, ← hs.rsp]; rfl
  rflags := by rw [hc, ← hs.rflags]; rfl
  cr3 := by rw [hc, ← hs.cr3]; rfl
  fsBase := by rw [hc, ← hs.fsBase]; rfl
  gsBase := by rw [hc, ← hs.gsBase]; rfl
  rip := by rw [hc]; exact hs.rip
  waits h := by rw [hc]; exact hs.waits (hw h)

end Task

end YabroOS
