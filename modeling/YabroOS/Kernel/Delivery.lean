import YabroOS.Kernel.SyscallEnds

namespace YabroOS

open Memory Function Lib.Asm

namespace Kernel

variable {k k' k₀ : Kernel} {c i j : Slot} {f f' : SyscallFrame} {t : Task}

structure Caught (k : Kernel) (i : Slot) (f : SyscallFrame) (sig : ℕ) (h rest : UInt64) : Prop where
  idle : (k.tasks i).sigActive = false
  next : (k.tasks i).sigNextDeliverable = some sig
  handler : ((k.tasks i).sigActions sig).saHandler = h
  restorer : ((k.tasks i).sigActions sig).saRestorer = rest
  not_ign : h ≠ sigIgn
  not_dfl : h ≠ sigDfl
  user : h.toNat < userLimit
  rest_ne : rest ≠ 0
  stack : 8 ≤ f.userRsp
  room : k.vm.vmmUserRangeOk (f.userRsp.toNat - 8) 8 true = true

theorem delivery_caught {sig : ℕ} {h rest : UInt64} (hd : k.delivery i f = .caught sig h rest) :
    Caught k i f sig h rest := by
  unfold delivery at hd
  dsimp only at hd
  split at hd
  · cases hd
  next hactive =>
  split at hd
  · cases hd
  next s hs =>
  split at hd
  · cases hd
  next hign =>
  split at hd
  · cases hd
  split at hd
  · cases hd
  next hkill =>
  split at hd
  · cases hd
  next hrest =>
  split at hd
  · cases hd
  next hroom =>
  cases hd
  push Not at hkill hroom
  exact
    { idle := by simpa using hactive
      next := hs
      handler := rfl
      restorer := rfl
      not_ign := hign
      not_dfl := hkill.1
      user := hkill.2
      rest_ne := hrest
      stack := UInt64.not_lt.1 hroom.1
      room := by simpa using hroom.2 }

theorem sigKill_evolves (hb : t.state ≠ .blocked) (sig : ℕ) : Task.Evolves i t (t.sigKill sig) := by
  have hidle : t.Idle → (t.sigKill sig).Idle := by
    intro h
    unfold Task.sigKill
    split_ifs
    · exact h.congr rfl rfl rfl rfl
    · exact h.congr rfl rfl rfl rfl
  refine .restate ?_ (fun _ ↦ .inr rfl) nofun (fun _ h ↦ (hidle (h.idle hb)).oneWait) ?_ ?_
  · unfold Task.sigKill
    split_ifs
    · exact .of_eq rfl rfl rfl rfl rfl rfl
    · exact .of_eq rfl rfl rfl rfl rfl rfl
  · unfold Task.sigKill
    split_ifs <;> rfl
  · unfold Task.sigKill
    split_ifs <;> rfl

theorem handler_evolves {t' : Task} (ha : t.sigActive = false) (hu : t'.used = t.used)
    (hp : t'.pid = t.pid) (hpp : t'.ppid = t.ppid) (hw : t'.waiting = t.waiting)
    (hc : t'.ctx = t.ctx) (hr : t'.wait4ReapPid = t.wait4ReapPid) : Task.Evolves i t t' :=
  .quiet ⟨hu, hp, hpp, fun h ↦ by rw [ha] at h; cases h⟩ hw hc hr

theorem evolves_update (hn : k'.nextPid = k.nextPid) (ht : k'.tasks = update k.tasks i t)
    (he : Task.Evolves i (k.tasks i) t) : Evolves k k' := by
  refine ⟨hn, fun j ↦ ?_⟩
  rw [ht]
  by_cases hj : j = i
  · subst hj
    rw [update_self]
    exact he
  · rw [update_of_ne hj]
    exact .refl j _

theorem deliver_spec (hb : (k.tasks i).state ≠ .blocked) (f : SyscallFrame) :
    ∃ t, Task.Evolves i (k.tasks i) t ∧ (t.state = (k.tasks i).state ∨ t.state = .zombie) ∧
      (k.deliverPendingSignalToTask i f).1.tasks = update k.tasks i t ∧
      (k.deliverPendingSignalToTask i f).1.nextPid = k.nextPid ∧
      (k.deliverPendingSignalToTask i f).1.ctl = k.ctl := by
  unfold deliverPendingSignalToTask
  split
  · exact ⟨k.tasks i, .refl i _, .inl rfl, (update_eq_self i k.tasks).symm, rfl, rfl⟩
  · next sig _ =>
    exact ⟨_, Task.sigClearPending_evolves i _ sig, .inl rfl, rfl, rfl, rfl⟩
  · next sig _ => exact ⟨_, sigKill_evolves hb sig, .inr rfl, rfl, rfl, rfl⟩
  · next sig h rest hd =>
    have hc := delivery_caught hd
    dsimp only
    split_ifs
    · refine ⟨((k.tasks i).startHandler f).endHandler,
        handler_evolves hc.idle rfl rfl rfl rfl rfl rfl, .inl rfl, ?_, rfl, rfl⟩
      show update (update k.tasks i ((k.tasks i).startHandler f)) i _ = _
      rw [update_idem, userCopyTo_tasks, modifyTask_self]
    · refine ⟨((k.tasks i).startHandler f).sigClearPending sig,
        handler_evolves hc.idle rfl rfl rfl rfl rfl rfl, .inl rfl, ?_, rfl, rfl⟩
      show update (update k.tasks i ((k.tasks i).startHandler f)) i _ = _
      rw [update_idem, userCopyTo_tasks, modifyTask_self]

theorem Control.live (h : Control c f k₀ k) : (k.tasks k.currentTask).Live := by
  cases h with
  | stays hcur hp hd hl => rwa [hcur]
  | deferred j hcur hp hd hr hl hj hs => rwa [hcur]
  | switched j hcur hp hr hj hpick hs =>
    rw [hcur]
    exact hj.2

theorem Ends.current_used (h : Ends c f k₀ k) (hu : (k₀.tasks c).used = true) :
    (k.tasks k.currentTask).used = true := by
  cases h.control with
  | stays hcur hp hd hl =>
    rw [hcur]
    exact h.away.used.trans hu
  | deferred j hcur hp hd hr hl hj hs =>
    rw [hcur]
    exact h.away.used.trans hu
  | switched j hcur hp hr hj hpick hs =>
    rw [hcur]
    exact hj.1

theorem Ends.evolves_current (h : Ends c f k₀ k) (hf : 2 ≤ f.userRip)
    (he : Task.Evolves k.currentTask (k.tasks k.currentTask) t)
    (hst : t.state = (k.tasks k.currentTask).state ∨ t.state = .zombie)
    (ht : k'.tasks = update k.tasks k.currentTask t) (hn : k'.nextPid = k.nextPid)
    (hctl : k'.ctl = k.ctl) : Ends c f k₀ k' := by
  have hev := evolves_update hn ht he
  have hlive : (k'.tasks k.currentTask).Live := by
    rw [ht, update_self]
    rcases hst with hst | hst
    · rw [Task.Live, hst]
      exact h.control.live
    · exact .inr hst
  have hcur' : k'.currentTask = k.currentTask := congrArg Prod.fst hctl
  have hp' : k'.taskSwitchPending = k.taskSwitchPending := congrArg (fun t ↦ t.2.1) hctl
  have hd' : k'.taskSwitchDeferred = k.taskSwitchDeferred := congrArg (fun t ↦ t.2.2.1) hctl
  have hr' : k'.taskReturnCtx = k.taskReturnCtx := congrArg (fun t ↦ t.2.2.2.1) hctl
  refine
    { away := h.away.trans (hev.acts c).toAway
      saved := fun hnr ↦ (h.saved hnr).trans (hev.tasks c).toSame
      oneWait := fun hc hw ↦ (hev.tasks c).oneWait hc (h.oneWait hc hw)
      flags := ?_
      control := ?_ }
  · have hfl : k'.flags = k.flags := congrArg (fun t ↦ (t.2.2.2.2.1, t.2.2.2.2.2.1)) hctl
    have hx : k'.userExitPending = k.userExitPending := congrArg Prod.fst hfl
    have hec : k'.userExecPending = k.userExecPending := congrArg Prod.snd hfl
    rw [hfl, hp', hx, hec]
    exact h.flags
  cases h.control with
  | stays hcur hp hd hl =>
    exact .stays (hcur'.trans hcur) (hp'.trans hp) (hd'.trans hd) (hcur ▸ hlive)
  | deferred j hcur hp hd hr hl hj hs =>
    have hne : j ≠ k.currentTask := by
      rintro rfl
      rw [hcur] at hj
      rcases hl with hl | hl <;> cases hl.symm.trans hj.2
    refine .deferred j (hcur'.trans hcur) (hp'.trans hp) (hd'.trans hd) (hr'.trans hr)
      (hcur ▸ hlive) ?_ (hs.evolves hf (hev.tasks c))
    rw [ht, update_of_ne hne]
    exact hj
  | switched j hcur hp hr hj hpick hs =>
    refine .switched j (hcur'.trans hcur) (hp'.trans hp) (hr'.trans hr) ⟨?_, hcur ▸ hlive⟩ ?_ ?_
    · exact (hev.tasks j).used.trans hj.1
    · obtain ⟨k₁, ha, hu, hz, hpid⟩ := hpick
      exact ⟨k₁, ha, hu, hz, (hev.tasks j).pid.trans hpid⟩
    · rcases hs with ⟨hc, hne, hz⟩ | hs
      · exact .inl ⟨hc, hne, (hev.tasks c).zombie hc hz⟩
      · exact .inr (fun hw ↦ (hs hw).evolves hf (hev.tasks c))

theorem Ends.of_tasks (h : Ends c f k₀ k) (hf : 2 ≤ f.userRip) (ht : k'.tasks = k.tasks)
    (hn : k'.nextPid = k.nextPid) (hctl : k'.ctl = k.ctl) : Ends c f k₀ k' :=
  h.evolves_current hf (.refl _ _) (.inl rfl) (by rw [ht, update_eq_self]) hn hctl

theorem Ends.deliver (h : Ends c f k₀ k) (hf : 2 ≤ f.userRip) (f' : SyscallFrame) :
    Ends c f k₀ (k.deliverPendingSignal f').1 := by
  obtain ⟨t, he, hst, ht, hn, hctl⟩ := deliver_spec h.control.live.not_blocked f'
  exact h.evolves_current hf he hst ht hn hctl

theorem Ends.epilogue (h : Ends c f k₀ k) (hf : 2 ≤ f.userRip) (nr : UInt64) (f' : SyscallFrame)
    (v : UInt64) : Ends c f k₀ (k.epilogue nr f' v).1 := by
  unfold Kernel.epilogue
  dsimp only
  split_ifs
  · exact h
  · exact h.of_tasks hf rfl rfl rfl
  · exact (h.deliver hf _).of_tasks hf rfl rfl rfl

theorem syscallDispatch_ends {a : Call} {r : Kernel × SyscallFrame} (hr : Ready c k) (hp : k.Pids)
    (h₀ : k.Rooted) (hn : k.nextPid < 2 ^ 31) (hf : 2 ≤ f.userRip)
    (h : k.syscallDispatch f a = some r) : Ends c f k r.1 := by
  obtain rfl := hr.current
  obtain ⟨⟨k₁, f₁, v⟩, hbody, rfl⟩ := Option.map_eq_some_iff.1 h
  have hs := prologue_stays hp f
  have hn' : (k.prologue f).nextPid < 2 ^ 31 := by
    rw [prologue_nextPid]
    exact hn
  have he := syscallBody_ends (hs.ready hr) (hs.pids hp) (hs.rooted hp hr.used h₀) hn' hf hbody
  exact (hs.then he).epilogue hf _ _ _

end Kernel

end YabroOS
