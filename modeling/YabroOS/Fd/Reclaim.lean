import YabroOS.Fd.Backed
import Mathlib.SetTheory.Cardinal.Finite

namespace YabroOS

open Function Errno

theorem nextFree_ne_none {start : ℕ} {p : Fin 32 → Bool} {i : Fin 32} (hi : p i = true) :
    nextFree start p ≠ none := by
  intro h
  rw [nextFree, List.find?_eq_none] at h
  -- The search reaches `i` after this many steps.
  have hk : (i + 32 - start % 32) % 32 < 32 := Nat.mod_lt _ (by decide)
  refine h i (List.mem_map.2 ⟨⟨_, hk⟩, List.mem_finRange _, Fin.ext ?_⟩) hi
  have := i.isLt
  change (start + (i + 32 - start % 32) % 32) % 32 = i
  omega

inductive PoolSlot
  | pipe (p : Fin 8)
  | eventfd (e : Fin 8)
  | timerfd (i : Fin 8)
  | epoll (e : Fin 4)
  | pty (p : Fin 8)
  | socket (i : Fin 32)
  deriving DecidableEq

def Target.poolSlot : Target → Option PoolSlot
  | .pipeR p => some (.pipe p)
  | .pipeW p => some (.pipe p)
  | .eventfd e => some (.eventfd e)
  | .timerfd i => some (.timerfd i)
  | .epoll e => some (.epoll e)
  | .ptyMaster p => some (.pty p)
  | .ptySlave p => some (.pty p)
  | .socket i _ => some (.socket i)
  | _ => none

def Obj.poolSlot : Obj → Option PoolSlot
  | .reader p => some (.pipe p)
  | .writer p => some (.pipe p)
  | .master p => some (.pty p)
  | .slave p => some (.pty p)
  | .epoll e => some (.epoll e)
  | .side i _ => some (.socket i)
  | _ => none

theorem FileDesc.poolSlot_of_holds {d : FileDesc} {x : FdLinks} {o : Obj} {q : PoolSlot}
    (ho : o.poolSlot = some q) (h : d.holds x o ≠ 0) : d.target.poolSlot = some q := by
  have hcell : hits (x.sharedOffset.map .cell) o = 0 := by
    cases o <;> cases x.sharedOffset <;> simp_all [Obj.poolSlot, hits]
  have hinput : hits (x.inputState.map .input) o = 0 := by
    cases o <;> cases x.inputState <;> simp_all [Obj.poolSlot, hits]
  have hend : hits d.target.endpoint o + hits d.target.epollObj o ≠ 0 := by
    rw [FileDesc.holds, hcell, hinput] at h
    split_ifs at h
    · exact h
    · exact absurd rfl h
  cases o <;> cases ht : d.target
    <;> simp_all [Obj.poolSlot, Target.poolSlot, Target.endpoint, Target.epollObj, hits]

namespace Fds

variable {s s₁ s' : Fds} {table : Fin 32} {fd n : ℕ} {t : Slot} {q : PoolSlot} {full : Bool}
  {o : Obj} {target : Target}

/-- A live descriptor points to the slot, or an entry of a queue names it. -/
def Referenced (s : Fds) (q : PoolSlot) : Prop :=
  (∃ table fd, s.live table fd ∧ (s.taskFdTables table fd).target.poolSlot = some q) ∨
    ∃ i, q = .socket i ∧ s.queued i ≠ 0

/-- The test by which the search of each pool knows a free slot. -/
def Free (s : Fds) : PoolSlot → Prop
  | .pipe p => (s.pipes p).free = true
  | .eventfd e => s.eventfdFlags e = 0 ∧ s.eventfds e = 0
  | .timerfd i =>
    (s.timerfds i).flags = 0 ∧ (s.timerfds i).nextNs = 0 ∧ (s.timerfds i).expirations = 0
  | .epoll e => (s.epolls e).used = false
  | .pty p => (s.ptySlots p).free = true
  | .socket i => (s.unixSockets i).refs = 0

/-- The part of that test that closing the last descriptor does not see to. -/
def Clean (s : Fds) : PoolSlot → Prop
  | .pipe p => (s.pipes p).data = []
  | .eventfd e => s.eventfdFlags e = 0 ∧ s.eventfds e = 0
  | .timerfd i =>
    (s.timerfds i).flags = 0 ∧ (s.timerfds i).nextNs = 0 ∧ (s.timerfds i).expirations = 0
  | _ => True

def closes (s : Fds) (t : Slot) : FdOp → Fin 32 → ℕ → Prop
  | .close n, table, fd => table = s.currentFiles t ∧ fd = n.toNat
  | .dup2 oldfd newfd, table, fd =>
    s.fdValid t oldfd = true ∧ oldfd ≠ newfd ∧ table = s.currentFiles t ∧ fd = newfd.toNat
  | .dup3 oldfd newfd flags, table, fd =>
    flags &&& 0xFFF7FFFF = 0 ∧ s.fdValid t oldfd = true ∧ oldfd ≠ newfd ∧ table = s.currentFiles t ∧
      fd = newfd.toNat
  | .execve, table, fd => table = s.currentFiles t ∧ isCloexec (s.taskFdTables table fd).flags = true
  | .exit, table, _ => s.taskFdTableId t = some table ∧ s.taskFdTableRefs table = 1
  | .reap child, table, _ => s.taskFdTableId child = some table ∧ s.taskFdTableRefs table = 1
  | .connect n _, table, fd =>
    (s.socketOf t n).isSome = true ∧ table = s.currentFiles t ∧ fd = n.toNat
  | _, _, _ => False

def KeepsUnclean (s : Fds) (t : Slot) (op : FdOp) : Prop :=
  ∀ q, ¬s.Clean q → ∃ table fd, s.live table fd ∧
    (s.taskFdTables table fd).target.poolSlot = some q ∧ ¬s.closes t op table fd

/-- What holds in a run where every slot can be handed out again. -/
structure Reusable (s : Fds) : Prop where
  inv : s.Inv false
  backed : s.Backed
  clean : ∀ q, s.Clean q ∨ s.Referenced q
  pty : ∀ p, (s.ptySlots p).Sound

theorem live_of_target (h : s.Inv full) {fd : ℤ} (ht : s.target? t fd = some target) :
    s.live (s.currentFiles t) fd.toNat ∧
      (s.taskFdTables (s.currentFiles t) fd.toNat).target = target := by
  rw [target?] at ht
  split_ifs at ht with hv
  obtain ⟨-, -, hin⟩ := fdValid_iff.1 hv
  have hlive := h.tidy.live hin
  exact ⟨⟨hlive.1, hlive.2, hin⟩, Option.some.inj ht⟩

theorem holders_eq_zero (h : ∀ table fd, s.live table fd → s.view.slotHolds table fd o = 0) :
    s.view.holders o = 0 := by
  refine Finset.sum_eq_zero fun table _ ↦ ?_
  by_cases hr : s.view.refs table = 0
  · rw [if_pos hr]
  · rw [if_neg hr]
    refine Finset.sum_eq_zero fun fd hfd ↦ ?_
    cases hin : (s.taskFdTables table fd).inUse with
    | false => exact slotHolds_of_free hin
    | true => exact h table fd ⟨hr, Finset.mem_range.1 hfd, hin⟩

theorem holders_of_unreferenced (ho : o.poolSlot = some q) (h : ¬s.Referenced q) :
    s.view.holders o = 0 :=
  holders_eq_zero fun table fd hl ↦ not_not.1 fun hne ↦
    h (.inl ⟨table, fd, hl, FileDesc.poolSlot_of_holds ho hne⟩)

theorem count_of_unreferenced (hi : s.Inv full) (hs : o.isSide = false) (ho : o.poolSlot = some q)
    (h : ¬s.Referenced q) : s.count o = 0 := by
  rw [hi.count o (.of_not_side hs), holders_of_unreferenced ho h, waiting_of_not_side s hs]

theorem Reusable.free (h : s.Reusable) (hq : ¬s.Referenced q) : s.Free q := by
  have hclean := (h.clean q).resolve_right hq
  cases q with
  | pipe p =>
    have hr : (s.pipes p).readers = 0 := count_of_unreferenced h.inv (o := .reader p) rfl rfl hq
    have hw : (s.pipes p).writers = 0 := count_of_unreferenced h.inv (o := .writer p) rfl rfl hq
    have hd : (s.pipes p).data = [] := hclean
    simp [Free, PipeState.free, hr, hw, hd]
  | eventfd e => exact hclean
  | timerfd i => exact hclean
  | epoll e =>
    have hr : (s.epolls e).refs = 0 := count_of_unreferenced h.inv (o := .epoll e) rfl rfl hq
    exact Bool.eq_false_iff.2 fun hu ↦ (h.inv.used.epoll e).1 hu hr
  | pty p =>
    have hm : (s.ptySlots p).masterRefs = 0 :=
      count_of_unreferenced h.inv (o := .master p) rfl rfl hq
    have hs : (s.ptySlots p).slaveRefs = 0 := count_of_unreferenced h.inv (o := .slave p) rfl rfl hq
    have hmo : (s.ptySlots p).masterOpen = false := Bool.eq_false_iff.2 fun ho ↦ (h.pty p).1 ho hm
    have hso : (s.ptySlots p).slaveOpen = false := Bool.eq_false_iff.2 fun ho ↦ (h.pty p).2 ho hs
    simp [Free, PtyState.free, hm, hs, hmo, hso]
  | socket i =>
    have hqueue : s.queued i = 0 := not_not.1 fun hne ↦ hq (.inr ⟨i, rfl, hne⟩)
    have hwait : s.waiting (.side i true) = 0 :=
      (queued_eq_waiting h.backed.queue i).symm.trans hqueue
    have hnone : s.view.named i = 0 := by
      rw [View.named, holders_of_unreferenced rfl hq, holders_of_unreferenced rfl hq]
    have hrefs := h.backed.refs i
    rw [hnone, hwait] at hrefs
    exact Nat.le_zero.1 hrefs

theorem Leaves.clean (h : Leaves s s') (hq : s.Clean q) : s'.Clean q := by
  cases q with
  | pipe p => exact (h.data p).trans hq
  | eventfd e =>
    change s'.eventfdFlags e = 0 ∧ s'.eventfds e = 0
    rw [h.eventfdFlags, h.eventfds]
    exact hq
  | timerfd i =>
    change (s'.timerfds i).flags = 0 ∧ (s'.timerfds i).nextNs = 0 ∧ (s'.timerfds i).expirations = 0
    rw [h.timerfds]
    exact hq
  | _ => trivial

/-- The slots that were clean stay so unless a descriptor points to them. -/
structure Tended (s s' : Fds) : Prop where
  clean : ∀ q, s.Clean q → s'.Clean q ∨ s'.Referenced q
  pty : (∀ p, (s.ptySlots p).Sound) → ∀ p, (s'.ptySlots p).Sound

theorem Leaves.tended (h : Leaves s s') : Tended s s' := ⟨fun _ hq ↦ .inl (h.clean hq), h.pty⟩

theorem Reusable.step {op : FdOp} (h : s.Reusable) (hi : s'.Inv false) (hb : s'.Backed)
    (hk : s.KeepsUnclean t op) (hs : Stays (s.closes t op) s s') (ht : Tended s s') :
    s'.Reusable := by
  refine ⟨hi, hb, fun q ↦ ?_, ht.pty h.pty⟩
  by_cases hq : s.Clean q
  · exact ht.clean q hq
  · obtain ⟨table, fd, hl, hslot, hc⟩ := hk q hq
    obtain ⟨hl', htarget⟩ := hs table fd hl hc
    exact .inr (.inl ⟨table, fd, hl', htarget ▸ hslot⟩)

theorem referenced_of_target (h : s.Inv full) {fd : ℤ} (ht : s.target? t fd = some target)
    (hv : s'.view = s.view) (hq : target.poolSlot = some q) : s'.Referenced q := by
  obtain ⟨hl, htarget⟩ := live_of_target h ht
  obtain ⟨hl', htarget'⟩ := Stays.of_view (C := fun _ _ ↦ False) hv _ _ hl not_false
  exact .inl ⟨_, _, hl', by rw [htarget', htarget, hq]⟩

theorem tended_eventfd (h : s.Inv full) {fd : ℤ} {e : Fin 8}
    (ht : s.target? t fd = some (.eventfd e)) (n : ℕ) :
    Tended s (s.setIo { s.toIo with eventfds := update s.eventfds e n }) := by
  refine ⟨fun q hq ↦ ?_, id⟩
  by_cases he : q = .eventfd e
  · exact .inr (referenced_of_target h ht rfl (by rw [he]; rfl))
  · refine .inl ?_
    cases q with
    | eventfd e' =>
      have hne : e' ≠ e := fun hc ↦ he (by rw [hc])
      simpa [Clean, setIo, hne] using hq
    | _ => exact hq

theorem tended_timerfd (h : s.Inv full) {fd : ℤ} {i : Fin 8}
    (ht : s.target? t fd = some (.timerfd i)) (st : TimerfdState) :
    Tended s { s with timerfds := update s.timerfds i st } := by
  refine ⟨fun q hq ↦ ?_, id⟩
  by_cases he : q = .timerfd i
  · exact .inr (referenced_of_target h ht rfl (by rw [he]; rfl))
  · refine .inl ?_
    cases q with
    | timerfd i' =>
      have hne : i' ≠ i := fun hc ↦ he (by rw [hc])
      simpa [Clean, hne] using hq
    | _ => exact hq

theorem tended_pipe (h : s.Inv full) {fd : ℤ} {p : Fin 8} (ht : s.target? t fd = some target)
    (hp : target.poolSlot = some (.pipe p)) (g : PipeState → PipeState) :
    Tended s (s.modifyPipe p g) := by
  refine ⟨fun q hq ↦ ?_, id⟩
  by_cases he : q = .pipe p
  · exact .inr (referenced_of_target h ht rfl (by rw [he, hp]))
  · refine .inl ?_
    cases q with
    | pipe p' =>
      have hne : p' ≠ p := fun hc ↦ he (by rw [hc])
      simpa [Clean, Fds.modifyPipe, setIo, Io.modifyPipe, hne] using hq
    | _ => exact hq

theorem tended_new {d : FileDesc} {x : FdLinks} {q₀ : PoolSlot}
    (hlive : s₁.taskFdTableRefs table ≠ 0) (hfd : fd < maxFiles) (hin : d.inUse = true)
    (hd : d.target.poolSlot = some q₀) (hclean : ∀ q, q ≠ q₀ → s.Clean q → s₁.Clean q)
    (hpty : s₁.ptySlots = s.ptySlots) : Tended s (s₁.setSlot table fd d x) := by
  have hslot : (s₁.setSlot table fd d x).taskFdTables table fd = d := by simp [setSlot, Io.setFd]
  refine ⟨fun q hq ↦ ?_, fun hp p ↦ ?_⟩
  · by_cases he : q = q₀
    · exact .inr (.inl ⟨table, fd, ⟨hlive, hfd, by rw [hslot, hin]⟩, by rw [hslot, hd, he]⟩)
    · exact .inl ((Leaves.of_objects (s := s₁) rfl).clean (hclean q he hq))
  · change (s₁.ptySlots p).Sound
    rw [hpty]
    exact hp p

theorem tended_eventfd2 (h : s.Inv full) (t : Slot) (initval flags : ℕ) :
    Tended s (s.sysEventfd2 t initval flags).1 := by
  rw [sysEventfd2]
  split
  · exact (Leaves.refl s).tended
  next fd hfd =>
  split
  · exact (Leaves.refl s).tended
  next e _ =>
  refine tended_new (h.currentFiles_live t) (findFreeFd_some hfd).1 rfl rfl (fun q hne hq ↦ ?_) rfl
  cases q with
  | eventfd e' =>
    have hne : e' ≠ e := fun hc ↦ hne (by rw [hc])
    simpa [Clean, hne] using hq
  | _ => exact hq

theorem tended_timerfdCreate (h : s.Inv full) (t : Slot) (clockid : ℤ) (flags : ℕ) :
    Tended s (s.sysTimerfdCreate t clockid flags).1 := by
  rw [sysTimerfdCreate]
  split_ifs
  · exact (Leaves.refl s).tended
  split
  · exact (Leaves.refl s).tended
  next fd hfd =>
  split
  · exact (Leaves.refl s).tended
  next i _ =>
  refine tended_new (h.currentFiles_live t) (findFreeFd_some hfd).1 rfl rfl (fun q hne hq ↦ ?_) rfl
  cases q with
  | timerfd i' =>
    have hne : i' ≠ i := fun hc ↦ hne (by rw [hc])
    simpa [Clean, hne] using hq
  | _ => exact hq

theorem modifyPipe_modifyPipe (s : Fds) (p : Fin 8) (g g' : PipeState → PipeState) :
    (s.modifyPipe p g).modifyPipe p g' = s.modifyPipe p (fun st ↦ g' (g st)) := by
  simp [Fds.modifyPipe, setIo, Io.modifyPipe]

theorem stays_tended_exec (h : s.Inv full) (t : Slot) (op : FdOp) :
    Stays (s.closes t op) s (s.exec t op).1 ∧ Tended s (s.exec t op).1 := by
  have hcalm : ∀ {s'}, Calm (s.closes t op) s s' → Stays (s.closes t op) s s' ∧ Tended s s' :=
    fun hc ↦ ⟨hc.stays, hc.leaves.tended⟩
  have hsame : ∀ {s' : Fds}, s'.view = s.view → Tended s s' → Stays (s.closes t op) s s' ∧
      Tended s s' :=
    fun hv ht ↦ ⟨.of_view hv, ht⟩
  cases op with
  | «open» path flags => exact hcalm (quiet_open h.used t path flags).toCalm
  | close fd => exact hcalm (calm_close h.used t fd ⟨rfl, rfl⟩)
  | pipe copied => exact hcalm (quiet_pipe s t copied).toCalm
  | pipe2 copied flags => exact hcalm (quiet_pipe2 s t copied flags).toCalm
  | dup oldfd =>
    exact hcalm (calm_duplicates h (s.sysDupInternal_duplicates t (fun _ ↦ true) oldfd 0 false)
      fun _ ↦ False.elim)
  | dup2 oldfd newfd =>
    refine hcalm
      (calm_duplicates h (sysDup2_duplicates h.used t oldfd newfd fun hold hne ↦ ?_) fun _ hf ↦ hf)
    exact ⟨hold, hne, rfl, rfl⟩
  | dup3 oldfd newfd flags =>
    refine hcalm
      (calm_duplicates h (sysDup3_duplicates h.used t oldfd newfd flags fun h₀ hold hne ↦ ?_)
        fun _ hf ↦ hf)
    exact ⟨h₀, hold, hne, rfl, rfl⟩
  | fcntl outside fd cmd arg =>
    exact hcalm (calm_duplicates h (s.sysFcntl_duplicates t outside fd cmd arg) fun _ ↦ False.elim)
  | epollCreate1 flags => exact hcalm (quiet_epollCreate1 s t flags).toCalm
  | clone shareFiles copied => exact hcalm (calm_clone h t shareFiles copied)
  | fork cloned => exact hcalm (calm_fork h t cloned)
  | execve =>
    dsimp only [Fds.exec]
    exact hcalm (calm_exec h t)
  | exit =>
    dsimp only [Fds.exec]
    rw [sysExit]
    exact hcalm (calm_release h t fun _ _ hid hr ↦ ⟨hid, hr⟩)
  | reap child =>
    have hrelease := calm_release (C := s.closes t (.reap child)) h child fun _ _ hid hr ↦ ⟨hid, hr⟩
    exact hcalm (hrelease.trans (.of_eq rfl rfl rfl))
  | socket domain type protocol => exact hcalm (calm_socket s t domain type protocol)
  | socketpair domain type sv copied => exact hcalm (calm_socketpair s t domain type sv copied)
  | bind fd addr node => exact hcalm (calm_adjusts (s.sysBind_adjusts t fd addr node))
  | listen fd backlog =>
    exact hcalm (calm_adjusts
      (s.sysListen_adjusts (C := fun _ ↦ True) t fd backlog fun _ _ _ _ _ _ ↦ trivial))
  | connect fd addr => exact hcalm (calm_connect s t fd addr fun hs ↦ ⟨hs, rfl, rfl⟩)
  | accept fd blocks copied => exact hcalm (calm_accept s t fd blocks copied)
  | shutdown fd how => exact hcalm (calm_adjusts (s.sysShutdown_adjusts t fd how))
  | eventfd2 initval flags =>
    exact ⟨stays_eventfd2 s t initval flags _, tended_eventfd2 h t initval flags⟩
  | timerfdCreate clockid flags =>
    exact ⟨stays_timerfdCreate s t clockid flags _, tended_timerfdCreate h t clockid flags⟩
  | eventfdWrite fd v =>
    simp only [Fds.exec, Fds.eventfdWrite]
    split
    · next e he =>
      split_ifs
      · exact hcalm (.refl s)
      · exact hcalm (.refl s)
      · exact hsame rfl (tended_eventfd h he _)
    · exact hcalm (.refl s)
  | eventfdRead fd copied =>
    simp only [Fds.exec, Fds.eventfdRead]
    split
    · next e he =>
      by_cases hz : s.eventfds e = 0
      · rw [if_pos hz]
        exact hcalm (.refl s)
      · rw [if_neg hz]
        exact hsame rfl (tended_eventfd h he 0)
    · exact hcalm (.refl s)
  | timerfdSettime fd now value interval =>
    simp only [Fds.exec, Fds.sysTimerfdSettime]
    split
    · next i hi => exact hsame rfl (tended_timerfd h hi _)
    · exact hcalm (.refl s)
  | timerfdRead fd now copied =>
    simp only [Fds.exec, Fds.timerfdRead]
    split
    · next i hi =>
      by_cases hz : ((s.timerfds i).expire now).expirations = 0
      · rw [if_pos hz]
        exact hsame rfl (tended_timerfd h hi _)
      · rw [if_neg hz]
        exact hsame rfl (tended_timerfd h hi _)
    · exact hcalm (.refl s)
  | pipeWrite fd data =>
    simp only [Fds.exec, Fds.pipeWrite]
    split
    · next p hp =>
      split_ifs
      · exact hsame rfl (tended_pipe h hp rfl _)
      · rw [modifyPipe_modifyPipe]
        exact hsame rfl (tended_pipe h hp rfl _)
    · exact hcalm (.refl s)
  | pipeRead fd n =>
    simp only [Fds.exec, Fds.pipeRead]
    split
    · next p hp => exact hsame rfl (tended_pipe h hp rfl _)
    · exact hcalm (.refl s)
  | ptyLock fd lock =>
    simp only [Fds.exec, Fds.ptyLock]
    split
    · exact hcalm (.of_eq rfl rfl rfl)
    · exact hcalm (.refl s)

/-- The calls that lose no slot: no queue goes with the entries in it, and what is not clean keeps a
descriptor. -/
def Reclaims (s : Fds) (t : Slot) (op : FdOp) : Prop := s.KeepsQueues t op ∧ s.KeepsUnclean t op

/-- A run of such calls from the start. -/
def Reclaimed (l : List (Slot × FdOp)) : Prop :=
  Lib.Along (fun s p ↦ (s.exec p.1 p.2).1) (fun s p ↦ s.Reclaims p.1 p.2) init l

theorem backed_init : init.Backed := ⟨fun _ ↦ Nat.zero_le _, fun _ hp ↦ absurd rfl hp⟩

theorem reusable_init : init.Reusable := by
  refine ⟨inv_init false, backed_init, fun q ↦ .inl ?_, fun p ↦ ⟨nofun, nofun⟩⟩
  cases q with
  | pipe p => rfl
  | eventfd e => exact ⟨rfl, rfl⟩
  | timerfd i => exact ⟨rfl, rfl, rfl⟩
  | _ => trivial

theorem reusable_run {l : List (Slot × FdOp)} (h : Reclaimed l) : (init.run l).Reusable :=
  h.invariant (fun s p hr hc ↦ by
    obtain ⟨hs, ht⟩ := stays_tended_exec hr.inv p.1 p.2
    exact hr.step (hr.inv.exec p.1 p.2 nofun) (hr.backed.exec hr.inv p.1 p.2 hc.1) hc.2 hs ht)
      reusable_init

/-- The table of a task has a free number. -/
def Room (s : Fds) (t : Slot) : Prop := ∃ a < maxFiles, (s.files t a).inUse = false

/-- The table of a task has two free numbers. -/
def RoomForTwo (s : Fds) (t : Slot) : Prop :=
  ∃ a b, a < b ∧ b < maxFiles ∧ (s.files t a).inUse = false ∧ (s.files t b).inUse = false

/-- Fewer slots than the pool has are referenced. -/
def Spare (s : Fds) {n : ℕ} (pool : Fin n → PoolSlot) : Prop :=
  Nat.card { i // s.Referenced (pool i) } < n

theorem Spare.exists_unreferenced {pool : Fin n → PoolSlot} (h : s.Spare pool) :
    ∃ i, ¬s.Referenced (pool i) := by
  by_contra hall
  push Not at hall
  have hcard : Nat.card { i // s.Referenced (pool i) } = n := by
    rw [Nat.card_congr (Equiv.subtypeUnivEquiv hall), Nat.card_eq_fintype_card, Fintype.card_fin]
  rw [Spare, hcard] at h
  exact lt_irrefl n h

theorem Room.findFreeFd (h : s.Room t) : ∃ fd, s.findFreeFd t = some fd := by
  obtain ⟨a, ha, hfree⟩ := h
  unfold Fds.findFreeFd
  rw [← Option.isSome_iff_exists, List.find?_isSome]
  exact ⟨a, List.mem_range.2 ha, by simpa using hfree⟩

theorem RoomForTwo.room (h : s.RoomForTwo t) : s.Room t := by
  obtain ⟨a, b, hab, hb, hfree, -⟩ := h
  exact ⟨a, by omega, hfree⟩

theorem firstFree_of {p : Fin n → Bool} {i : Fin n} (hi : p i = true) :
    ∃ j, firstFree p = some j := by
  rw [← Option.ne_none_iff_exists']
  intro hnone
  have := firstFree_eq_none.1 hnone i
  simp [hi] at this

/-- What a call that creates an object needs: room in the table and a slot that is not referenced.
-/
def Asks (s : Fds) (t : Slot) : FdOp → Prop
  | .pipe _ => s.RoomForTwo t ∧ s.Spare .pipe
  | .pipe2 _ _ => s.RoomForTwo t ∧ s.Spare .pipe
  | .eventfd2 _ _ => s.Room t ∧ s.Spare .eventfd
  | .timerfdCreate _ _ => s.Room t ∧ s.Spare .timerfd
  | .epollCreate1 _ => s.Room t ∧ s.Spare .epoll
  | .open .ptmx _ => s.Room t ∧ s.Spare .pty
  | .socket _ _ _ => s.Room t ∧ s.Spare .socket
  | .socketpair _ _ _ _ => s.RoomForTwo t ∧ s.Spare .socket
  | _ => False

/-- `socketpair` looks at one slot alone. -/
def Probes (s : Fds) : FdOp → Prop
  | .socketpair _ _ _ _ => ¬s.Referenced (.socket s.pairSlot)
  | _ => True

theorem sysPipe_ne_emfile (h : s.Reusable) (hroom : s.RoomForTwo t) (hspare : s.Spare .pipe)
    (copied : Bool) : (s.sysPipe t copied).2.1 ≠ -emfile := by
  obtain ⟨a, ha⟩ := hroom.room.findFreeFd
  obtain ⟨b, hb⟩ : ∃ b, (List.range maxFiles).find? (fun i ↦ a < i ∧ (s.files t i).inUse = false) =
      some b := by
    obtain ⟨x, y, hxy, hy, hx, hfree⟩ := hroom
    unfold findFreeFd at ha
    have hleast := (List.find?_range_eq_some.1 ha).2.2
    have hle : a ≤ x := by
      by_contra hlt
      have := hleast x (by omega)
      simp [hx] at this
    rw [← Option.isSome_iff_exists, List.find?_isSome]
    exact ⟨y, List.mem_range.2 hy, by simpa using ⟨by omega, hfree⟩⟩
  obtain ⟨i, hi⟩ := hspare.exists_unreferenced
  obtain ⟨p, hp⟩ := firstFree_of (p := fun p ↦ (s.pipes p).free) (h.free hi)
  rw [sysPipe, ha]
  dsimp only
  rw [hb]
  dsimp only
  rw [hp]
  cases copied <;> simp [emfile, efault]

theorem sysPipe2_ne_emfile (h : s.Reusable) (hroom : s.RoomForTwo t) (hspare : s.Spare .pipe)
    (copied : Bool) (flags : ℕ) : (s.sysPipe2 t copied flags).2 ≠ -emfile := by
  have hpipe := sysPipe_ne_emfile h hroom hspare copied
  rw [sysPipe2]
  split
  · next heq => rwa [heq] at hpipe
  · next heq => rwa [heq] at hpipe

theorem natCast_ne_emfile (n : ℕ) : (n : ℤ) ≠ -emfile := by
  rw [emfile]
  omega

theorem sysEventfd2_ne_emfile (h : s.Reusable) (hroom : s.Room t) (hspare : s.Spare .eventfd)
    (initval flags : ℕ) : (s.sysEventfd2 t initval flags).2 ≠ -emfile := by
  obtain ⟨fd, hfd⟩ := hroom.findFreeFd
  obtain ⟨i, hi⟩ := hspare.exists_unreferenced
  have hfree : s.eventfdFlags i = 0 ∧ s.eventfds i = 0 := h.free hi
  obtain ⟨e, he⟩ :=
    firstFree_of (p := fun e ↦ s.eventfdFlags e = 0 ∧ s.eventfds e = 0) (i := i)
      (by simpa using hfree)
  rw [sysEventfd2, hfd]
  dsimp only
  rw [he]
  exact natCast_ne_emfile fd

theorem sysTimerfdCreate_ne_emfile (h : s.Reusable) (hroom : s.Room t) (hspare : s.Spare .timerfd)
    (clockid : ℤ) (flags : ℕ) : (s.sysTimerfdCreate t clockid flags).2 ≠ -emfile := by
  obtain ⟨fd, hfd⟩ := hroom.findFreeFd
  obtain ⟨i, hi⟩ := hspare.exists_unreferenced
  have hfree : (s.timerfds i).flags = 0 ∧ (s.timerfds i).nextNs = 0 ∧
      (s.timerfds i).expirations = 0 := h.free hi
  obtain ⟨e, he⟩ := firstFree_of
    (p := fun i ↦ (s.timerfds i).flags = 0 ∧ (s.timerfds i).nextNs = 0 ∧
      (s.timerfds i).expirations = 0) (i := i)
    (by simpa using hfree)
  rw [sysTimerfdCreate]
  split_ifs
  · simp [emfile, einval]
  · rw [hfd]
    dsimp only
    rw [he]
    exact natCast_ne_emfile fd

theorem sysEpollCreate1_ne_emfile (h : s.Reusable) (hroom : s.Room t) (hspare : s.Spare .epoll)
    (flags : ℕ) : (s.sysEpollCreate1 t flags).2 ≠ -emfile := by
  obtain ⟨fd, hfd⟩ := hroom.findFreeFd
  obtain ⟨i, hi⟩ := hspare.exists_unreferenced
  have hfree : (s.epolls i).used = false := h.free hi
  obtain ⟨e, he⟩ :=
    firstFree_of (p := fun e ↦ (s.epolls e).used = false) (i := i) (by simpa using hfree)
  rw [sysEpollCreate1]
  split_ifs
  · simp [emfile, einval]
  · rw [hfd]
    dsimp only
    rw [he]
    exact natCast_ne_emfile fd

theorem sysOpen_ptmx_ne_emfile (h : s.Reusable) (hroom : s.Room t) (hspare : s.Spare .pty)
    (flags : ℕ) : (s.sysOpen t .ptmx flags).2 ≠ -emfile := by
  obtain ⟨fd, hfd⟩ := hroom.findFreeFd
  obtain ⟨i, hi⟩ := hspare.exists_unreferenced
  obtain ⟨p, hp⟩ := firstFree_of (p := fun p ↦ (s.ptySlots p).free) (h.free hi)
  simp only [sysOpen, hfd, sysOpenResolved, hp]
  exact natCast_ne_emfile fd

theorem socketNew_ne_emfile (hroom : s.Room t) (i : Fin 32) (netlink : Bool) (flags : ℕ) :
    (s.socketNew t i netlink flags).2 ≠ -emfile := by
  have hclear : (s.clearSocket i netlink).Room t := hroom
  obtain ⟨hnone, -⟩ | ⟨fd, -, hs⟩ :=
    (s.clearSocket i netlink).socketAllocEndpoint_cases t i false flags
  · obtain ⟨fd, hfd⟩ := hclear.findFreeFd
    rw [hnone] at hfd
    cases hfd
  · rw [socketNew, hs]
    exact natCast_ne_emfile fd

theorem sysSocket_ne_emfile (h : s.Reusable) (hroom : s.Room t) (hspare : s.Spare .socket)
    (domain : ℤ) (type : ℕ) (protocol : ℤ) : (s.sysSocket t domain type protocol).2 ≠ -emfile := by
  obtain ⟨i, hi⟩ := hspare.exists_unreferenced
  have hfree : (s.unixSockets i).refs = 0 := h.free hi
  have hnext : ∀ start, nextFree start (fun j ↦ (s.unixSockets j).refs = 0) ≠ none :=
    fun start ↦ nextFree_ne_none (i := i) (by simpa using hfree)
  rw [sysSocket]
  by_cases h₁ : domain = 1 ∧ type % 16 = 1
  · rw [if_pos h₁]
    split
    · next hnone => exact absurd hnone (hnext s.socketSi)
    · next i _ =>
      exact socketNew_ne_emfile (s := { s with socketSi := (i + 1) % 32 }) hroom i false _
  rw [if_neg h₁]
  by_cases h₂ : domain = 16 ∧ type % 16 = 2 ∧ protocol = 15
  · rw [if_pos h₂]
    split
    · next hnone => exact absurd hnone (hnext s.netlinkNi)
    · next i _ =>
      exact socketNew_ne_emfile (s := { s with netlinkNi := (i + 1) % 32 }) hroom i true _
  · rw [if_neg h₂]
    simp [emfile, eafnosupport]

theorem sysSocketpair_ne_emfile (h : s.Reusable) (hroom : s.RoomForTwo t)
    (hprobe : ¬s.Referenced (.socket s.pairSlot)) (domain : ℤ) (type : ℕ) (sv copied : Bool) :
    (s.sysSocketpair t domain type sv copied).2 ≠ -emfile := by
  have hz : (s.unixSockets s.pairSlot).refs = 0 := h.free hprobe
  by_cases h₁ : domain ≠ 1 ∨ type % 16 ≠ 1
  · rw [sysSocketpair, if_pos h₁]
    simp [emfile, eafnosupport]
  by_cases h₂ : sv = false
  · rw [sysSocketpair, if_neg h₁, if_pos h₂]
    simp [emfile, efault]
  have hslot : (⟨s.pairSi % 32, Nat.mod_lt _ (by decide)⟩ : Fin 32) = s.pairSlot := rfl
  set s₀ := ({ s with pairSi := s.pairSi + 1 } : Fds).clearSocket s.pairSlot false with hs₀
  have hroom₀ : s₀.Room t := hroom.room
  obtain ⟨hnone, -⟩ | ⟨a, ha, hs⟩ := s₀.socketAllocEndpoint_cases t s.pairSlot false 0
  · obtain ⟨fd, hfd⟩ := hroom₀.findFreeFd
    rw [hnone] at hfd
    cases hfd
  have hroom₁ : (s₀.attach t a s.pairSlot false 0).Room t := by
    obtain ⟨x, y, hxy, hy, hx, hfree⟩ := hroom
    by_cases hxa : x = a
    · exact ⟨y, hy, by rw [attach_files, if_neg (by omega)]; exact hfree⟩
    · exact ⟨x, by omega, by rw [attach_files, if_neg hxa]; exact hx⟩
  obtain ⟨hnone, -⟩ | ⟨b, hb, hs'⟩ :=
    (s₀.attach t a s.pairSlot false 0).socketAllocEndpoint_cases t s.pairSlot true 0
  · obtain ⟨fd, hfd⟩ := hroom₁.findFreeFd
    rw [hnone] at hfd
    cases hfd
  rw [sysSocketpair, if_neg h₁, if_neg h₂]
  dsimp only
  rw [hslot, if_neg (not_not.2 hz), ← hs₀, hs]
  dsimp only
  rw [hs']
  cases copied <;> simp [emfile, efault]

/-- After every run of calls that lose no slot, a slot without a reference is free, and the calls
that hand out slots do not run out of them. -/
theorem object_reclamation (l : List (Slot × FdOp)) (h : Reclaimed l) :
    (∀ q, ¬(init.run l).Referenced q → (init.run l).Free q) ∧
      ∀ t op, (init.run l).Asks t op → (init.run l).Probes op →
        ((init.run l).exec t op).2 ≠ -emfile := by
  have hr := reusable_run h
  refine ⟨fun q hq ↦ hr.free hq, fun t op ha hp ↦ ?_⟩
  cases op with
  | pipe copied => exact sysPipe_ne_emfile hr ha.1 ha.2 copied
  | pipe2 copied flags => exact sysPipe2_ne_emfile hr ha.1 ha.2 copied flags
  | eventfd2 initval flags => exact sysEventfd2_ne_emfile hr ha.1 ha.2 initval flags
  | timerfdCreate clockid flags => exact sysTimerfdCreate_ne_emfile hr ha.1 ha.2 clockid flags
  | epollCreate1 flags => exact sysEpollCreate1_ne_emfile hr ha.1 ha.2 flags
  | «open» path flags =>
    cases path with
    | ptmx => exact sysOpen_ptmx_ne_emfile hr ha.1 ha.2 flags
    | _ => exact ha.elim
  | socket domain type protocol => exact sysSocket_ne_emfile hr ha.1 ha.2 domain type protocol
  | socketpair domain type sv copied =>
    exact sysSocketpair_ne_emfile hr ha.1 hp domain type sv copied
  | _ => exact ha.elim

theorem not_referenced_of (hroot : ∀ table, s.taskFdTableRefs table ≠ 0 → table = 0)
    (h : ∀ fd < maxFiles, (s.taskFdTables 0 fd).inUse = true →
      (s.taskFdTables 0 fd).target.poolSlot = none)
    (hq : ∀ i, q ≠ .socket i) : ¬s.Referenced q := by
  rintro (⟨table, fd, hl, hslot⟩ | ⟨i, hi, -⟩)
  · obtain rfl := hroot table hl.1
    rw [h fd hl.2.1 hl.2.2] at hslot
    cases hslot
  · exact hq i hi

theorem not_socket_referenced {i : Fin 32}
    (hroot : ∀ table, s.taskFdTableRefs table ≠ 0 → table = 0)
    (h : ∀ fd < maxFiles, (s.taskFdTables 0 fd).inUse = true →
      (s.taskFdTables 0 fd).target.poolSlot ≠ some (.socket i))
    (hqueued : s.queued i = 0) : ¬s.Referenced (.socket i) := by
  rintro (⟨table, fd, hl, hslot⟩ | ⟨j, hj, hne⟩)
  · obtain rfl := hroot table hl.1
    exact h fd hl.2.1 hl.2.2 hslot
  · obtain rfl : i = j := by injection hj
    exact hne hqueued

theorem Spare.of_unreferenced {pool : Fin n → PoolSlot} {i : Fin n} (hi : ¬s.Referenced (pool i)) :
    s.Spare pool := by
  classical
  have hcard := Fintype.card_subtype_lt (p := fun i ↦ s.Referenced (pool i)) hi
  rwa [← Nat.card_eq_fintype_card, Fintype.card_fin] at hcard

/-- A pair of sockets whose numbers cannot be written, and a pipe that is read to its end before it
is closed. -/
def emptiedPipe : List (Slot × FdOp) :=
  [(0, .socketpair 1 1 true false), (0, .pipe true), (0, .pipeWrite 4 [7]), (0, .pipeRead 3 1),
    (0, .close 3), (0, .close 4)]

theorem object_reclamation_emptied_pipe :
    let s := init.run emptiedPipe
    s.Free (.pipe 0) ∧ s.Free (.socket 0) ∧ s.Asks 0 (.pipe true) ∧
      (s.exec 0 (.pipe true)).2 ≠ -emfile := by
  intro s
  have hclean : ∀ (s : Fds) t op, (∀ p, (s.pipes p).data = []) →
      (∀ e, s.eventfdFlags e = 0 ∧ s.eventfds e = 0) →
      (∀ i, (s.timerfds i).flags = 0 ∧ (s.timerfds i).nextNs = 0 ∧ (s.timerfds i).expirations = 0) →
        s.KeepsUnclean t op := by
    intro s t op hp he hi q hq
    cases q with
    | pipe p => exact absurd (hp p) hq
    | eventfd e => exact absurd (he e) hq
    | timerfd i => exact absurd (hi i) hq
    | _ => exact absurd trivial hq
  have hreclaimed : Reclaimed emptiedPipe := by
    refine ⟨⟨trivial, ?_⟩, ⟨trivial, ?_⟩, ⟨trivial, ?_⟩, ⟨trivial, ?_⟩, ⟨?_, ?_⟩, ⟨?_, ?_⟩, trivial⟩
    · exact hclean _ _ _ (by decide +kernel) (by decide +kernel) (by decide +kernel)
    · exact hclean _ _ _ (by decide +kernel) (by decide +kernel) (by decide +kernel)
    · exact hclean _ _ _ (by decide +kernel) (by decide +kernel) (by decide +kernel)
    · -- The pipe holds a byte, and its reading end stays.
      intro q hq
      have hother : ∀ p : Fin 8, p ≠ 0 → ((init.run (emptiedPipe.take 3)).pipes p).data = [] := by
        decide +kernel
      have hevents : ∀ e, (init.run (emptiedPipe.take 3)).eventfdFlags e = 0 ∧
          (init.run (emptiedPipe.take 3)).eventfds e = 0 := by
        decide +kernel
      have htimers : ∀ i, ((init.run (emptiedPipe.take 3)).timerfds i).flags = 0 ∧
          ((init.run (emptiedPipe.take 3)).timerfds i).nextNs = 0 ∧
          ((init.run (emptiedPipe.take 3)).timerfds i).expirations = 0 := by
        decide +kernel
      cases q with
      | pipe p =>
        have hp : p = 0 := not_not.1 fun hne ↦ hq (hother p hne)
        exact ⟨0, 3, by decide +kernel, by rw [hp]; decide +kernel, not_false⟩
      | eventfd e => exact absurd (hevents e) hq
      | timerfd i => exact absurd (htimers i) hq
      | _ => exact absurd trivial hq
    · unfold KeepsQueues Admits SparesAt Spares
      decide +kernel
    · exact hclean _ _ _ (by decide +kernel) (by decide +kernel) (by decide +kernel)
    · unfold KeepsQueues Admits SparesAt Spares
      decide +kernel
    · exact hclean _ _ _ (by decide +kernel) (by decide +kernel) (by decide +kernel)
  have hfree : ¬s.Referenced (.pipe 0) :=
    not_referenced_of (by decide +kernel) (by decide +kernel) nofun
  have hasks : s.Asks 0 (.pipe true) :=
    ⟨⟨3, 4, by decide, by decide, by decide +kernel, by decide +kernel⟩, .of_unreferenced hfree⟩
  have hgone : ¬s.Referenced (.socket 0) :=
    not_socket_referenced (by decide +kernel) (by decide +kernel) (by decide +kernel)
  have hserved := object_reclamation _ hreclaimed
  exact ⟨hserved.1 _ hfree, hserved.1 _ hgone, hasks, hserved.2 0 _ hasks trivial⟩

/-- With one socket in use, `socketpair` finds the only slot that it looks at taken; and an event
counter that has been closed is not free again. -/
theorem socketpair_after_socket :
    let s := init.run [(0, .socket 1 1 0)]
    let s' := init.run [(0, .eventfd2 0 0), (0, .close 3)]
    (s.Asks 0 (.socketpair 1 1 true true) ∧ (s.exec 0 (.socketpair 1 1 true true)).2 = -emfile) ∧
      ¬s'.Referenced (.eventfd 0) ∧ ¬s'.Free (.eventfd 0) := by
  intro s s'
  have hfree : ¬s.Referenced (.socket 1) :=
    not_socket_referenced (by decide +kernel) (by decide +kernel) (by decide +kernel)
  have hroom : s.RoomForTwo 0 := ⟨4, 5, by decide, by decide, by decide +kernel, by decide +kernel⟩
  have hclosed : s'.eventfdFlags 0 ≠ 0 := by decide +kernel
  exact ⟨⟨⟨hroom, .of_unreferenced hfree⟩, by decide +kernel⟩,
    not_referenced_of (by decide +kernel) (by decide +kernel) nofun, fun hf ↦ hclosed hf.1⟩

end Fds

end YabroOS
