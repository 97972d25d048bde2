import YabroOS.Fd.SocketRefs

namespace YabroOS

open Function Errno

namespace Fds

variable {full : Bool} {s s₁ s' : Fds} {table : Fin 32} {fd : ℕ} {d : FileDesc} {x : FdLinks}
    {o : Obj} {t : Slot}

/-- No socket with a queue loses its last descriptor when the number `fd` is closed. -/
def SparesAt (s : Fds) (t : Slot) (fd : ℤ) : Prop :=
  ∀ i b, s.target? t fd = some (.socket i b) → s.Spares i 1

/-- The same when the task `t` leaves its table. -/
def SparesTable (s : Fds) (t : Slot) : Prop :=
  ∀ table, s.taskFdTableId t = some table → s.taskFdTableRefs table = 1 →
    ∀ j, s.Spares j (s.view.socketHolds table j)

/-- The same when a descriptor of the socket `old` is connected to the listener at `path`. -/
def SparesConnect (s : Fds) (t : Slot) (fd : ℤ) (path : List UInt8) : Prop :=
  ∀ old side li, s.socketOf t fd = some (old, side) → s.socketFindListener path = some li →
    (s.unixSockets li).pending.length < 4 →
    nextFree s.connectSi (fun j ↦ j ≠ li ∧ (s.unixSockets j).refs = 0) ≠ none →
    1 < (s.unixSockets old).refs ∨ (s.unixSockets old).pending = [] ∧ old ≠ li

/-- The calls that keep the references of sockets: none of them loses a queue, and none fails for a
result that cannot be written once the descriptors are there. -/
def Admits (s : Fds) (t : Slot) : FdOp → Prop
  | .close fd => s.SparesAt t fd
  | .dup2 oldfd newfd => s.fdValid t oldfd = true → oldfd ≠ newfd → s.SparesAt t newfd
  | .dup3 oldfd newfd flags =>
    flags &&& 0xFFF7FFFF = 0 → s.fdValid t oldfd = true → oldfd ≠ newfd → s.SparesAt t newfd
  | .execve => ∀ i, s.Spares i (execHolds s t i)
  | .exit => s.SparesTable t
  | .reap child => s.SparesTable child
  | .socketpair domain type sv copied =>
    copied = false → domain = 1 → type % 16 = 1 → sv = true → (s.unixSockets s.pairSlot).refs = 0 →
      s.OneFree t
  | .listen fd backlog =>
    ∀ i side, s.socketOf t fd = some (i, side) → 0 ≤ backlog → (s.unixSockets i).connected = false →
      (s.unixSockets i).bound = true → (s.unixSockets i).pending = []
  | .connect fd (.path path) => s.SparesConnect t fd path
  | .accept fd _ copied =>
    copied = some false → ∀ li side, s.socketOf t fd = some (li, side) →
      (s.unixSockets li).pending = [] ∨ s.findFreeFd t = none
  | _ => True

namespace Inv

theorem sysEventfd2 (h : s.Inv full) (t : Slot) (initval flags : ℕ) :
    (s.sysEventfd2 t initval flags).1.Inv full := by
  rw [Fds.sysEventfd2]
  split
  · exact h
  next fd hfd =>
  obtain ⟨hmax, hfree⟩ := findFreeFd_some hfd
  split
  · exact h
  next e _ =>
  have hlinks := h.links_of_free hfree
  refine h.fill ⟨h.used.cell, h.used.input, h.used.epoll⟩ rfl (h.currentFiles_live t) hmax hfree
    hlinks (fun o _ ↦ ?_) fun _ ↦ .same rfl rfl rfl
  rw [FileDesc.holds, if_pos rfl, hlinks.1, hlinks.2]
  cases o <;> rfl

theorem sysTimerfdCreate (h : s.Inv full) (t : Slot) (clockid : ℤ) (flags : ℕ) :
    (s.sysTimerfdCreate t clockid flags).1.Inv full := by
  rw [Fds.sysTimerfdCreate]
  split_ifs
  · exact h
  split
  · exact h
  next fd hfd =>
  obtain ⟨hmax, hfree⟩ := findFreeFd_some hfd
  split
  · exact h
  next i _ =>
  have hlinks := h.links_of_free hfree
  refine h.fill ⟨h.used.cell, h.used.input, h.used.epoll⟩ rfl (h.currentFiles_live t) hmax hfree
    hlinks (fun o _ ↦ ?_) fun _ ↦ .same rfl rfl rfl
  rw [FileDesc.holds, if_pos rfl, hlinks.1, hlinks.2]
  cases o <;> rfl

theorem eventfdWrite (h : s.Inv full) (t : Slot) (fd : ℤ) (v : ℕ) :
    (s.eventfdWrite t fd v).1.Inv full := by
  rw [Fds.eventfdWrite]
  split
  · split_ifs
    · exact h
    · exact h
    · exact h.others rfl rfl rfl rfl rfl rfl rfl rfl rfl
  · exact h

theorem eventfdRead (h : s.Inv full) (t : Slot) (fd : ℤ) (copied : Bool) :
    (s.eventfdRead t fd copied).1.Inv full := by
  rw [Fds.eventfdRead]
  split
  · split_ifs
    · exact h
    · exact h.others rfl rfl rfl rfl rfl rfl rfl rfl rfl
    · exact h.others rfl rfl rfl rfl rfl rfl rfl rfl rfl
  · exact h

theorem sysTimerfdSettime (h : s.Inv full) (t : Slot) (fd : ℤ) (now value interval : ℕ) :
    (s.sysTimerfdSettime t fd now value interval).1.Inv full := by
  rw [Fds.sysTimerfdSettime]
  split
  · exact h.others rfl rfl rfl rfl rfl rfl rfl rfl rfl
  · exact h

theorem timerfdRead (h : s.Inv full) (t : Slot) (fd : ℤ) (now : ℕ) (copied : Bool) :
    (s.timerfdRead t fd now copied).1.Inv full := by
  simp only [Fds.timerfdRead]
  split
  · split_ifs <;> exact h.others rfl rfl rfl rfl rfl rfl rfl rfl rfl
  · exact h

theorem ptyLock (h : s.Inv full) (t : Slot) (fd : ℤ) (lock : ℕ) :
    (s.ptyLock t fd lock).1.Inv full := by
  rw [Fds.ptyLock]
  split
  · exact h.others rfl rfl rfl rfl rfl rfl rfl rfl rfl
  · exact h

theorem modifyPipe (h : s.Inv full) (p : Fin 8) {g : PipeState → PipeState}
    (hr : (g (s.pipes p)).readers = (s.pipes p).readers ∨
      (g (s.pipes p)).readers = s.pipeLiveReaders p)
    (hw : (g (s.pipes p)).writers = (s.pipes p).writers) : (s.modifyPipe p g).Inv full := by
  refine h.same ⟨h.used.cell, h.used.input, h.used.epoll⟩ rfl (fun o _ ↦ ?_) fun _ ↦
    .same rfl rfl rfl
  rw [Fds.modifyPipe, count_pipe]
  split_ifs with h₁ h₂
  · rw [h₁]
    refine hr.elim id fun hr ↦ hr.trans ?_
    rw [h.count (.reader p) (.of_not_side rfl), waiting_of_not_side s rfl, Nat.add_zero]
    exact liveEnds_eq ⟨p, .inl rfl⟩ rfl s
  · rw [h₂]
    exact hw
  · rfl

theorem pipeWrite (h : s.Inv full) (t : Slot) (fd : ℤ) (data : List UInt8) :
    (s.pipeWrite t fd data).1.Inv full := by
  rw [Fds.pipeWrite]
  split
  · next p _ =>
    have h₁ := h.modifyPipe p (g := fun st ↦ { st with readers := s.pipeLiveReaders p })
      (.inr rfl) rfl
    dsimp only
    split_ifs
    · exact h₁
    · exact h₁.modifyPipe p (.inl rfl) rfl
  · exact h

theorem pipeRead (h : s.Inv full) (t : Slot) (fd : ℤ) (n : ℕ) : (s.pipeRead t fd n).1.Inv full := by
  rw [Fds.pipeRead]
  split
  · exact h.modifyPipe _ (.inl rfl) rfl
  · exact h

theorem sysExit (h : s.Inv full) (t : Slot)
    (hs : full = true → ∀ table, s.taskFdTableId t = some table → s.taskFdTableRefs table = 1 →
      ∀ j, s.Spares j (s.view.socketHolds table j)) : (s.sysExit t).Inv full := by
  rw [Fds.sysExit]
  exact h.taskFdTableRelease t hs

theorem exec (h : s.Inv full) (t : Slot) (op : FdOp) (hc : full = true → s.Admits t op) :
    (s.exec t op).1.Inv full := by
  cases op with
  | «open» path flags => exact h.sysOpen t path flags
  | close fd => exact h.sysClose t fd hc
  | pipe copied => exact h.sysPipe t copied
  | pipe2 copied flags => exact h.sysPipe2 t copied flags
  | dup oldfd =>
    exact h.duplicates (s.sysDupInternal_duplicates t (fun _ ↦ true) oldfd 0 false) fun _ _ ↦
      False.elim
  | dup2 oldfd newfd =>
    exact h.duplicates (C := fun fd ↦ full = true → s.SparesAt t fd)
      (sysDup2_duplicates h.used t oldfd newfd fun hv hne hf ↦ hc hf hv hne) fun hf _ hs ↦ hs hf
  | dup3 oldfd newfd flags =>
    exact h.duplicates (C := fun fd ↦ full = true → s.SparesAt t fd)
      (sysDup3_duplicates h.used t oldfd newfd flags fun h₀ hv hne hf ↦ hc hf h₀ hv hne)
        fun hf _ hs ↦ hs hf
  | fcntl outside fd cmd arg =>
    exact h.duplicates (s.sysFcntl_duplicates t outside fd cmd arg) fun _ _ ↦ False.elim
  | epollCreate1 flags => exact h.sysEpollCreate1 t flags
  | clone shareFiles copied => exact h.sysClone t shareFiles copied
  | fork cloned => exact h.sysFork t cloned
  | execve =>
    dsimp only [Fds.exec]
    exact h.closeOnExec t hc
  | exit =>
    dsimp only [Fds.exec]
    exact h.sysExit t hc
  | reap child => exact h.reap child hc
  | socket domain type protocol => exact h.sysSocket t domain type protocol
  | socketpair domain type sv copied => exact h.sysSocketpair t domain type sv copied hc
  | bind fd addr node => exact h.adjusts (s.sysBind_adjusts t fd addr node) fun _ _ ↦ False.elim
  | listen fd backlog =>
    exact h.adjusts (C := fun i ↦ full = true → (s.unixSockets i).pending = [])
      (s.sysListen_adjusts t fd backlog fun i side hi hb hn hbound hf ↦ hc hf i side hi hb hn hbound)
      fun hf _ hi ↦ hi hf
  | connect fd addr =>
    refine h.sysConnect t fd addr fun hf old side path li ni ho ha hl hp hn ↦ ?_
    subst ha
    exact hc hf old side li ho hl hp (ne_of_eq_of_ne hn (Option.some_ne_none ni))
  | accept fd blocks copied => exact h.sysAccept t fd blocks copied hc
  | shutdown fd how => exact h.adjusts (s.sysShutdown_adjusts t fd how) fun _ _ ↦ False.elim
  | eventfd2 initval flags => exact h.sysEventfd2 t initval flags
  | timerfdCreate clockid flags => exact h.sysTimerfdCreate t clockid flags
  | eventfdWrite fd v => exact h.eventfdWrite t fd v
  | eventfdRead fd copied => exact h.eventfdRead t fd copied
  | timerfdSettime fd now value interval => exact h.sysTimerfdSettime t fd now value interval
  | timerfdRead fd now copied => exact h.timerfdRead t fd now copied
  | pipeWrite fd data => exact h.pipeWrite t fd data
  | pipeRead fd n => exact h.pipeRead t fd n
  | ptyLock fd lock => exact h.ptyLock t fd lock

theorem run (h : s.Inv false) (l : List (Slot × FdOp)) : (s.run l).Inv false := by
  induction l generalizing s with
  | nil => exact h
  | cons p l ih => exact ih (h.exec p.1 p.2 nofun)

end Inv

theorem init_slotHolds (table : Fin 32) (fd : ℕ) (o : Obj) :
    init.view.slotHolds table fd o = 0 := by
  have hend : (init.taskFdTables table fd).target.endpoint = none := by
    simp only [init, Io.init]
    split_ifs <;> rfl
  have hepoll : (init.taskFdTables table fd).target.epollObj = none := by
    simp only [init, Io.init]
    split_ifs <;> rfl
  rw [View.slotHolds, FileDesc.holds]
  change (if (init.taskFdTables table fd).inUse = true then hits
    (init.taskFdTables table fd).target.endpoint o +
    hits (init.taskFdTables table fd).target.epollObj o + 0 + 0 else 0) = 0
  rw [hend, hepoll]
  simp

theorem owned_init : Owned init.taskFdTableId init.taskFdTableRefs := by
  refine ⟨fun table ↦ ?_, .inl rfl⟩
  have hother : ∀ i : Slot, i ≠ 0 → (if init.taskFdTableId i = some table then 1 else 0) = 0 := by
    intro i hi
    simp [init, Io.init, hi]
  rw [owners, Finset.sum_eq_single 0 (fun i _ hi ↦ hother i hi) (by simp)]
  by_cases ht : table = 0
  · simp [init, Io.init, ht]
  · simp [init, Io.init, Ne.symm ht]

theorem inv_init (full : Bool) : init.Inv full := by
  refine ⟨⟨by simp [init], by simp [init], by simp [init]⟩,
    ⟨fun _ _ _ ↦ ⟨rfl, rfl⟩, fun table fd hc ↦ ?_, owned_init, ?_, ?_⟩, ?_, fun _ i ↦ ?_⟩
  · by_cases ht : table = 0
    · have hfd : 512 ≤ fd := hc.resolve_left (by simp [view, init, Io.init, ht])
      have h₀ : fd ≠ 0 := by omega
      have h₁ : ¬ (fd = 1 ∨ fd = 2) := by omega
      simp [view, init, Io.init, h₀, h₁]
    · simp [view, init, Io.init, ht]
  · exact fun _ _ hc ↦ absurd rfl hc
  · exact fun _ _ _ _ hc ↦ absurd rfl hc
  · intro o _
    have hz : init.view.holders o = 0 := by
      refine Finset.sum_eq_zero fun table _ ↦ ?_
      rw [View.tableHolds, Finset.sum_eq_zero fun fd _ ↦ init_slotHolds table fd o, ite_self]
    have hw : init.waiting o = 0 := by
      cases o with
      | side i b => cases b <;> simp [waiting, init, Io.init]
      | _ => rfl
    rw [hz, hw]
    cases o <;> rfl
  · exact ⟨rfl, fun hc ↦ absurd rfl hc, fun b hc ↦ absurd rfl hc, fun hc ↦ absurd rfl hc⟩

/-- The descriptor `fd` of the table `table` is in use and the table has a user. -/
def live (s : Fds) (table : Fin 32) (fd : ℕ) : Prop :=
  s.taskFdTableRefs table ≠ 0 ∧ fd < maxFiles ∧ (s.taskFdTables table fd).inUse = true

instance (s : Fds) (table : Fin 32) (fd : ℕ) : Decidable (s.live table fd) :=
  inferInstanceAs (Decidable (_ ∧ _))

/-- In every run the counts of pipe ends, terminals, epoll instances, input states and offset cells
are the numbers of the live descriptors that point there, and among the descriptors that have an
offset cell exactly those of one `open` share it. -/
theorem endpoint_counts (l : List (Slot × FdOp)) :
    (∀ o : Obj, o.isSide = false → (init.run l).count o = (init.run l).view.holders o) ∧
      ∀ table fd table' fd' c c', (init.run l).live table fd → (init.run l).live table' fd' →
        ((init.run l).links table fd).sharedOffset = some c →
          ((init.run l).links table' fd').sharedOffset = some c' →
        (c = c' ↔ ((init.run l).links table fd).opened = ((init.run l).links table' fd').opened) := by
  have h := (inv_init false).run l
  refine ⟨fun o ho ↦ ?_, fun table fd table' fd' c c' _ _ hc hc' ↦ ?_⟩
  · rw [h.count o (.of_not_side ho), waiting_of_not_side _ ho, Nat.add_zero]
  · have := h.tidy.cells table fd table' fd' (by simp [view, hc]) (by simp [view, hc'])
    simp only [view, hc, hc', Option.some.injEq] at this
    exact this

/-- A file that is opened, copied and opened again. -/
theorem endpoint_counts_reopened :
    let s := init.run [(0, .open (.regular true) 0), (0, .dup 3), (0, .open (.regular true) 0)]
    (s.live 0 3 ∧ s.live 0 4 ∧ s.live 0 5) ∧
      ((0 : Fin 512) = 0 ↔ (s.links 0 3).opened = (s.links 0 4).opened) ∧
      ((0 : Fin 512) = 1 ↔ (s.links 0 3).opened = (s.links 0 5).opened) ∧ s.count (.cell 0) = 2 := by
  refine ⟨by decide +kernel, ?_, ?_, by decide +kernel⟩
  · exact (endpoint_counts _).2 0 3 0 4 0 0 (by decide +kernel) (by decide +kernel)
      (by decide +kernel) (by decide +kernel)
  · exact (endpoint_counts _).2 0 3 0 5 0 1 (by decide +kernel) (by decide +kernel)
      (by decide +kernel) (by decide +kernel)

/-- A file without an offset: the copy descends from the same `open`, but there is no cell to share.
-/
theorem pseudo_dup_shares_no_cell :
    let s := init.run [(0, .open (.pseudo 1) 0), (0, .dup 3)]
    s.live 0 3 ∧ s.live 0 4 ∧ s.opens = 1 ∧ (s.links 0 3).opened = 0 ∧ (s.links 0 4).opened = 0 ∧
      ¬ ∃ c, (s.links 0 3).sharedOffset = some c ∧ (s.links 0 4).sharedOffset = some c := by
  decide +kernel

end Fds

end YabroOS
