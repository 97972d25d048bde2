import YabroOS.Fd.SocketRuns

namespace YabroOS

open Function Errno

def PtyState.Sound (p : PtyState) : Prop :=
  (p.masterOpen = true → p.masterRefs ≠ 0) ∧ (p.slaveOpen = true → p.slaveRefs ≠ 0)

namespace Fds

variable {s s₁ s' : Fds} {table : Fin 32} {fd : ℕ} {d : FileDesc} {x : FdLinks}
  {t parent child : Slot} {C : Fin 32 → ℕ → Prop} {full shareFiles : Bool}

def Stays (C : Fin 32 → ℕ → Prop) (s s' : Fds) : Prop :=
  ∀ table fd, s.live table fd → ¬C table fd →
    s'.live table fd ∧ (s'.taskFdTables table fd).target = (s.taskFdTables table fd).target

namespace Stays

theorem trans (h : Stays C s s₁) (h' : Stays C s₁ s') : Stays C s s' := by
  intro table fd hl hc
  obtain ⟨hl₁, ht₁⟩ := h table fd hl hc
  obtain ⟨hl', ht'⟩ := h' table fd hl₁ hc
  exact ⟨hl', ht'.trans ht₁⟩

theorem of_eq (hr : ∀ table, s.taskFdTableRefs table ≠ 0 → s'.taskFdTableRefs table ≠ 0)
    (ht : ∀ table fd, s.live table fd → ¬C table fd →
      s'.taskFdTables table fd = s.taskFdTables table fd) : Stays C s s' := by
  intro table fd hl hc
  have he := ht table fd hl hc
  exact ⟨⟨hr table hl.1, hl.2.1, by rw [he]; exact hl.2.2⟩, by rw [he]⟩

theorem of_tables (hr : s'.taskFdTableRefs = s.taskFdTableRefs)
    (ht : s'.taskFdTables = s.taskFdTables) : Stays C s s' :=
  of_eq (fun table hne ↦ by rwa [hr]) fun table fd _ _ ↦ by rw [ht]

theorem of_view (hv : s'.view = s.view) : Stays C s s' :=
  of_tables (congrArg View.refs hv) (congrArg View.tables hv)

theorem refl (s : Fds) : Stays C s s := of_view rfl

theorem of_put (hv : s'.view = s.view.put table fd d x)
    (hd : s.live table fd → ¬C table fd → d.inUse = true ∧
      d.target = (s.taskFdTables table fd).target) : Stays C s s' := by
  intro table' fd' hl hc
  have ht := tables_of_put hv table' fd'
  have hr : s'.taskFdTableRefs = s.taskFdTableRefs := congrArg View.refs hv
  rw [Fds.live, ht, hr]
  split_ifs with he
  · obtain ⟨rfl, rfl⟩ := he
    obtain ⟨hin, htarget⟩ := hd hl hc
    exact ⟨⟨hl.1, hl.2.1, hin⟩, htarget⟩
  · exact ⟨hl, rfl⟩

theorem of_free (hv : s'.view = s.view.put table fd d x)
    (hfree : (s.taskFdTables table fd).inUse = false) : Stays C s s' :=
  of_put hv fun hl _ ↦ by simp [Fds.live, hfree] at hl

end Stays

structure Leaves (s s' : Fds) : Prop where
  data : ∀ p, (s'.pipes p).data = (s.pipes p).data
  eventfds : s'.eventfds = s.eventfds
  eventfdFlags : s'.eventfdFlags = s.eventfdFlags
  timerfds : s'.timerfds = s.timerfds
  pty : (∀ p, (s.ptySlots p).Sound) → ∀ p, (s'.ptySlots p).Sound

namespace Leaves

theorem of_objects (h : s'.objects = s.objects) : Leaves s s' where
  data p := by rw [show s'.pipes = s.pipes from congrArg Objects.pipes h]
  eventfds := congrArg Objects.eventfds h
  eventfdFlags := congrArg Objects.eventfdFlags h
  timerfds := congrArg Objects.timerfds h
  pty hp := by rwa [show s'.ptySlots = s.ptySlots from congrArg Objects.ptySlots h]

theorem refl (s : Fds) : Leaves s s := of_objects rfl

theorem trans (h : Leaves s s₁) (h' : Leaves s₁ s') : Leaves s s' where
  data p := (h'.data p).trans (h.data p)
  eventfds := h'.eventfds.trans h.eventfds
  eventfdFlags := h'.eventfdFlags.trans h.eventfdFlags
  timerfds := h'.timerfds.trans h.timerfds
  pty hp := h'.pty (h.pty hp)

theorem objects (h : Leaves s s₁) (ho : s'.objects = s₁.objects) : Leaves s s' :=
  h.trans (.of_objects ho)

theorem modifyPipe (s : Fds) (p : Fin 8) (g : PipeState → PipeState)
    (hg : (g (s.pipes p)).data = (s.pipes p).data) : Leaves s (s.modifyPipe p g) := by
  refine ⟨fun q ↦ ?_, rfl, rfl, rfl, id⟩
  by_cases hq : q = p
  · subst hq
    simpa [Fds.modifyPipe, setIo, Io.modifyPipe] using hg
  · simp [Fds.modifyPipe, setIo, Io.modifyPipe, hq]

theorem modifyPty (s : Fds) (p : Fin 8) (g : PtyState → PtyState)
    (hg : (s.ptySlots p).Sound → (g (s.ptySlots p)).Sound) :
    Leaves s (s.setIo (s.toIo.modifyPty p g)) := by
  refine ⟨fun q ↦ rfl, rfl, rfl, rfl, fun hp q ↦ ?_⟩
  by_cases hq : q = p
  · subst hq
    simpa [setIo, Io.modifyPty] using hg (hp q)
  · simpa [setIo, Io.modifyPty, hq] using hp q

theorem modifySocket (s : Fds) (i : Fin 32) (g : UnixSocketState → UnixSocketState) :
    Leaves s (s.modifySocket i g) :=
  ⟨fun _ ↦ rfl, rfl, rfl, rfl, id⟩

theorem dropTarget (s : Fds) (d : Target) : Leaves s (s.setIo (s.toIo.dropTarget d)) := by
  cases d with
  | pipeR p => exact modifyPipe s p (fun st ↦ { st with readers := st.readers - 1 }) rfl
  | pipeW p => exact modifyPipe s p (fun st ↦ { st with writers := st.writers - 1 }) rfl
  | ptyMaster p =>
    refine modifyPty s p PtyState.dropMaster fun hs ↦ ⟨?_, hs.2⟩
    simp only [PtyState.dropMaster]
    split_ifs with hr
    · exact fun h ↦ absurd h (by decide)
    · exact fun _ ↦ by omega
  | ptySlave p =>
    refine modifyPty s p PtyState.dropSlave fun hs ↦ ⟨hs.1, ?_⟩
    simp only [PtyState.dropSlave]
    split_ifs with hr
    · exact fun h ↦ absurd h (by decide)
    · exact fun _ ↦ by omega
  | socket i side => exact modifySocket s i (fun st ↦ st.dropRef side)
  | _ => exact refl s

theorem retainTarget (s : Fds) (d : Target) : Leaves s (s.setIo (s.toIo.retainTarget d)) := by
  cases d with
  | pipeR p => exact modifyPipe s p (fun st ↦ { st with readers := st.readers + 1 }) rfl
  | pipeW p => exact modifyPipe s p (fun st ↦ { st with writers := st.writers + 1 }) rfl
  | ptyMaster p =>
    exact modifyPty s p (fun st ↦ { st with masterRefs := st.masterRefs + 1, masterOpen := true })
      fun hs ↦ ⟨fun _ ↦ Nat.succ_ne_zero _, hs.2⟩
  | ptySlave p =>
    exact modifyPty s p (fun st ↦ { st with slaveRefs := st.slaveRefs + 1, slaveOpen := true })
      fun hs ↦ ⟨hs.1, fun _ ↦ Nat.succ_ne_zero _⟩
  | socket i side => exact ⟨fun _ ↦ rfl, rfl, rfl, rfl, id⟩
  | _ => exact refl s

theorem closeFd (s : Fds) (table : Fin 32) (fd : ℕ) : Leaves s (s.closeFd table fd) := by
  simp only [Fds.closeFd]
  split
  · exact of_objects taskFdRelease_objects
  · next p _ => exact (dropTarget s (.ptyMaster p)).objects closeRest_objects
  · next p _ =>
    have hdrop := dropTarget s (.ptySlave p)
    split_ifs
    · exact (hdrop.trans (modifyPty _ p (fun st ↦ { st with outputStopped := false }) fun hs ↦
        hs)).objects closeRest_objects
    · exact hdrop.objects closeRest_objects
  · next p _ =>
    exact ((dropTarget s (.pipeR p)).objects closeRest_objects).trans (modifyPipe _ p _ rfl)
  · next p _ =>
    exact ((dropTarget s (.pipeW p)).objects closeRest_objects).trans (modifyPipe _ p _ rfl)
  · next i side _ => exact (dropTarget s (.socket i side)).objects closeRest_objects
  · exact of_objects closeRest_objects

theorem sysClose (s : Fds) (t : Slot) (fd : ℤ) : Leaves s (s.sysClose t fd).1 := by
  rw [Fds.sysClose]
  split_ifs
  · exact refl s
  · exact closeFd s _ _

theorem foldl {ι : Type} {f : Fds → ι → Fds} (hf : ∀ s i, Leaves s (f s i)) (s : Fds) (l : List ι) :
    Leaves s (l.foldl f s) := by
  induction l generalizing s with
  | nil => exact refl s
  | cons i l ih => exact (hf s i).trans (ih (f s i))

theorem closeOnExec (s : Fds) (t : Slot) : Leaves s (s.closeOnExec t) := by
  refine foldl (fun s fd ↦ ?_) s (List.range maxFiles)
  split_ifs
  · exact sysClose s t fd
  · exact refl s

theorem releaseFd (s : Fds) (table : Fin 32) (fd : ℕ) : Leaves s (s.releaseFd table fd) := by
  simp only [Fds.releaseFd]
  split_ifs
  · exact refl s
  · exact (dropTarget s _).objects taskFdRelease_objects

theorem cloneFd (s : Fds) (source destination : Fin 32) (fd : ℕ) :
    Leaves s (s.cloneFd source destination fd) := by
  simp only [Fds.cloneFd]
  split_ifs
  · exact of_objects rfl
  · exact Leaves.trans (of_objects (by simp)) (retainTarget _ _)

theorem taskFdTableRelease (h : Owned s.taskFdTableId s.taskFdTableRefs) (i : Slot) :
    Leaves s (s.taskFdTableRelease i) := by
  cases hid : s.taskFdTableId i with
  | none =>
    rw [taskFdTableRelease_none hid]
    exact refl s
  | some table =>
    have hlive := h.live hid
    by_cases hr : s.taskFdTableRefs table = 1
    · obtain ⟨s', hs⟩ : ∃ s', s' = (List.range maxFiles).foldl (Fds.releaseFd table)
          (s.leaving i table) := ⟨_, rfl⟩
      have hloop : Leaves s s' := by
        rw [hs]
        have hleave : Leaves s (s.leaving i table) := of_objects rfl
        exact hleave.trans (foldl (fun s fd ↦ releaseFd s table fd) _ _)
      rw [taskFdTableRelease_last hid hr, ← hs]
      split_ifs
      · exact hloop.objects rfl
      · exact hloop
    · rw [taskFdTableRelease_shared hid (by omega)]
      split_ifs <;> exact of_objects rfl

theorem taskFdTableClone (hs : s.taskFdTableClone parent child shareFiles = some s') :
    Leaves s s' := by
  have hloop : ∀ (s : Fds) source destination, Leaves s
      ((List.range maxFiles).foldl (Fds.cloneFd source destination) s) :=
    fun s source destination ↦ foldl (fun s fd ↦ cloneFd s source destination fd) s _
  rw [Fds.taskFdTableClone] at hs
  generalize List.range maxFiles = l at hloop hs
  split at hs
  · cases hs
  · split_ifs at hs
    · cases hs
      exact of_objects rfl
    · split at hs
      · cases hs
      · cases hs
        refine Leaves.trans ?_ (hloop _ _ _)
        exact of_objects rfl

end Leaves

structure Calm (C : Fin 32 → ℕ → Prop) (s s' : Fds) : Prop where
  stays : Stays C s s'
  leaves : Leaves s s'

namespace Calm

theorem refl (s : Fds) : Calm C s s := ⟨.refl s, .refl s⟩

theorem trans (h : Calm C s s₁) (h' : Calm C s₁ s') : Calm C s s' :=
  ⟨h.stays.trans h'.stays, h.leaves.trans h'.leaves⟩

theorem of_eq (hr : s'.taskFdTableRefs = s.taskFdTableRefs) (ht : s'.taskFdTables = s.taskFdTables)
    (ho : s'.objects = s.objects) : Calm C s s' := ⟨.of_tables hr ht, .of_objects ho⟩

theorem of_leaves (hr : s'.taskFdTableRefs = s.taskFdTableRefs)
    (ht : s'.taskFdTables = s.taskFdTables) (hl : Leaves s s') : Calm C s s' :=
  ⟨.of_tables hr ht, hl⟩

theorem setSlot (hfree : (s.taskFdTables table fd).inUse = false) (d : FileDesc) (x : FdLinks) :
    Calm C s (s.setSlot table fd d x) := ⟨.of_free rfl hfree, .of_objects rfl⟩

theorem opened (hfree : (s.taskFdTables table fd).inUse = false) {d : FileDesc} {x : FdLinks}
    (hr : s₁.taskFdTableRefs = s.taskFdTableRefs) (ht : s₁.taskFdTables = s.taskFdTables)
    (hl : Leaves s s₁) : Calm C s (s₁.opened table fd d x).1 := by
  have hfree₁ : (s₁.taskFdTables table fd).inUse = false := by rwa [ht]
  refine (of_leaves hr ht hl).trans ((setSlot hfree₁ d { x with opened := s₁.opens }).trans ?_)
  exact of_eq rfl rfl rfl

end Calm

/-- Calm, and no socket has changed. -/
structure Quiet (C : Fin 32 → ℕ → Prop) (s s' : Fds) : Prop extends Calm C s s' where
  sockets : s'.unixSockets = s.unixSockets

namespace Quiet

theorem refl (s : Fds) : Quiet C s s := ⟨.refl s, rfl⟩

theorem setSlot (hfree : (s.taskFdTables table fd).inUse = false) (d : FileDesc) (x : FdLinks) :
    Quiet C s (s.setSlot table fd d x) := ⟨.setSlot hfree d x, rfl⟩

theorem opened (hfree : (s.taskFdTables table fd).inUse = false) {d : FileDesc} {x : FdLinks}
    (hr : s₁.taskFdTableRefs = s.taskFdTableRefs) (ht : s₁.taskFdTables = s.taskFdTables)
    (hl : Leaves s s₁) (hs : s₁.unixSockets = s.unixSockets) :
    Quiet C s (s₁.opened table fd d x).1 :=
  ⟨.opened hfree hr ht hl, hs⟩

end Quiet

theorem quiet_open (h : s.Used) (t : Slot) (path : OpenPath) (flags : ℕ) :
    Quiet C s (s.sysOpen t path flags).1 := by
  have hpath : ∀ path fd, s.findFreeFd t = some fd →
      Quiet C s (s.sysOpenResolved (s.currentFiles t) fd flags path).1 := by
      intro path fd hfd
      obtain ⟨-, hfree⟩ := findFreeFd_some hfd
      have hclosed : Quiet C s (s.fdMarkClosed (s.currentFiles t) fd) :=
        ⟨⟨.of_free (writes_markClosed h _ fd).view hfree, .of_objects fdMarkClosed_objects⟩,
          congrArg Objects.unixSockets fdMarkClosed_objects⟩
      have hfile : ∀ failed : Fds → Fds, Quiet C s (failed s) →
          Quiet C s (s.openFile (s.currentFiles t) fd flags failed).1 := by
        intro failed hf
        obtain hnone | ⟨c, -, hc⟩ := s.allocOpenOffset_cases
        · rw [openFile, hnone]
          exact hf
        · rw [openFile, hc]
          exact .opened hfree rfl rfl (.of_objects rfl) rfl
      cases path with
      | fault => exact .refl s
      | tooLong => exact .refl s
      | missing => exact .refl s
      | dir => exact .opened hfree rfl rfl (.refl s) rfl
      | pseudo kind =>
        simp only [sysOpenResolved]
        split_ifs
        · obtain hnone | ⟨j, -, hj⟩ := s.inputStateAlloc_cases kind
          · rw [hnone]
            exact hclosed
          · rw [hj]
            exact .opened hfree rfl rfl (.of_objects rfl) rfl
        · exact .opened hfree rfl rfl (.refl s) rfl
      | ptmx =>
        simp only [sysOpenResolved]
        split
        · exact hclosed
        · next p _ =>
          have hfresh := Leaves.modifyPty s p (fun _ ↦ .fresh) fun _ ↦
            ⟨fun _ ↦ one_ne_zero, fun hs ↦ absurd hs (by decide)⟩
          exact .opened hfree rfl rfl (hfresh.objects rfl) rfl
      | pts p =>
        simp only [sysOpenResolved]
        split_ifs
        · exact hclosed
        · exact hclosed
        · exact hclosed
        · exact .opened hfree rfl rfl (.retainTarget s (.ptySlave p)) rfl
      | bootfs =>
        simp only [sysOpenResolved]
        split_ifs
        · exact .refl s
        · exact hfile _ (.setSlot hfree _ _)
      | bootFile =>
        simp only [sysOpenResolved]
        split_ifs
        · exact .refl s
        · exact hfile _ (.setSlot hfree _ _)
      | regular truncates =>
        simp only [sysOpenResolved]
        split_ifs
        · exact .refl s
        · exact hfile _ hclosed
  cases path with
  | fault => exact .refl s
  | tooLong => exact .refl s
  | _ =>
    simp only [Fds.sysOpen]
    split
    · exact .refl s
    · next fd hfd => exact hpath _ fd hfd

theorem calm_closeFd (h : s.Used) (hin : (s.taskFdTables table fd).inUse = true) (hC : C table fd) :
    Calm C s (s.closeFd table fd) :=
  ⟨.of_put (closeFd_spec h hin).2.1 fun _ hc ↦ absurd hC hc, .closeFd s table fd⟩

theorem calm_close (h : s.Used) (t : Slot) (fd : ℤ) (hC : C (s.currentFiles t) fd.toNat) :
    Calm C s (s.sysClose t fd).1 := by
  rw [sysClose]
  split_ifs with hv
  · exact .refl s
  · exact calm_closeFd h (fdValid_iff.1 (by simpa using hv)).2.2 hC

theorem calm_setFlags (s : Fds) (table : Fin 32) (fd : ℕ) (g : ℕ → ℕ) :
    Calm C s (s.setFlags table fd g) := by
  refine ⟨fun table' fd' hl _ ↦ ?_, .of_objects rfl⟩
  have hslot : (s.setFlags table fd g).taskFdTables table' fd' = if table' = table ∧ fd' = fd
      then { s.taskFdTables table fd with flags := g (s.taskFdTables table fd).flags }
        else s.taskFdTables table' fd' :=
    View.put_tables s.view table fd _ (s.links table fd) table' fd'
  rw [Fds.live, hslot]
  split_ifs with he
  · obtain ⟨rfl, rfl⟩ := he
    exact ⟨hl, rfl⟩
  · exact ⟨hl, rfl⟩

theorem quiet_pipe (s : Fds) (t : Slot) (copied : Bool) : Quiet C s (s.sysPipe t copied).1 := by
  rw [sysPipe]
  split
  · exact .refl s
  next a ha =>
  obtain ⟨-, hafree⟩ := findFreeFd_some ha
  split
  · exact .refl s
  next b hb =>
  obtain ⟨-, hab, hbfree⟩ := find_range_some hb
  split
  · exact .refl s
  next p hp =>
  have hp : (s.pipes p).free = true := firstFree_some hp
  simp only [PipeState.free, Bool.decide_and, Bool.and_eq_true, decide_eq_true_eq] at hp
  have hpipe : ∀ st : PipeState, st.data = [] → Leaves s (s.modifyPipe p (fun _ ↦ st)) :=
    fun st hst ↦ .modifyPipe s p _ (hst.trans hp.2.2.symm)
  have hne : b ≠ a := by omega
  have hboth : ∀ (st : PipeState) (d d' : FileDesc), st.data = [] →
      Calm C s (((s.modifyPipe p (fun _ ↦ st)).setSlot (s.currentFiles t) a d
        (s.links (s.currentFiles t) a)).setSlot
        (s.currentFiles t) b d' (((s.modifyPipe p (fun _ ↦ st)).setSlot (s.currentFiles t) a d
          (s.links (s.currentFiles t) a)).links (s.currentFiles t) b)) := by
    intro st d d' hst
    have hfirst : Calm C s (s.modifyPipe p (fun _ ↦ st)) := .of_leaves rfl rfl (hpipe st hst)
    have hslot := Inv.setSlot_of_ne (s := s.modifyPipe p (fun _ ↦ st)) (d := d)
      (x := s.links (s.currentFiles t) a) (s.currentFiles t) hne
    exact (hfirst.trans (Calm.setSlot (s := s.modifyPipe p (fun _ ↦ st)) hafree d _)).trans
      (.setSlot (hslot.1 ▸ hbfree) d' _)
  cases copied with
  | true => exact ⟨hboth ⟨[], 1, 1⟩ _ _ rfl, rfl⟩
  | false => exact ⟨hboth ⟨[], 0, 0⟩ _ _ rfl, rfl⟩

theorem quiet_pipe2 (s : Fds) (t : Slot) (copied : Bool) (flags : ℕ) :
    Quiet C s (s.sysPipe2 t copied flags).1 := by
  have h := quiet_pipe (C := C) s t copied
  rw [sysPipe2]
  split
  · next heq => rwa [heq] at h
  · next heq =>
    rw [heq] at h
    dsimp only at h ⊢
    exact ⟨(h.trans (calm_setFlags ..)).trans (calm_setFlags ..), h.sockets⟩

theorem leaves_dup (s : Fds) (table : Fin 32) (src dst : ℕ) (flags : ℕ → ℕ) :
    Leaves s ((s.fdCopyScalar table src dst flags).fdRetainEndpointRef table dst) := by
  have hcopy : (s.fdCopyScalar table src dst flags).objects = s.objects := by
    simp only [fdCopyScalar]
    split_ifs <;> simp
  simp only [fdRetainEndpointRef]
  split_ifs
  · exact (Leaves.of_objects hcopy).trans (.retainTarget _ _)
  · exact .of_objects hcopy

theorem calm_dup (h : s.Inv full) {src dst : ℕ} (hin : (s.taskFdTables table src).inUse = true)
    (hfree : (s.taskFdTables table dst).inUse = false) (flags : ℕ → ℕ) :
    Calm C s ((s.fdCopyScalar table src dst flags).fdRetainEndpointRef table dst) :=
  ⟨.of_free (dupFd_spec h.used table src dst flags hin (h.copyable hin)).view hfree,
    leaves_dup s table src dst flags⟩

theorem quiet_epollCreate1 (s : Fds) (t : Slot) (flags : ℕ) :
    Quiet C s (s.sysEpollCreate1 t flags).1 := by
  rw [sysEpollCreate1]
  split_ifs
  · exact .refl s
  split
  · exact .refl s
  next fd hfd =>
  obtain ⟨-, hfree⟩ := findFreeFd_some hfd
  split
  · exact .refl s
  · exact ⟨⟨.of_free rfl hfree, .of_objects rfl⟩, rfl⟩

theorem Inv.counted_only (h : s.Inv full) : s.Inv false :=
  ⟨h.used, h.tidy, fun o ho ↦ h.count o fun hs ↦ absurd (ho hs) Bool.false_ne_true, nofun⟩

theorem calm_duplicates {D : ℤ → Prop} (h : s.Inv full) (hd : Duplicates s t D s')
    (hC : ∀ fd, D fd → C (s.currentFiles t) fd.toNat) : Calm C s s' := by
  cases hd with
  | same => exact .refl s
  | flags fd g => exact calm_setFlags ..
  | copy hin hfree _ f => exact calm_dup h hin hfree f
  | @closing _ _ newfd hD hv hr hin hfree f =>
    subst hr
    have hbusy := (fdValid_iff.1 hv).2.2
    exact (calm_closeFd h.used hbusy (hC newfd hD)).trans
      (calm_dup (h.counted_only.closeFd hbusy nofun) hin hfree f)

theorem calm_release (h : s.Inv full) (i : Slot)
    (hC : ∀ table fd, s.taskFdTableId i = some table → s.taskFdTableRefs table = 1 → C table fd) :
    Calm C s (s.taskFdTableRelease i) := by
  refine ⟨?_, .taskFdTableRelease h.tidy.owned i⟩
  cases hid : s.taskFdTableId i with
  | none =>
    rw [taskFdTableRelease_none hid]
    exact .refl s
  | some table =>
    have hlive : s.taskFdTableRefs table ≠ 0 := h.tidy.owned.live hid
    by_cases hr : s.taskFdTableRefs table = 1
    · obtain ⟨s', hs⟩ : ∃ s', s' = (List.range maxFiles).foldl (Fds.releaseFd table)
          (s.leaving i table) := ⟨_, rfl⟩
      obtain ⟨-, he, -, hrefs, -⟩ := releaseAll_spec h.used i table hs
      have hloop : Stays C s s' := by
        intro table' fd hl hc
        have hne : table' ≠ table := by
          rintro rfl
          exact hc (hC table' fd hid hr)
        have hslot : s'.taskFdTables table' fd = s.taskFdTables table' fd :=
          (he.other table' fd (.inl hne)).1
        refine ⟨⟨?_, hl.2.1, hslot ▸ hl.2.2⟩, by rw [hslot]⟩
        rw [hrefs, update_of_ne hne]
        exact hl.1
      rw [taskFdTableRelease_last hid hr, ← hs]
      split_ifs with h0
      · refine hloop.trans (.of_eq (fun table' hne ↦ ?_) fun _ _ _ _ ↦ rfl)
        by_cases ht : table' = 0
        · simp [rejoin, setIo, ht]
        · simpa [rejoin, setIo, ht] using hne
      · exact hloop
    · have hleft : Stays C s (s.leaving i table) := by
        refine .of_eq (fun table' hne ↦ ?_) fun _ _ _ _ ↦ rfl
        by_cases ht : table' = table
        · subst ht
          simp only [leaving, setIo, update_self]
          omega
        · simpa [leaving, setIo, ht] using hne
      rw [taskFdTableRelease_shared hid (by omega)]
      split_ifs
      · refine hleft.trans (.of_eq (fun table' hne ↦ ?_) fun _ _ _ _ ↦ rfl)
        by_cases ht : table' = 0
        · simp [rejoin, setIo, ht]
        · simpa [rejoin, setIo, ht] using hne
      · exact hleft

theorem stays_clone (h : s.Inv full) (hs : s.taskFdTableClone parent child shareFiles = some s') :
    Stays C s s' := by
  obtain ⟨-, -, source, -, hlive, ⟨-, rfl⟩ | ⟨-, destination, -, -, hz, hcopy⟩⟩ :=
    h.taskFdTableClone hs
  · refine .of_eq (fun table hr ↦ ?_) fun _ _ _ _ ↦ rfl
    by_cases ht : table = source
    · simp [setIo, ht]
    · simpa [setIo, ht] using hr
  · refine .of_eq (fun table hr ↦ ?_) fun table fd hl _ ↦ ?_
    · have hne : table ≠ destination := fun hc ↦ hr (hc ▸ hz)
      rw [show s'.taskFdTableRefs = _ from hcopy.refs]
      simpa [hne] using hr
    · have hne : table ≠ destination := fun hc ↦ hl.1 (hc ▸ hz)
      rw [show s'.taskFdTables table fd = _ from hcopy.tables table fd, if_neg fun hc ↦ hne hc.1]
      rfl

theorem stays_clone_release (h : s.Inv full)
    (hs : s.taskFdTableClone parent child shareFiles = some s') (hi : s₁.Inv full)
    (hv : s₁.view = s'.view) : Stays C s (s₁.taskFdTableRelease child) := by
  obtain ⟨-, -, source, -, hlive, hcases⟩ := h.taskFdTableClone hs
  have hids : s₁.taskFdTableId = s'.taskFdTableId := congrArg View.ids hv
  have hrefs : s₁.taskFdTableRefs = s'.taskFdTableRefs := congrArg View.refs hv
  -- Only a copy can have its last user in the child, and it was no live table before.
  have hrelease := (calm_release (C := fun table _ ↦ s.taskFdTableRefs table = 0) hi child
    fun table fd hid hr ↦ by
      rw [hids] at hid
      rw [hrefs] at hr
      obtain ⟨-, rfl⟩ | ⟨-, destination, -, -, hz, hcopy⟩ := hcases
      · simp only [setIo, update_self, Option.some.injEq] at hid
        subst hid
        simp only [setIo, update_self] at hr
        omega
      · have hcopied : s'.taskFdTableId = update s.taskFdTableId child (some destination) := hcopy.ids
        obtain rfl : destination = table := by simpa [hcopied] using hid
        exact hz).stays
  intro table fd hl _
  have hcloned : Stays (fun _ _ ↦ False) s s₁ := (stays_clone h hs).trans (.of_view hv)
  obtain ⟨hl', ht⟩ := hcloned table fd hl not_false
  obtain ⟨hl'', ht'⟩ := hrelease table fd hl' hl.1
  exact ⟨hl'', ht'.trans ht⟩

theorem calm_clone (h : s.Inv full) (t : Slot) (shareFiles copied : Bool) :
    Calm C s (s.sysClone t shareFiles copied).1 := by
  obtain ⟨n, rc, hs⟩ | ⟨child, s', hs', hs⟩ := s.sysClone_cases t shareFiles copied
  · rw [hs]
    exact .of_eq rfl rfl rfl
  · have h₁ : ({ s with nextPid := s.nextPid + 1 } : Fds).Inv full := h.tasks (s.nextPid + 1) s.used
    have h₂ := (h₁.taskFdTableClone hs').1
    have hstart : Calm C s { s with nextPid := s.nextPid + 1 } := .of_eq rfl rfl rfl
    rw [hs]
    cases copied with
    | true =>
      exact (hstart.trans ⟨stays_clone h₁ hs', .taskFdTableClone hs'⟩).trans (.of_eq rfl rfl rfl)
    | false =>
      refine ⟨hstart.stays.trans (stays_clone_release h₁ hs' h₂ rfl), ?_⟩
      exact (hstart.leaves.trans (.taskFdTableClone hs')).trans
        (.taskFdTableRelease h₂.tidy.owned child)

theorem calm_fork (h : s.Inv full) (t : Slot) (cloned : Bool) :
    Calm C s (s.sysFork t cloned).1 := by
  obtain ⟨n, rc, hs⟩ | ⟨child, s', hs', hs⟩ := s.sysClone_cases t false true
  · rw [sysFork, hs]
    exact .of_eq rfl rfl rfl
  · have h₁ : ({ s with nextPid := s.nextPid + 1 } : Fds).Inv full := h.tasks (s.nextPid + 1) s.used
    have h₂ := (h₁.taskFdTableClone hs').1
    have hstart : Calm C s { s with nextPid := s.nextPid + 1 } := .of_eq rfl rfl rfl
    have hclone : Calm C s { s' with used := update s'.used child true } :=
      (hstart.trans ⟨stays_clone h₁ hs', .taskFdTableClone hs'⟩).trans (.of_eq rfl rfl rfl)
    rw [sysFork, hs]
    cases cloned with
    | true => exact hclone
    | false =>
      have hrelease :=
        Leaves.taskFdTableRelease (s := { s' with used := update s'.used child true })
          h₂.tidy.owned child
      have hstays :=
        stays_clone_release (C := C) h₁ hs' (h₂.tasks s'.nextPid (update s'.used child true)) rfl
      exact ⟨(hstart.stays.trans hstays).trans (.of_tables rfl rfl),
        (hclone.leaves.trans hrelease).objects rfl⟩

theorem stays_exec (h : s.Inv full) (t : Slot) (l : List ℕ) :
    Stays (fun table fd ↦ table = s.currentFiles t ∧
      isCloexec (s.taskFdTables table fd).flags = true) s
      (l.foldl (fun s fd ↦
        if (s.files t fd).inUse ∧ isCloexec (s.files t fd).flags then (s.sysClose t fd).1 else s)
          s) := by
  induction l generalizing s full with
  | nil => exact .refl s
  | cons fd l ih =>
    rw [List.foldl_cons]
    split_ifs with hc
    · have hin : (s.taskFdTables (s.currentFiles t) fd).inUse = true := hc.1
      have hv := (closeFd_spec h.used hin).2.1
      have hcur : (s.closeFd (s.currentFiles t) fd).currentFiles t = s.currentFiles t :=
        congrArg (fun ids ↦ (ids t).getD 0) (congrArg View.ids hv)
      rw [sysClose_inUse h.tidy hin]
      intro table' fd' hl hne
      have hother : ¬(table' = s.currentFiles t ∧ fd' = fd) := by
        rintro ⟨rfl, rfl⟩
        exact hne ⟨rfl, hc.2⟩
      have hslot : (s.closeFd (s.currentFiles t) fd).taskFdTables table' fd' =
          s.taskFdTables table' fd' := (tables_of_put hv table' fd').trans (if_neg hother)
      have hrefs : (s.closeFd (s.currentFiles t) fd).taskFdTableRefs = s.taskFdTableRefs :=
        congrArg View.refs hv
      have hlive : (s.closeFd (s.currentFiles t) fd).live table' fd' := by rwa [Fds.live, hslot, hrefs]
      have hrest :=
        ih (h.counted_only.closeFd hin fun hfull ↦ absurd hfull Bool.false_ne_true) table' fd' hlive
          (by simpa only [hcur, hslot] using hne)
      rwa [hslot] at hrest
    · exact ih h

theorem calm_exec (h : s.Inv full) (t : Slot) :
    Calm (fun table fd ↦ table = s.currentFiles t ∧
      isCloexec (s.taskFdTables table fd).flags = true) s (s.closeOnExec t) := by
  refine ⟨?_, .closeOnExec s t⟩
  rw [closeOnExec]
  exact stays_exec h t _

theorem calm_clearSocket (s : Fds) (i : Fin 32) (netlink : Bool) :
    Calm C s (s.clearSocket i netlink) :=
  .of_leaves rfl rfl ⟨fun _ ↦ rfl, rfl, rfl, rfl, id⟩

theorem calm_attach (hfree : (s.files t fd).inUse = false) (i : Fin 32) (side : Bool) (flags : ℕ) :
    Calm C s (s.attach t fd i side flags) :=
  ⟨.of_free (attach_view ..) hfree, ⟨fun _ ↦ rfl, rfl, rfl, rfl, id⟩⟩

theorem calm_socketNew (s : Fds) (t : Slot) (i : Fin 32) (netlink : Bool) (flags : ℕ) :
    Calm C s (s.socketNew t i netlink flags).1 := by
  rw [socketNew]
  obtain ⟨-, hs⟩ | ⟨fd, hfd, hs⟩ := (s.clearSocket i netlink).socketAllocEndpoint_cases t i false flags
  · rw [hs]
    exact calm_clearSocket s i netlink
  · rw [hs]
    exact (calm_clearSocket s i netlink).trans (calm_attach (findFreeFd_some hfd).2 i false flags)

theorem calm_socket (s : Fds) (t : Slot) (domain : ℤ) (type : ℕ) (protocol : ℤ) :
    Calm C s (s.sysSocket t domain type protocol).1 := by
  obtain ⟨rc, hs⟩ | ⟨n, m, i, netlink, flags, -, hs⟩ := s.sysSocket_cases t domain type protocol
  · rw [hs]
    exact .refl s
  · have hstart : Calm C s { s with socketSi := n, netlinkNi := m } := .of_eq rfl rfl rfl
    rw [hs]
    exact hstart.trans (calm_socketNew ..)

theorem unpair_tables (s : Fds) (t : Slot) {a b : ℕ} (i : Fin 32)
    (ha : ¬(table = s.currentFiles t ∧ fd = a)) (hb : ¬(table = s.currentFiles t ∧ fd = b)) :
    (((s.attach t a i false 0).attach t b i true 0).unpair t a b i).taskFdTables table fd =
      s.taskFdTables table fd := by
  by_cases ht : table = s.currentFiles t
  · have ha : fd ≠ a := fun hc ↦ ha ⟨ht, hc⟩
    have hb : fd ≠ b := fun hc ↦ hb ⟨ht, hc⟩
    simp [unpair, attach, Fds.modifySocket, currentFiles, setIo, Io.modifySocket, Fds.hold,
      Io.retainTarget,
      Fds.setSocketSlot, setSlot, Io.setFd, ht, ha, hb]
  · simp [unpair, attach, Fds.modifySocket, currentFiles, setIo, Io.modifySocket, Fds.hold,
      Io.retainTarget,
      Fds.setSocketSlot, setSlot, Io.setFd, show table ≠ (s.taskFdTableId t).getD 0 from ht]

theorem stays_unpair {a b : ℕ} {i : Fin 32} (ha : s.findFreeFd t = some a)
    (hb : (s.attach t a i false 0).findFreeFd t = some b) :
    Stays C s (((s.attach t a i false 0).attach t b i true 0).unpair t a b i) := by
  have hafree := (findFreeFd_some ha).2
  have hbfree := (findFreeFd_some hb).2
  rw [← files, attach_files] at hbfree
  refine .of_eq (fun table hr ↦ hr) fun table fd hl _ ↦ unpair_tables s t i ?_ ?_
  · rintro ⟨rfl, rfl⟩
    simp [live, hafree] at hl
  · rintro ⟨rfl, rfl⟩
    split_ifs at hbfree with hab
    have hin : (s.files t fd).inUse = true := hl.2.2
    simp [hbfree] at hin

theorem calm_socketpair (s : Fds) (t : Slot) (domain : ℤ) (type : ℕ) (sv copied : Bool) :
    Calm C s (s.sysSocketpair t domain type sv copied).1 := by
  obtain ⟨n, rc, hs⟩ | ⟨-, -, -, s₀, hs₀, hcases⟩ := s.sysSocketpair_cases t domain type sv copied
  · rw [hs]
    exact .of_eq rfl rfl rfl
  have hnext : Calm C s { s with pairSi := s.pairSi + 1 } := .of_eq rfl rfl rfl
  have hstart : Calm C s s₀ := by
    rw [hs₀]
    exact hnext.trans (calm_clearSocket ..)
  obtain ⟨-, hs⟩ | ⟨a, s₁, ha, hs₁, hcases⟩ := hcases
  · rw [hs]
    exact hstart
  have hfirst : Calm C s s₁ := by
    rw [hs₁]
    exact hstart.trans (calm_attach (findFreeFd_some ha).2 _ _ _)
  obtain ⟨-, hs⟩ | ⟨b, hb, hs⟩ := hcases
  · rw [hs, hs₁]
    exact hstart.trans ⟨.of_free (detach_view s₀ t a s.pairSlot) (findFreeFd_some ha).2,
      ⟨fun _ ↦ rfl, rfl, rfl, rfl, id⟩⟩
  rw [hs]
  split_ifs
  · exact hfirst.trans (calm_attach (findFreeFd_some hb).2 _ _ _)
  · rw [hs₁] at hb ⊢
    exact hstart.trans ⟨stays_unpair ha hb, ⟨fun _ ↦ rfl, rfl, rfl, rfl, id⟩⟩

theorem calm_adjusts {D : Fin 32 → Prop} (ha : s.Adjusts D s') : Calm C s s' := by
  cases ha with
  | same => exact .refl s
  | bound i path => exact .of_leaves rfl rfl (.modifySocket s i _)
  | listens hi => exact .of_leaves rfl rfl (.modifySocket s _ _)
  | shuts i side => exact .of_leaves rfl rfl ⟨fun _ ↦ rfl, rfl, rfl, rfl, id⟩

theorem calm_connect (s : Fds) (t : Slot) (fd : ℤ) (addr : SockAddr)
    (hC : (s.socketOf t fd).isSome → C (s.currentFiles t) fd.toNat) :
    Calm C s (s.sysConnect t fd addr).1 := by
  obtain ⟨rc, hs⟩ | ⟨old, side, path, li, ni, hold, -, -, -, -, hs⟩ := s.sysConnect_cases t fd addr
  · rw [hs]
    exact .refl s
  · have hview : (s.connectTo t fd.toNat old side li ni).view = s.view.put (s.currentFiles t) fd.toNat
        ⟨true, .socket ni false, 0⟩
          { s.links (s.currentFiles t) fd.toNat with sharedOffset := none } := rfl
    rw [hs]
    exact ⟨.of_put hview fun _ hc ↦ absurd (hC (by rw [hold]; rfl)) hc,
      ⟨fun _ ↦ rfl, rfl, rfl, rfl, id⟩⟩

theorem calm_accept (s : Fds) (t : Slot) (fd : ℤ) (blocks : Bool) (copied : Option Bool) :
    Calm C s (s.sysAccept t fd blocks copied).1 := by
  obtain hs | ⟨li, side, rest, n, i, -, -, -, -, hn, hs⟩ := s.sysAccept_cases t fd blocks copied
  · rw [hs]
    exact .refl s
  · have hslot : Calm C s (s.setSocketSlot t n i true 0) := .setSlot (findFreeFd_some hn).2 _ _
    rw [hs]
    split_ifs
    · exact hslot
    · exact ⟨hslot.stays.trans (.of_tables rfl rfl),
        hslot.leaves.trans ⟨fun _ ↦ rfl, rfl, rfl, rfl, id⟩⟩

theorem stays_eventfd2 (s : Fds) (t : Slot) (initval flags : ℕ) (C : Fin 32 → ℕ → Prop) :
    Stays C s (s.sysEventfd2 t initval flags).1 := by
  rw [sysEventfd2]
  split
  · exact .refl s
  next fd hfd =>
  split
  · exact .refl s
  · exact .of_free rfl (findFreeFd_some hfd).2

theorem stays_timerfdCreate (s : Fds) (t : Slot) (clockid : ℤ) (flags : ℕ) (C : Fin 32 → ℕ → Prop) :
    Stays C s (s.sysTimerfdCreate t clockid flags).1 := by
  rw [sysTimerfdCreate]
  split_ifs
  · exact .refl s
  split
  · exact .refl s
  next fd hfd =>
  split
  · exact .refl s
  · exact .of_free rfl (findFreeFd_some hfd).2

end Fds

end YabroOS
