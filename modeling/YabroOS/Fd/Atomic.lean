import YabroOS.Fd.EndpointRuns

namespace YabroOS

open Function Errno

namespace Fds

variable {s s₁ s' : Fds} {table : Fin 32} {fd : ℕ} {d : FileDesc} {x : FdLinks} {t child : Slot}

/-- The live descriptors are the same, and so are the queues and the counts of the sockets. -/
structure Untouched (s s' : Fds) : Prop where
  live : ∀ table fd, s'.live table fd ↔ s.live table fd
  desc : ∀ table fd, s.live table fd → s'.taskFdTables table fd = s.taskFdTables table fd
  pending : ∀ i, (s'.unixSockets i).pending = (s.unixSockets i).pending
  refs : ∀ i, (s'.unixSockets i).refs = (s.unixSockets i).refs
  sideRefs : ∀ i, (s'.unixSockets i).sideRefs = (s.unixSockets i).sideRefs

/-- A call that fails leaves all that as it was. -/
def Atomic (s : Fds) (r : Fds × ℤ) : Prop := r.2 < 0 → Untouched s r.1

namespace Untouched

theorem refl (s : Fds) : Untouched s s :=
  ⟨fun _ _ ↦ .rfl, fun _ _ _ ↦ rfl, fun _ ↦ rfl, fun _ ↦ rfl, fun _ ↦ rfl⟩

theorem trans (h : Untouched s s₁) (h' : Untouched s₁ s') : Untouched s s' where
  live table fd := (h'.live table fd).trans (h.live table fd)
  desc table fd hl := (h'.desc table fd ((h.live table fd).2 hl)).trans (h.desc table fd hl)
  pending i := (h'.pending i).trans (h.pending i)
  refs i := (h'.refs i).trans (h.refs i)
  sideRefs i := (h'.sideRefs i).trans (h.sideRefs i)

theorem of_eq (hv : s'.view = s.view) (hs : s'.unixSockets = s.unixSockets) : Untouched s s' := by
  have ht : s'.taskFdTables = s.taskFdTables := congrArg View.tables hv
  have hr : s'.taskFdTableRefs = s.taskFdTableRefs := congrArg View.refs hv
  refine ⟨fun table fd ↦ ?_, fun table fd _ ↦ by rw [ht], fun i ↦ by rw [hs], fun i ↦ by rw [hs],
    fun i ↦ by rw [hs]⟩
  rw [Fds.live, Fds.live, ht, hr]

theorem slots_of_put (hv : s'.view = s.view.put table fd d x)
    (hfree : (s.taskFdTables table fd).inUse = false) (hd : d.inUse = false) (table' : Fin 32)
    (fd' : ℕ) :
    (s'.live table' fd' ↔ s.live table' fd') ∧
      (s.live table' fd' → s'.taskFdTables table' fd' = s.taskFdTables table' fd') := by
  have ht := tables_of_put hv table' fd'
  have hr : s'.taskFdTableRefs = s.taskFdTableRefs := congrArg View.refs hv
  refine ⟨?_, fun hl ↦ ?_⟩
  · rw [Fds.live, Fds.live, ht, hr]
    split_ifs with he
    · obtain ⟨rfl, rfl⟩ := he
      simp [hfree, hd]
    · rfl
  · rw [ht, if_neg]
    rintro ⟨rfl, rfl⟩
    simp [Fds.live, hfree] at hl

theorem of_put (hv : s'.view = s.view.put table fd d x) (hs : s'.unixSockets = s.unixSockets)
    (hfree : (s.taskFdTables table fd).inUse = false) (hd : d.inUse = false) : Untouched s s' :=
  ⟨fun table' fd' ↦ (slots_of_put hv hfree hd table' fd').1,
    fun table' fd' ↦ (slots_of_put hv hfree hd table' fd').2,
    fun i ↦ by rw [hs], fun i ↦ by rw [hs], fun i ↦ by rw [hs]⟩

theorem of_start (h : Untouched s₁ s') (hv : s₁.view = s.view)
    (hs : s₁.unixSockets = s.unixSockets) : Untouched s s' :=
  (of_eq hv hs).trans h

theorem of_setSlot (hfree : (s.taskFdTables table fd).inUse = false) (hd : d.inUse = false)
    (x : FdLinks) : Untouched s (s.setSlot table fd d x) :=
  .of_put rfl rfl hfree hd

end Untouched

namespace Atomic

theorem refl (s : Fds) (rc : ℤ) : Atomic s (s, rc) := fun _ ↦ .refl s

theorem of_nonneg {rc : ℤ} (h : 0 ≤ rc) : Atomic s (s', rc) := fun hlt ↦ absurd hlt (not_lt.2 h)

end Atomic

theorem atomic_open (h : s.Inv true) (t : Slot) (path : OpenPath) (flags : ℕ) :
    Atomic s (s.sysOpen t path flags) := by
  have hpath : ∀ path fd, s.findFreeFd t = some fd →
      Atomic s (s.sysOpenResolved (s.currentFiles t) fd flags path) := by
      intro path fd hfd
      obtain ⟨-, hfree⟩ := findFreeFd_some hfd
      have hclosed : Untouched s (s.fdMarkClosed (s.currentFiles t) fd) :=
        .of_put (writes_markClosed h.used _ fd).view
          (congrArg Objects.unixSockets fdMarkClosed_objects) hfree rfl
      have hfailed : Untouched s (openFailed (s.currentFiles t) fd flags s) := .of_setSlot hfree rfl _
      have hopened : ∀ (s₁ : Fds) d x, Atomic s (s₁.opened (s.currentFiles t) fd d x) :=
        fun s₁ d x ↦ .of_nonneg (by simp)
      have hfile : ∀ failed : Fds → Fds, Untouched s (failed s) →
          Atomic s (s.openFile (s.currentFiles t) fd flags failed) := by
        intro failed hf
        obtain hnone | ⟨c, -, hc⟩ := s.allocOpenOffset_cases
        · rw [openFile, hnone]
          exact fun _ ↦ hf
        · rw [openFile, hc]
          exact hopened _ _ _
      cases path with
      | fault => exact .refl s _
      | tooLong => exact .refl s _
      | missing => exact .refl s _
      | dir => exact hopened _ _ _
      | pseudo kind =>
        simp only [sysOpenResolved]
        split_ifs
        · obtain hnone | ⟨j, -, hj⟩ := s.inputStateAlloc_cases kind
          · rw [hnone]
            exact fun _ ↦ hclosed
          · rw [hj]
            exact hopened _ _ _
        · exact hopened _ _ _
      | ptmx =>
        simp only [sysOpenResolved]
        split
        · exact fun _ ↦ hclosed
        · exact hopened _ _ _
      | pts p =>
        simp only [sysOpenResolved]
        split_ifs
        · exact fun _ ↦ hclosed
        · exact fun _ ↦ hclosed
        · exact fun _ ↦ hclosed
        · exact hopened _ _ _
      | bootfs =>
        simp only [sysOpenResolved]
        split_ifs
        · exact .refl s _
        · exact hfile _ hfailed
      | bootFile =>
        simp only [sysOpenResolved]
        split_ifs
        · exact .refl s _
        · exact hfile _ hfailed
      | regular truncates =>
        simp only [sysOpenResolved]
        split_ifs
        · exact .refl s _
        · exact hfile _ hclosed
  cases path with
  | fault => exact .refl s _
  | tooLong => exact .refl s _
  | _ =>
    simp only [Fds.sysOpen]
    split
    · exact .refl s _
    · next fd hfd => exact hpath _ fd hfd

theorem atomic_close (s : Fds) (t : Slot) (fd : ℤ) : Atomic s (s.sysClose t fd) := by
  rw [sysClose]
  split_ifs
  · exact .refl s _
  · exact .of_nonneg le_rfl

theorem atomic_pipe (s : Fds) (t : Slot) (copied : Bool) :
    Atomic s ((s.sysPipe t copied).1, (s.sysPipe t copied).2.1) := by
  rw [sysPipe]
  split
  · exact .refl s _
  next a ha =>
  obtain ⟨-, hafree⟩ := findFreeFd_some ha
  split
  · exact .refl s _
  next b hb =>
  obtain ⟨-, hab, hbfree⟩ := find_range_some hb
  split
  · exact .refl s _
  next p hp =>
  cases copied with
  | true => exact .of_nonneg le_rfl
  | false =>
    have h₁ : Untouched s (s.modifyPipe p (fun _ ↦ ⟨[], 0, 0⟩)) := .of_eq rfl rfl
    have h₂ := h₁.trans
      (.of_setSlot (s := s.modifyPipe p (fun _ ↦ ⟨[], 0, 0⟩)) (d := ⟨false, .pipeR p, 0⟩) hafree rfl
      (s.links (s.currentFiles t) a))
    have hb := (Inv.setSlot_of_ne (s := s.modifyPipe p (fun _ ↦ ⟨[], 0, 0⟩))
      (d := ⟨false, .pipeR p, 0⟩)
      (x := s.links (s.currentFiles t) a) (s.currentFiles t) (show b ≠ a by omega)).1
    exact fun _ ↦ h₂.trans (.of_setSlot (hb ▸ hbfree) rfl _)

theorem atomic_pipe2 (s : Fds) (t : Slot) (copied : Bool) (flags : ℕ) :
    Atomic s (s.sysPipe2 t copied flags) := by
  have h₁ := s.atomic_pipe t copied
  rw [sysPipe2]
  split
  · next s₁ rc hp =>
    rw [hp] at h₁
    exact h₁
  · next s₁ rc a b hp =>
    have hrc : rc = 0 := by
      rw [sysPipe] at hp
      split at hp
      · cases hp
      split at hp
      · cases hp
      split at hp
      · cases hp
      cases copied <;> cases hp
      rfl
    rw [hrc]
    exact .of_nonneg le_rfl

theorem atomic_dupInternal (s : Fds) (t : Slot) (outside : ℤ → Bool) (oldfd minfd : ℤ)
    (cloexec : Bool) : Atomic s (s.sysDupInternal t outside oldfd minfd cloexec) := by
  rw [sysDupInternal]
  by_cases hv : s.fdValid t oldfd = false
  · rw [if_pos hv]
    exact .refl s _
  rw [if_neg hv]
  by_cases hout : (List.range (-minfd).toNat).any (fun i ↦ outside (minfd + i) = false)
  · rw [if_pos hout]
    exact .refl s _
  rw [if_neg hout]
  split
  · exact .refl s _
  · exact .of_nonneg (Int.natCast_nonneg _)

theorem atomic_dup2 (s : Fds) (t : Slot) (oldfd newfd : ℤ) :
    Atomic s (s.sysDup2 t oldfd newfd) := by
  rw [sysDup2]
  split_ifs with h₁ h₂
  · exact .refl s _
  · exact .refl s _
  · exact .of_nonneg (by simp only [not_or, not_lt] at h₁; exact h₁.2.1)

theorem atomic_dup3 (s : Fds) (t : Slot) (oldfd newfd : ℤ) (flags : ℕ) :
    Atomic s (s.sysDup3 t oldfd newfd flags) := by
  rw [sysDup3]
  split_ifs with h₀ h₁ h₂
  · exact .refl s _
  · exact .refl s _
  · exact .refl s _
  · exact .of_nonneg (by simp only [not_or, not_lt] at h₁; exact h₁.2.1)

theorem atomic_fcntl (s : Fds) (t : Slot) (outside : ℤ → Bool) (fd cmd : ℤ) (arg : UInt64) :
    Atomic s (s.sysFcntl t outside fd cmd arg) := by
  simp only [sysFcntl]
  split_ifs
  · exact .refl s _
  · exact s.atomic_dupInternal t outside fd _ _
  · exact .refl s _
  · exact .refl s _
  · exact .of_nonneg le_rfl
  · exact .of_nonneg le_rfl
  · exact .refl s _
  · exact .of_nonneg le_rfl
  · exact s.atomic_dupInternal t outside fd _ _
  · exact .refl s _

theorem atomic_epollCreate1 (s : Fds) (t : Slot) (flags : ℕ) :
    Atomic s (s.sysEpollCreate1 t flags) := by
  rw [sysEpollCreate1]
  split_ifs
  · exact .refl s _
  split
  · exact .refl s _
  split
  · exact .refl s _
  · exact .of_nonneg (Int.natCast_nonneg _)

theorem holders_side (s : Fds) (i : Fin 32) (b : Bool) :
    s.view.holders (.side i b) = ∑ table : Fin 32, ∑ fd ∈ Finset.range maxFiles,
      if s.live table fd then hits (s.taskFdTables table fd).target.endpoint (.side i b) else 0 := by
  refine Finset.sum_congr rfl fun table _ ↦ ?_
  have hslot : ∀ fd, s.view.slotHolds table fd (.side i b) =
      if (s.taskFdTables table fd).inUse = true then
        hits (s.taskFdTables table fd).target.endpoint (.side i b) else 0 := by
    intro fd
    cases hin : (s.taskFdTables table fd).inUse with
    | false => simp [slotHolds_of_free hin]
    | true =>
      have h₁ : hits (s.taskFdTables table fd).target.epollObj (.side i b) = 0 := by
        cases (s.taskFdTables table fd).target <;> simp [hits, Target.epollObj]
      have h₂ : hits ((s.links table fd).sharedOffset.map .cell) (.side i b) = 0 := by
        cases (s.links table fd).sharedOffset <;> simp [hits]
      have h₃ : hits ((s.links table fd).inputState.map .input) (.side i b) = 0 := by
        cases (s.links table fd).inputState <;> simp [hits]
      rw [slotHolds_of_inUse hin, h₁, h₂, h₃]
      simp
  by_cases hr : s.taskFdTableRefs table = 0
  · rw [if_pos (show s.view.refs table = 0 from hr)]
    exact (Finset.sum_eq_zero fun fd _ ↦ if_neg fun hl ↦ hl.1 hr).symm
  · rw [if_neg (show ¬ s.view.refs table = 0 from hr)]
    refine Finset.sum_congr rfl fun fd hfd ↦ ?_
    rw [hslot]
    refine if_congr ⟨fun hin ↦ ⟨hr, Finset.mem_range.1 hfd, hin⟩, fun hl ↦ hl.2.2⟩ rfl rfl

theorem untouched_of_inv (h : s.Inv true) (h' : s'.Inv true)
    (hl : ∀ table fd, s'.live table fd ↔ s.live table fd)
    (hd : ∀ table fd, s.live table fd → s'.taskFdTables table fd = s.taskFdTables table fd)
    (hp : ∀ i, (s'.unixSockets i).pending = (s.unixSockets i).pending) : Untouched s s' := by
  have hside : ∀ i b, (s'.unixSockets i).sideRefs b = (s.unixSockets i).sideRefs b := by
    intro i b
    have h₁ : (s.unixSockets i).sideRefs b = _ := h.count (.side i b) fun _ ↦ rfl
    have h₂ : (s'.unixSockets i).sideRefs b = _ := h'.count (.side i b) fun _ ↦ rfl
    have hh : s'.view.holders (.side i b) = s.view.holders (.side i b) := by
      rw [holders_side, holders_side]
      refine Finset.sum_congr rfl fun table _ ↦ Finset.sum_congr rfl fun fd _ ↦ ?_
      by_cases hlive : s.live table fd
      · rw [if_pos hlive, if_pos ((hl table fd).2 hlive), hd table fd hlive]
      · rw [if_neg hlive, if_neg fun hc ↦ hlive ((hl table fd).1 hc)]
    have hw : s'.waiting (.side i b) = s.waiting (.side i b) := by
      cases b
      · rfl
      · exact Finset.sum_congr rfl fun li _ ↦ by rw [hp]
    rw [h₁, h₂, hh, hw]
  refine ⟨hl, hd, hp, fun i ↦ ?_, fun i ↦ funext (hside i)⟩
  rw [(h.whole rfl i).refs, (h'.whole rfl i).refs, hside, hside]

theorem release_copy {destination : Fin 32} (hd : destination ≠ 0)
    (hz : s.taskFdTableRefs destination = 0) (hu : s'.Used)
    (hid : s'.taskFdTableId child = some destination)
    (hr : s'.taskFdTableRefs = update s.taskFdTableRefs destination 1)
    (ht : ∀ table fd, table ≠ destination → s'.taskFdTables table fd = s.taskFdTables table fd)
    (table : Fin 32) (fd : ℕ) :
    ((s'.taskFdTableRelease child).live table fd ↔ s.live table fd) ∧
      (s.live table fd →
        (s'.taskFdTableRelease child).taskFdTables table fd = s.taskFdTables table fd) := by
  have hone : s'.taskFdTableRefs destination = 1 := by rw [hr, update_self]
  obtain ⟨s₂, hs₂⟩ : ∃ s₂, s₂ = (List.range maxFiles).foldl (releaseFd destination)
      (s'.leaving child destination) :=
    ⟨_, rfl⟩
  obtain ⟨-, he, -, hrefs, -⟩ := releaseAll_spec hu child destination hs₂
  rw [taskFdTableRelease_last hid hone, ← hs₂, if_neg hd]
  rw [hone, hr, update_idem] at hrefs
  by_cases hne : table = destination
  · subst hne
    have h₁ : ¬ s₂.live table fd := fun hl ↦ hl.1 (by rw [hrefs, update_self])
    have h₂ : ¬ s.live table fd := fun hl ↦ hl.1 hz
    exact ⟨iff_of_false h₁ h₂, fun hl ↦ absurd hl h₂⟩
  · have hslot : s₂.taskFdTables table fd = s.taskFdTables table fd :=
      (he.other table fd (.inl hne)).1.trans (ht table fd hne)
    refine ⟨?_, fun _ ↦ hslot⟩
    rw [Fds.live, Fds.live, hslot, hrefs, update_of_ne hne]

theorem release_shared {source : Fin 32} (ho : Owned s.taskFdTableId s.taskFdTableRefs)
    (hr : s.taskFdTableRefs source ≠ 0) (hid : s'.taskFdTableId child = some source)
    (hrefs : s'.taskFdTableRefs = update s.taskFdTableRefs source (s.taskFdTableRefs source + 1))
    (ht : s'.taskFdTables = s.taskFdTables) (table : Fin 32) (fd : ℕ) :
    ((s'.taskFdTableRelease child).live table fd ↔ s.live table fd) ∧
      (s.live table fd →
        (s'.taskFdTableRelease child).taskFdTables table fd = s.taskFdTables table fd) := by
  have hleft : (s'.leaving child source).taskFdTableRefs = s.taskFdTableRefs := by
    simp [leaving, setIo, hrefs]
  rw [taskFdTableRelease_shared hid (by rw [hrefs, update_self]; omega)]
  split_ifs
  · refine ⟨?_, fun _ ↦ congrFun (congrFun ht table) fd⟩
    have hlive :
        ((s'.leaving child source).rejoin
          ((s'.leaving child source).taskFdTableRefs 0 + 1)).taskFdTableRefs table =
        0 ↔ s.taskFdTableRefs table = 0 := by
      by_cases h0 : table = 0
      · subst h0
        simp [rejoin, setIo, ho.root_live]
      · simp [rejoin, setIo, h0, hleft]
    rw [Fds.live, Fds.live, ne_eq, hlive]
    exact and_congr_right fun _ ↦ and_congr_right fun _ ↦ by
      rw [show ((s'.leaving child source).rejoin _).taskFdTables = s'.taskFdTables from rfl, ht]
  · refine ⟨?_, fun _ ↦ congrFun (congrFun ht table) fd⟩
    rw [Fds.live, Fds.live, hleft, show (s'.leaving child source).taskFdTables =
      s'.taskFdTables from rfl, ht]

theorem untouched_release (s₂ : Fds) (h : s.Inv true) {parent : Slot} {shareFiles : Bool}
    (hs : s.taskFdTableClone parent child shareFiles = some s') (hv : s₂.view = s'.view)
    (hsock : s₂.unixSockets = s'.unixSockets) (h₂ : s₂.Inv true)
    (hsp : ∀ table, s₂.taskFdTableId child = some table → s₂.taskFdTableRefs table = 1 →
      ∀ j, s₂.Spares j (s₂.view.socketHolds table j)) :
    Untouched s (s₂.taskFdTableRelease child) := by
  have hrel := h₂.taskFdTableRelease child fun _ ↦ hsp
  have hkeep := h₂.keeps_taskFdTableRelease rfl child hsp
  have hids : s₂.taskFdTableId = s'.taskFdTableId := congrArg View.ids hv
  have hrefs : s₂.taskFdTableRefs = s'.taskFdTableRefs := congrArg View.refs hv
  have htables : s₂.taskFdTables = s'.taskFdTables := congrArg View.tables hv
  obtain ⟨-, hclone, source, -, hlive, hcases⟩ := h.taskFdTableClone hs
  have hpend : ∀ j, ((s₂.taskFdTableRelease child).unixSockets j).pending =
      (s.unixSockets j).pending := fun j ↦ by
    rw [hkeep.pending, hsock, (hclone rfl).pending]
  have hslots : ∀ table fd, ((s₂.taskFdTableRelease child).live table fd ↔ s.live table fd) ∧
      (s.live table fd →
        (s₂.taskFdTableRelease child).taskFdTables table fd = s.taskFdTables table fd) := by
    obtain ⟨-, rfl⟩ | ⟨-, destination, -, hd, hz, hcopy⟩ := hcases
    · refine release_shared h.tidy.owned hlive ?_ hrefs htables
      rw [hids]
      exact update_self ..
    · refine release_copy hd hz h₂.used ?_ (hrefs.trans hcopy.refs) fun table fd hne ↦ ?_
      · rw [hids, show s'.taskFdTableId = _ from hcopy.ids]
        exact update_self ..
      · rw [htables, show s'.taskFdTables table fd = _ from hcopy.tables table fd,
          if_neg fun hc ↦ hne hc.1]
        rfl
  exact untouched_of_inv h hrel (fun table fd ↦ (hslots table fd).1)
    (fun table fd ↦ (hslots table fd).2) hpend

theorem atomic_clone (h : s.Inv true) (t : Slot) (shareFiles copied : Bool) :
    Atomic s ((s.sysClone t shareFiles copied).1, (s.sysClone t shareFiles copied).2.1) := by
  obtain ⟨n, rc, hs⟩ | ⟨child, s', hs', hs⟩ := s.sysClone_cases t shareFiles copied
  · rw [hs]
    exact fun _ ↦ .of_eq rfl rfl
  · have h₁ : ({ s with nextPid := s.nextPid + 1 } : Fds).Inv true := h.tasks (s.nextPid + 1) s.used
    rw [hs]
    cases copied with
    | true => exact .of_nonneg (by simp)
    | false =>
      intro _
      have hrel :=
        untouched_release s' h₁ hs' rfl rfl (h₁.taskFdTableClone hs').1 (h₁.spares_child rfl hs')
      exact hrel.of_start rfl rfl

theorem atomic_fork (h : s.Inv true) (t : Slot) (cloned : Bool) :
    Atomic s (s.sysFork t cloned) := by
  obtain ⟨n, rc, hs⟩ | ⟨child, s', hs', hs⟩ := s.sysClone_cases t false true
  · rw [sysFork, hs]
    exact fun _ ↦ .of_eq rfl rfl
  · have h₁ : ({ s with nextPid := s.nextPid + 1 } : Fds).Inv true := h.tasks (s.nextPid + 1) s.used
    rw [sysFork, hs]
    cases cloned with
    | true => exact .of_nonneg (by simp)
    | false =>
      intro _
      have hrel := untouched_release { s' with used := update s'.used child true } h₁ hs' rfl rfl
        ((h₁.taskFdTableClone hs').1.tasks s'.nextPid (update s'.used child true))
        (fun table hid hr j ↦ h₁.spares_child rfl hs' table hid hr j)
      exact ⟨hrel.live, hrel.desc, hrel.pending, hrel.refs, hrel.sideRefs⟩

end Fds

end YabroOS
