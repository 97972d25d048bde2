import YabroOS.Fd.Endpoints

namespace YabroOS

open Function Errno

namespace Fds

variable {full : Bool} {s s₁ s' : Fds} {table : Fin 32} {fd src : ℕ} {d : FileDesc} {x : FdLinks}
  {o : Obj} {t i : Slot}

theorem allocOpenOffset_cases (s : Fds) :
    s.allocOpenOffset = (s, none) ∨ ∃ c, (s.openDescs c).used = false ∧
      s.allocOpenOffset = ({ s with openDescs := update s.openDescs c ⟨1, true⟩ }, some c) := by
  rw [allocOpenOffset]
  split
  · exact .inl rfl
  · next c hc => exact .inr ⟨c, firstFree_decide hc, rfl⟩

theorem inputStateAlloc_cases (s : Fds) (kind : ℕ) :
    s.inputStateAlloc kind = (s, none) ∨ ∃ j, (s.inputOpenStates j).used = false ∧
      s.inputStateAlloc kind =
        ({ s with inputOpenStates := update s.inputOpenStates j ⟨true, 1, kind⟩ }, some j) := by
  rw [inputStateAlloc]
  split
  · exact .inl rfl
  · next j hj => exact .inr ⟨j, firstFree_decide hj, rfl⟩

theorem findFreeFd_some (h : s.findFreeFd t = some fd) :
    fd < maxFiles ∧ (s.taskFdTables (s.currentFiles t) fd).inUse = false := by
  unfold findFreeFd at h
  have h := find_range_some h
  exact h

theorem sysClose_of_valid {fd : ℤ} (hv : s.fdValid t fd = true) :
    (s.sysClose t fd).1 = s.closeFd (s.currentFiles t) fd.toNat := by
  simp [sysClose, hv]

theorem sysClose_inUse (h : s.view.Tidy) (hin : (s.files t fd).inUse = true) :
    (s.sysClose t fd).1 = s.closeFd (s.currentFiles t) fd :=
  sysClose_of_valid (fdValid_iff.2 ⟨Int.natCast_nonneg fd, by exact_mod_cast (h.live hin).2, hin⟩)

/-- What a call leaves that duplicates a descriptor: the state before, other flags of one number, or
a copy of an open number at a free one, which `C` may have closed first. -/
inductive Duplicates (s : Fds) (t : Slot) (C : ℤ → Prop) : Fds → Prop
  | same : Duplicates s t C s
  | flags (fd : ℕ) (g : ℕ → ℕ) : Duplicates s t C (s.setFlags (s.currentFiles t) fd g)
  | copy {src dst : ℕ} (hin : (s.files t src).inUse = true) (hfree : (s.files t dst).inUse = false)
      (hdst : dst < maxFiles) (f : ℕ → ℕ) :
      Duplicates s t C
        ((s.fdCopyScalar (s.currentFiles t) src dst f).fdRetainEndpointRef (s.currentFiles t) dst)
  | closing {r : Fds} {src : ℕ} {newfd : ℤ} (hC : C newfd) (hv : s.fdValid t newfd = true)
      (hr : r = s.closeFd (s.currentFiles t) newfd.toNat)
      (hin : (r.taskFdTables (s.currentFiles t) src).inUse = true)
      (hfree : (r.taskFdTables (s.currentFiles t) newfd.toNat).inUse = false) (f : ℕ → ℕ) :
      Duplicates s t C
        ((r.fdCopyScalar (s.currentFiles t) src newfd.toNat f).fdRetainEndpointRef
          (s.currentFiles t) newfd.toNat)

section Duplicates

theorem sysDupInternal_duplicates (s : Fds) (t : Slot) (outside : ℤ → Bool) (oldfd minfd : ℤ)
    (cloexec : Bool) :
    Duplicates s t (fun _ ↦ False) (s.sysDupInternal t outside oldfd minfd cloexec).1 := by
  rw [sysDupInternal]
  by_cases hv : s.fdValid t oldfd = false
  · rw [if_pos hv]
    exact .same
  rw [if_neg hv]
  by_cases hout : (List.range (-minfd).toNat).any (fun i ↦ outside (minfd + i) = false)
  · rw [if_pos hout]
    exact .same
  rw [if_neg hout]
  split
  · exact .same
  · next n hn =>
    obtain ⟨hmax, hfree⟩ := find_range_some hn
    exact .copy (fdValid_iff.1 (Bool.not_eq_false _ ▸ hv)).2.2 hfree.2 hmax _

theorem sysFcntl_duplicates (s : Fds) (t : Slot) (outside : ℤ → Bool) (fd cmd : ℤ) (arg : UInt64) :
    Duplicates s t (fun _ ↦ False) (s.sysFcntl t outside fd cmd arg).1 := by
  simp only [sysFcntl]
  split_ifs
  · exact .same
  · exact s.sysDupInternal_duplicates t outside fd _ false
  · exact .same
  · exact .same
  · dsimp only
    exact .flags fd.toNat _
  · dsimp only
    exact .flags fd.toNat _
  · exact .same
  · dsimp only
    exact .flags fd.toNat _
  · exact s.sysDupInternal_duplicates t outside fd _ true
  · exact .same

variable {C : ℤ → Prop}

theorem dupOver_duplicates (h : s.Used) (t : Slot) {oldfd newfd : ℤ} (flags : ℕ)
    (hargs : ¬(s.fdValid t oldfd = false ∨ newfd < 0 ∨ maxFiles ≤ newfd)) (hne : oldfd ≠ newfd)
    (hC : s.fdValid t oldfd = true → C newfd) :
    Duplicates s t C (s.dupOver t oldfd newfd flags).1 := by
  simp only [not_or, Bool.not_eq_false, not_lt, not_le] at hargs
  obtain ⟨hold, hnew, hmax⟩ := hargs
  obtain ⟨hpos, -, hin⟩ := fdValid_iff.1 hold
  rw [dupOver]
  split_ifs with hbusy
  · have hv := (closeFd_spec h hbusy).2.1
    have hvalid : s.fdValid t newfd = true := fdValid_iff.2 ⟨hnew, hmax, hbusy⟩
    have htables := tables_of_put hv
    refine .closing (hC hold) hvalid (sysClose_of_valid hvalid) ?_ ?_ _
    · rw [sysClose_of_valid hvalid, htables, if_neg fun hc ↦ hne (by omega)]
      exact hin
    · rw [sysClose_of_valid hvalid, htables, if_pos ⟨rfl, rfl⟩]
      rfl
  · exact .copy hin (by simpa using hbusy) (by omega) _

theorem sysDup2_duplicates (h : s.Used) (t : Slot) (oldfd newfd : ℤ)
    (hC : s.fdValid t oldfd = true → oldfd ≠ newfd → C newfd) :
    Duplicates s t C (s.sysDup2 t oldfd newfd).1 := by
  rw [sysDup2]
  split_ifs with h₁ h₂
  · exact .same
  · exact .same
  · exact dupOver_duplicates h t 0 h₁ h₂ fun hold ↦ hC hold h₂

theorem sysDup3_duplicates (h : s.Used) (t : Slot) (oldfd newfd : ℤ) (flags : ℕ)
    (hC : flags &&& 0xFFF7FFFF = 0 → s.fdValid t oldfd = true → oldfd ≠ newfd → C newfd) :
    Duplicates s t C (s.sysDup3 t oldfd newfd flags).1 := by
  rw [sysDup3]
  split_ifs with h₀ h₁ h₂
  · exact .same
  · exact .same
  · exact .same
  · exact dupOver_duplicates h t flags h₁ h₂ fun hold ↦ hC (not_not.1 h₀) hold h₂

end Duplicates

def execSlot (s : Fds) (t : Slot) (i : Fin 32) (fd : ℕ) : ℕ :=
  if (s.files t fd).inUse ∧ isCloexec (s.files t fd).flags then
    s.view.slotHolds (s.currentFiles t) fd (.side i false) + s.view.slotHolds (s.currentFiles t) fd
      (.side i true)
  else 0

def execHolds (s : Fds) (t : Slot) (i : Fin 32) : ℕ :=
  ((List.range maxFiles).map (execSlot s t i)).sum

theorem sysClone_cases (s : Fds) (t : Slot) (shareFiles copied : Bool) :
    (∃ n rc, s.sysClone t shareFiles copied = ({ s with nextPid := n }, rc, none)) ∨
      ∃ child s', ({ s with nextPid := s.nextPid + 1 } : Fds).taskFdTableClone t child shareFiles =
        some s' ∧ s.sysClone t shareFiles copied =
          if copied then ({ s' with used := update s'.used child true },
            ((s.nextPid + 1 : ℕ) : ℤ) - 1, some child)
          else (s'.taskFdTableRelease child, -efault, none) := by
  cases hc : firstFree (fun i ↦ s.used i = false) with
  | none => exact .inl ⟨s.nextPid, -enomem, by rw [Fds.sysClone, hc]⟩
  | some child =>
    cases hs : ({ s with nextPid := s.nextPid + 1 } : Fds).taskFdTableClone t child shareFiles with
    | none =>
      refine .inl ⟨s.nextPid + 1, -emfile, ?_⟩
      rw [Fds.sysClone, hc]
      dsimp only
      rw [hs]
    | some s' =>
      refine .inr ⟨child, s', hs, ?_⟩
      rw [Fds.sysClone, hc]
      dsimp only
      rw [hs]

namespace Inv

theorem fill (h : s.Inv full) (hu : s₁.Used) (hv : s₁.view = s.view)
    (hlive : s.taskFdTableRefs table ≠ 0) (hfd : fd < maxFiles)
    (hfree : (s.taskFdTables table fd).inUse = false)
    (hx : x.sharedOffset = none ∧ x.inputState = none)
    (hc : ∀ o, o.Seen full → s₁.count o = s.count o + d.holds x o) (hk : full = true → Keeps s s₁) :
    (s₁.setSlot table fd d x).Inv full := by
  have hw := writes_setSlot hu table fd d x
  refine h.write hw.used (hv ▸ hw.view) hlive hfd (fun _ ↦ hx) (.inl hx.1) (fun o ho ↦ ?_) fun hf ↦
    (hk hf).trans (.same rfl rfl rfl)
  rw [hw.count, hc o ho, slotHolds_of_free hfree, Nat.add_zero]

theorem opened (h : s.Inv full) (hu : s₁.Used) (hv : s₁.view = s.view)
    (hlive : s.taskFdTableRefs table ≠ 0) (hfd : fd < maxFiles)
    (hfree : (s.taskFdTables table fd).inUse = false) (hd : d.inUse = true)
    (ht : ∀ i b, d.target ≠ .socket i b)
    (hx : x.sharedOffset = none ∨ ∀ table' fd', (s.links table' fd').sharedOffset ≠ x.sharedOffset)
    (hc : ∀ o, o.Seen full → s₁.count o = s.count o + d.holds x o) (hk : full = true → Keeps s s₁) :
    (s₁.opened table fd d x).1.Inv full := by
  have hview : (s₁.opened table fd d x).1.view = s.view.putNew table fd d x := hv ▸ rfl
  have hk : full = true → Keeps s (s₁.opened table fd d x).1 :=
    fun hf ↦ (hk hf).trans (.same rfl rfl rfl)
  refine ⟨⟨hu.cell, hu.input, hu.epoll⟩, hview ▸ h.tidy.putNew hlive hfd hd ht hx, fun o ho ↦ ?_,
    fun hf ↦ (hk hf).whole (h.whole hf)⟩
  have hp := View.put_holders (v := s.view) (d := d) (x := x) (o := o) hlive hfd
  have hcount : (s₁.opened table fd d x).1.count o = s₁.count o := by cases o <;> rfl
  have := h.count o ho
  rw [slotHolds_of_free hfree] at hp
  rw [hview, View.putNew_holders, hcount, hc o ho, waiting_seen hk ho]
  omega

theorem dup_objects (h : s.Inv full) (hin : (s.taskFdTables table src).inUse = true) (dst : ℕ)
    (flags : ℕ → ℕ) :
    ((s.fdCopyScalar table src dst flags).fdRetainEndpointRef table dst).objects =
      (s.setIo (s.toIo.retainTarget (s.taskFdTables table src).target)).objects := by
  have hslot : (s.fdCopyScalar table src dst flags).taskFdTables table dst =
      { s.taskFdTables table src with flags := flags (s.taskFdTables table src).flags } := by
    have hw := dupFd_spec h.used table src dst flags hin (h.copyable hin)
    have := tables_of_put hw.view table dst
    rw [if_pos ⟨rfl, rfl⟩] at this
    rw [← this]
    simp only [fdRetainEndpointRef]
    split_ifs
    · cases ((s.fdCopyScalar table src dst flags).taskFdTables table dst).target <;> rfl
    · rfl
  rw [fdRetainEndpointRef, hslot, if_pos hin]
  exact objects_retainTarget (fdCopyScalar_objects src dst flags) _

theorem keeps_dup (h : s.Inv full) (hf : full = true)
    (hin : (s.taskFdTables table src).inUse = true) (dst : ℕ) (flags : ℕ → ℕ) :
    Keeps s ((s.fdCopyScalar table src dst flags).fdRetainEndpointRef table dst) := by
  have hend := h.dup_objects hin dst flags
  exact h.keeps_retainTarget hf hin (congrArg Objects.unixSockets hend) (congrArg Objects.held hend)
    (congrArg Objects.shut hend)

theorem dup (h : s.Inv full) {dst : ℕ} (hin : (s.taskFdTables table src).inUse = true)
    (hfree : (s.taskFdTables table dst).inUse = false) (hdst : dst < maxFiles) (flags : ℕ → ℕ) :
    ((s.fdCopyScalar table src dst flags).fdRetainEndpointRef table dst).Inv full := by
  have hw := dupFd_spec h.used table src dst flags hin (h.copyable hin)
  refine h.write hw.used hw.view (h.tidy.live hin).1 hdst (h.tidy.bare table src)
    (.inr ⟨table, src, rfl⟩) (fun o _ ↦ ?_) fun hf ↦ h.keeps_dup hf hin dst flags
  rw [hw.count, slotHolds_of_free hfree]
  rfl

theorem setFlags (h : s.Inv full) (table : Fin 32) (fd : ℕ) (g : ℕ → ℕ) :
    (s.setFlags table fd g).Inv full := by
  have hview : (s.setFlags table fd g).view = s.view.put table fd
      { s.taskFdTables table fd with flags := g (s.taskFdTables table fd).flags }
        (s.links table fd) := by
    rw [view, View.put]
    simp only [view, update_eq_self]
    rfl
  refine ⟨⟨h.used.cell, h.used.input, h.used.epoll⟩, ?_, fun o ho ↦ ?_, h.whole⟩
  · rw [hview]
    exact h.tidy.put h.tidy.live (h.tidy.bare table fd) (.inr ⟨table, fd, rfl⟩)
  · have hcount : (s.setFlags table fd g).count o = s.count o := by cases o <;> rfl
    have hwait : (s.setFlags table fd g).waiting o = s.waiting o :=
      Keeps.waiting (.same rfl rfl rfl) o
    rw [hcount, h.count o ho, hview, hwait]
    refine congrArg (· + s.waiting o) (View.holders_congr (by rfl) fun table' fd' ↦ ?_).symm
    rw [View.put_slotHolds]
    split_ifs with he
    · obtain ⟨rfl, rfl⟩ := he
      rfl
    · rfl

theorem duplicates {C : ℤ → Prop} (h : s.Inv full) (hd : Duplicates s t C s')
    (hs : full = true → ∀ fd, C fd → ∀ i b, s.target? t fd = some (.socket i b) → s.Spares i 1) :
    s'.Inv full := by
  cases hd with
  | same => exact h
  | flags fd g => exact h.setFlags (s.currentFiles t) fd g
  | copy hin hfree hdst f => exact h.dup hin hfree hdst f
  | @closing _ _ newfd hC hv hr hin hfree f =>
    subst hr
    have hbusy := fdValid_iff.1 hv
    refine (h.closeFd hbusy.2.2 fun hf i b ht ↦ hs hf newfd hC i b ?_).dup hin hfree (by omega) f
    rw [target?, if_pos hv, files, ht]

theorem closeFd_refs (h : s.Inv full) (hf : full = true)
    (hin : (s.taskFdTables table fd).inUse = true)
    (hs : ∀ i b, (s.taskFdTables table fd).target = .socket i b → s.Spares i 1) (i : Fin 32) :
    ((s.closeFd table fd).unixSockets i).refs + (s.view.slotHolds table fd (.side i false) +
      s.view.slotHolds table fd (.side i true)) = (s.unixSockets i).refs := by
  have h' := h.closeFd hin fun _ ↦ hs
  have hside : ∀ b, ((s.closeFd table fd).unixSockets i).sideRefs b +
      s.view.slotHolds table fd (.side i b) = (s.unixSockets i).sideRefs b := by
    intro b
    have hle : _ ≤ (s.unixSockets i).sideRefs b :=
      h.slotHolds_le_count (o := .side i b) hin fun _ ↦ hf
    obtain hc | ⟨⟨p, hp⟩, -⟩ := (closeFd_spec h.used hin).2.2 (.side i b)
    · change ((s.closeFd table fd).unixSockets i).sideRefs b = (s.unixSockets i).sideRefs b - _ at hc
      omega
    · simp at hp
  have h₁ := hside false
  have h₂ := hside true
  have h₃ := (h.whole hf i).refs
  have h₄ := (h'.whole hf i).refs
  omega

theorem execSlot_closeFd (h : s.Used) (hin : (s.taskFdTables (s.currentFiles t) fd).inUse = true)
    {fd' : ℕ} (hne : fd' ≠ fd) (i : Fin 32) :
    execSlot (s.closeFd (s.currentFiles t) fd) t i fd' = execSlot s t i fd' := by
  have hv := (closeFd_spec h hin).2.1
  have hcur : (s.closeFd (s.currentFiles t) fd).currentFiles t = s.currentFiles t :=
    congrArg (fun ids ↦ (ids t).getD 0) (congrArg View.ids hv)
  have hfile : (s.closeFd (s.currentFiles t) fd).files t fd' = s.files t fd' := by
    rw [files, hcur, tables_of_put hv, if_neg fun hc ↦ hne hc.2]
    rfl
  have hslot : ∀ o, (s.closeFd (s.currentFiles t) fd).view.slotHolds (s.currentFiles t) fd' o =
      s.view.slotHolds (s.currentFiles t) fd' o := by
    intro o
    rw [hv, View.put_slotHolds, if_neg fun hc ↦ hne hc.2]
  rw [execSlot, execSlot, hfile, hcur, hslot, hslot]

theorem closeOnExec_loop (h : s.Inv full) (t : Slot) {l : List ℕ} (hl : l.Nodup)
    (hs : full = true → ∀ i, s.Spares i ((l.map (execSlot s t i)).sum)) :
    (l.foldl (fun s fd ↦
      if (s.files t fd).inUse ∧ isCloexec (s.files t fd).flags then (s.sysClose t fd).1 else s)
        s).Inv full := by
  induction l generalizing s with
  | nil => exact h
  | cons fd l ih =>
    obtain ⟨hfd, hl⟩ := List.nodup_cons.1 hl
    simp only [List.map_cons, List.sum_cons] at hs
    rw [List.foldl_cons]
    split_ifs with hc
    · have hin : (s.taskFdTables (s.currentFiles t) fd).inUse = true := hc.1
      -- The first descriptor of the loop holds one reference of its socket.
      have hone : full = true → ∀ i b, (s.taskFdTables (s.currentFiles t) fd).target = .socket i b →
          s.Spares i 1 := by
        intro hf i b ht
        have hslot : s.view.slotHolds (s.currentFiles t) fd (.side i b) ≠ 0 := by
          rw [slotHolds_of_inUse hin, ht, Target.endpoint, hits_self]
          omega
        refine (hs hf i).imp id fun hlt ↦ ?_
        rw [execSlot, if_pos hc] at hlt
        cases b <;> omega
      have hrest : ∀ i, l.map (execSlot (s.closeFd (s.currentFiles t) fd) t i) =
          l.map (execSlot s t i) := by
        refine fun i ↦ List.map_congr_left fun fd' h' ↦ ?_
        exact execSlot_closeFd h.used hin (by rintro rfl; exact hfd h') i
      rw [sysClose_inUse h.tidy hin]
      refine ih (h.closeFd hin hone) hl fun hf i ↦ ?_
      have hk : Keeps s (s.closeFd (s.currentFiles t) fd) := by
        obtain ⟨h₁, h₂, h₃⟩ := closeFd_sockets s (s.currentFiles t) fd
        exact h.keeps_dropTarget hf hin (hone hf) h₁ h₂ h₃
      have hrefs := h.closeFd_refs hf hin (hone hf) i
      rw [Spares, hk.pending i, hrest]
      refine (hs hf i).imp id fun hlt ↦ ?_
      rw [execSlot, if_pos hc] at hlt
      omega
    · refine ih h hl fun hf i ↦ (hs hf i).imp id fun hlt ↦ ?_
      omega

theorem closeOnExec (h : s.Inv full) (t : Slot)
    (hs : full = true → ∀ i, s.Spares i (execHolds s t i)) : (s.closeOnExec t).Inv full := by
  rw [Fds.closeOnExec]
  exact h.closeOnExec_loop t List.nodup_range hs

theorem fdMarkClosed (h : s.Inv full) (hlive : s.taskFdTableRefs table ≠ 0) (hfd : fd < maxFiles)
    (hfree : (s.taskFdTables table fd).inUse = false) : (s.fdMarkClosed table fd).Inv full := by
  have hw := writes_markClosed h.used table fd
  refine h.write hw.used hw.view hlive hfd (fun _ ↦ ⟨rfl, rfl⟩) (.inl rfl) (fun o _ ↦ ?_) fun _ ↦
    .same (congrArg Objects.unixSockets fdMarkClosed_objects)
      (congrArg Objects.held fdMarkClosed_objects)
      (congrArg Objects.shut fdMarkClosed_objects)
  rw [hw.count, (h.links_of_free hfree).2, slotHolds_of_free hfree, FileDesc.holds_free rfl]
  rfl

theorem openFailed (h : s.Inv full) (hlive : s.taskFdTableRefs table ≠ 0) (hfd : fd < maxFiles)
    (hfree : (s.taskFdTables table fd).inUse = false) (flags : ℕ) :
    (Fds.openFailed table fd flags s).Inv full :=
  h.fill h.used rfl hlive hfd hfree (h.links_of_free hfree)
    (fun _ _ ↦ by rw [FileDesc.holds_free rfl, Nat.add_zero])
    fun _ ↦ .same rfl rfl rfl

theorem cell_free (h : s.Inv full) {c : Fin 512} (hz : s.count (.cell c) = 0) (table : Fin 32)
    (fd : ℕ) : (s.links table fd).sharedOffset ≠ some c := by
  intro hc
  have hin : (s.taskFdTables table fd).inUse = true := h.tidy.inUse_of_cell (by simp [view, hc])
  refine (h.count_pos (o := .cell c) hin rfl ?_).1 hz
  rw [slotHolds_of_inUse hin, hc, Option.map_some, hits_self]
  omega

theorem openFile (h : s.Inv full) (hlive : s.taskFdTableRefs table ≠ 0) (hfd : fd < maxFiles)
    (hfree : (s.taskFdTables table fd).inUse = false) (flags : ℕ) {failed : Fds → Fds}
    (hf : (failed s).Inv full) : (s.openFile table fd flags failed).1.Inv full := by
  have hlinks := h.links_of_free hfree
  obtain hnone | ⟨c, hfresh, hc⟩ := s.allocOpenOffset_cases
  · rw [Fds.openFile, hnone]
    exact hf
  · have hz : s.count (.cell c) = 0 := not_not.1 fun hne ↦ by simp [(h.used.cell c).2 hne] at hfresh
    rw [Fds.openFile, hc]
    refine h.opened (h.used.setCell c (by simp)) rfl hlive hfd hfree rfl (by simp)
      (.inr (h.cell_free hz)) (fun o _ ↦ ?_) fun _ ↦ .same rfl rfl rfl
    rw [count_cell, FileDesc.holds, if_pos rfl]
    simp only [Target.endpoint, Target.epollObj, hits_none, hlinks.2, Option.map, Nat.zero_add,
      Nat.add_zero]
    split_ifs with ho
    · rw [ho, hz, hits_self]
    · rw [hits_of_ne ho, Nat.add_zero]

theorem openPlain (h : s.Inv full) (hlive : s.taskFdTableRefs table ≠ 0) (hfd : fd < maxFiles)
    (hfree : (s.taskFdTables table fd).inUse = false) {target : Target} (flags : ℕ)
    (ht : ∀ i b, target ≠ .socket i b) (hepoll : target.epollObj = none) (hu : s₁.Used)
    (hv : s₁.view = s.view)
    (hc : ∀ o, o.Seen full → s₁.count o = s.count o + hits target.endpoint o)
    (hk : full = true → Keeps s s₁) :
    (s₁.opened table fd ⟨true, target, flags⟩ (s.links table fd)).1.Inv full := by
  have hlinks := h.links_of_free hfree
  refine h.opened hu hv hlive hfd hfree rfl ht (.inl hlinks.1) (fun o ho ↦ ?_) hk
  rw [hc o ho, FileDesc.holds, if_pos rfl, hlinks.1, hlinks.2, hepoll]
  rfl

theorem openInput (h : s.Inv full) (hlive : s.taskFdTableRefs table ≠ 0) (hfd : fd < maxFiles)
    (hfree : (s.taskFdTables table fd).inUse = false) (flags kind : ℕ) {j : Fin 32768}
    (hj : (s.inputOpenStates j).used = false) :
    (({ s with inputOpenStates := update s.inputOpenStates j ⟨true, 1, kind⟩ } : Fds).opened table fd
      ⟨true, .pseudo kind, flags⟩ { s.links table fd with inputState := some j }).1.Inv full := by
  have hlinks := h.links_of_free hfree
  have hz : s.count (.input j) = 0 := not_not.1 fun hne ↦ by simp [(h.used.input j).2 hne] at hj
  refine h.opened (h.used.setInput j (by simp)) rfl hlive hfd hfree rfl (by simp) (.inl hlinks.1)
    (fun o _ ↦ ?_) fun _ ↦ .same rfl rfl rfl
  rw [count_input, FileDesc.holds, if_pos rfl]
  simp only [Target.endpoint, Target.epollObj, hits_none, hlinks.1, Option.map, Nat.zero_add]
  split_ifs with ho
  · rw [ho, hz, hits_self]
  · rw [hits_of_ne ho, Nat.add_zero]

theorem sysOpenResolved (h : s.Inv full) (hlive : s.taskFdTableRefs table ≠ 0) (hfd : fd < maxFiles)
    (hfree : (s.taskFdTables table fd).inUse = false) (flags : ℕ) (path : OpenPath) :
    (s.sysOpenResolved table fd flags path).1.Inv full := by
  have hclosed := h.fdMarkClosed hlive hfd hfree
  have hfailed := h.openFailed hlive hfd hfree flags
  have hplain : ∀ kind, (s.opened table fd ⟨true, .pseudo kind, flags⟩ (s.links table fd)).1.Inv
      full := fun kind ↦
    h.openPlain hlive hfd hfree flags (by simp) rfl h.used rfl (fun _ _ ↦ rfl) fun _ ↦
      .same rfl rfl rfl
  cases path with
  | fault => exact h
  | tooLong => exact h
  | missing => exact h
  | dir => exact hplain pseudoDevDir
  | pseudo kind =>
    simp only [Fds.sysOpenResolved]
    split_ifs with hk
    · obtain hnone | ⟨j, hfresh, hj⟩ := s.inputStateAlloc_cases kind
      · rw [hnone]
        exact hclosed
      · rw [hj]
        exact h.openInput hlive hfd hfree flags kind hfresh
    · exact hplain kind
  | ptmx =>
    simp only [Fds.sysOpenResolved]
    cases hp : firstFree (fun p ↦ (s.ptySlots p).free) with
    | none => exact hclosed
    | some p =>
      have hp : (s.ptySlots p).free = true := firstFree_some hp
      simp only [PtyState.free, Bool.decide_and, Bool.and_eq_true, decide_eq_true_eq] at hp
      refine h.openPlain hlive hfd hfree flags (by simp) rfl ⟨h.used.cell, h.used.input,
        h.used.epoll⟩ rfl (fun o _ ↦ ?_)
        fun _ ↦ .same rfl rfl rfl
      refine Eq.trans (b := (s.setIo (s.toIo.modifyPty p (fun _ ↦ .fresh))).count o)
        (by cases o <;> rfl) ?_
      rw [count_pty]
      split_ifs with h₁ h₂
      · rw [h₁]
        simp [Fds.count, hp, Target.endpoint, PtyState.fresh]
      · rw [h₂]
        simp [Fds.count, hp, Target.endpoint, PtyState.fresh, hits]
      · rw [Target.endpoint, hits_of_ne h₁, Nat.add_zero]
  | pts p =>
    simp only [Fds.sysOpenResolved]
    split_ifs
    · exact hclosed
    · exact hclosed
    · exact hclosed
    · have ha := adds_target h.used (.ptySlave p)
      exact h.openPlain hlive hfd hfree flags (by simp) rfl ha.used ha.view (fun o _ ↦ ha.count o)
        fun _ ↦ .same rfl rfl rfl
  | bootfs =>
    simp only [Fds.sysOpenResolved]
    split_ifs
    · exact h
    · exact h.openFile hlive hfd hfree flags hfailed
  | bootFile =>
    simp only [Fds.sysOpenResolved]
    split_ifs
    · exact h
    · exact h.openFile hlive hfd hfree flags hfailed
  | regular truncates =>
    simp only [Fds.sysOpenResolved]
    split_ifs
    · exact h
    · exact h.openFile hlive hfd hfree flags hclosed

theorem sysOpen (h : s.Inv full) (t : Slot) (path : OpenPath) (flags : ℕ) :
    (s.sysOpen t path flags).1.Inv full := by
  cases path with
  | fault => exact h
  | tooLong => exact h
  | _ =>
    simp only [Fds.sysOpen]
    split
    · exact h
    · next fd hfd =>
      obtain ⟨hmax, hfree⟩ := findFreeFd_some hfd
      exact h.sysOpenResolved (h.currentFiles_live t) hmax hfree flags _

theorem fillClosed (h : s.Inv full) (hlive : s.taskFdTableRefs table ≠ 0) (hfd : fd < maxFiles)
    (hfree : (s.taskFdTables table fd).inUse = false) (hd : d.inUse = false) :
    (s.setSlot table fd d (s.links table fd)).Inv full :=
  h.fill h.used rfl hlive hfd hfree (h.links_of_free hfree)
    (fun _ _ ↦ by rw [FileDesc.holds_free hd, Nat.add_zero])
    fun _ ↦ .same rfl rfl rfl

theorem fillPipe (h : s.Inv full) (target : Target) (st : PipeState)
    (hlive : s.taskFdTableRefs table ≠ 0) (hfd : fd < maxFiles)
    (hfree : (s.taskFdTables table fd).inUse = false) {p : Fin 8} (ht : target.epollObj = none)
    (hr : st.readers = (s.pipes p).readers + hits target.endpoint (.reader p))
    (hw : st.writers = (s.pipes p).writers + hits target.endpoint (.writer p))
    (hother : ∀ o, o ≠ .reader p → o ≠ .writer p → hits target.endpoint o = 0) :
    ((s.modifyPipe p (fun _ ↦ st)).setSlot table fd ⟨true, target, 0⟩ (s.links table fd)).Inv
      full := by
  have hlinks := h.links_of_free hfree
  refine h.fill ⟨h.used.cell, h.used.input, h.used.epoll⟩ rfl hlive hfd hfree hlinks (fun o _ ↦ ?_)
    fun _ ↦ .same rfl rfl rfl
  rw [Fds.modifyPipe, count_pipe, FileDesc.holds, if_pos rfl, hlinks.1, hlinks.2, ht]
  simp only [Option.map, hits_none, Nat.add_zero]
  split_ifs with h₁ h₂
  · rw [h₁, hr]
    rfl
  · rw [h₂, hw]
    rfl
  · rw [hother o h₁ h₂, Nat.add_zero]

theorem setSlot_of_ne (table : Fin 32) {fd' : ℕ} (hne : fd' ≠ fd) :
    (s.setSlot table fd d x).taskFdTables table fd' = s.taskFdTables table fd' ∧
      (s.setSlot table fd d x).links table fd' = s.links table fd' := by
  simp [setSlot, Io.setFd, hne]

theorem sysPipe (h : s.Inv full) (t : Slot) (copied : Bool) : (s.sysPipe t copied).1.Inv full := by
  rw [Fds.sysPipe]
  split
  · exact h
  next a ha =>
  obtain ⟨hamax, hafree⟩ := findFreeFd_some ha
  split
  · exact h
  next b hb =>
  obtain ⟨hbmax, hab, hbfree⟩ := find_range_some hb
  split
  · exact h
  next p hp =>
  have hp : (s.pipes p).free = true := firstFree_some hp
  simp only [PipeState.free, Bool.decide_and, Bool.and_eq_true, decide_eq_true_eq] at hp
  have hlive := h.currentFiles_live t
  have hne : b ≠ a := by omega
  cases copied with
  | true =>
    have h₁ := h.fillPipe (.pipeR p) ⟨[], 1, 0⟩ hlive hamax hafree rfl
      (by simp [hp, Target.endpoint])
      (by simp [hp, Target.endpoint, hits]) (fun o ho _ ↦ hits_of_ne ho)
    set s₁ := (s.modifyPipe p (fun _ ↦ ⟨[], 1, 0⟩)).setSlot (s.currentFiles t) a ⟨true, .pipeR p, 0⟩
      (s.links (s.currentFiles t) a) with hs₁
    have hpipe : s₁.pipes p = ⟨[], 1, 0⟩ := by
      simp [hs₁, Fds.modifyPipe, setSlot, setIo, Io.modifyPipe, Io.setFd]
    have hb := setSlot_of_ne (s := s.modifyPipe p (fun _ ↦ ⟨[], 1, 0⟩))
      (d := ⟨true, .pipeR p, 0⟩) (x := s.links (s.currentFiles t) a) (s.currentFiles t) hne
    have h₂ := h₁.fillPipe (.pipeW p) ⟨[], 1, 1⟩ hlive hbmax (hb.1 ▸ hbfree) rfl
      (by simp [hpipe, Target.endpoint, hits]) (by simp [hpipe, Target.endpoint])
        (fun o _ ho ↦ hits_of_ne ho)
    have hs : s₁.modifyPipe p (fun _ ↦ ⟨[], 1, 1⟩) = (s.modifyPipe p (fun _ ↦ ⟨[], 1, 1⟩)).setSlot
        (s.currentFiles t) a ⟨true, .pipeR p, 0⟩ (s.links (s.currentFiles t) a) := by
      simp [hs₁, Fds.modifyPipe, setSlot, setIo, Io.modifyPipe, Io.setFd]
    rw [hs] at h₂
    exact h₂
  | false =>
    have h₀ : (s.modifyPipe p (fun _ ↦ ⟨[], 0, 0⟩)).Inv full := by
      refine h.same ⟨h.used.cell, h.used.input, h.used.epoll⟩ rfl (fun o _ ↦ ?_) fun _ ↦
        .same rfl rfl rfl
      rw [Fds.modifyPipe, count_pipe]
      split_ifs with h₁ h₂
      · rw [h₁]
        exact hp.1.symm
      · rw [h₂]
        exact hp.2.1.symm
      · rfl
    have h₁ := h₀.fillClosed (d := ⟨false, .pipeR p, 0⟩) hlive hamax hafree rfl
    have hb := setSlot_of_ne (s := s.modifyPipe p (fun _ ↦ ⟨[], 0, 0⟩))
      (d := ⟨false, .pipeR p, 0⟩) (x := s.links (s.currentFiles t) a) (s.currentFiles t) hne
    exact h₁.fillClosed (d := ⟨false, .pipeW p, 0⟩) hlive hbmax (hb.1 ▸ hbfree) rfl

theorem sysPipe2 (h : s.Inv full) (t : Slot) (copied : Bool) (flags : ℕ) :
    (s.sysPipe2 t copied flags).1.Inv full := by
  have h₁ := h.sysPipe t copied
  rw [Fds.sysPipe2]
  split
  · next s₁ rc hp => rwa [hp] at h₁
  · next s₁ rc a b hp =>
    rw [hp] at h₁
    dsimp only
    exact (h₁.setFlags ..).setFlags ..

theorem sysEpollCreate1 (h : s.Inv full) (t : Slot) (flags : ℕ) :
    (s.sysEpollCreate1 t flags).1.Inv full := by
  rw [Fds.sysEpollCreate1]
  split_ifs
  · exact h
  split
  · exact h
  next fd hfd =>
  obtain ⟨hmax, hfree⟩ := findFreeFd_some hfd
  split
  · exact h
  next e he =>
  have he : (s.epolls e).used = false := firstFree_decide he
  have hz : s.count (.epoll e) = 0 := not_not.1 fun hne ↦ by simp [(h.used.epoll e).2 hne] at he
  have hlinks := h.links_of_free hfree
  refine h.fill (h.used.setEpoll e (by simp)) rfl (h.currentFiles_live t) hmax hfree hlinks
    (fun o _ ↦ ?_) fun _ ↦ .same rfl rfl rfl
  rw [count_epoll, FileDesc.holds, if_pos rfl, hlinks.1, hlinks.2]
  simp only [Target.endpoint, Target.epollObj, Option.map, hits_none, Nat.add_zero, Nat.zero_add]
  split_ifs with ho
  · rw [ho, hz, hits_self]
  · rw [hits_of_ne ho, Nat.add_zero]

theorem spares_copy (h : s.Inv full) (hf : full = true) {source destination : Fin 32}
    (hne : source ≠ destination) (h₁ : s.taskFdTableRefs source ≠ 0)
    (h₂ : s.taskFdTableRefs destination ≠ 0)
    (hcopy : ∀ o, s.view.tableHolds destination o = s.view.tableHolds source o) (j : Fin 32) :
    s.Spares j (s.view.socketHolds destination j) := by
  by_cases hp : (s.unixSockets j).pending = []
  · exact .inl hp
  · have hw := h.whole hf j
    have hside : ∀ b, 2 * s.view.tableHolds destination (.side j b) ≤
        (s.unixSockets j).sideRefs b := by
      intro b
      have h₃ := View.two_tables_le_holders (v := s.view) hne h₂ h₁ (.side j b)
      have h₄ : (s.unixSockets j).sideRefs b = _ := h.count (.side j b) fun _ ↦ hf
      rw [← hcopy] at h₃
      omega
    have := hside false
    have := hside true
    have := hw.refs
    have := (hw.pending hp).2
    refine .inr ?_
    rw [View.socketHolds]
    omega

theorem spares_child (h : s.Inv full) (hf : full = true) {child : Slot} {parent : Slot}
    {shareFiles : Bool} (hs : s.taskFdTableClone parent child shareFiles = some s') (table : Fin 32)
    (hid : s'.taskFdTableId child = some table) (hr : s'.taskFdTableRefs table = 1) (j : Fin 32) :
    s'.Spares j (s'.view.socketHolds table j) := by
  obtain ⟨h', -, source, -, hlive, ⟨-, rfl⟩ | ⟨-, destination, hne, -, hz, hcopy⟩⟩ :=
    h.taskFdTableClone hs
  · simp only [setIo, update_self, Option.some.injEq] at hid
    subst hid
    simp only [setIo, update_self] at hr
    omega
  · have hids : s'.taskFdTableId = update s.taskFdTableId child (some destination) := hcopy.ids
    have hrefs : s'.taskFdTableRefs = update s.taskFdTableRefs destination 1 := hcopy.refs
    obtain rfl : destination = table := by simpa [hids] using hid
    refine h'.spares_copy hf hne (by rwa [hrefs, update_of_ne hne]) (by rw [hr]; exact one_ne_zero)
      (fun o ↦ ?_) j
    refine Finset.sum_congr rfl fun fd hfd ↦ ?_
    have hfd : fd ∈ List.range maxFiles := List.mem_range.2 (Finset.mem_range.1 hfd)
    rw [View.slotHolds, View.slotHolds, hcopy.tables, hcopy.links, hcopy.tables, hcopy.links,
      if_pos ⟨rfl, hfd⟩,
      if_pos ⟨rfl, hfd⟩, if_neg fun hc ↦ hne hc.1, if_neg fun hc ↦ hne hc.1]

theorem tasks (h : s.Inv full) (nextPid : ℕ) (used : Slot → Bool) :
    ({ s with nextPid := nextPid, used := used } : Fds).Inv full :=
  ⟨⟨h.used.cell, h.used.input, h.used.epoll⟩, h.tidy, h.count, h.whole⟩

theorem sysClone (h : s.Inv full) (t : Slot) (shareFiles copied : Bool) :
    (s.sysClone t shareFiles copied).1.Inv full := by
  obtain ⟨n, rc, hs⟩ | ⟨child, s', hs', hs⟩ := s.sysClone_cases t shareFiles copied
  · rw [hs]
    exact h.tasks n s.used
  · have h₁ : ({ s with nextPid := s.nextPid + 1 } : Fds).Inv full := h.tasks (s.nextPid + 1) s.used
    have h₂ := (h₁.taskFdTableClone hs').1
    rw [hs]
    cases copied with
    | true => exact h₂.tasks s'.nextPid _
    | false => exact h₂.taskFdTableRelease child fun hf ↦ h₁.spares_child hf hs'

theorem reap (h : s.Inv full) (child : Slot)
    (hs : full = true → ∀ table, s.taskFdTableId child = some table → s.taskFdTableRefs table = 1 →
      ∀ j, s.Spares j (s.view.socketHolds table j)) : (s.reap child).Inv full :=
  (h.taskFdTableRelease child hs).tasks _ _

theorem sysFork (h : s.Inv full) (t : Slot) (cloned : Bool) : (s.sysFork t cloned).1.Inv full := by
  obtain ⟨n, rc, hs⟩ | ⟨child, s', hs', hs⟩ := s.sysClone_cases t false true
  · rw [Fds.sysFork, hs]
    exact h.tasks n s.used
  · have h₁ : ({ s with nextPid := s.nextPid + 1 } : Fds).Inv full := h.tasks (s.nextPid + 1) s.used
    have h₂ := (h₁.taskFdTableClone hs').1.tasks s'.nextPid (update s'.used child true)
    rw [Fds.sysFork, hs]
    cases cloned with
    | true => exact h₂
    | false => exact h₂.reap child fun hf table hid hr j ↦ h₁.spares_child hf hs' table hid hr j

end Inv

end Fds

end YabroOS
