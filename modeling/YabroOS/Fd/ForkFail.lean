import YabroOS.Fd.EndpointRuns

namespace YabroOS

open Function Errno

namespace Fds

variable {s s' : Fds} {table source destination : Fin 32} {fd : ℕ} {full : Bool}

def View.slotSocket (v : View) (table : Fin 32) (fd : ℕ) (i : Fin 32) : ℕ :=
  v.slotHolds table fd (.side i false) + v.slotHolds table fd (.side i true)

theorem slotHolds_side (hin : (s.taskFdTables table fd).inUse = true) (i : Fin 32) (b : Bool) :
    s.view.slotHolds table fd (.side i b) =
      hits (s.taskFdTables table fd).target.endpoint (.side i b) := by
  rw [slotHolds_of_inUse hin]
  cases (s.taskFdTables table fd).target <;> cases (s.links table fd).sharedOffset <;>
    cases (s.links table fd).inputState <;> simp [hits, Target.epollObj]

theorem cloneFd_refs (s : Fds) (source destination : Fin 32) (fd : ℕ) (i : Fin 32) :
    ((s.cloneFd source destination fd).unixSockets i).refs = (s.unixSockets i).refs +
      s.view.slotSocket source fd i := by
  have ho := congrArg Objects.unixSockets (cloneFd_objects s source destination fd)
  change (s.cloneFd source destination fd).unixSockets = _ at ho
  rw [ho, View.slotSocket]
  split_ifs with hin
  · rw [slotHolds_side hin, slotHolds_side hin]
    cases ht : (s.taskFdTables source fd).target with
    | socket j b =>
      change (update s.unixSockets j _ i).refs = _
      by_cases hij : i = j
      · subst hij
        rw [update_self]
        cases b <;> simp [hits, Target.endpoint]
      · rw [update_of_ne hij]
        cases b <;> simp [hits, Target.endpoint, Ne.symm hij]
    | _ => simp [hits, Target.endpoint, objects, setIo, Io.retainTarget, Io.modifyPipe, Io.modifyPty]
  · rw [slotHolds_of_free (by simpa using hin), slotHolds_of_free (by simpa using hin)]
    rfl

theorem releaseFd_refs (s : Fds) (table : Fin 32) (fd : ℕ) (i : Fin 32) :
    ((s.releaseFd table fd).unixSockets i).refs = (s.unixSockets i).refs -
      s.view.slotSocket table fd i := by
  have ho := congrArg Objects.unixSockets (releaseFd_objects s table fd)
  change (s.releaseFd table fd).unixSockets = _ at ho
  rw [ho, View.slotSocket]
  split_ifs with hin
  · rw [slotHolds_side hin, slotHolds_side hin]
    cases ht : (s.taskFdTables table fd).target with
    | socket j b =>
      change (update s.unixSockets j _ i).refs = _
      by_cases hij : i = j
      · subst hij
        rw [update_self, UnixSocketState.dropRef_refs]
        cases b <;> simp [hits, Target.endpoint]
      · rw [update_of_ne hij]
        cases b <;> simp [hits, Target.endpoint, Ne.symm hij]
    | _ => simp [hits, Target.endpoint, objects, setIo, Io.dropTarget, Io.modifyPipe, Io.modifyPty]
  · rw [slotHolds_of_free (by simpa using hin), slotHolds_of_free (by simpa using hin)]
    rfl

theorem cloneFd_used (s : Fds) (source destination : Fin 32) (fd : ℕ) :
    (s.cloneFd source destination fd).used = s.used := by
  have hinput : ∀ (s : Fds) x, (s.inputStateRetain x).used = s.used := by
    intro s x
    unfold inputStateRetain
    split
    · rfl
    · dsimp only
      split_ifs <;> rfl
  have hepoll : ∀ (s : Fds) x, (s.epollRetainFile x).used = s.used := by
    intro s x
    unfold epollRetainFile
    split
    · dsimp only
      split_ifs <;> rfl
    · rfl
  have hcell : ∀ (s : Fds) x, (s.retainOpenOffset x).used = s.used := by
    intro s x
    unfold retainOpenOffset
    split <;> rfl
  unfold cloneFd
  dsimp only
  split_ifs
  · rfl
  · exact (hcell _ _).trans ((hepoll _ _).trans (hinput _ _))

theorem cloneLoop_counts (h : s.Inv full) (hne : source ≠ destination)
    (hlive : s.taskFdTableRefs destination ≠ 0) {l : List ℕ} (hl : l.Nodup)
    (hmax : ∀ fd ∈ l, fd < maxFiles)
    (hfree : ∀ fd ∈ l, (s.taskFdTables destination fd).inUse = false) :
    (∀ o, (l.foldl (cloneFd source destination) s).count o =
        s.count o + (l.map (fun fd ↦ s.view.slotHolds source fd o)).sum) ∧
      (∀ i, ((l.foldl (cloneFd source destination) s).unixSockets i).refs =
        (s.unixSockets i).refs + (l.map (fun fd ↦ s.view.slotSocket source fd i)).sum) ∧
      (l.foldl (cloneFd source destination) s).used = s.used := by
  induction l generalizing s with
  | nil => exact ⟨fun o ↦ rfl, fun i ↦ rfl, rfl⟩
  | cons fd l ih =>
    obtain ⟨hfd, hl'⟩ := List.nodup_cons.1 hl
    have hw := cloneFd_spec h.used source destination fd h.copyable
    obtain ⟨hstep, -, -⟩ := h.cloneLoop hne hlive (List.nodup_singleton fd)
      (fun fd' h' ↦ by rw [List.mem_singleton.1 h']; exact hmax fd (.head _))
      (fun fd' h' ↦ by rw [List.mem_singleton.1 h']; exact hfree fd (.head _))
    have hstep : (s.cloneFd source destination fd).Inv full := hstep
    have hrefs : (s.cloneFd source destination fd).taskFdTableRefs = s.taskFdTableRefs :=
      congrArg View.refs hw.view
    have hslot : ∀ fd', (s.cloneFd source destination fd).view.slotHolds source fd' =
        s.view.slotHolds source fd' := by
      intro fd'
      funext o
      rw [hw.view, View.put_slotHolds, if_neg (fun hc ↦ hne hc.1)]
    obtain ⟨hc, hr, hu⟩ :=
      ih hstep (by rwa [hrefs]) hl' (fun fd' h' ↦ hmax fd' (.tail _ h')) fun fd' h' ↦ by
      rw [tables_of_put hw.view, if_neg (by rintro ⟨-, rfl⟩; exact hfd h')]
      exact hfree fd' (.tail _ h')
    refine ⟨fun o ↦ ?_, fun i ↦ ?_, hu.trans (cloneFd_used s source destination fd)⟩
    · rw [List.foldl_cons, hc, hw.count, List.map_cons, List.sum_cons]
      simp only [hslot]
      omega
    · rw [List.foldl_cons, hr, cloneFd_refs, List.map_cons, List.sum_cons]
      simp only [View.slotSocket, hslot]
      omega

theorem releaseLoop_refs (h : s.Used) (table : Fin 32) {l : List ℕ} (hl : l.Nodup) (i : Fin 32) :
    ((l.foldl (releaseFd table) s).unixSockets i).refs =
      (s.unixSockets i).refs - (l.map (fun fd ↦ s.view.slotSocket table fd i)).sum := by
  induction l generalizing s with
  | nil => rfl
  | cons fd l ih =>
    obtain ⟨hfd, hl'⟩ := List.nodup_cons.1 hl
    obtain ⟨hu, ⟨d, x, hv, -, -⟩, -⟩ := releaseFd_spec h table fd
    have hsum : l.map (fun fd' ↦ (s.releaseFd table fd).view.slotSocket table fd' i) =
        l.map (fun fd' ↦ s.view.slotSocket table fd' i) := by
      refine List.map_congr_left fun fd' h' ↦ ?_
      have hne : ¬ (table = table ∧ fd' = fd) := by
        rintro ⟨-, rfl⟩
        exact hfd h'
      rw [hv, View.slotSocket, View.slotSocket, View.put_slotHolds, View.put_slotHolds, if_neg hne,
        if_neg hne]
    rw [List.foldl_cons, ih hu hl', releaseFd_refs, hsum, List.map_cons, List.sum_cons]
    omega

/-- What a failed fork must not change. -/
structure ForkUntouched (s s' : Fds) : Prop where
  used : s'.used = s.used
  tableRefs : s'.taskFdTableRefs = s.taskFdTableRefs
  count : ∀ o, s'.count o = s.count o
  refs : ∀ i, (s'.unixSockets i).refs = (s.unixSockets i).refs

def joining (s : Fds) (child : Slot) (destination : Fin 32) : Fds :=
  s.setIo { s.toIo with
    taskFdTableId := update s.taskFdTableId child (some destination)
    taskFdTableRefs := update s.taskFdTableRefs destination 1 }

theorem Inv.joining (h : s.Inv full) (child : Slot) (hd : s.taskFdTableRefs destination = 0) :
    (s.joining child destination).Inv full := by
  have ho := h.tidy.owned.join child destination
  rw [show s.view.refs destination = 0 from hd] at ho
  refine h.setRefs ho fun table hz fd _ ↦ ?_
  by_cases ht : table = destination
  · rw [ht]
    exact h.tidy.closed destination fd (.inl hd)
  · rw [update_of_ne ht] at hz
    exact h.tidy.closed table fd (.inl (or_self_iff.1 hz))

theorem forkUntouched_release {parent child : Slot} {s₁ : Fds} (h : s.Inv full)
    (hfree : s.used child = false) (hs : s.taskFdTableClone parent child false = some s')
    (hu : s₁.Used) (hview : s₁.view = s'.view) (hcount₁ : ∀ o, s₁.count o = s'.count o)
    (hsock : s₁.unixSockets = s'.unixSockets) :
    ForkUntouched s { s₁.taskFdTableRelease child with used := update s'.used child false } := by
  rw [Fds.taskFdTableClone] at hs
  split at hs
  · cases hs
  next source hid =>
  rw [if_neg Bool.false_ne_true] at hs
  split_ifs at hs with hr
  split at hs
  · cases hs
  next destination hd =>
  obtain ⟨hd0, hd⟩ : destination ≠ 0 ∧ s.taskFdTableRefs destination = 0 := by
    simpa using firstFree_some hd
  have hne : source ≠ destination := by
    rintro rfl
    exact hr hd
  have hs : (List.range maxFiles).foldl (cloneFd source destination) (s.joining child destination) =
      s' := Option.some.inj hs
  have hlive : (s.joining child destination).taskFdTableRefs destination ≠ 0 := by
    simp [Fds.joining, setIo]
  have hclosed : ∀ fd ∈ List.range maxFiles,
      ((s.joining child destination).taskFdTables destination fd).inUse = false :=
    fun fd _ ↦ h.tidy.closed destination fd (.inl hd)
  have hmax : ∀ fd ∈ List.range maxFiles, fd < maxFiles := fun fd hfd ↦ List.mem_range.1 hfd
  obtain ⟨-, -, hcopy⟩ := (h.joining child hd).cloneLoop hne hlive List.nodup_range hmax hclosed
  obtain ⟨hcount, hrefs, hused⟩ :=
    cloneLoop_counts (h.joining child hd) hne hlive List.nodup_range hmax hclosed
  rw [hs] at hcopy hcount hrefs hused
  have hslot : ∀ fd ∈ List.range maxFiles, ∀ o, s'.view.slotHolds destination fd o =
      s.view.slotHolds source fd o := by
    intro fd hfd o
    rw [View.slotHolds, hcopy.tables, hcopy.links, if_pos ⟨rfl, hfd⟩, if_pos ⟨rfl, hfd⟩]
    rfl
  rw [← hview] at hcopy hslot
  have hid' : s₁.taskFdTableId child = some destination := by
    rw [show s₁.taskFdTableId = _ from hcopy.ids]
    exact update_self ..
  have hone : s₁.taskFdTableRefs = update s.taskFdTableRefs destination 1 := hcopy.refs
  obtain ⟨s₂, hs₂⟩ : ∃ s₂, s₂ = (List.range maxFiles).foldl (releaseFd destination)
      (s₁.leaving child destination) :=
    ⟨_, rfl⟩
  obtain ⟨-, -, -, hback, hdrop⟩ := releaseAll_spec hu child destination hs₂
  have hrel : s₁.taskFdTableRelease child = s₂ := by
    rw [taskFdTableRelease_last hid' (by rw [hone, update_self]), ← hs₂, if_neg hd0]
  rw [hrel]
  refine ⟨?_, ?_, fun o ↦ ?_, fun i ↦ ?_⟩
  · change update s'.used child false = s.used
    rw [hused, show (s.joining child destination).used = s.used from rfl, ← hfree, update_eq_self]
  · change s₂.taskFdTableRefs = s.taskFdTableRefs
    rw [hback, hone, update_self, update_idem]
    change update s.taskFdTableRefs destination 0 = _
    rw [← hd, update_eq_self]
  · have hsum : s₁.view.tableHolds destination o =
        ((List.range maxFiles).map
          (fun fd ↦ (s.joining child destination).view.slotHolds source fd o)).sum := by
      rw [← sum_range_slotHolds]
      exact congrArg List.sum (List.map_congr_left fun fd hfd ↦ hslot fd hfd o)
    have hzero : (s.joining child destination).count o = s.count o := by cases o <;> rfl
    have hsame : Fds.count { s₂ with used := update s'.used child false } o = s₂.count o := by
      cases o <;> rfl
    rw [hsame, hdrop, hcount₁, hcount, hzero, hsum, Nat.add_sub_cancel]
  · change (s₂.unixSockets i).refs = _
    have hsum : (List.range maxFiles).map
        (fun fd ↦ (s₁.leaving child destination).view.slotSocket destination fd i) =
        (List.range maxFiles).map
          (fun fd ↦ (s.joining child destination).view.slotSocket source fd i) :=
      List.map_congr_left fun fd hfd ↦ congrArg₂ (· + ·) (hslot fd hfd _) (hslot fd hfd _)
    have hr := releaseLoop_refs (s := s₁.leaving child destination) ⟨hu.cell, hu.input, hu.epoll⟩
      destination (List.nodup_range (n := maxFiles)) i
    have hstart : (s₁.leaving child destination).unixSockets = s'.unixSockets := hsock
    rw [hs₂, hr, hsum, hstart, hrefs i, Nat.add_sub_cancel]
    rfl

theorem fork_failed (h : s.Inv full) (t : Slot) (cloned : Bool)
    (hneg : (s.sysFork t cloned).2 < 0) : ForkUntouched s (s.sysFork t cloned).1 := by
  have hsame : ∀ n, ForkUntouched s { s with nextPid := n } :=
    fun n ↦ ⟨rfl, rfl, fun o ↦ by cases o <;> rfl, fun i ↦ rfl⟩
  unfold sysFork sysClone at hneg ⊢
  cases hfree : firstFree (fun i ↦ s.used i = false) with
  | none => exact hsame s.nextPid
  | some child =>
    simp only [hfree] at hneg ⊢
    cases hs : ({ s with nextPid := s.nextPid + 1 } : Fds).taskFdTableClone t child false with
    | none => exact hsame _
    | some s' =>
      simp only [hs, if_true] at hneg ⊢
      cases cloned with
      | true =>
        simp only [if_true] at hneg
        exact absurd hneg (by simp)
      | false =>
        have h₁ := h.tasks (s.nextPid + 1) s.used
        have hused := ((h₁.taskFdTableClone hs).1.tasks s'.nextPid (update s'.used child true)).used
        have hu := forkUntouched_release h₁ (firstFree_decide hfree) hs hused rfl
          (fun o ↦ by cases o <;> rfl) rfl
        simp only [Bool.false_eq_true, if_false, update_idem]
        exact ⟨hu.used, hu.tableRefs, fun o ↦ (hu.count o).trans (by cases o <;> rfl), hu.refs⟩

end Fds

end YabroOS
