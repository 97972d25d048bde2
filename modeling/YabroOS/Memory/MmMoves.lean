import YabroOS.Memory.Threads

namespace YabroOS.Memory

open Lib Function

namespace Vmm

variable {s s' s'' : Vmm}

/-- The allocator has served calls, and every new root is a table that can be addressed. -/
structure Moved (s s' : Vmm) : Prop where
  moves : s.pmm.Moves s'.pmm
  tables : ∀ r, (s'.spaces.get? r).isSome = true → (s.spaces.get? r).isSome = true ∨
    s.pmm.table r = true

theorem Extends.moved (h : s.Extends s') : s.Moved s' := ⟨h.moves, h.tables⟩

theorem Keeps.moved (h : s.Keeps s') : s.Moved s' := h.extends.moved

theorem Moved.of_eq (hp : s'.pmm = s.pmm) (hs : s'.spaces = s.spaces) : s.Moved s' :=
  ⟨hp ▸ .refl _, fun _ hr ↦ .inl (hs ▸ hr)⟩

theorem Moved.refl (s : Vmm) : s.Moved s := .of_eq rfl rfl

theorem Moved.trans (h : s.Moved s') (h' : s'.Moved s'') : s.Moved s'' := by
  refine ⟨h.moves.trans h'.moves, fun r hr ↦ ?_⟩
  obtain hr' | htab := h'.tables r hr
  · exact h.tables r hr'
  · exact .inr ((h.moves.table r).symm.trans htab)

theorem Moved.destroy (s : Vmm) (root : ℕ) : s.Moved (s.vmmUserSpaceDestroy root).1 := by
  refine ⟨moves_destroy s root, fun r ↦ ?_⟩
  unfold vmmUserSpaceDestroy
  split
  · exact .inl
  split
  · intro hr
    by_cases hroot : r = root
    · subst hroot
      rw [Slots.get?_erase_self] at hr
      cases hr
    · rw [Slots.get?_erase_of_ne _ hroot] at hr
      exact .inl hr
  · exact .inl

theorem Moved.activate (s : Vmm) (root : ℕ) : s.Moved (s.vmmUserActivate root).1 := by
  unfold vmmUserActivate
  split_ifs
  · exact .of_eq rfl rfl
  · exact .refl s

end Vmm

namespace Mm

variable {heaps : Prop} {m m' : Mm}

theorem moved_activate (ha : m.activate = some m') : m.vmm.Moved m'.vmm := by
  rw [activate_some ha]
  exact .of_eq rfl rfl

theorem moved_mmapAt (m : Mm) (cursor base size prot flags : ℕ) (fd : MmapFd) (off : ℕ) :
    m.vmm.Moved (m.mmapAt cursor base size prot flags fd off).1.vmm := by
  unfold mmapAt
  split
  · simp only [mmapReserve]
    have hun : m.vmm.Moved
        (if mapFixed flags then { m with vmm := m.vmm.unmapPages (pages base size) }
        else m).vmm := by
      split_ifs
      · exact (Vmm.Keeps.unmapPages _ _).moved
      · exact .refl _
    generalize (if mapFixed flags then { m with vmm := m.vmm.unmapPages (pages base size) }
      else m) = m₁ at hun ⊢
    rw [← transform_vmm m₁ base (base + size) .replace 0] at hun
    split_ifs
    · exact hun
    · exact hun
    · exact hun
  · simp only [mmapPages]
    have ht : (if mapFixed flags then m.taskLazyMmapTransformShared base (base + size) .remove 0
        else (m, 0)).1.vmm = m.vmm := by
      split_ifs
      · exact transform_vmm _ _ _ _ _
      · rfl
    generalize (if mapFixed flags then m.taskLazyMmapTransformShared base (base + size) .remove 0
      else (m, 0)) = r at ht ⊢
    have hmap := (Vmm.Keeps.mapPages (l := pages base size)
      (fun s va _ ↦ Vmm.Keeps.mmapPage (mapFixed flags)
        (fun va ↦ fd.pageContent (mapAnon flags) (off + (va - base)))
        (Vmm.protToPte prot) s va) r.1.vmm).moved
    rw [← ht]
    split_ifs
    · exact .refl _
    · exact hmap
    · exact hmap
    · exact hmap

theorem moved_mmapFramebuffer (m : Mm) (cursor addr len prot flags off : ℕ) :
    m.vmm.Moved (m.mmapFramebuffer cursor addr len prot flags off).1.vmm := by
  simp only [mmapFramebuffer]
  generalize (if addr ≠ 0 then pageUp addr else pageUp cursor) = base
  generalize (if off < m.vmm.fbSize then _ else 0) = remaining
  have hmap := (Vmm.Keeps.graphicsFbMap m.vmm base off len).moved
  split
  · exact .refl _
  split
  · exact .refl _
  split
  · exact hmap
  · dsimp only
    split_ifs
    · exact hmap
    · exact hmap

theorem moved_sysMmap (m : Mm) (addr len prot flags : ℕ) (fd : MmapFd) (off : ℕ) :
    m.vmm.Moved (m.sysMmap addr len prot flags fd off).1.vmm := by
  unfold Mm.sysMmap
  split
  · exact .refl _
  next m₁ ha =>
  have hact := moved_activate ha
  have h₁ : m.vmm.Moved m₁.taskSharedMmapCursor.1.vmm := hact
  generalize m₁.taskSharedMmapCursor = r at h₁ ⊢
  obtain ⟨m₂, cursor⟩ := r
  dsimp only at h₁ ⊢
  split
  · exact h₁
  split
  · exact h₁
  split
  · exact h₁
  split
  · exact h₁
  · exact h₁
  · split
    · exact h₁
    · exact h₁.trans (moved_mmapFramebuffer ..)
  · split
    · exact h₁
    split
    · exact h₁
    split
    · exact h₁
    · exact h₁.trans (moved_mmapAt ..)

theorem kept_moved (s : Vmm) : Kept fun m ↦ s.Moved m.vmm where
  activate h ha := h.trans (moved_activate ha)
  remove start stop h := (transform_vmm _ start stop .remove 0).symm ▸ h
  setProt start stop prot _ h := (transform_vmm _ start stop .setProt prot).symm ▸ h
  unmap _ h := h.trans (Vmm.Keeps.unmapPages _ _).moved
  fbUnmap _ _ h := h.trans (Vmm.Keeps.graphicsFbUnmap _ _ _).moved
  protect _ _ _ _ h :=
    h.trans (Vmm.Keeps.eachPage (fun s va _ ↦ Vmm.Keeps.mprotectStep _ _ s va) _).moved
  copy _ _ _ _ _ h := h.trans (keeps_mremapCopy ..).moved
  grow _ _ h := h.trans (Vmm.Keeps.mapPages (fun s va _ ↦ Vmm.Keeps.mapZero _ s va) _).moved
  mmap _ _ _ _ _ _ h := h.trans (moved_sysMmap ..)

theorem moved_sysBrk (m : Mm) (addr : ℕ) : m.vmm.Moved (m.sysBrk addr).1.vmm := by
  unfold Mm.sysBrk
  split
  · exact .refl _
  next m₁ ha =>
  have h₁ := moved_activate ha
  generalize m₁.sharedHeap = r
  obtain ⟨base, old⟩ := r
  dsimp only
  split
  · exact h₁
  split
  · exact h₁
  split
  · split
    · exact h₁
    · have hmap := h₁.trans (Vmm.Keeps.mapPages (l := pages (pageUp old) (pageUp addr - pageUp old))
        (fun s va _ ↦ Vmm.Keeps.brkPage s va) m₁.vmm).moved
      split
      · exact hmap
      · exact hmap
  · exact h₁.trans (Vmm.Keeps.unmapPages _ _).moved

theorem moved_taskLazyPageFault (m : Mm) (addr : ℕ) (write fetch : Bool) :
    m.vmm.Moved (m.taskLazyPageFault addr write fetch).1.vmm := by
  unfold Mm.taskLazyPageFault
  split
  · exact .refl _
  next m₁ ha =>
  have h₁ := moved_activate ha
  split
  · exact h₁
  split
  · exact h₁
  split
  · exact h₁
  · exact h₁.trans (Vmm.Keeps.mapFresh _ _ _ _).moved

theorem Orderly.moved_kernelExecve (h : m.Orderly heaps) (file : Option ExecFile)
    (a : Vmm.ExecArgs) : m.vmm.Moved (m.kernelExecveFileArgs file a).1.vmm := by
  have hload := h.loads file a
  generalize m.kernelExecveFileArgs file a = q at hload ⊢
  cases hload with
  | refused v rc hv => exact hv.moved
  | loaded f v imageEnd root r hfile _ hstart hv hne hfresh huser hroot hr =>
    have hreset : (({ m with vmm := v } : Mm).userHeapResetForImage imageEnd).vmm = v := by
      unfold userHeapResetForImage
      split_ifs
      · rfl
      · rfl
    dsimp only
    rw [hreset]
    exact hv.moved

theorem Running.moved_sysExecve (h : m.Running heaps) (file : Option ExecFile) (a : Vmm.ExecArgs) :
    m.vmm.Moved (m.sysExecve file a).1.vmm := by
  unfold Mm.sysExecve
  split
  · exact .refl _
  next m₁ ha =>
  have h₁ := (moved_activate ha).trans ((h.activate ha).toOrderly.moved_kernelExecve file a)
  generalize m₁.kernelExecveFileArgs file a = q at h₁ ⊢
  obtain ⟨m₂, r⟩ := q
  cases r with
  | error rc => exact h₁
  | ok e =>
  dsimp only at h₁ ⊢
  split
  · exact h₁
  split
  · refine h₁.trans ?_
    simp only [Mm.replaceImage, setTask]
    split_ifs
    · exact .destroy _ _
    · exact .refl _
  · exact h₁

theorem Orderly.moved_launch (h : m.Orderly heaps) (file : Option ExecFile) (a : Vmm.ExecArgs) :
    m.vmm.Moved (m.launch file a).vmm := by
  unfold Mm.launch
  split
  · exact .refl _
  have h₁ := h.moved_kernelExecve file a
  generalize m.kernelExecveFileArgs file a = q at h₁ ⊢
  obtain ⟨m₂, r⟩ := q
  cases r with
  | error rc => exact h₁
  | ok e =>
  dsimp only at h₁ ⊢
  split
  · exact h₁
  · exact h₁

theorem moved_sysClone (m : Mm) (ok fds : Bool) (ids : List (ℕ × List UInt8)) :
    m.vmm.Moved (m.sysClone ok fds ids).1.vmm := by
  unfold Mm.sysClone
  split
  · exact .refl _
  split
  · exact .refl _
  dsimp only
  split
  · exact .refl _
  next i hi _ =>
  have hcopy := (keeps_copyIds (m.setTask i { m.task with used := fds, zombie := false }).task.cr3
    ids
    (m.setTask i { m.task with used := fds, zombie := false }).vmm).moved
  split
  · exact hcopy
  · exact hcopy

theorem moved_retire (m : Mm) (i : Slot) : m.vmm.Moved (m.retire i).vmm := by
  simp only [Mm.retire, taskReapResources, setTask]
  split_ifs
  · exact .destroy _ _
  · exact .refl _

theorem Running.moved_sysFork (h : m.Running heaps) (ok fds : Bool) :
    m.vmm.Moved (m.sysFork ok fds).vmm := by
  have hclone := moved_sysClone m ok fds []
  have hrun := (h.sysClone ok fds []).1
  unfold Mm.sysFork
  generalize m.sysClone ok fds [] = q at hclone hrun ⊢
  obtain ⟨m₁, o⟩ := q
  cases o with
  | none => exact hclone
  | some i =>
  have hspace := hclone.trans (Vmm.clone_spec hrun.framed m₁.task.cr3).1.moved
  dsimp only at hspace ⊢
  generalize m₁.vmm.vmmUserSpaceClone m₁.task.cr3 = r at hspace ⊢
  obtain ⟨v, o⟩ := r
  cases o with
  | error rc => exact hspace.trans (moved_retire { m₁ with vmm := v } i)
  | ok root => exact hspace

theorem Orderly.moved_perform (h : m.Orderly heaps) {c : MmCall}
    (hu : c.ofTask = true → m.task.used = true) : m.vmm.Moved (m.perform c).vmm := by
  cases c with
  | mmap addr len prot flags fd off => exact moved_sysMmap ..
  | munmap addr len fs gs => exact (kept_moved _).sysMunmap (.refl _) ..
  | mprotect addr len prot => exact (kept_moved _).sysMprotect (.refl _) ..
  | mremap oldAddr oldSize newSize flags newAddr fs gs => exact (kept_moved _).sysMremap (.refl _) ..
  | brk addr => exact moved_sysBrk ..
  | lazyFault addr write fetch => exact moved_taskLazyPageFault ..
  | cowFault addr => exact (Vmm.Keeps.cowFault _ _ _).moved
  | copyTo i dst data =>
    simp only [Mm.perform]
    split
    · exact (Vmm.Keeps.userCopyToCr3 _ _ _ _).moved
    · exact .refl _
  | store va b => exact (Vmm.Keeps.userStore _ _ _ _).moved
  | clone ok fds ids => exact moved_sysClone ..
  | fork ok fds => exact Running.moved_sysFork ⟨h, hu rfl⟩ ok fds
  | execve file a => exact Running.moved_sysExecve ⟨h, hu rfl⟩ file a
  | launch file a => exact h.moved_launch file a
  | exit next =>
    simp only [Mm.perform, Mm.sysExit]
    split
    · exact .refl _
    · exact .activate _ _
  | reap i =>
    simp only [Mm.perform, Mm.reap]
    split
    · exact moved_retire m i
    · exact .refl _
  | switch next =>
    simp only [Mm.perform, Mm.switchTo]
    split
    · exact .activate _ _
    · exact .refl _

theorem Orderly.moved_run (h : m.Orderly False) (l : List MmCall) : m.vmm.Moved (m.run l).vmm := by
  induction l generalizing m with
  | nil => exact .refl _
  | cons c l ih =>
    have hstep : m.vmm.Moved (m.step c).vmm := by
      unfold Mm.step
      split
      · exact .refl _
      · next hof => exact h.moved_perform (fun ht ↦ by simpa [ht] using hof)
    exact hstep.trans (ih (h.step (fun hh ↦ hh.elim)))

theorem run_ok {pmm : Pmm} (hok : pmm.Ok) {fbPhys fbSize : ℕ} (hfb : FbReserved pmm fbPhys fbSize)
    (bytes : ℕ → ℕ → UInt8) (l : List MmCall) : ((boot pmm bytes fbPhys fbSize).run l).vmm.pmm.Ok :=
  ((boot_orderly hfb bytes).moved_run l).moves.ok hok

theorem run_table {pmm : Pmm} {fbPhys fbSize : ℕ} (hfb : FbReserved pmm fbPhys fbSize)
    (bytes : ℕ → ℕ → UInt8) (l : List MmCall) {root : ℕ}
    (hroot : (((boot pmm bytes fbPhys fbSize).run l).vmm.spaces.get? root).isSome = true) :
    ((boot pmm bytes fbPhys fbSize).run l).vmm.pmm.table root = true := by
  have hboot : (boot pmm bytes fbPhys fbSize).Orderly False := boot_orderly hfb bytes
  have hmoved := hboot.moved_run l
  obtain hnone | htab := hmoved.tables root hroot
  · cases hnone
  · exact (hmoved.moves.table root).trans htab

end Mm

end YabroOS.Memory
