import YabroOS.Memory.OrderlyCalls

namespace YabroOS.Memory

open Lib Function

namespace Vmm

variable {s s' s'' : Vmm} {root f : ℕ} {p : Pmm}

/-- Address spaces may have been made, and none was dropped. -/
structure Extends (s s' : Vmm) : Prop where
  fbPhys : s'.fbPhys = s.fbPhys
  fbSize : s'.fbSize = s.fbSize
  roots : ∀ r, (s.spaces.get? r).isSome = true → (s'.spaces.get? r).isSome = true
  framed : s.Framed → s'.Framed
  moves : s.pmm.Moves s'.pmm
  tables : ∀ r, (s'.spaces.get? r).isSome = true → (s.spaces.get? r).isSome = true ∨
    s.pmm.table r = true

theorem Keeps.extends (h : s.Keeps s') : s.Extends s' :=
  ⟨h.fbPhys, h.fbSize, fun r hr ↦ (h.roots r).trans hr, h.framed, h.moves,
    fun r hr ↦ .inl ((h.roots r).symm.trans hr)⟩

theorem Extends.refl (s : Vmm) : s.Extends s := (Keeps.refl s).extends

theorem Extends.trans (h : s.Extends s') (h' : s'.Extends s'') : s.Extends s'' := by
  refine ⟨h'.fbPhys.trans h.fbPhys, h'.fbSize.trans h.fbSize, fun r hr ↦ h'.roots r (h.roots r hr),
    fun hf ↦ h'.framed (h.framed hf), h.moves.trans h'.moves, fun r hr ↦ ?_⟩
  obtain hr' | htab := h'.tables r hr
  · exact h.tables r hr'
  · exact .inr ((h.moves.table r).symm.trans htab)

theorem isSome_set_or {α : Type} {t : Slots α} {i r : ℕ} {a : α}
    (h : ((t.set i a).get? r).isSome = true) : (t.get? r).isSome = true ∨ r = i := by
  by_cases hri : r = i
  · exact .inr hri
  · rw [Slots.get?_set_of_ne t hri] at h
    exact .inl h

theorem allocTable_table_before {p' : Pmm} (h : p.allocTable = (p', some f)) : p.table f = true :=
  ((Pmm.Moves.allocTable h).table f).symm.trans (allocTable_table h)

theorem isSome_set_of_isSome {α : Type} {t : Slots α} {r : ℕ} (hr : (t.get? r).isSome = true)
    (i : ℕ) (a : α) : ((t.set i a).get? r).isSome = true := by
  by_cases hri : r = i
  · subst hri
    rw [Slots.get?_set_self]
    rfl
  · rwa [Slots.get?_set_of_ne t hri]

theorem allocTable_alloc {p' : Pmm} (h : p.allocTable = (p', some f)) :
    p.pmmAllocPage = (p', some f) := by
  simp only [Pmm.allocTable] at h
  split at h
  · cases h
  · next q g ha =>
    split_ifs at h
    · cases h
      exact ha
    · cases h

theorem Framed.fresh (h : s.Framed) (ha : s.pmm.allocTable = (p, some f)) :
    s.spaces.get? f = none := by
  have hnot : f ∉ s.uses.map Prod.fst :=
    Account.Holds.not_mem h (Pmm.pool_alloc (allocTable_alloc ha))
  cases hg : s.spaces.get? f with
  | none => rfl
  | some t =>
    refine absurd ?_ hnot
    rw [uses_of_get? hg, treeUses]
    simp

theorem create_spec (h : s.Framed) : s.Extends s.vmmUserSpaceCreate.1 ∧
    (s.vmmUserSpaceCreate.2 = 0 → ∃ root, root ≠ 0 ∧ s.spaces.get? root = none ∧
      s.vmmUserSpaceCreate.1.user = some root ∧
        (s.vmmUserSpaceCreate.1.spaces.get? root).isSome = true) := by
  unfold vmmUserSpaceCreate
  split
  · next pmm ha =>
    exact ⟨⟨rfl, rfl, fun _ hr ↦ hr, fun hf ↦ Pmm.holds_allocTable_none hf ha, .allocTable ha,
      fun _ hr ↦ .inl hr⟩, fun h ↦ by cases h⟩
  · next pmm root ha =>
    refine ⟨⟨rfl, rfl, fun r hr ↦ isSome_set_of_isSome hr _ _, fun hf ↦ ?_, .allocTable ha,
      fun r hr ↦ ?_⟩, fun _ ↦ ⟨root, ?_, h.fresh ha, rfl, ?_⟩⟩
    · have hclaim := Pmm.holds_allocTable_some hf ha
      refine Account.Holds.mono hclaim ?_
      show (s.spaces.set root (Tab.empty 3)).total treeUses ≤ _
      rw [Slots.total_set, treeUses, Tab.uses, Tab.weigh_empty, Multiset.cons_add, zero_add]
      refine Multiset.cons_le_cons _ ?_
      rw [uses, Slots.total_erase treeUses s.spaces root]
      exact Multiset.le_add_left _ _
    · obtain hr' | rfl := isSome_set_or hr
      · exact .inl hr'
      · exact .inr (allocTable_table_before ha)
    · have htab := allocTable_table ha
      simp only [Pmm.table, decide_eq_true_eq] at htab
      exact htab.1
    · show ((s.spaces.set root (Tab.empty 3)).get? root).isSome = true
      rw [Slots.get?_set_self]
      rfl

theorem clone_spec (h : s.Framed) (root : ℕ) : s.Extends (s.vmmUserSpaceClone root).1 ∧
    ∀ dst, (s.vmmUserSpaceClone root).2 = .ok dst → dst ≠ 0 ∧ s.spaces.get? dst = none ∧
      ((s.vmmUserSpaceClone root).1.spaces.get? dst).isSome = true := by
  have hk : s.Framed →
      Kept (Account.backed (fbRange s.fbPhys s.fbSize)) (s.vmmUserSpaceClone root).1 :=
    fun hf ↦ kept_clone hf rfl
  have hmoves := moves_clone s root
  revert hk hmoves
  simp only [vmmUserSpaceClone]
  split
  · exact fun _ _ ↦ ⟨.refl s, fun _ h ↦ by cases h⟩
  next t ht =>
  split
  swap
  · exact fun _ _ ↦ ⟨.refl s, fun _ h ↦ by cases h⟩
  split
  · exact fun hk hmoves ↦
      ⟨⟨rfl, rfl, fun _ hr ↦ hr, hk, hmoves, fun _ hr ↦ .inl hr⟩, fun _ h ↦ by cases h⟩
  next pmm dstPhys ha =>
  split
  · exact fun hk hmoves ↦
      ⟨⟨rfl, rfl, fun _ hr ↦ hr, hk, hmoves, fun _ hr ↦ .inl hr⟩, fun _ h ↦ by cases h⟩
  split
  · exact fun hk hmoves ↦
      ⟨⟨rfl, rfl, fun _ hr ↦ hr, hk, hmoves, fun _ hr ↦ .inl hr⟩, fun _ h ↦ by cases h⟩
  split
  · refine fun hk hmoves ↦
      ⟨⟨rfl, rfl, fun _ hr ↦ isSome_set_of_isSome hr _ _, hk, hmoves, fun r hr ↦ ?_⟩,
        fun _ h ↦ by cases h⟩
    exact .inl ((isSome_set ht r).symm.trans hr)
  · refine fun hk hmoves ↦
      ⟨⟨rfl, rfl, fun _ hr ↦ isSome_set_of_isSome (isSome_set_of_isSome hr _ _) _ _, hk, hmoves,
      fun r hr ↦ ?_⟩, fun dst hd ↦ ?_⟩
    · obtain hr' | rfl := isSome_set_or hr
      · exact .inl ((isSome_set ht r).symm.trans hr')
      · exact .inr (allocTable_table_before ha)
    cases hd
    have htab := allocTable_table ha
    simp only [Pmm.table, decide_eq_true_eq] at htab
    refine ⟨htab.1, h.fresh ha, ?_⟩
    rw [Slots.get?_set_self]
    rfl

end Vmm

namespace Mm

variable {heaps : Prop} {m : Mm} {i : Slot} {v : Vmm}

theorem startImage_extends {s : Vmm} (h : s.Framed) (img : ElfImage) :
    s.Extends (startImage s img).1 ∧
    ∀ imageEnd, (startImage s img).2 = some imageEnd → ∃ root, root ≠ 0 ∧
      s.spaces.get? root = none ∧ (startImage s img).1.user = some root ∧
        ((startImage s img).1.spaces.get? root).isSome = true := by
  unfold startImage
  split
  · exact ⟨.refl s, fun _ h ↦ by cases h⟩
  obtain ⟨hext, hroot⟩ := Vmm.create_spec h
  generalize s.vmmUserSpaceCreate = r at hext hroot ⊢
  obtain ⟨s₁, rc⟩ := r
  dsimp only at hext hroot ⊢
  split
  · exact ⟨hext, fun _ h ↦ by cases h⟩
  next hrc =>
  obtain ⟨root, hne, hfresh, huser, hsome⟩ := hroot (by simpa using fun hc ↦ hrc (.inl hc))
  have himg := Vmm.Keeps.loadImage s₁ img img.bias false
  generalize s₁.loadImage img img.bias false = q at himg ⊢
  obtain ⟨s₂, o⟩ := q
  dsimp only at himg ⊢
  cases o with
  | none => exact ⟨hext.trans himg.extends, fun _ h ↦ by cases h⟩
  | some l =>
    exact ⟨hext.trans himg.extends,
      fun _ _ ↦ ⟨root, hne, hfresh, himg.user.trans huser, (himg.roots root).trans hsome⟩⟩

theorem keeps_finishImage (s : Vmm) (f : ExecFile) (a : Vmm.ExecArgs) :
    s.Keeps (finishImage s f a).1 := by
  simp only [finishImage]
  cases f.image.interpPath with
  | error rc => exact .refl s
  | ok path =>
  dsimp only
  have hinterp : s.Keeps (if path = [] then (s, some 0)
      else s.loadBootfsElfImage (f.bootfs path) interpBase).1 := by
    split_ifs
    · exact .refl s
    · exact Vmm.Keeps.loadBootfsElfImage _ _ _
  generalize (if path = [] then (s, some 0) else s.loadBootfsElfImage (f.bootfs path) interpBase) =
    r at hinterp ⊢
  obtain ⟨s₁, o⟩ := r
  dsimp only at hinterp ⊢
  cases o with
  | none => exact hinterp
  | some interpEntry =>
  have hstack := hinterp.trans (Vmm.Keeps.mapUserStack s₁)
  dsimp only
  split
  · exact hstack
  have hinit := hstack.trans (Vmm.Keeps.initUserStack s₁.mapUserStack.1 f.image f.image.bias
    (f.image.entry + f.image.bias) (if path = [] then 0 else interpBase) a)
  split
  · next s₂ he =>
    rw [he] at hinit
    exact hinit
  · next s₂ sp he =>
    rw [he] at hinit
    exact hinit

theorem Orderly.extend (h : m.Orderly heaps) (hv : m.vmm.Extends v) :
    { m with vmm := v }.Orderly heaps :=
  ⟨hv.framed h.framed, fun i hi ↦ ⟨(h.rooted i hi).1, hv.roots _ (h.rooted i hi).2⟩, h.fit, h.same⟩

/-- A new image of this end has another heap than the tasks that share the address space. -/
def HeapDiffers (m : Mm) (imageEnd : ℕ) : Prop :=
  m.taskCr3IsShared m.current = true ∧
    ¬ (m.task.heapBase = imageHeapBase imageEnd ∧ m.task.heapEnd = imageHeapBase imageEnd)

/-- The loader has set the heap of the new image in the task that calls it, and then fails, while
another task shares the old address space. -/
def Tears (m : Mm) : MmCall → Prop
  | .execve (some f) a => (m.sysExecve (some f) a).2 ≠ 0 ∧ f.Sized ∧ ∃ m₁ imageEnd, m.activate =
      some m₁ ∧ (startImage m₁.vmm f.image).2 = some imageEnd ∧ m.HeapDiffers imageEnd
  | .launch (some f) a =>
    (∃ rc, (m.kernelExecveFileArgs (some f) a).2 = .error rc) ∧ m.task.used = true ∧ f.Sized ∧
      ∃ imageEnd, (startImage m.vmm f.image).2 = some imageEnd ∧ m.HeapDiffers imageEnd
  | _ => False

theorem userMmapMin_le_userTop : userMmapMin ≤ userTop := by decide

theorem userHeapBase_lt : userHeapBase < userHeapMax := by decide

theorem imageHeapBase_lt (imageEnd : ℕ) : imageHeapBase imageEnd < userHeapMax := by
  simp only [imageHeapBase]
  generalize (if userHeapBase < imageEnd then pageUp imageEnd else userHeapBase) = base
  generalize (if base < userHeapBase then userHeapBase else base) = base
  split_ifs with hb
  · decide
  · exact not_le.1 hb

theorem firstHeap_lt (m : Mm) (file : Option ExecFile) : m.firstHeap file < userHeapMax := by
  unfold firstHeap
  split
  · exact userHeapBase_lt
  · exact imageHeapBase_lt _

/-- The state that the loader leaves: it has failed early, or it has made an address space and set
the heap. -/
inductive Loads (m : Mm) (file : Option ExecFile) : Mm × Except ℤ (ℕ × ℕ) → Prop
  | refused (v : Vmm) (rc : ℤ) (hv : m.vmm.Extends v) : Loads m file ({ m with vmm := v }, .error rc)
  | loaded (f : ExecFile) (v : Vmm) (imageEnd root : ℕ) (r : Except ℤ (ℕ × ℕ))
    (hfile : file = some f)
      (hsize : f.Sized) (hstart : (startImage m.vmm f.image).2 = some imageEnd)
        (hv : m.vmm.Extends v) (hne : root ≠ 0)
      (hfresh : m.vmm.spaces.get? root = none) (huser : v.user = some root)
      (hroot : (v.spaces.get? root).isSome = true) (hr : ∀ rc, r = .error rc → rc ≠ 0) :
      Loads m file ({ m with vmm := v }.userHeapResetForImage imageEnd, r)

theorem Orderly.loads (h : m.Orderly heaps) (file : Option ExecFile) (a : Vmm.ExecArgs) :
    Loads m file (m.kernelExecveFileArgs file a) := by
  unfold kernelExecveFileArgs
  split
  · exact .refused m.vmm _ (.refl _)
  next f =>
  split_ifs with hsize
  · exact .refused m.vmm _ (.refl _)
  have hsize : f.Sized := by
    unfold ExecFile.Sized
    omega
  obtain ⟨hext, hroot⟩ := startImage_extends h.framed f.image
  unfold loadElfWithArgsReader
  cases hs : startImage m.vmm f.image with
  | mk s o =>
  rw [hs] at hext hroot
  cases o with
  | none => exact .refused s _ hext
  | some imageEnd =>
    obtain ⟨root, hne, hfresh, huser, hsome⟩ := hroot imageEnd rfl
    have hfin := keeps_finishImage s f a
    dsimp only at hext huser hsome ⊢
    generalize finishImage s f a = q at hfin ⊢
    obtain ⟨s₁, o⟩ := q
    have hstart : (startImage m.vmm f.image).2 = some imageEnd := by rw [hs]
    have hload := fun r ↦ Loads.loaded (m := m) f s₁ imageEnd root r rfl hsize hstart
      (hext.trans hfin.extends) hne hfresh (hfin.user.trans huser) ((hfin.roots root).trans hsome)
    cases o with
    | none =>
      refine hload _ (fun rc hrc ↦ ?_)
      cases hrc
      decide
    | some q =>
      refine hload _ (fun rc hrc ↦ ?_)
      split_ifs at hrc
      cases hrc
      decide

theorem reset_eq (m : Mm) (v : Vmm) (hu : m.task.used = true) (imageEnd : ℕ) :
    ({ m with vmm := v } : Mm).userHeapResetForImage imageEnd =
      ({ m with vmm := v } : Mm).setTask m.current
      { m.task with heapBase := imageHeapBase imageEnd, heapEnd := imageHeapBase imageEnd } := by
  unfold userHeapResetForImage
  exact if_pos hu

theorem shared_of (h : m.Orderly heaps) (hu : m.task.used = true) (hi : i ≠ m.current)
    (hused : (m.tasks i).used = true) (hcr3 : (m.tasks i).cr3 = m.task.cr3) :
    m.taskCr3IsShared m.current = true := by
  simp only [taskCr3IsShared, decide_eq_true_eq]
  exact ⟨(h.rooted m.current hu).1, i, hi, hused, hcr3⟩

theorem Running.reset (h : m.Running heaps) (hv : m.vmm.Extends v) {imageEnd : ℕ}
    (hheap : heaps → ¬ m.HeapDiffers imageEnd) :
    (({ m with vmm := v } : Mm).userHeapResetForImage imageEnd).Orderly heaps := by
  rw [reset_eq m v h.used]
  refine (h.toOrderly.extend hv).setTask _ (fun _ ↦ ?_)
  have hfit := h.fit m.current h.used
  have hroot := h.rooted m.current h.used
  refine ⟨⟨hfit.lazy_le, hfit.next_le, imageHeapBase_lt _, imageHeapBase_lt _⟩, hroot.1,
    hv.roots _ hroot.2,
    fun j hj hused hcr3 ↦ ?_⟩
  have hsame := h.same m.current j h.used hused hcr3.symm
  refine ⟨hsame.lazyMmaps, fun hh ↦ ?_⟩
  obtain ⟨hb, he⟩ := not_not.1 (fun hne ↦ hheap hh ⟨shared_of h.toOrderly h.used hj hused hcr3, hne⟩)
  exact ⟨hb.symm.trans (hsame.heap hh).1, he.symm.trans (hsame.heap hh).2⟩

theorem not_shared (hs : m.taskCr3IsShared i = false) (hne : (m.tasks i).cr3 ≠ 0) (j : Slot)
    (hj : j ≠ i) (hused : (m.tasks j).used = true) : (m.tasks j).cr3 ≠ (m.tasks i).cr3 := by
  intro hc
  simp only [taskCr3IsShared, decide_eq_false_iff_not] at hs
  exact hs ⟨hne, j, hj, hused, hc⟩

theorem setTask_setTask (m : Mm) (i : Slot) (t t' : UserTask) (v : Vmm) :
    ({ (m.setTask i t) with vmm := v } : Mm).setTask i t' =
      ({ m with vmm := v } : Mm).setTask i t' := by
  simp only [setTask, update_idem]

theorem Running.replaceImage (h : m.Running heaps) (hv : m.vmm.Extends v) {imageEnd root : ℕ}
    (hne : root ≠ 0) (hfresh : m.vmm.spaces.get? root = none)
    (hroot : (v.spaces.get? root).isSome = true) :
    ((({ m with vmm := v } : Mm).userHeapResetForImage imageEnd).replaceImage root).Orderly
      heaps := by
  have hother : ∀ j, (m.tasks j).used = true → (m.tasks j).cr3 ≠ root := by
    intro j hj hc
    have hsome := (h.rooted j hj).2
    rw [hc, hfresh] at hsome
    cases hsome
  let t₁ : UserTask :=
    { m.task with heapBase := imageHeapBase imageEnd, heapEnd := imageHeapBase imageEnd }
  let t : UserTask := { t₁ with cr3 := root, mmapNext := userMmapMin, lazyMmaps := [] }
  have hfit : t.Fit :=
    ⟨fun _ hr ↦ (List.not_mem_nil hr).elim, userMmapMin_le_userTop, imageHeapBase_lt _,
      imageHeapBase_lt _⟩
  have hsame : ∀ j, j ≠ m.current → (m.tasks j).used = true → (m.tasks j).cr3 = t.cr3 →
      t.Same heaps (m.tasks j) :=
    fun j _ hj hc ↦ absurd hc (hother j hj)
  have hext := h.toOrderly.extend hv
  have htask : (({ m with vmm := v } : Mm).setTask m.current t₁).task = t₁ := update_self _ _ _
  rw [reset_eq m v h.used]
  simp only [Mm.replaceImage]
  change Orderly heaps
    (({ (({ m with vmm := v } : Mm).setTask m.current t₁) with vmm := _ } : Mm).setTask m.current _)
  rw [setTask_setTask, htask]
  show Orderly heaps (({ m with vmm := _ } : Mm).setTask m.current t)
  split_ifs with hd
  · refine hext.destroy (fun j hj hused ↦ ?_)
      (fun _ ↦ ⟨hfit, hne, fun hc ↦ hother m.current h.used hc.symm, hroot, hsame⟩)
    have hns := not_shared hd.2.2 (by rw [← task, htask]; exact hd.1) j hj
    rw [← task, htask] at hns
    have hj' : (({ m with vmm := v } : Mm).setTask m.current t₁).tasks j = m.tasks j :=
      update_of_ne hj _ _
    rw [hj'] at hns
    exact hns hused
  · exact hext.setTask _ (fun _ ↦ ⟨hfit, hne, hroot, hsame⟩)

theorem activate_used {m' : Mm} (h : m.Running heaps) (ha : m.activate = some m') :
    m'.Running heaps ∧
    ∀ e, m'.HeapDiffers e ↔ m.HeapDiffers e := by
  refine ⟨h.activate ha, fun e ↦ ?_⟩
  rw [activate_some ha]
  rfl

theorem Running.sysExecve (h : m.Running heaps) {file : Option ExecFile} {a : Vmm.ExecArgs}
    (hc : heaps → ¬ m.Tears (.execve file a)) : (m.sysExecve file a).1.Orderly heaps := by
  cases ha : m.activate with
  | none =>
    simp only [Mm.sysExecve, ha]
    exact h.toOrderly
  | some m₁ =>
  obtain ⟨h₁, hdiff⟩ := activate_used h ha
  have hfail : ∀ f e, file = some f → f.Sized → (startImage m₁.vmm f.image).2 = some e →
      (m.sysExecve file a).2 ≠ 0 → heaps → ¬ m₁.HeapDiffers e := by
    rintro f e rfl hsize hs hrc hh hd
    exact hc hh ⟨hrc, hsize, m₁, e, ha, hs, (hdiff e).1 hd⟩
  have hload := h₁.toOrderly.loads file a
  simp only [Mm.sysExecve, ha] at hfail ⊢
  generalize m₁.kernelExecveFileArgs file a = q at hload hfail ⊢
  cases hload with
  | refused v rc hv => exact h₁.toOrderly.extend hv
  | loaded f v imageEnd root r hfile hsize hstart hv hne hfresh huser hroot hr =>
  have hfail := hfail f imageEnd hfile hsize hstart
  cases r with
  | error rc => exact h₁.reset hv (hfail (hr rc rfl))
  | ok target =>
  have huser' : (({ m₁ with vmm := v } : Mm).userHeapResetForImage imageEnd).vmm.user =
    some root := by
    rw [reset_eq m₁ v h₁.used]
    exact huser
  simp only [huser'] at hfail ⊢
  split
  · exact h₁.replaceImage hv hne hfresh hroot
  · next hbad =>
    rw [if_neg hbad] at hfail
    exact h₁.reset hv (hfail (show -enomem ≠ 0 by decide))

theorem reset_of_not_used (m : Mm) (v : Vmm) (hu : m.task.used = false) (imageEnd : ℕ) :
    ({ m with vmm := v } : Mm).userHeapResetForImage imageEnd = { m with vmm := v } := by
  unfold userHeapResetForImage
  exact if_neg (by rw [← Bool.not_eq_true] at hu; exact hu)

theorem Orderly.launch (h : m.Orderly heaps) {file : Option ExecFile} {a : Vmm.ExecArgs}
    (hc : heaps → ¬ m.Tears (.launch file a)) : (m.launch file a).Orderly heaps := by
  have hfail : ∀ f e, file = some f → f.Sized → (startImage m.vmm f.image).2 = some e →
      m.task.used = true →
      (∃ rc, (m.kernelExecveFileArgs file a).2 = .error rc) → heaps → ¬ m.HeapDiffers e := by
    rintro f e rfl hsize hs hu hrc hh hd
    exact hc hh ⟨hrc, hu, hsize, e, hs, hd⟩
  unfold Mm.launch
  split
  · exact h
  have hload := h.loads file a
  generalize m.kernelExecveFileArgs file a = q at hload hfail ⊢
  cases hload with
  | refused v rc hv => exact h.extend hv
  | loaded f v imageEnd root r hfile hsize hstart hv hne hfresh huser hroot hr =>
  have hfail := hfail f imageEnd hfile hsize hstart
  have hother : ∀ j, (m.tasks j).used = true → (m.tasks j).cr3 ≠ root := by
    intro j hj hcr3
    have hsome := (h.rooted j hj).2
    rw [hcr3, hfresh] at hsome
    cases hsome
  cases hu : m.task.used with
  | true =>
    have hrun : m.Running heaps := ⟨h, hu⟩
    rw [reset_eq m v hu] at hfail ⊢
    cases r with
    | error rc =>
      have hreset := hrun.reset hv (hfail hu ⟨rc, rfl⟩)
      rwa [reset_eq m v hu] at hreset
    | ok target =>
      have hfit := h.fit m.current hu
      have hfit₁ :
          ({ m.task with heapBase := imageHeapBase imageEnd, heapEnd := imageHeapBase imageEnd } :
            UserTask).Fit :=
        ⟨hfit.lazy_le, hfit.next_le, imageHeapBase_lt _, imageHeapBase_lt _⟩
      have hused :
          ({ m.task with heapBase := imageHeapBase imageEnd, heapEnd := imageHeapBase imageEnd } :
            UserTask).used =
          true := hu
      generalize ({ m.task with
        heapBase := imageHeapBase imageEnd, heapEnd := imageHeapBase imageEnd } : UserTask) = t at *
      have huser' : (({ m with vmm := v } : Mm).setTask m.current t).vmm.user = some root := huser
      have htask : (({ m with vmm := v } : Mm).setTask m.current t).task = t := update_self _ _ _
      simp only [huser', htask, hused, if_true]
      change Orderly heaps
        (({ (({ m with vmm := v } : Mm).setTask m.current t) with vmm := v } : Mm).setTask
          m.current _)
      rw [setTask_setTask]
      exact (h.extend hv).setTask _
        (fun _ ↦ ⟨⟨hfit₁.lazy_le, hfit₁.next_le, hfit₁.heapBase_lt, hfit₁.heapEnd_lt⟩, hne, hroot,
        fun j _ hj hcr3 ↦ absurd hcr3 (hother j hj)⟩)
  | false =>
    rw [reset_of_not_used m v hu]
    cases r with
    | error rc => exact h.extend hv
    | ok target =>
      have hused : ({ m with vmm := v } : Mm).task.used = false := hu
      simp only [huser, hused, Bool.false_eq_true, if_false]
      exact (h.extend hv).setTask _
        (fun _ ↦ ⟨⟨fun _ hr ↦ (List.not_mem_nil hr).elim, userMmapMin_le_userTop, firstHeap_lt _ _,
          firstHeap_lt _ _⟩,
        hne, hroot, fun j _ hj hcr3 ↦ absurd hcr3 (hother j hj)⟩)

theorem keeps_copyIds (root : ℕ) (l : List (ℕ × List UInt8)) (s : Vmm) :
    s.Keeps (copyIds root l s).1 := by
  induction l generalizing s with
  | nil => exact .refl s
  | cons q l ih =>
    simp only [copyIds]
    have hc := Vmm.Keeps.userCopyToCr3 s root q.1 q.2
    split
    · exact hc
    · exact hc.trans (ih _)

theorem freeSlot_unused (h : m.freeSlot = some i) : (m.tasks i).used = false := by
  have hfind := List.find?_some h
  simpa using hfind

theorem Running.cloneTask (h : m.Running heaps) (hi : (m.tasks i).used = false) (fds : Bool) :
    (m.setTask i { m.task with used := fds, zombie := false }).Running heaps := by
  have hne : m.current ≠ i := by
    rintro rfl
    rw [← task, h.used] at hi
    cases hi
  have hcur : (m.setTask i { m.task with used := fds, zombie := false }).task = m.task :=
    update_of_ne hne _ _
  refine ⟨h.toOrderly.setTask i (fun _ ↦ ?_), by rw [hcur]; exact h.used⟩
  have hfit := h.fit m.current h.used
  have hroot := h.rooted m.current h.used
  refine ⟨⟨hfit.lazy_le, hfit.next_le, hfit.heapBase_lt, hfit.heapEnd_lt⟩, hroot.1, hroot.2,
    fun j _ hj hcr3 ↦ ?_⟩
  have hsame := h.same m.current j h.used hj hcr3.symm
  exact ⟨hsame.lazyMmaps, hsame.heap⟩

theorem Running.sysClone (h : m.Running heaps) (ok fds : Bool) (ids : List (ℕ × List UInt8)) :
    (m.sysClone ok fds ids).1.Running heaps ∧
      ∀ i, (m.sysClone ok fds ids).2 = some i → i ≠ (m.sysClone ok fds ids).1.current := by
  unfold Mm.sysClone
  split
  · exact ⟨h, fun _ hi ↦ by cases hi⟩
  split
  · exact ⟨h, fun _ hi ↦ by cases hi⟩
  next i hfree =>
  have hi := freeSlot_unused hfree
  have hne : i ≠ m.current := by
    rintro rfl
    rw [← task, h.used] at hi
    cases hi
  have hclone := h.cloneTask hi fds
  have hne : i ≠ (m.setTask i { m.task with used := fds, zombie := false }).current := hne
  dsimp only
  generalize m.setTask i { m.task with used := fds, zombie := false } = m₁ at hclone hne ⊢
  split
  · exact ⟨hclone, fun _ hi ↦ by cases hi⟩
  have hcopy := hclone.setVmm (keeps_copyIds m₁.task.cr3 ids m₁.vmm)
  generalize copyIds m₁.task.cr3 ids m₁.vmm = q at hcopy ⊢
  split
  · refine ⟨⟨hcopy.toOrderly.dropTask i rfl, ?_⟩, fun _ hi ↦ by cases hi⟩
    show (update m₁.tasks i _ m₁.current).used = true
    rw [update_of_ne (Ne.symm hne)]
    exact hclone.used
  · refine ⟨hcopy, fun j hj ↦ ?_⟩
    cases hj
    exact hne

theorem Orderly.retire (h : m.Orderly heaps) (i : Slot) : (m.retire i).Orderly heaps := by
  simp only [Mm.retire, taskReapResources]
  have hidem : ∀ v : Vmm,
      ((({ m with vmm := v } : Mm).setTask i { m.tasks i with cr3 := 0 }).setTask i
      { (({ m with vmm := v } : Mm).setTask i { m.tasks i with cr3 := 0 }).tasks i with
        used := false, zombie := false }) =
      ({ m with vmm := v } : Mm).setTask i
        { m.tasks i with cr3 := 0, used := false, zombie := false } := by
    intro v
    have hself : (({ m with vmm := v } : Mm).setTask i { m.tasks i with cr3 := 0 }).tasks i =
      { m.tasks i with cr3 := 0 } :=
      update_self _ _ _
    rw [hself]
    exact setTask_setTask { m with vmm := v } i _ _ v
  rw [hidem]
  split_ifs with hd
  · refine h.destroy (fun j hj hused ↦ not_shared hd.2.2 hd.1 j hj hused) (fun hu ↦ ?_)
    cases hu
  · exact h.dropTask i rfl

theorem Running.sysFork (h : m.Running heaps) (ok fds : Bool) :
    (m.sysFork ok fds).Orderly heaps := by
  obtain ⟨hclone, hne⟩ := h.sysClone ok fds []
  unfold Mm.sysFork
  generalize m.sysClone ok fds [] = q at hclone hne ⊢
  obtain ⟨m₁, o⟩ := q
  cases o with
  | none => exact hclone.toOrderly
  | some i =>
  obtain ⟨hext, hroot⟩ := Vmm.clone_spec hclone.framed m₁.task.cr3
  dsimp only at hclone ⊢
  generalize m₁.vmm.vmmUserSpaceClone m₁.task.cr3 = r at hext hroot ⊢
  obtain ⟨v, o⟩ := r
  have hv := hclone.toOrderly.extend hext
  cases o with
  | error rc => exact hv.retire i
  | ok root =>
    obtain ⟨hnz, hfresh, hsome⟩ := hroot root rfl
    refine hv.setTask i (fun hu ↦ ?_)
    have hfit := hclone.fit i hu
    refine ⟨⟨hfit.lazy_le, hfit.next_le, hfit.heapBase_lt, hfit.heapEnd_lt⟩, hnz, hsome,
      fun j _ hj hcr3 ↦ ?_⟩
    have hold := (hclone.rooted j hj).2
    have hcr3' : (m₁.tasks j).cr3 = root := hcr3
    rw [hcr3', hfresh] at hold
    cases hold

theorem Orderly.perform (h : m.Orderly heaps) {c : MmCall}
    (hu : c.ofTask = true → m.task.used = true) (hc : heaps → ¬ m.Tears c) :
    (m.perform c).Orderly heaps := by
  cases c with
  | mmap addr len prot flags fd off => exact (Running.sysMmap ⟨h, hu rfl⟩ ..).toOrderly
  | munmap addr len fs gs => exact (kept_running.sysMunmap ⟨h, hu rfl⟩ ..).toOrderly
  | mprotect addr len prot => exact (kept_running.sysMprotect ⟨h, hu rfl⟩ ..).toOrderly
  | mremap oldAddr oldSize newSize flags newAddr fs gs =>
    exact (kept_running.sysMremap ⟨h, hu rfl⟩ ..).toOrderly
  | brk addr => exact (Running.sysBrk ⟨h, hu rfl⟩ addr).toOrderly
  | lazyFault addr write fetch => exact (Running.taskLazyPageFault ⟨h, hu rfl⟩ ..).toOrderly
  | cowFault addr => exact h.setVmm (Vmm.Keeps.cowFault _ _ _)
  | copyTo i dst data =>
    simp only [Mm.perform]
    split
    · exact h.setVmm (Vmm.Keeps.userCopyToCr3 _ _ _ _)
    · exact h
  | store va b => exact h.setVmm (Vmm.Keeps.userStore _ _ _ _)
  | clone ok fds ids => exact (Running.sysClone ⟨h, hu rfl⟩ ok fds ids).1.toOrderly
  | fork ok fds => exact Running.sysFork ⟨h, hu rfl⟩ ok fds
  | execve file a => exact Running.sysExecve ⟨h, hu rfl⟩ hc
  | launch file a => exact h.launch hc
  | exit next =>
    simp only [Mm.perform, Mm.sysExit]
    split
    · exact h
    · generalize (if (m.tasks next).used = true ∧ (m.tasks next).zombie = false ∧
        next ≠ m.current then next else 0) = k
      have hact := h.activateRoot (m.tasks k).cr3 k
      refine hact.setTask _ (fun hused ↦ ?_)
      have hfit := h.fit m.current hused
      have hroot := hact.rooted m.current hused
      refine ⟨⟨hfit.lazy_le, hfit.next_le, hfit.heapBase_lt, hfit.heapEnd_lt⟩, hroot.1, hroot.2,
        fun j _ hj hcr3 ↦ ?_⟩
      have hsame := h.same m.current j hused hj hcr3.symm
      exact ⟨hsame.lazyMmaps, hsame.heap⟩
  | reap i =>
    simp only [Mm.perform, Mm.reap]
    split
    · exact h.retire i
    · exact h
  | switch next =>
    simp only [Mm.perform, Mm.switchTo]
    split
    · exact h.activateRoot _ _
    · exact h

theorem Orderly.step (h : m.Orderly heaps) {c : MmCall} (hc : heaps → ¬ m.Tears c) :
    (m.step c).Orderly heaps := by
  unfold Mm.step
  split
  · exact h
  · next hof => exact h.perform (fun ht ↦ by simpa [ht] using hof) hc

end Mm

end YabroOS.Memory
