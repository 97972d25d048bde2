import YabroOS.Memory.Orderly

namespace YabroOS.Memory

open Lib Function

theorem pageUp_dvd (x : ℕ) : pageSize ∣ pageUp x := dvd_mul_left _ _

theorem pageSize_dvd_of_mem {base size va : ℕ} (hbase : pageSize ∣ base)
    (hva : va ∈ pages base size) : pageSize ∣ va := by
  obtain ⟨k, -, rfl⟩ := Vmm.mem_pages.1 hva
  exact Nat.dvd_add hbase (dvd_mul_left _ _)

theorem probe_dvd (s : Vmm) {base size : ℕ} (hbase : pageSize ∣ base) (hsize : pageSize ∣ size) :
    pageSize ∣ s.probe base size := by
  unfold Vmm.probe
  cases hf : (pages base size).find? (fun va ↦ s.vmmUserTranslate va ≠ none) with
  | none =>
    rw [Option.getD_none]
    exact Nat.dvd_sub (Nat.dvd_add hbase hsize) (dvd_refl _)
  | some va => exact pageSize_dvd_of_mem hbase (List.mem_of_find?_eq_some hf)

theorem userMmapFindGap_spec {s : Vmm} {size heapEnd base b : ℕ} (hsize : pageSize ∣ size)
    (h : userMmapFindGap s size heapEnd base = some b) :
    userMmapRangeOk b size = true ∧ s.rangeFree b size = true ∧ base ≤ b ∧
      (pageSize ∣ base → pageSize ∣ b) := by
  have hmax : ∀ {x : ℕ}, pageSize ∣ x → pageSize ∣ max x userMmapMin := by
    intro x hx
    rcases max_choice x userMmapMin with hm | hm
    · rwa [hm]
    · rw [hm]
      decide
  fun_induction userMmapFindGap s size heapEnd base with
  | case1 base hok hheap ih =>
    obtain ⟨h₁, h₂, h₃, h₄⟩ := ih h
    exact ⟨h₁, h₂, (le_max_left _ _).trans (hheap.2.1.le.trans h₃), fun _ ↦ h₄ (pageUp_dvd _)⟩
  | case2 base hok hheap hfree =>
    cases h
    exact ⟨hok, hfree, le_max_left _ _, hmax⟩
  | case3 => cases h
  | case4 base hok hheap hfree htop hlt ih =>
    obtain ⟨h₁, h₂, h₃, h₄⟩ := ih h
    exact ⟨h₁, h₂, hlt.le.trans h₃,
      fun hb ↦ h₄ (Nat.dvd_add (probe_dvd s (hmax hb) hsize) (dvd_refl _))⟩
  | case5 => cases h
  | case6 => cases h

theorem rangeOk_le {addr len : ℕ} (h : userMmapRangeOk addr len = true) : addr + len ≤ userTop := by
  simp only [userMmapRangeOk, decide_eq_true_eq] at h
  omega

theorem anyRangeOk_le {addr len : ℕ} (h : userAnyMappingRangeOk addr len = true) :
    addr + len ≤ userTop := by
  simp only [userAnyMappingRangeOk, decide_eq_true_eq] at h
  omega

namespace Mm

variable {heaps : Prop} {m : Mm} {base size cursor : ℕ}

theorem mmapBase_le {addr : ℕ} {fixed : Bool} (hsize : pageSize ∣ size)
    (h : m.mmapBase cursor addr size fixed = .ok base) : base + size ≤ userTop := by
  unfold mmapBase at h
  split at h
  · split at h
    · next hok =>
      cases h
      exact anyRangeOk_le hok
    · cases h
  · split at h
    · next b hb =>
      cases h
      exact rangeOk_le (userMmapFindGap_spec hsize hb).1
    · cases h

theorem Running.mmapFramebuffer (h : m.Running heaps) (cursor addr len prot flags off : ℕ) :
    (m.mmapFramebuffer cursor addr len prot flags off).1.Running heaps := by
  simp only [Mm.mmapFramebuffer]
  generalize (if addr ≠ 0 then pageUp addr else pageUp cursor) = base
  generalize (if off < m.vmm.fbSize then _ else 0) = remaining
  split
  · exact h
  split
  · exact h
  next hok =>
  have hmap := h.setVmm (Vmm.Keeps.graphicsFbMap m.vmm base off len)
  split
  · exact hmap
  dsimp only
  split_ifs
  · exact hmap.advance (rangeOk_le (by simpa using hok))
  · exact hmap

theorem cursor_le_of (m : Mm) (h : ∀ i, m.shares i = true → (m.tasks i).mmapNext ≤ userTop) :
    m.taskSharedMmapCursor.2 ≤ userTop := by
  rw [cursor_snd]
  exact foldl_max_le (by decide) h

theorem Running.mmapReserve (h : m.Running heaps)
    (hcursor : ∀ i, m.shares i = true → (m.tasks i).mmapNext = cursor) (hle : base + size ≤ userTop)
    (fixed : Bool) : (m.mmapReserve cursor base size fixed).1.Running heaps := by
  obtain ⟨v, hv, heq⟩ : ∃ v, m.vmm.Keeps v ∧
      (if fixed then { m with vmm := m.vmm.unmapPages (pages base size) } else m) =
        { m with vmm := v } := by
    split_ifs
    · exact ⟨_, Vmm.Keeps.unmapPages m.vmm _, rfl⟩
    · exact ⟨_, .refl m.vmm, rfl⟩
  have hun := h.setVmm hv
  simp only [Mm.mmapReserve, heq]
  have hcursor₁ : ∀ i, ({ m with vmm := v } : Mm).shares i = true →
    (({ m with vmm := v } : Mm).tasks i).mmapNext = cursor :=
    hcursor
  generalize ({ m with vmm := v } : Mm) = m₁ at hun hcursor₁ ⊢
  have hnext : ∀ i, m₁.shares i = true → (m₁.tasks i).mmapNext ≤ userTop := fun i hi ↦
    (hun.fit i ((hun.shares_iff i).1 hi).1).next_le
  rw [hun.transform_eq]
  cases he : taskLazyMmapTransform m₁.task.lazyMmaps base (base + size) .replace 0 with
  | error rc =>
    dsimp only
    split_ifs
    · exact hun
    · exact hun.advance hle
    · exact hun
  | ok out =>
    have hcur := hun.shares_current
    have hshares :=
      updateShared_shares (f := fun t ↦ { t with lazyMmaps := out }) hcur (fun _ ↦ rfl)
        (fun _ ↦ rfl)
    dsimp only
    rw [if_neg (by simp)]
    split_ifs with hlt
    · -- The reservation and the cursor behind it are one broadcast.
      dsimp only
      rw [advance_eq (by rw [hshares]; exact hcur),
        updateShared_comp (f := fun t ↦ { t with lazyMmaps := out }) hcur (fun _ ↦ rfl) (fun _ ↦ rfl)]
      have hfields : ∀ i,
          ((m₁.updateShared (fun t ↦ { t with lazyMmaps := out })).tasks i).mmapNext =
          (m₁.tasks i).mmapNext := by
        intro i
        simp only [Mm.updateShared]
        split_ifs
        · rfl
        · rfl
      refine hun.reserve he (le_max_right _ _) (max_le (cursor_le_of _ (fun i hi ↦ ?_)) hle)
        (fun i hi ↦ ?_)
      · rw [hshares] at hi
        rw [hfields]
        exact hnext i hi
      · refine le_trans ?_ (le_max_left _ _)
        rw [← hfields]
        exact le_cursor (by rwa [hshares])
    · have hsame : m₁.updateShared (fun t ↦ { t with lazyMmaps := out }) =
          m₁.updateShared (fun t ↦ { t with lazyMmaps := out, mmapNext := cursor }) := by
        refine congrArg (fun ts ↦ { m₁ with tasks := ts }) (funext fun i ↦ ?_)
        split_ifs with hi
        · rw [← hcursor₁ i hi]
        · rfl
      dsimp only
      rw [hsame]
      have htop : cursor ≤ userTop := hcursor₁ m₁.current hcur ▸ hnext m₁.current hcur
      exact hun.reserve he (not_lt.1 hlt) htop (fun i hi ↦ (hcursor₁ i hi).le)

theorem Running.mmapPages (h : m.Running heaps) (hle : base + size ≤ userTop) (prot : ℕ)
    (fixed : Bool) (content : ℕ → Option (ℕ → UInt8)) :
    (m.mmapPages cursor base size prot fixed content).1.Running heaps := by
  have ht : (if fixed then m.taskLazyMmapTransformShared base (base + size) .remove 0
      else (m, 0)).1.Running heaps := by
    split_ifs
    · exact h.transform _ _ _ (by decide)
    · exact h
  simp only [Mm.mmapPages]
  generalize (if fixed then m.taskLazyMmapTransformShared base (base + size) .remove 0
    else (m, 0)) = r at ht ⊢
  obtain ⟨m₁, lrc⟩ := r
  dsimp only at ht ⊢
  split
  · exact ht
  have hmap := ht.setVmm (Vmm.Keeps.mapPages (l := pages base size)
    (fun s va _ ↦ Vmm.Keeps.mmapPage fixed content (Vmm.protToPte prot) s va) m₁.vmm)
  generalize m₁.vmm.mapPages _ (pages base size) = q at hmap ⊢
  split
  · exact hmap
  split
  · exact hmap.advance hle
  · exact hmap

theorem Running.mmapAt (h : m.Running heaps)
    (hcursor : ∀ i, m.shares i = true → (m.tasks i).mmapNext = cursor) (hle : base + size ≤ userTop)
    (prot flags : ℕ) (fd : MmapFd) (off : ℕ) :
    (m.mmapAt cursor base size prot flags fd off).1.Running heaps := by
  unfold Mm.mmapAt
  split
  · exact h.mmapReserve hcursor hle _
  · exact h.mmapPages hle _ _ _

theorem Running.cursor_next (h : m.Running heaps) (i : Slot)
    (hi : m.taskSharedMmapCursor.1.shares i = true) :
    (m.taskSharedMmapCursor.1.tasks i).mmapNext = m.taskSharedMmapCursor.2 := by
  rw [cursor_fst] at hi ⊢
  rw [updateShared_shares (f := fun t ↦ { t with mmapNext := m.taskSharedMmapCursor.2 })
    h.shares_current
    (fun _ ↦ rfl) (fun _ ↦ rfl)] at hi
  simp only [Mm.updateShared, hi, if_true]

theorem Running.sysMmap (h : m.Running heaps) (addr len prot flags : ℕ) (fd : MmapFd) (off : ℕ) :
    (m.sysMmap addr len prot flags fd off).1.Running heaps := by
  unfold Mm.sysMmap
  split
  · exact h
  next m₁ ha =>
  have h₁ := h.activate ha
  have hc := h₁.cursor
  have hnext := h₁.cursor_next
  generalize m₁.taskSharedMmapCursor = r at hc hnext ⊢
  obtain ⟨m₂, cursor⟩ := r
  dsimp only at hc hnext ⊢
  split
  · exact hc
  split
  · exact hc
  split
  · exact hc
  split
  · exact hc
  · exact hc
  · split
    · exact hc
    · exact hc.mmapFramebuffer ..
  · split
    · exact hc
    split
    · exact hc
    split
    · exact hc
    · next base hbase => exact hc.mmapAt hnext (mmapBase_le (pageUp_dvd len) hbase) _ _ _ _

theorem Running.sharedHeap_lt (h : m.Running heaps) :
    m.sharedHeap.1 < userHeapMax ∧ m.sharedHeap.2 < userHeapMax := by
  have hlow : userHeapBase < userHeapMax := by decide
  have hfold : ∀ (l : List Slot) (r : ℕ × ℕ), (∀ i ∈ l, m.shares i = true) → r.1 < userHeapMax ∧
      r.2 < userHeapMax →
      (l.foldl (fun r i ↦ (if (m.tasks i).heapBase ≠ 0 then (m.tasks i).heapBase else r.1,
        max r.2 (m.tasks i).heapEnd)) r).1 < userHeapMax ∧
      (l.foldl (fun r i ↦ (if (m.tasks i).heapBase ≠ 0 then (m.tasks i).heapBase else r.1,
        max r.2 (m.tasks i).heapEnd)) r).2 < userHeapMax := by
    intro l
    induction l with
    | nil => exact fun r _ hr ↦ hr
    | cons i l ih =>
      intro r hl hr
      have hfit := h.fit i ((h.shares_iff i).1 (hl i (.head _))).1
      refine ih _ (fun j hj ↦ hl j (.tail _ hj)) ⟨?_, max_lt hr.2 hfit.heapEnd_lt⟩
      dsimp only
      split_ifs
      · exact hfit.heapBase_lt
      · exact hr.1
  have hfit := h.fit m.current h.used
  have hbase : (if m.task.heapBase ≠ 0 then m.task.heapBase else userHeapBase) < userHeapMax := by
    split_ifs
    · exact hfit.heapBase_lt
    · exact hlow
  have hold : (if m.task.heapEnd ≠ 0 then m.task.heapEnd
      else if m.task.heapBase ≠ 0 then m.task.heapBase else userHeapBase) < userHeapMax := by
    split_ifs
    · exact hfit.heapEnd_lt
    · exact hfit.heapBase_lt
    · exact hlow
  obtain ⟨h₁, h₂⟩ :=
    hfold ((List.finRange 64).filter m.shares) (_, _) (fun i hi ↦ (List.mem_filter.1 hi).2)
      ⟨hbase, hold⟩
  exact ⟨h₁, max_lt h₁ h₂⟩

theorem Running.sysBrk (h : m.Running heaps) (addr : ℕ) : (m.sysBrk addr).1.Running heaps := by
  unfold Mm.sysBrk
  split
  · exact h
  next m₁ ha =>
  have h₁ := h.activate ha
  have hlt := h₁.sharedHeap_lt
  generalize m₁.sharedHeap = r at hlt ⊢
  obtain ⟨base, old⟩ := r
  dsimp only at hlt ⊢
  have hs := h₁.heapSync hlt.1 hlt.2
  generalize m₁.taskSharedHeapSync base old = m₂ at hs ⊢
  split
  · exact hs
  split
  · exact hs
  next haddr =>
  have haddr' : addr < userHeapMax := by
    simp only [not_or, not_lt, not_le] at haddr
    exact haddr.2
  split
  · split
    · exact hs
    · have hmap := hs.setVmm (Vmm.Keeps.mapPages (l := pages (pageUp old) (pageUp addr - pageUp old))
        (fun s va _ ↦ Vmm.Keeps.brkPage s va) m₂.vmm)
      generalize m₂.vmm.mapPages Vmm.brkPage _ = q at hmap ⊢
      split
      · exact hmap
      · exact hmap.heapSync hlt.1 haddr'
  · exact (hs.setVmm (Vmm.Keeps.unmapPages _ _)).heapSync hlt.1 haddr'

theorem Running.taskLazyPageFault (h : m.Running heaps) (addr : ℕ) (write fetch : Bool) :
    (m.taskLazyPageFault addr write fetch).1.Running heaps := by
  unfold Mm.taskLazyPageFault
  split
  · exact h
  next m₁ ha =>
  have h₁ := h.activate ha
  split
  · exact h₁
  split
  · exact h₁
  split
  · exact h₁
  · exact h₁.setVmm (Vmm.Keeps.mapFresh _ _ _ _)

theorem keeps_mremapCopy (root src dst len : ℕ) (l : List ℕ) (s : Vmm) :
    s.Keeps (mremapCopy root src dst len l s).1 := by
  induction l generalizing s with
  | nil => exact .refl s
  | cons k l ih =>
    simp only [mremapCopy]
    split
    · exact .refl s
    · next data hd =>
      have hc := Vmm.Keeps.userCopyToCr3 s root (dst + k * 256) data
      split
      · exact hc
      · exact hc.trans (ih _)

theorem kept_running : Kept (Running heaps) where
  activate h ha := h.activate ha
  remove _ _ h := h.transform _ _ _ (by decide)
  setProt _ _ _ _ h := h.transform _ _ _ (by decide)
  unmap _ h := h.setVmm (Vmm.Keeps.unmapPages _ _)
  fbUnmap _ _ h := h.setVmm (Vmm.Keeps.graphicsFbUnmap _ _ _)
  protect _ _ _ _ h := h.setVmm (Vmm.Keeps.eachPage (fun s va _ ↦ Vmm.Keeps.mprotectStep _ _ s va) _)
  copy _ _ _ _ _ h := h.setVmm (keeps_mremapCopy ..)
  grow _ _ h := h.setVmm (Vmm.Keeps.mapPages (fun s va _ ↦ Vmm.Keeps.mapZero _ s va) _)
  mmap _ _ _ _ _ _ h := h.sysMmap ..

end Mm

end YabroOS.Memory
