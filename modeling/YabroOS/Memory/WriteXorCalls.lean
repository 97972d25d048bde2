import YabroOS.Memory.WriteXor

namespace YabroOS.Memory.Mm

open Lib Function

variable {m : Mm} {prot : ℕ}

theorem Exclusive.mapPages (h : m.Exclusive) {f : Vmm → ℕ → Vmm × ℤ} {l : List ℕ}
    (hf : ∀ s va, s.Wx → (f s va).1.Wx) : { m with vmm := (m.vmm.mapPages f l).1 }.Exclusive :=
  h.setVmm (Vmm.mapPages_invariant (fun s va _ hs ↦ hf s va hs)
    (fun _ va hs ↦ Vmm.Pages.unmapFree hs va) h.vmm)

theorem Exclusive.heapSync (h : m.Exclusive) (base stop : ℕ) :
    (m.taskSharedHeapSync base stop).Exclusive :=
  h.updateShared (fun _ ↦ rfl)

theorem Exclusive.mmapFramebuffer (h : m.Exclusive) (cursor addr len prot flags off : ℕ) :
    (m.mmapFramebuffer cursor addr len prot flags off).1.Exclusive := by
  simp only [Mm.mmapFramebuffer]
  generalize (if addr ≠ 0 then pageUp addr else pageUp cursor) = base
  have hmap := h.setVmm (h.vmm.graphicsFbMap base off len)
  generalize m.vmm.graphicsFbMap base off len = r at hmap ⊢
  split_ifs
  all_goals first | exact h | exact hmap | exact hmap.advance _

theorem Exclusive.mmapReserve (h : m.Exclusive) (cursor base size : ℕ) (fixed : Bool) :
    (m.mmapReserve cursor base size fixed).1.Exclusive := by
  have hun : (if fixed then { m with vmm := m.vmm.unmapPages (pages base size) }
    else m).Exclusive := by
    split_ifs
    · exact h.unmapPages _
    · exact h
  simp only [Mm.mmapReserve]
  generalize (if fixed then { m with vmm := m.vmm.unmapPages (pages base size) } else m) =
    m₁ at hun ⊢
  have ht := hun.transform base (base + size) .replace 0 rfl
  generalize m₁.taskLazyMmapTransformShared base (base + size) .replace 0 = r at ht ⊢
  split_ifs
  · exact ht
  · exact ht.advance _
  · exact ht

theorem Exclusive.mmapPages (h : m.Exclusive) (cursor base size : ℕ)
    (hp : Vmm.userProtWx prot = false) (fixed : Bool) (content : ℕ → Option (ℕ → UInt8)) :
    (m.mmapPages cursor base size prot fixed content).1.Exclusive := by
  have ht : (if fixed then m.taskLazyMmapTransformShared base (base + size) .remove 0
      else (m, 0)).1.Exclusive := by
    split_ifs
    · exact h.transform _ _ _ _ rfl
    · exact h
  simp only [Mm.mmapPages]
  generalize (if fixed then m.taskLazyMmapTransformShared base (base + size) .remove 0
    else (m, 0)) = r at ht ⊢
  have hmap := ht.mapPages (f := Vmm.mmapPage fixed content (Vmm.protToPte prot))
    (l := pages base size) (fun s va hs ↦ hs.mmapPage fixed content (Vmm.wx_protToPte hp))
  generalize r.1.vmm.mapPages _ (pages base size) = q at hmap ⊢
  split_ifs
  · exact ht
  · exact hmap
  · exact hmap.advance _
  · exact hmap

theorem Exclusive.mmapAt (h : m.Exclusive) (cursor base size : ℕ) (hp : Vmm.userProtWx prot = false)
    (flags : ℕ) (fd : MmapFd) (off : ℕ) :
    (m.mmapAt cursor base size prot flags fd off).1.Exclusive := by
  unfold Mm.mmapAt
  split
  · exact h.mmapReserve ..
  · exact h.mmapPages _ _ _ hp _ _

theorem Exclusive.sysMmap (h : m.Exclusive) (addr len prot flags : ℕ) (fd : MmapFd) (off : ℕ) :
    (m.sysMmap addr len prot flags fd off).1.Exclusive := by
  unfold Mm.sysMmap
  split
  · exact h
  next m₁ ha =>
  have hc := (h.activate ha).cursor
  generalize m₁.taskSharedMmapCursor = r at hc ⊢
  obtain ⟨m₂, cursor⟩ := r
  dsimp only at hc ⊢
  split
  · exact hc
  split
  · exact hc
  split
  · exact hc
  next hwx =>
  have hp : Vmm.userProtWx prot = false := by simpa using hwx
  split
  · exact hc
  · exact hc
  · split
    · exact hc
    · exact hc.mmapFramebuffer ..
  · split
    · exact hc
    split
    · exact hc
    split
    · exact hc
    · exact hc.mmapAt _ _ _ hp _ _ _

theorem Exclusive.sysBrk (h : m.Exclusive) (addr : ℕ) : (m.sysBrk addr).1.Exclusive := by
  unfold Mm.sysBrk
  split
  · exact h
  next m₁ ha =>
  have h₁ := h.activate ha
  generalize m₁.sharedHeap = r
  obtain ⟨base, old⟩ := r
  dsimp only
  have hs := h₁.heapSync base old
  generalize m₁.taskSharedHeapSync base old = m₂ at hs ⊢
  split
  · exact hs
  split
  · exact hs
  split
  · split
    · exact hs
    · have hmap :=
        hs.mapPages (f := Vmm.brkPage) (l := pages (pageUp old) (pageUp addr - pageUp old))
        (fun s va hs ↦ hs.brkPage)
      generalize m₂.vmm.mapPages Vmm.brkPage _ = q at hmap ⊢
      split
      · exact hmap
      · exact hmap.heapSync base addr
  · exact (hs.unmapPages _).heapSync base addr

theorem lazyWx_protection {t : UserTask} (h : LazyWx t.lazyMmaps) {addr : ℕ}
    (hp : taskLazyMmapProtection t addr = some prot) : Vmm.userProtWx prot = false := by
  obtain ⟨r, hr, rfl⟩ := Option.map_eq_some_iff.1 hp
  exact h r (List.mem_of_find?_eq_some hr)

theorem Exclusive.taskLazyPageFault (h : m.Exclusive) (addr : ℕ) (write fetch : Bool) :
    (m.taskLazyPageFault addr write fetch).1.Exclusive := by
  unfold Mm.taskLazyPageFault
  split
  · exact h
  next m₁ ha =>
  have h₁ := h.activate ha
  split
  · exact h₁
  next prot hprot =>
  have hp := lazyWx_protection (h₁.lazyMmaps m₁.current) hprot
  split
  · exact h₁
  split
  · exact h₁
  · exact h₁.setVmm (Vmm.Pages.mapFresh h₁.vmm (fun _ f ↦ Vmm.wx_protToPte hp _ f))

theorem mremapCopy_wx {s : Vmm} (root src dst len : ℕ) (l : List ℕ) (h : s.Wx) :
    (mremapCopy root src dst len l s).1.Wx := by
  induction l generalizing s with
  | nil => exact h
  | cons k l ih =>
    simp only [mremapCopy]
    split
    · exact h
    · next data hd =>
      have hc : (s.userCopyToCr3 root (dst + k * 256) data).1.Wx :=
        Vmm.Pages.userCopyToCr3 Vmm.wx_promotable h _ _ _
      split
      · exact hc
      · exact ih hc

theorem wx_mremapPteToProt {e : Pte} {k : ℕ} (h : WriteXorExec k e) :
    Vmm.userProtWx (mremapPteToProt e) = false := by
  have hw : e.w = true → e.nx = true := fun hw ↦ h (by rw [hw]; rfl)
  unfold mremapPteToProt
  cases hew : e.w with
  | false => cases e.nx <;> rfl
  | true =>
    rw [hw hew]
    rfl

theorem wx_translate {s : Vmm} (h : s.Wx) {va : ℕ} {e : Pte} (he : s.vmmUserTranslate va = some e) :
    WriteXorExec (va / pageSize) e := by
  unfold Vmm.vmmUserTranslate at he
  split at he
  · cases he
  · exact Vmm.Pages.translate h he

theorem kept_exclusive : Kept Exclusive where
  activate h ha := h.activate ha
  remove _ _ h := h.transform _ _ _ _ rfl
  setProt _ _ _ hp h := h.transform _ _ _ _ hp
  unmap _ h := h.unmapPages _
  fbUnmap _ _ h := h.setVmm (h.vmm.graphicsFbUnmap _ _)
  protect _ _ _ hp h := h.setVmm (Vmm.eachPage_invariant (fun _ _ _ hs ↦ hs.mprotectStep hp _) h.vmm)
  copy _ _ _ _ _ h := h.setVmm (mremapCopy_wx _ _ _ _ _ h.vmm)
  grow _ he h := h.mapPages fun _ _ hs ↦
    hs.mapZero (Vmm.wx_protToPte (wx_mremapPteToProt (wx_translate h.vmm he)))
  mmap _ _ _ _ _ _ h := h.sysMmap ..

end YabroOS.Memory.Mm
