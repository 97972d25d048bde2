import YabroOS.Memory.Pages

namespace YabroOS.Memory

open Lib Function

def WriteXorExec (_ : ℕ) (e : Pte) : Prop := (e.w || e.cow) = true → e.nx = true

theorem pageUp_eq {x : ℕ} (h : x ≤ userTop) :
    pageUp x = (x + (pageSize - 1)) / pageSize * pageSize := by
  rw [pageUp, Nat.mod_eq_of_lt, Pmm.pageOf]
  simp only [userTop, pageSize] at *
  omega

theorem exists_of_mem_pages {base size va : ℕ} (h : va ∈ pages base size) :
    ∃ k < size / pageSize, va = base + k * pageSize := by
  obtain ⟨k, hk, rfl⟩ := List.mem_map.1 h
  exact ⟨k, List.mem_range.1 hk, rfl⟩

namespace Vmm

def Wx (s : Vmm) : Prop := Pages (fun _ ↦ WriteXorExec) s

variable {s : Vmm} {virt : ℕ} {flags : PteFlags}

theorem wx_markable : Tab.Markable WriteXorExec := by
  intro k e h hw _
  exact h (by rw [hw]; rfl)

theorem wx_promotable : Promotable (fun _ ↦ WriteXorExec) := by
  intro r k e f _ h hcow _
  exact h (by rw [hcow, Bool.or_true])

theorem wx_userPte (h : flags.w = true → flags.nx = true) (k f : ℕ) :
    WriteXorExec k (userPte f flags) := by
  intro hw
  simp only [userPte, Bool.or_false] at hw ⊢
  exact h hw

theorem wx_protToPte {prot : ℕ} (h : userProtWx prot = false) (k f : ℕ) :
    WriteXorExec k (userPte f (protToPte prot)) := by
  refine wx_userPte (fun hw ↦ ?_) k f
  simp only [protToPte, userProtWx] at *
  rw [hw, Bool.true_and] at h
  rw [h]
  rfl

theorem Wx.mapZero (h : Wx s) (hp : ∀ k f, WriteXorExec k (userPte f flags)) :
    Wx (mapZero flags s virt).1 := Pages.mapFresh h (fun _ f ↦ hp _ f)

theorem Wx.mmapPage (h : Wx s) (fixed : Bool) (content : ℕ → Option (ℕ → UInt8))
    (hp : ∀ k f, WriteXorExec k (userPte f flags)) :
    Wx (mmapPage fixed content flags s virt).1 := by
  simp only [Vmm.mmapPage]
  split
  · exact Pages.congr h rfl
  next pmm frame ha =>
  have hun : Wx (if fixed = true then Vmm.unmapFree { s with pmm := pmm } virt
    else { s with pmm := pmm }) := by
    have hs : Wx { s with pmm := pmm } := Pages.congr h rfl
    split_ifs
    · exact Pages.unmapFree hs virt
    · exact hs
  generalize (if fixed = true then Vmm.unmapFree { s with pmm := pmm } virt
    else { s with pmm := pmm }) = s₁ at hun ⊢
  split
  · split
    · exact Pages.congr hun rfl
    · next bytes hc =>
      have hb : Wx { s₁ with bytes := update s₁.bytes frame bytes } := Pages.congr hun rfl
      have hm := Pages.userMap hb virt frame flags (fun _ _ ↦ hp _ frame)
      generalize vmmUserMap _ virt frame flags = r at hm ⊢
      split_ifs
      · exact Pages.congr hm rfl
      · exact hm
  · exact Pages.congr h rfl

theorem Wx.mprotectStep (h : Wx s) {prot : ℕ} (hp : userProtWx prot = false) (reserved : ℕ → Bool) :
    Wx (mprotectStep prot reserved s virt).1 := by
  simp only [Vmm.mprotectStep]
  split
  · split_ifs
    · exact h
    · exact h
    · exact h.mapZero (wx_protToPte hp)
  · split
    · exact Pages.unmapFree h virt
    · exact Pages.userProtect wx_promotable h (fun _ _ _ _ f ↦ wx_protToPte hp _ f)

theorem wx_heapFlags (k f : ℕ) : WriteXorExec k (userPte f heapFlags) :=
  wx_userPte (fun _ ↦ rfl) k f

theorem Wx.brkPage (h : Wx s) : Wx (brkPage s virt).1 := by
  simp only [Vmm.brkPage]
  split
  · exact h
  split
  · exact Pages.congr h rfl
  next pmm frame ha =>
  have hs : Wx { s with pmm := pmm, bytes := update s.bytes frame (fun _ ↦ 0) } := Pages.congr h rfl
  have hm := Pages.userMap hs virt frame heapFlags (fun _ _ ↦ wx_heapFlags _ frame)
  generalize vmmUserMap _ virt frame heapFlags = r at hm ⊢
  split
  · split
    · exact Pages.congr hm rfl
    · split
      · split
        · exact hm
        · exact Pages.unmapFree hm virt
      · exact Pages.congr hm rfl
  · exact Pages.congr h rfl

theorem Wx.graphicsFbMap (h : Wx s) (virt off len : ℕ) : Wx (s.graphicsFbMap virt off len).1 := by
  have hmap : Wx (eachPage (fbPage virt off) (pages virt (pageUp len)) s).1 :=
    eachPage_invariant
      (fun s va _ hs ↦ Pages.userMap hs va _ fbFlags (fun _ _ ↦ wx_userPte (fun _ ↦ rfl) _ _)) h
  simp only [Vmm.graphicsFbMap]
  generalize eachPage (fbPage virt off) (pages virt (pageUp len)) s = r at hmap ⊢
  split_ifs
  · exact h
  · exact h
  · exact h
  · show Wx (List.foldl _ r.1 _)
    generalize (pages virt (pageUp len)).take r.2.1 = l
    generalize r.1 = s₁ at hmap
    induction l generalizing s₁ with
    | nil => exact hmap
    | cons va l ih => exact ih _ (Pages.userUnmap hmap va)
  · exact hmap

theorem Wx.graphicsFbUnmap (h : Wx s) (virt size : ℕ) : Wx (s.graphicsFbUnmap virt size).1 := by
  have hun : Wx (eachPage fbUnmapPage (pages virt (pageUp size)) s).1 := by
    refine eachPage_invariant (fun s va _ hs ↦ ?_) h
    have hu := Pages.userUnmap hs va
    unfold fbUnmapPage
    split
    · next s₁ he =>
      rw [he] at hu
      exact hu
    · next s₁ e he =>
      rw [he] at hu
      exact hu
  simp only [Vmm.graphicsFbUnmap]
  split_ifs
  · exact h
  · exact h
  · exact hun

end Vmm

def LazyWx (l : List LazyMmap) : Prop := ∀ r ∈ l, Vmm.userProtWx r.prot = false

theorem pieces_prot {r q : LazyMmap} {start stop prot : ℕ} {op : LazyOp}
    (hq : q ∈ r.pieces start stop op prot) : q.prot = r.prot ∨ q.prot = prot := by
  unfold LazyMmap.pieces at hq
  split_ifs at hq
    <;> simp only [List.mem_append, List.mem_cons, List.not_mem_nil, or_false, false_or] at hq
      <;> grind

theorem LazyWx.transform {l l' : List LazyMmap} {start stop prot : ℕ} {op : LazyOp} (h : LazyWx l)
    (hp : Vmm.userProtWx prot = false) (ht : taskLazyMmapTransform l start stop op prot = .ok l') :
    LazyWx l' := by
  have hout : LazyWx (l.flatMap (LazyMmap.pieces start stop op prot) ++
      if op = .replace then [⟨start, stop, prot⟩] else []) := by
    intro q hq
    rcases List.mem_append.1 hq with hq | hq
    · obtain ⟨r, hr, hq⟩ := List.mem_flatMap.1 hq
      rcases pieces_prot hq with heq | heq
      · rw [heq]
        exact h r hr
      · rw [heq]
        exact hp
    · split_ifs at hq
      · rw [List.mem_singleton.1 hq]
        exact hp
      · cases hq
  unfold taskLazyMmapTransform at ht
  generalize l.flatMap (LazyMmap.pieces start stop op prot) ++ (if op = .replace then _ else _) =
    out at ht hout
  dsimp only at ht
  split_ifs at ht
  cases ht
  exact hout

namespace Mm

variable {m : Mm}

/-- Nothing that the calls will map is both writable and executable. -/
structure Exclusive (m : Mm) : Prop where
  vmm : m.vmm.Wx
  lazyMmaps : ∀ i, LazyWx (m.tasks i).lazyMmaps

theorem Exclusive.setVmm (h : m.Exclusive) {s : Vmm} (hs : s.Wx) :
    { m with vmm := s }.Exclusive := ⟨hs, h.lazyMmaps⟩

theorem Exclusive.updateShared (h : m.Exclusive) {f : UserTask → UserTask}
    (hf : ∀ t, (f t).lazyMmaps = t.lazyMmaps) : (m.updateShared f).Exclusive := by
  refine ⟨h.vmm, fun i ↦ ?_⟩
  simp only [Mm.updateShared]
  split_ifs
  · rw [hf]
    exact h.lazyMmaps i
  · exact h.lazyMmaps i

theorem Exclusive.cursor (h : m.Exclusive) : m.taskSharedMmapCursor.1.Exclusive := by
  simp only [taskSharedMmapCursor]
  exact h.updateShared (fun _ ↦ rfl)

theorem Exclusive.advance (h : m.Exclusive) (next : ℕ) :
    (m.taskSharedMmapCursorAdvance next).Exclusive := by
  unfold taskSharedMmapCursorAdvance
  exact h.cursor.updateShared (fun _ ↦ rfl)

theorem lazyLoop_exclusive {start stop prot : ℕ} {op : LazyOp} (hp : Vmm.userProtWx prot = false)
    (l : List Slot) {ts : Slot → UserTask} (h : ∀ i, LazyWx (ts i).lazyMmaps) :
    ∀ i, LazyWx ((lazyLoop start stop op prot l ts).1 i).lazyMmaps := by
  induction l generalizing ts with
  | nil => exact h
  | cons j l ih =>
    simp only [lazyLoop]
    split
    · exact h
    · next out ho =>
      refine ih (fun i ↦ ?_)
      by_cases hij : i = j
      · subst hij
        rw [update_self]
        exact (h i).transform hp ho
      · rw [update_of_ne hij]
        exact h i

theorem Exclusive.transform (h : m.Exclusive) (start stop : ℕ) (op : LazyOp) (prot : ℕ)
    (hp : Vmm.userProtWx prot = false) :
    (m.taskLazyMmapTransformShared start stop op prot).1.Exclusive :=
  ⟨h.vmm, lazyLoop_exclusive hp _ h.lazyMmaps⟩

theorem Exclusive.activate (h : m.Exclusive) {m' : Mm} (ha : m.activate = some m') :
    m'.Exclusive := by
  simp only [Mm.activate] at ha
  split_ifs at ha
  cases ha
  exact h.setVmm (Vmm.Pages.activate h.vmm _)

theorem Exclusive.unmapPages (h : m.Exclusive) (l : List ℕ) :
    { m with vmm := m.vmm.unmapPages l }.Exclusive :=
  h.setVmm (Vmm.unmapPages_invariant l (fun _ va hs ↦ Vmm.Pages.unmapFree hs va) h.vmm)

end Mm

end YabroOS.Memory
