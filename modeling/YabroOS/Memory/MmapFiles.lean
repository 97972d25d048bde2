import YabroOS.Memory.MmapFails
import YabroOS.Vfs.Init
import YabroOS.Vfs.OpenFiles

namespace YabroOS.Memory

open Lib Function

namespace Vmm

variable {s s' : Vmm} {root va : ℕ} {flags : PteFlags} {rc : ℤ} {fixed : Bool}
    {content : ℕ → Option (ℕ → UInt8)}

theorem mmapPage_spec (h : s.Framed) (hu : s.user = some root)
    (hc : mmapPage fixed content flags s va = (s', rc)) :
    Off root (· = Pmm.pageOf va) s s' ∧ (rc = 0 → ∃ b, content va = some b ∧
      ∀ a, Pmm.pageOf a = Pmm.pageOf va → s'.userByte root a = some (b (a % pageSize))) := by
  simp only [mmapPage] at hc
  split at hc
  · next q ha =>
    cases hc
    exact ⟨.pmm (hhdm_alloc ha), fun hz ↦ absurd hz (by decide)⟩
  next q frame ha =>
  split at hc
  swap
  · cases hc
    exact ⟨.pmm ((Pmm.pmmFreePage_hhdm _ _).trans (hhdm_alloc ha)), fun hz ↦ absurd hz (by decide)⟩
  have hnew : frame ∉ s.uses.map Prod.fst := h.backed.not_mem (Pmm.pool_alloc ha)
  have halloc : Off root (· = Pmm.pageOf va) s { s with pmm := q } := .pmm (hhdm_alloc ha)
  obtain ⟨s₂, hs₂, hoff, hu₂⟩ : ∃ s₂, (if fixed then ({ s with pmm := q } : Vmm).unmapFree va
      else { s with pmm := q }) = s₂ ∧ Off root (· = Pmm.pageOf va) s s₂ ∧ s₂.user = some root := by
    split_ifs
    · have hu₁ : ({ s with pmm := q } : Vmm).user = some root := hu
      exact ⟨_, rfl, halloc.trans (off_unmapFree hu₁ va), (Keeps.unmapFree _ va).user.trans hu₁⟩
    · exact ⟨_, rfl, halloc, hu⟩
  rw [hs₂] at hc
  split at hc
  · cases hc
    exact ⟨hoff.trans (.pmm (Pmm.pmmFreePage_hhdm _ _)), fun hz ↦ absurd hz (by decide)⟩
  next b hb =>
  have hfill : Off root (· = Pmm.pageOf va) s { s₂ with bytes := update s₂.bytes frame b } := by
    refine ⟨fun r a hra ↦ hoff.translate r a hra, fun r a e hra he ↦ ?_⟩
    have hne : e.frame ≠ frame := fun hef ↦ hnew (hef ▸ frame_mem_uses he)
    exact (update_of_ne hne _ _).trans (hoff.bytes r a e hra he)
  have hu₃ : ({ s₂ with bytes := update s₂.bytes frame b } : Vmm).user = some root := hu₂
  have hmap := off_userMap hu₃ va frame flags
  cases hm : vmmUserMap { s₂ with bytes := update s₂.bytes frame b } va frame flags with
  | mk s₃ rc₃ =>
  have hkept := userMap_frame { s₂ with bytes := update s₂.bytes frame b } va frame flags
  have hbytes := userMap_bytes { s₂ with bytes := update s₂.bytes frame b } va frame flags
  rw [hm] at hc hmap hkept hbytes
  dsimp only at hc
  split at hc
  · cases hc
    exact ⟨(hfill.trans hmap).trans (.pmm (Pmm.pmmFreePage_hhdm _ _)),
      fun hz ↦ absurd hz (by decide)⟩
  next hrc =>
  rw [not_not] at hrc
  subst hrc
  cases hc
  refine ⟨hfill.trans hmap, fun _ ↦ ⟨b, hb, fun a hpage ↦ ?_⟩⟩
  have he := translate_userMap hm
  rw [translate_eq_of_user (hkept.2.2.1.trans hu₃), ← translate_pageOf, ← hpage, translate_pageOf]
    at he
  have hframe : s'.bytes frame = b := (congrFun hbytes frame).trans (update_self _ _ _)
  simp only [Vmm.userByte, he, Option.map_some, userPte, hframe]

theorem mmapLoop_spec {l : List ℕ} {n : ℕ} (h : s.Framed) (hu : s.user = some root)
    (hal : ∀ va ∈ l, Pmm.pageOf va = va) (hnodup : l.Nodup)
    (hc : eachPage (mmapPage fixed content flags) l s = (s', n, 0)) :
    Off root (· ∈ l) s s' ∧ ∀ va ∈ l, ∃ b, content va = some b ∧
      ∀ a, Pmm.pageOf a = va → s'.userByte root a = some (b (a % pageSize)) := by
  induction l generalizing s n with
  | nil =>
    cases hc
    exact ⟨.refl _, fun _ hva ↦ (List.not_mem_nil hva).elim⟩
  | cons v l ih =>
    obtain ⟨hv, hnodup⟩ := List.nodup_cons.1 hnodup
    have hpage := hal v (.head _)
    simp only [eachPage] at hc
    cases hp : mmapPage fixed content flags s v with
    | mk s₁ rc₁ =>
    obtain ⟨hoff, hfilled⟩ := mmapPage_spec h hu hp
    have hkeeps := Keeps.mmapPage fixed content flags s v
    rw [hp] at hc hkeeps
    dsimp only at hc
    split at hc
    · next hrc =>
      cases hc
      exact absurd rfl hrc
    next hrc =>
    rw [not_not] at hrc
    cases he : eachPage (mmapPage fixed content flags) l s₁ with
    | mk s₂ q =>
    obtain ⟨k, rc₂⟩ := q
    rw [he] at hc
    cases hc
    obtain ⟨hrest, hpages⟩ :=
      ih (hkeeps.framed h) (hkeeps.user.trans hu) (fun va hva ↦ hal va (.tail _ hva)) hnodup he
    refine ⟨(hoff.mono fun k hk ↦ ?_).trans (hrest.mono fun k hk ↦ .tail _ hk), fun va hva ↦ ?_⟩
    · rw [hk, hpage]
      exact .head _
    · obtain rfl | hva := List.mem_cons.1 hva
      · obtain ⟨b, hb, hbytes⟩ := hfilled hrc
        refine ⟨b, hb, fun a ha ↦ (hrest.userByte fun _ hmem ↦ hv (ha ▸ hmem)).trans
          (hbytes a (ha.trans hpage.symm))⟩
      · exact hpages va hva

theorem mapPages_ok {f : Vmm → ℕ → Vmm × ℤ} {l : List ℕ} (hc : s.mapPages f l = (s', 0)) :
    ∃ n, eachPage f l s = (s', n, 0) := by
  unfold mapPages at hc
  cases he : eachPage f l s with
  | mk s₁ q =>
  obtain ⟨n, rc⟩ := q
  rw [he] at hc
  dsimp only at hc
  split at hc
  · next hrc => exact absurd (Prod.mk.inj hc).2 hrc
  next hrc =>
  rw [not_not] at hrc
  subst hrc
  cases hc
  exact ⟨n, rfl⟩

end Vmm

open Vfs

def preadByte (st : Files) (table : Fin 32) (fd off : ℕ) : UInt8 :=
  (st.sysPread64 table fd 1 off true).2.headD 0

theorem preadByte_eq {st : Files} {table : Fin 32} {fd : ℕ} (hused : st.inUse table fd = true)
    (off : ℕ) :
    preadByte st table fd off = (st.fs.preadData (st.tables table fd) 1 off).2.headD 0 := by
  simp [preadByte, Files.sysPread64, hused]

theorem preadByte_end {st : Files} {table : Fin 32} {fd off : ℕ}
    (hreg : st.fs.vfsFileIsRegular (st.tables table fd).vnode = true)
    (hoff : st.fs.vfsFileSize (st.tables table fd).vnode ≤ off) :
    preadByte st table fd off = 0 := by
  cases hused : st.inUse table fd with
  | false => simp [preadByte, Files.sysPread64, hused]
  | true =>
    rw [preadByte_eq hused]
    simp [Fs.preadData, hreg, hoff]

theorem kernelFileReadAt_full {s : Fs} {f : OpenFile} {off len o : ℕ} {bytes : List UInt8}
    (h : s.kernelFileReadAt f off len = some bytes) (hle : len ≤ f.size - off)
    (hlen : bytes.length = len) (ho : o < len) :
    bytes[o]? = some ((s.preadData f 1 (off + o)).2.headD 0) := by
  have hbytes : ∀ {b : Buf} {n : ℕ}, (List.range n).map (fun k ↦ s.bytes b (off + k)) = bytes →
      bytes[o]? = some (s.bytes b (off + o)) := by
    rintro b n rfl
    rw [List.length_map, List.length_range] at hlen
    rw [List.getElem?_map, List.getElem?_range (by omega)]
    rfl
  unfold Fs.kernelFileReadAt at h
  split at h
  · cases h
  split at h
  · next hz =>
    cases h
    simp only [List.length_nil] at hlen
    omega
  dsimp only at h
  unfold Fs.preadData
  split at h
  · next hreg =>
    simp only [hreg, if_true]
    split at h
    · cases h
      simp only [List.length_nil] at hlen
      omega
    next hsize =>
    obtain ⟨b, hb, heq⟩ := Option.map_eq_some_iff.1 h
    have hcount := hlen
    rw [← heq, List.length_map, List.length_range] at hcount
    rw [if_neg (by omega), hb, hbytes heq, Nat.min_eq_left (by omega)]
    rfl
  · next hreg =>
    simp only [hreg, Bool.false_eq_true, if_false]
    obtain ⟨b, hb, heq⟩ := Option.map_eq_some_iff.1 h
    rw [if_neg (by omega), hb, hbytes heq, Nat.min_eq_left (by omega)]
    rfl

def mmapFile (st : Files) (table : Fin 32) (fd : ℕ) : MmapFd :=
  if st.inUse table fd = false then .bad
  else .file (st.tables table fd).size
    (fun off len ↦ st.fs.kernelFileReadAt (st.tables table fd) off len)

theorem pageContent_file {s : Fs} {f : OpenFile} {off o : ℕ} {b : ℕ → UInt8} (ho : o < pageSize)
    (h : (MmapFd.file f.size (fun off len ↦ s.kernelFileReadAt f off len)).pageContent false off =
      some b) :
    b o = if off + o < f.size then (s.preadData f 1 (off + o)).2.headD 0 else 0 := by
  simp only [MmapFd.pageContent] at h
  split at h
  · cases h
    rw [if_neg (by omega)]
  next hsize =>
  split at h
  · cases h
  next bytes hread =>
  split at h
  swap
  · cases h
  next hlen =>
  cases h
  dsimp only
  split_ifs with hlt
  · rw [kernelFileReadAt_full hread (Nat.min_le_right _ _) hlen (by omega), Option.getD_some]
  · rw [List.getElem?_eq_none (by omega), Option.getD_none]

namespace Mm

variable {m : Mm} {heaps : Prop} {base size prot flags off cursor addr len : ℕ}
  {content : ℕ → Option (ℕ → UInt8)} {fixed : Bool}

theorem Running.mmapPages_done (h : m.Running heaps) (hu : m.vmm.user = some m.task.cr3)
    (hbase : pageSize ∣ base) (hok : 0 ≤ (m.mmapPages cursor base size prot fixed content).2) :
    (m.mmapPages cursor base size prot fixed content).2 = base ∧
      ∀ va ∈ pages base size, ∃ b, content va = some b ∧
      ∀ a, Pmm.pageOf a = va → (m.mmapPages cursor base size prot fixed content).1.vmm.userByte
        m.task.cr3 a = some (b (a % pageSize)) := by
  have hvmm : (if fixed then m.taskLazyMmapTransformShared base (base + size) .remove 0
      else (m, 0)).1.vmm = m.vmm := by
    split_ifs
    · exact transform_vmm _ _ _ _ _
    · rfl
  simp only [Mm.mmapPages] at hok ⊢
  generalize (if fixed then m.taskLazyMmapTransformShared base (base + size) .remove 0
    else (m, 0)) = r at hok hvmm ⊢
  split at hok
  · exact absurd hok (not_nonneg (show -enomem < 0 by decide))
  next hlrc =>
  rw [if_neg hlrc, hvmm]
  rw [hvmm] at hok
  have hcodes := Vmm.mapPages_rc (Q := fun rc ↦ rc = 0 ∨ rc = -enomem ∨ rc = -eio)
    (Vmm.mmapPage_rc fixed content (Vmm.protToPte prot)) (.inl rfl) (pages base size) m.vmm
  cases hmap : m.vmm.mapPages (Vmm.mmapPage fixed content (Vmm.protToPte prot))
    (pages base size) with
  | mk v rc =>
  rw [hmap] at hok hcodes
  dsimp only at hok hcodes ⊢
  by_cases hrc : rc = 0
  swap
  · rw [if_pos hrc] at hok
    obtain hz | hz | hz := hcodes
    · exact absurd hz hrc
    · rw [hz] at hok
      exact absurd hok (not_nonneg (show -enomem < 0 by decide))
    · rw [hz] at hok
      exact absurd hok (not_nonneg (show -eio < 0 by decide))
  subst hrc
  obtain ⟨n, he⟩ := Vmm.mapPages_ok hmap
  obtain ⟨-, hpages⟩ :=
    Vmm.mmapLoop_spec h.framed hu (fun va hva ↦ Vmm.pageOf_of_dvd (pageSize_dvd_of_mem hbase hva))
    (List.Nodup.of_map _ (Vmm.pages_nodup hbase _)) he
  rw [if_neg (not_not.2 rfl)]
  refine ⟨rfl, ?_⟩
  split_ifs
  · exact hpages
  · exact hpages

theorem sysMmap_bad (hanon : mapAnon flags = false) :
    (m.sysMmap addr len prot flags .bad off).2 < 0 := by
  have hneg : -efault < 0 ∧ -einval < 0 ∧ -eacces < 0 ∧ -ebadf < 0 := by decide
  obtain ⟨hefault, heinval, heacces, hebadf⟩ := hneg
  cases ha : m.activate with
  | none =>
    simp only [Mm.sysMmap, ha]
    exact hefault
  | some m₁ =>
  simp only [Mm.sysMmap, ha, hanon]
  split_ifs
  · exact heinval
  · exact heinval
  · exact heacces
  · exact heinval
  · exact hebadf

theorem mmapBase_error {rc : ℤ} (h : m.mmapBase cursor addr size fixed = .error rc) : rc < 0 := by
  have hneg : -einval < 0 ∧ -enomem < 0 := by decide
  unfold mmapBase at h
  split at h
  · split at h
    · cases h
    · cases h
      exact hneg.1
  · split at h
    · cases h
    · cases h
      exact hneg.2

theorem mmapBase_dvd (hsize : pageSize ∣ size) (haddr : fixed = true → addr % pageSize = 0)
    (h : m.mmapBase cursor addr size fixed = .ok base) : pageSize ∣ base := by
  unfold mmapBase at h
  split at h
  · next hf =>
    split at h
    · cases h
      exact Nat.dvd_of_mod_eq_zero (haddr hf)
    · cases h
  · split at h
    · next hgap =>
      cases h
      exact (userMmapFindGap_spec hsize hgap).2.2.2 (pageUp_dvd _)
    · cases h

theorem Running.sysMmap_file (h : m.Running heaps) {size : ℕ} {read : ℕ → ℕ → Option (List UInt8)}
    (hanon : mapAnon flags = false)
    (hok : 0 ≤ (m.sysMmap addr len prot flags (.file size read) off).2) :
    ∃ base : ℕ, (m.sysMmap addr len prot flags (.file size read) off).2 = base ∧ pageSize ∣ base ∧
      ∀ va ∈ pages base (pageUp len), ∃ b, (MmapFd.file size read).pageContent false
        (off + (va - base)) = some b ∧
        ∀ a, Pmm.pageOf a = va →
          (m.sysMmap addr len prot flags (.file size read) off).1.vmm.userByte m.task.cr3 a =
          some (b (a % pageSize)) := by
  have hneg : ∀ {x : ℤ} {P : Prop}, x < 0 → 0 ≤ x → P := fun hx hx' ↦ absurd hx' (not_nonneg hx)
  have herr : -efault < 0 ∧ -einval < 0 ∧ -eacces < 0 ∧ -enomem < 0 := by decide
  cases ha : m.activate with
  | none =>
    simp only [Mm.sysMmap, ha] at hok
    exact hneg herr.1 hok
  | some m₁ =>
  have h₂ := (h.activate ha).cursor
  obtain ⟨-, hcr3, -⟩ := untouched_cursor ha
  have hu : m₁.taskSharedMmapCursor.1.vmm.user = some m₁.taskSharedMmapCursor.1.task.cr3 := by
    rw [hcr3, activate_some ha]
    rfl
  simp only [Mm.sysMmap, ha, hanon] at hok ⊢
  generalize m₁.taskSharedMmapCursor = r at *
  obtain ⟨m₂, cursor⟩ := r
  dsimp only at *
  split at hok
  · exact hneg herr.2.1 hok
  next hlen =>
  rw [if_neg hlen]
  split at hok
  · exact hneg herr.2.1 hok
  next hoff =>
  rw [if_neg hoff]
  split at hok
  · exact hneg herr.2.2.1 hok
  next hwx =>
  rw [if_neg hwx]
  split at hok
  · exact hneg herr.2.1 hok
  next hal =>
  rw [if_neg hal]
  split at hok
  · exact hneg herr.2.2.2 hok
  next hsize =>
  rw [if_neg hsize]
  cases hb : m₂.mmapBase cursor addr (pageUp len) (mapFixed flags) with
  | error rc =>
    rw [hb] at hok
    exact hneg (mmapBase_error hb) hok
  | ok base =>
  have hdvd := mmapBase_dvd (pageUp_dvd len) (fun hf ↦ not_not.1 fun hne ↦ hal ⟨hf, hne⟩) hb
  rw [hb] at hok
  have hat : m₂.mmapAt cursor base (pageUp len) prot flags (.file size read) off =
      m₂.mmapPages cursor base (pageUp len) prot (mapFixed flags)
        (fun va ↦ (MmapFd.file size read).pageContent false (off + (va - base))) := by
    unfold Mm.mmapAt
    rw [if_neg (by simp [hanon]), hanon]
  dsimp only at hok ⊢
  rw [hat] at hok ⊢
  rw [← hcr3]
  obtain ⟨hrc, hpages⟩ := h₂.mmapPages_done hu hdvd hok
  exact ⟨base, hrc, hdvd, hpages⟩

theorem Running.sysMmap_bytes (h : m.Running heaps) {st : Files} {table : Fin 32} {fd : ℕ}
    (hanon : mapAnon flags = false)
    (hok : 0 ≤ (m.sysMmap addr len prot flags (mmapFile st table fd) off).2) {i : ℕ}
    (hi : i < pageUp len) :
    (m.sysMmap addr len prot flags (mmapFile st table fd) off).1.vmm.userByte m.task.cr3
        ((m.sysMmap addr len prot flags (mmapFile st table fd) off).2.toNat + i) =
      some (if off + i < (st.tables table fd).size then preadByte st table fd (off + i) else 0) := by
  cases hused : st.inUse table fd with
  | false =>
    simp only [mmapFile, hused, if_true] at hok
    exact absurd hok (not_nonneg (sysMmap_bad hanon))
  | true =>
    simp only [mmapFile, hused, Bool.true_eq_false, if_false] at hok ⊢
    obtain ⟨base, hrc, hbase, hpages⟩ := h.sysMmap_file hanon hok
    rw [hrc, Int.toNat_natCast]
    have hpage : Pmm.pageOf (base + i) ∈ pages base (pageUp len) :=
      Vmm.pageOf_mem_pages hbase (pageUp_dvd len) (Nat.le_add_right _ _) (by omega)
    obtain ⟨b, hb, hbytes⟩ := hpages _ hpage
    have hlt : (base + i) % pageSize < pageSize := Nat.mod_lt _ (by decide)
    rw [hbytes _ rfl, pageContent_file hlt hb]
    have hoff : off + (Pmm.pageOf (base + i) - base) + (base + i) % pageSize = off + i := by
      obtain ⟨k, rfl⟩ := hbase
      simp only [Pmm.pageOf, pageSize]
      omega
    rw [hoff, preadByte_eq hused]

/-- A file mapping agrees with `sys_pread64` on the same descriptor exactly when the file has
nothing but zeros in the range from the descriptor's copy of the size on. -/
theorem mmap_agrees_iff (pmm : Pmm) (bytes : ℕ → ℕ → UInt8) (fbPhys fbSize : ℕ)
    (hfb : FbReserved pmm fbPhys fbSize) (lm : List MmCall) (fs : Fs) (lf : List Files.FileCall)
    (table : Fin 32) (fd addr len prot flags off : ℕ) :
    let m := (boot pmm bytes fbPhys fbSize).run lm
    let st := (Files.start fs).run lf
    let r := m.sysMmap addr len prot flags (mmapFile st table fd) off
    m.task.used = true → mapAnon flags = false → 0 ≤ r.2 →
      ((∀ i < pageUp len, r.1.vmm.userByte m.task.cr3 (r.2.toNat + i) =
        some (preadByte st table fd (off + i))) ↔
        ∀ i < pageUp len, (st.tables table fd).size ≤ off + i →
          preadByte st table fd (off + i) = 0) := by
  intro m st r hused hanon hok
  have h : m.Orderly False := run_orderly hfb bytes (fun hh ↦ hh.elim)
  refine forall_congr' fun i ↦ forall_congr' fun hi ↦ ?_
  rw [(Running.mk h hused).sysMmap_bytes hanon hok hi, Option.some_inj]
  split_ifs with hlt
  · exact iff_of_true rfl (fun hle ↦ absurd hlt (not_lt.2 hle))
  · exact ⟨fun hz _ ↦ hz.symm, fun hz ↦ (hz (not_lt.1 hlt)).symm⟩

def openTwice : List Files.FileCall :=
  [.open 0 (text "/tmp/a") 0x42, .open 0 (text "/tmp/a") 2, .write 0 0 (some [7])]

def twoFiles : Files := (Files.start Fs.vfsInit).run openTwice

/-- The second descriptor still has the old size: its mapping is empty where `sys_pread64` finds the
byte. -/
theorem mmap_misses_byte :
    let m := tightPage 128 (ownPage.take 1)
    let r := m.sysMmap 0 4096 1 2 (mmapFile twoFiles 0 1) 0
    m.task.used = true ∧ twoFiles.fs.vfsFileIsRegular (twoFiles.tables 0 1).vnode = true ∧
      0 ≤ r.2 ∧ r.1.vmm.userByte m.task.cr3 r.2.toNat = some 0 ∧
        twoFiles.sysPread64 0 1 1 0 true = (1, [7]) := by
  decide +kernel

theorem mmap_agrees_first :
    let r := (tightPage 128 (ownPage.take 1)).sysMmap 0 4096 1 2 (mmapFile twoFiles 0 0) 0
    0 ≤ r.2 ∧ r.1.vmm.userByte (tightPage 128 (ownPage.take 1)).task.cr3 (r.2.toNat + 0) =
      some (preadByte twoFiles 0 0 (0 + 0)) := by
  obtain ⟨hused, hok, hreg, hsize⟩ : (tightPage 128 (ownPage.take 1)).task.used = true ∧
      0 ≤ ((tightPage 128 (ownPage.take 1)).sysMmap 0 4096 1 2 (mmapFile twoFiles 0 0) 0).2 ∧
      twoFiles.fs.vfsFileIsRegular (twoFiles.tables 0 0).vnode = true ∧
      twoFiles.fs.vfsFileSize (twoFiles.tables 0 0).vnode = (twoFiles.tables 0 0).size := by
        decide +kernel
  have hzeros : ∀ i < pageUp 4096, (twoFiles.tables 0 0).size ≤ 0 + i →
      preadByte twoFiles 0 0 (0 + i) = 0 := by
    intro i _ hle
    exact preadByte_end hreg (hsize ▸ hle)
  unfold tightPage at hused hok ⊢
  unfold twoFiles at hok hzeros ⊢
  exact ⟨hok, (mmap_agrees_iff (clearFrames 128) (fun _ _ ↦ 0) 0 0 (fbReserved_none _)
    (ownPage.take 1) Fs.vfsInit openTwice 0 0 0 4096 1 2 0
    hused (by decide) hok).2 hzeros 0 (by decide)⟩

end Mm

end YabroOS.Memory
