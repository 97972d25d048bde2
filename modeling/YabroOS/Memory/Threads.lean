import YabroOS.Memory.OrderlyRuns
import YabroOS.Memory.WriteXorRuns

namespace YabroOS.Memory

open Lib Function

/-- The framebuffer is reserved before the first program runs, or beyond what is tracked. -/
def FbReserved (pmm : Pmm) (phys size : ℕ) : Prop := ∀ f, fbRange phys size f → pmm.pool.exempt f

namespace Mm

variable {heaps : Prop} {m : Mm}

theorem boot_orderly {pmm : Pmm} {fbPhys fbSize : ℕ} (hfb : FbReserved pmm fbPhys fbSize)
    (bytes : ℕ → ℕ → UInt8) : (boot pmm bytes fbPhys fbSize).Orderly heaps where
  framed := ⟨fun _ hf ↦ (Multiset.notMem_zero _ hf).elim, hfb⟩
  rooted i hi := by cases hi
  fit i hi := by cases hi
  same i j hi := by cases hi

theorem run_orderly {pmm : Pmm} {fbPhys fbSize : ℕ} (hfb : FbReserved pmm fbPhys fbSize)
    (bytes : ℕ → ℕ → UInt8) {l : List MmCall}
    (hl : heaps → Along step (fun m c ↦ ¬ m.Tears c) (boot pmm bytes fbPhys fbSize) l) :
    ((boot pmm bytes fbPhys fbSize).run l).Orderly heaps := by
  have hrun : ∀ (l : List MmCall) (m : Mm), m.Orderly heaps →
      (heaps → Along step (fun m c ↦ ¬ m.Tears c) m l) → (m.run l).Orderly heaps := by
    intro l
    induction l with
    | nil => exact fun m h _ ↦ h
    | cons c l ih =>
      exact fun m h hl ↦ ih (m.step c) (h.step (fun hh ↦ (hl hh).1)) (fun hh ↦ (hl hh).2)
  exact hrun l _ (boot_orderly hfb bytes) hl

def cursorOf (m : Mm) (i : Slot) : ℕ := ({ m with current := i } : Mm).taskSharedMmapCursor.2

theorem Orderly.turn (h : m.Orderly heaps) {i : Slot} (hi : (m.tasks i).used = true) :
    ({ m with current := i } : Mm).Running heaps := ⟨⟨h.framed, h.rooted, h.fit, h.same⟩, hi⟩

theorem Orderly.cursorOf_eq (h : m.Orderly heaps) {i j : Slot} (hi : (m.tasks i).used = true)
    (hj : (m.tasks j).used = true) (hij : (m.tasks i).cr3 = (m.tasks j).cr3) :
    m.cursorOf i = m.cursorOf j := by
  have hshares : ({ m with current := i } : Mm).shares = ({ m with current := j } : Mm).shares := by
    funext k
    rw [Bool.eq_iff_iff, (h.turn hi).shares_iff, (h.turn hj).shares_iff]
    show _ ∧ (m.tasks k).cr3 = (m.tasks i).cr3 ↔ _ ∧ (m.tasks k).cr3 = (m.tasks j).cr3
    rw [hij]
  unfold cursorOf
  rw [cursor_snd, cursor_snd, hshares]

/-- The tasks of an address space agree on its heap, its reservations and its cursor, as long as no
program is loaded in vain after the loader has set the heap. -/
theorem threads_agree (pmm : Pmm) (bytes : ℕ → ℕ → UInt8) (fbPhys fbSize : ℕ)
    (hfb : FbReserved pmm fbPhys fbSize) (l : List MmCall)
    (hl : Along step (fun m c ↦ ¬ m.Tears c) (boot pmm bytes fbPhys fbSize) l) :
    let m := (boot pmm bytes fbPhys fbSize).run l
    ∀ i j, (m.tasks i).used = true → (m.tasks j).used = true → (m.tasks i).cr3 = (m.tasks j).cr3 →
      (m.tasks i).heapBase = (m.tasks j).heapBase ∧ (m.tasks i).heapEnd = (m.tasks j).heapEnd ∧
        (m.tasks i).lazyMmaps = (m.tasks j).lazyMmaps ∧ m.cursorOf i = m.cursorOf j := by
  intro m i j hi hj hij
  have h : m.Orderly True := run_orderly hfb bytes (fun _ ↦ hl)
  have hsame := h.same i j hi hj hij
  exact ⟨(hsame.heap trivial).1, (hsame.heap trivial).2, hsame.lazyMmaps, h.cursorOf_eq hi hj hij⟩

def noInterpreter : ExecFile where
  image := ⟨4096, true, false, 0x600000, 64, [⟨1, 5, 0, 0x600000, 0, 4096⟩, ⟨3, 4, 0, 0, 0, 0⟩],
    fun _ len ↦ some (List.replicate len 0)⟩
  bootfs := fun _ ↦ none

def startThread : List MmCall :=
  [.launch (some (onePage 5)) ⟨[47, 97], [], []⟩, .clone true true []]

/-- A program starts a thread and then tries to execute a file that the loader gives up. -/
def failedExec : List MmCall := startThread ++ [.execve (some noInterpreter) ⟨[47, 98], [], []⟩]

theorem failed_exec_parts_heaps :
    let m := (boot freeMemory (fun _ _ ↦ 0) 0 0).run failedExec
    (m.tasks 0).used = true ∧ (m.tasks 1).used = true ∧ (m.tasks 0).cr3 = (m.tasks 1).cr3 ∧
      (m.tasks 0).heapBase ≠ (m.tasks 1).heapBase := by
  decide +kernel

theorem fbReserved_none (pmm : Pmm) : FbReserved pmm 0 0 := fun f hf ↦ by
  have hlt := hf.2
  omega

theorem threads_agree_after_clone :
    let m := (boot freeMemory (fun _ _ ↦ 0) 0 0).run startThread
    (m.tasks 0).heapBase = (m.tasks 1).heapBase ∧ (m.tasks 0).heapEnd = (m.tasks 1).heapEnd ∧
      (m.tasks 0).lazyMmaps = (m.tasks 1).lazyMmaps ∧ m.cursorOf 0 = m.cursorOf 1 := by
  have hl : Along step (fun m c ↦ ¬ m.Tears c) (boot freeMemory (fun _ _ ↦ 0) 0 0) startThread := by
    refine ⟨?_, id, trivial⟩
    rintro ⟨-, hu, -⟩
    cases hu
  obtain ⟨hfirst, hsecond, hcr3⟩ :
      (((boot freeMemory (fun _ _ ↦ 0) 0 0).run startThread).tasks 0).used = true ∧
      (((boot freeMemory (fun _ _ ↦ 0) 0 0).run startThread).tasks 1).used = true ∧
      (((boot freeMemory (fun _ _ ↦ 0) 0 0).run startThread).tasks 0).cr3 =
        (((boot freeMemory (fun _ _ ↦ 0) 0 0).run startThread).tasks 1).cr3 := by decide +kernel
  exact threads_agree _ _ _ _ (fbReserved_none _) _ hl 0 1 hfirst hsecond hcr3

end Mm

namespace Vmm

variable {s s' s'' : Vmm} {va : ℕ}

/-- Every page that was mapped still is, with the same frame, permissions and contents. -/
def Spared (s s' : Vmm) : Prop :=
  ∀ root va e, s.vmmUserTranslateCr3 root va = some e →
    s'.vmmUserTranslateCr3 root va = some e ∧ s'.bytes e.frame = s.bytes e.frame

/-- A page of some address space has the frame. -/
def Maps (s : Vmm) (f : ℕ) : Prop :=
  ∃ root va e, s.vmmUserTranslateCr3 root va = some e ∧ e.frame = f

theorem Spared.refl (s : Vmm) : s.Spared s := fun _ _ _ he ↦ ⟨he, rfl⟩

theorem Spared.trans (h : s.Spared s') (h' : s'.Spared s'') : s.Spared s'' := by
  intro root va e he
  obtain ⟨he', hb⟩ := h root va e he
  obtain ⟨he'', hb'⟩ := h' root va e he'
  exact ⟨he'', hb'.trans hb⟩

theorem Spared.maps (h : s.Spared s') {f : ℕ} : s.Maps f → s'.Maps f := by
  rintro ⟨root, va, e, he, hf⟩
  exact ⟨root, va, e, (h root va e he).1, hf⟩

structure Adds (s s' : Vmm) (va : ℕ) : Prop where
  spared : s.Spared s'
  others : ∀ va', Pmm.pageOf va' ≠ Pmm.pageOf va → s'.vmmUserTranslate va' = s.vmmUserTranslate va'
  keeps : s.Keeps s'

theorem translate_eq_of_user {root : ℕ} (hu : s.user = some root) (va : ℕ) :
    s.vmmUserTranslate va = s.vmmUserTranslateCr3 root va := by
  simp only [vmmUserTranslate, hu]

theorem map_translate (hfree : s.vmmUserTranslate va = none) (frame : ℕ) (flags : PteFlags)
    {root va' : ℕ} {e : Pte} (he : s.vmmUserTranslateCr3 root va' = some e) :
    (s.vmmUserMap va frame flags).1.vmmUserTranslateCr3 root va' = some e := by
  rw [translate_userMap_of_ne s frame flags, he]
  intro hu hpage
  rw [translate_eq_of_user hu, ← translate_pageOf, ← hpage, translate_pageOf, he] at hfree
  cases hfree

theorem map_others (s : Vmm) (frame : ℕ) (flags : PteFlags) {va' : ℕ}
    (hne : Pmm.pageOf va' ≠ Pmm.pageOf va) :
    (s.vmmUserMap va frame flags).1.vmmUserTranslate va' = s.vmmUserTranslate va' := by
  obtain ⟨-, -, huser, -⟩ := userMap_frame s va frame flags
  unfold vmmUserTranslate
  rw [huser]
  cases hu : s.user with
  | none => rfl
  | some root => exact translate_userMap_of_ne s frame flags (fun _ ↦ hne)

theorem userMap_bytes (s : Vmm) (va frame : ℕ) (flags : PteFlags) :
    (s.vmmUserMap va frame flags).1.bytes = s.bytes := by
  simp only [vmmUserMap]
  split
  · rfl
  split
  · rfl
  split
  · rfl
  · rfl

theorem translate_user_congr (hsp : s'.spaces = s.spaces) (hh : s'.pmm.hhdm = s.pmm.hhdm)
    (hu : s'.user = s.user) : s'.vmmUserTranslate va = s.vmmUserTranslate va := by
  unfold vmmUserTranslate
  rw [hu]
  cases s.user with
  | none => rfl
  | some root => exact translate_congr hsp hh

theorem Spared.of_spaces (hsp : s'.spaces = s.spaces) (hh : s'.pmm.hhdm = s.pmm.hhdm)
    (hb : ∀ f ∈ s.uses.map Prod.fst, s'.bytes f = s.bytes f) : s.Spared s' := by
  intro root va e he
  exact ⟨by rw [translate_congr hsp hh, he], hb _ (frame_mem_uses he)⟩

theorem mmapPage_adds (h : s.Framed) (hfree : s.vmmUserTranslate va = none)
    (content : ℕ → Option (ℕ → UInt8)) (flags : PteFlags)
    (hok : (mmapPage false content flags s va).2 = 0) :
    s.Adds (mmapPage false content flags s va).1 va := by
  have hkeeps := Keeps.mmapPage false content flags s va
  revert hok hkeeps
  simp only [mmapPage]
  split
  · exact fun hok ↦ by cases hok
  next pmm frame ha =>
  split
  swap
  · exact fun hok ↦ by cases hok
  simp only [Bool.false_eq_true, if_false]
  split
  · exact fun hok ↦ by cases hok
  next bytes hbytes =>
  have hnew : frame ∉ s.uses.map Prod.fst := Account.Holds.not_mem h (Pmm.pool_alloc ha)
  let s₁ : Vmm := { s with pmm := pmm, bytes := update s.bytes frame bytes }
  have hsp : s.Spared s₁ := Spared.of_spaces rfl (hhdm_alloc ha) (fun f hf ↦ by
    have hne : f ≠ frame := fun hff ↦ hnew (hff ▸ hf)
    exact update_of_ne hne _ _)
  have htr : ∀ va', s₁.vmmUserTranslate va' = s.vmmUserTranslate va' := fun va' ↦
    translate_user_congr rfl (hhdm_alloc ha) rfl
  have hmap : s₁.Spared (s₁.vmmUserMap va frame flags).1 := by
    intro root va' e he
    exact ⟨map_translate ((htr va).trans hfree) frame flags he, by rw [userMap_bytes]⟩
  split_ifs with hrc
  · exact fun hok ↦ absurd hok (show -enomem ≠ 0 by decide)
  · intro _ hkeeps
    exact ⟨hsp.trans hmap, fun va' hne ↦ (map_others s₁ frame flags hne).trans (htr va'), hkeeps⟩

theorem eachPage_adds {f : Vmm → ℕ → Vmm × ℤ} {I : Vmm → Prop} {l : List ℕ}
    (hnodup : (l.map Pmm.pageOf).Nodup) (hI : ∀ s s', I s → s.Keeps s' → I s')
    (hf : ∀ s, ∀ va ∈ l, I s → s.vmmUserTranslate va = none → (f s va).2 = 0 → s.Adds (f s va).1 va)
    (hs : I s) (hfree : ∀ va ∈ l, s.vmmUserTranslate va = none) (hok : (eachPage f l s).2.2 = 0) :
    s.Spared (eachPage f l s).1 := by
  induction l generalizing s with
  | nil => exact .refl s
  | cons va l ih =>
    obtain ⟨hva, hnodup⟩ := List.nodup_cons.1 hnodup
    simp only [eachPage] at hok ⊢
    split at hok
    · next hrc => exact absurd hok hrc
    next hrc =>
    rw [if_neg hrc]
    have hadd := hf s va (.head _) hs (hfree va (.head _)) (not_not.1 hrc)
    refine hadd.spared.trans
      (ih hnodup (fun s va hmem ↦ hf s va (.tail _ hmem)) (hI _ _ hs hadd.keeps)
        (fun va' hva' ↦ ?_) hok)
    rw [hadd.others va' (fun hp ↦ hva (hp ▸ List.mem_map_of_mem hva'))]
    exact hfree va' (.tail _ hva')

theorem pageOf_of_dvd {x : ℕ} (h : pageSize ∣ x) : Pmm.pageOf x = x := Nat.div_mul_cancel h

theorem pages_nodup {base : ℕ} (hbase : pageSize ∣ base) (size : ℕ) :
    ((pages base size).map Pmm.pageOf).Nodup := by
  have hpage : (pages base size).map Pmm.pageOf = pages base size :=
    (List.map_congr_left (fun va hva ↦ pageOf_of_dvd (pageSize_dvd_of_mem hbase hva))).trans
      (List.map_id _)
  rw [hpage, pages]
  refine List.nodup_range.map (fun j k hjk ↦ ?_)
  simp only [pageSize] at hjk
  omega

theorem pageOf_mem_pages {base size va : ℕ} (hbase : pageSize ∣ base) (hsize : pageSize ∣ size)
    (h₁ : base ≤ va) (h₂ : va < base + size) : Pmm.pageOf va ∈ pages base size := by
  obtain ⟨b, rfl⟩ := hbase
  obtain ⟨n, rfl⟩ := hsize
  refine mem_pages.2 ⟨va / pageSize - b, ?_, ?_⟩
  · simp only [pageSize] at *
    omega
  · simp only [Pmm.pageOf, pageSize] at *
    omega

theorem range_of_mem_pages {base size va : ℕ} (h : va ∈ pages base size) :
    base ≤ va ∧ va < base + size := by
  obtain ⟨j, hj, rfl⟩ := mem_pages.1 h
  simp only [pageSize] at *
  omega

theorem mapPages_spared {base size : ℕ} (hbase : pageSize ∣ base) (h : s.Framed)
    (hfree : s.rangeFree base size = true) (content : ℕ → Option (ℕ → UInt8)) (flags : PteFlags)
    (hok : (s.mapPages (mmapPage false content flags) (pages base size)).2 = 0) :
    s.Spared (s.mapPages (mmapPage false content flags) (pages base size)).1 := by
  have hnone : ∀ va ∈ pages base size, s.vmmUserTranslate va = none := by
    simpa [rangeFree] using hfree
  have hloop := eachPage_adds (I := Framed) (pages_nodup hbase size) (fun s s' hs hk ↦ hk.framed hs)
    (fun s va _ hs hva hrc ↦ mmapPage_adds hs hva content flags hrc) h hnone
  simp only [mapPages] at hok ⊢
  split at hok
  · next hrc => exact absurd hok hrc
  · next hrc =>
    rw [if_neg hrc]
    exact hloop (not_not.1 hrc)

theorem mmapPage_rc (fixed : Bool) (content : ℕ → Option (ℕ → UInt8)) (flags : PteFlags) (s : Vmm)
    (va : ℕ) :
    (mmapPage fixed content flags s va).2 = 0 ∨ (mmapPage fixed content flags s va).2 = -enomem ∨
      (mmapPage fixed content flags s va).2 = -eio := by
  simp only [mmapPage]
  split
  · exact .inr (.inl rfl)
  next pmm frame _ =>
  generalize (if fixed then { s with pmm := pmm }.unmapFree va else { s with pmm := pmm }) = s₁
  split
  swap
  · exact .inr (.inl rfl)
  split
  · exact .inr (.inr rfl)
  split
  · exact .inr (.inl rfl)
  · exact .inl rfl

theorem mapPages_rc {f : Vmm → ℕ → Vmm × ℤ} {Q : ℤ → Prop} (hf : ∀ s va, Q (f s va).2) (hzero : Q 0)
    (l : List ℕ) (s : Vmm) : Q (s.mapPages f l).2 := by
  have hloop : ∀ l s, Q (eachPage f l s).2.2 := by
    intro l
    induction l with
    | nil => exact fun _ ↦ hzero
    | cons va l ih =>
      intro s
      simp only [eachPage]
      split_ifs
      · exact hf s va
      · exact ih _
  simp only [mapPages]
  split_ifs
  · exact hloop l s
  · exact hzero

theorem graphicsFbMap_spared {virt off len : ℕ}
    (hnone : ∀ va ∈ pages virt (pageUp len), s.vmmUserTranslate va = none)
    (hok : 0 ≤ (s.graphicsFbMap virt off len).2) : s.Spared (s.graphicsFbMap virt off len).1 := by
  have hneg : ∀ {x : ℤ}, x < 0 → ¬ 0 ≤ x := fun hx ↦ not_le.2 hx
  simp only [graphicsFbMap] at hok ⊢
  split at hok
  · exact absurd hok (hneg (by decide : (-22 : ℤ) < 0))
  next h₁ =>
  rw [if_neg h₁]
  split at hok
  · exact absurd hok (hneg (by decide : (-22 : ℤ) < 0))
  next h₂ =>
  rw [if_neg h₂]
  split at hok
  · exact absurd hok (hneg (by decide : (-22 : ℤ) < 0))
  next h₃ =>
  rw [if_neg h₃]
  simp only [not_or, not_le, not_lt, not_not] at h₁ h₂
  have hloop :=
    eachPage_adds (f := fbPage virt off) (I := s.Keeps) (s := s) (l := pages virt (pageUp len))
    (pages_nodup (Nat.dvd_of_mod_eq_zero h₁.2.2.1) _) (fun _ _ hs hk ↦ hs.trans hk) ?_
      (.refl s) hnone
  · split at hok
    · exact absurd hok (hneg (by decide : (-12 : ℤ) < 0))
    · next hrc =>
      rw [if_neg hrc]
      exact hloop (not_not.1 hrc)
  · intro s₁ va hva hs hfree _
    have hrange := fbRange_page h₁.2.2.2.1 h₁.2.2.2.2.2 h₂.2 hva
    rw [← hs.fbPhys, ← hs.fbSize] at hrange
    refine ⟨fun root va' e he ↦ ⟨map_translate hfree _ _ he, ?_⟩,
      fun va' hne ↦ map_others s₁ _ _ hne, Keeps.mapFb hrange va fbFlags⟩
    rw [fbPage, userMap_bytes]

end Vmm

def MmapFd.isFb : MmapFd → Bool
  | .framebuffer => true
  | _ => false

namespace Mm

variable {m : Mm} {base size flags off len addr prot : ℕ}

/-- The task runs in the address space of the current one. -/
def Beside (m : Mm) (i : Slot) : Prop := (m.tasks i).used = true ∧ (m.tasks i).cr3 = m.task.cr3

/-- The address belongs to no page of the current task and to no reservation. -/
def Vacant (m : Mm) (va : ℕ) : Prop :=
  m.vmm.vmmUserTranslateCr3 m.task.cr3 va = none ∧
    ∀ i, m.Beside i → ∀ r ∈ (m.tasks i).lazyMmaps, ¬ (r.start ≤ va ∧ va < r.stop)

def OffHeap (m : Mm) (va : ℕ) : Prop :=
  ∀ i, m.Beside i → ¬ ((m.tasks i).heapBase ≤ va ∧ va < (m.tasks i).heapEnd)

/-- A mapping of a range that touches nothing that was there. -/
structure Undisturbed (m m' : Mm) (base size : ℕ) : Prop where
  vacant : ∀ va, base ≤ va → va < base + size → m.Vacant va
  offHeap : ∀ va, base ≤ va → va < base + size → m.OffHeap va
  spared : m.vmm.Spared m'.vmm
  maps : ∀ f, m.vmm.Maps f → m'.vmm.Maps f

def fbBase (m : Mm) (addr : ℕ) : ℕ :=
  if addr ≠ 0 then pageUp addr else pageUp (m.cursorOf m.current)

theorem le_pageUp {x : ℕ} (h : x ≤ userTop) : x ≤ pageUp x := by
  simp only [pageUp, Pmm.pageOf, pageSize, userTop] at *
  omega

theorem Running.offHeap (h : m.Running False) (hbase : userMmapMin ≤ base) (va : ℕ)
    (hva : base ≤ va) : m.OffHeap va := by
  intro i hi hc
  have hlt := (h.fit i hi.1).heapEnd_lt
  have hmin : userHeapMax ≤ userMmapMin := by decide
  omega

theorem Running.vacant_gap (h : m.Running False) (hu : m.vmm.user = some m.task.cr3) {heapEnd : ℕ}
    (hsize : pageSize ∣ size)
    (hgap : userMmapFindGap m.vmm size heapEnd (pageUp m.taskSharedMmapCursor.2) = some base)
    (va : ℕ) (h₁ : base ≤ va) (h₂ : va < base + size) : m.Vacant va := by
  obtain ⟨-, hfree, hle, halign⟩ := userMmapFindGap_spec hsize hgap
  have hnone : ∀ va ∈ pages base size, m.vmm.vmmUserTranslate va = none := by
    simpa [Vmm.rangeFree] using hfree
  refine ⟨?_, fun i hi r hr hc ↦ ?_⟩
  · have hpage := hnone _ (Vmm.pageOf_mem_pages (halign (pageUp_dvd _)) hsize h₁ h₂)
    rwa [Vmm.translate_eq_of_user hu, Vmm.translate_pageOf] at hpage
  · have hlazy := (h.fit i hi.1).lazy_le r hr
    have hcursor := le_cursor ((h.shares_iff i).2 hi)
    have hup := le_pageUp (cursor_le h)
    omega

theorem not_nonneg {x : ℤ} (h : x < 0) : ¬ 0 ≤ x := not_le.2 h

theorem transform_vmm (m : Mm) (start stop : ℕ) (op : LazyOp) (prot : ℕ) :
    (m.taskLazyMmapTransformShared start stop op prot).1.vmm = m.vmm := rfl

theorem mmapAt_spared (h : m.vmm.Framed) {cursor : ℕ} (hbase : pageSize ∣ base)
    (hfree : m.vmm.rangeFree base size = true) (prot : ℕ) (hfixed : mapFixed flags = false)
    (fd : MmapFd) (off : ℕ) (hok : 0 ≤ (m.mmapAt cursor base size prot flags fd off).2) :
    (m.mmapAt cursor base size prot flags fd off).2 = base ∧
      m.vmm.Spared (m.mmapAt cursor base size prot flags fd off).1.vmm := by
  unfold mmapAt at hok ⊢
  split
  · rw [if_pos ‹_›] at hok
    simp only [mmapReserve, hfixed, Bool.false_eq_true, if_false] at hok ⊢
    split at hok
    · next hrc => exact absurd hok (not_nonneg hrc)
    · next hrc =>
      rw [if_neg hrc]
      refine ⟨rfl, ?_⟩
      split_ifs
      · exact .refl _
      · exact .refl _
  · rw [if_neg ‹_›] at hok
    simp only [mmapPages, hfixed, Bool.false_eq_true, if_false, lt_irrefl] at hok ⊢
    split at hok
    · next hrc =>
      obtain hz | hz | hz :=
        Vmm.mapPages_rc (Q := fun rc ↦ rc = 0 ∨ rc = -enomem ∨ rc = -eio) (Vmm.mmapPage_rc false
        (fun va ↦ fd.pageContent (mapAnon flags) (off + (va - base))) (Vmm.protToPte prot))
          (.inl rfl) (pages base size) m.vmm
      · exact absurd hz hrc
      · exact absurd (hz ▸ hok) (by decide)
      · exact absurd (hz ▸ hok) (by decide)
    · next hrc =>
      rw [if_neg hrc]
      have hsp := Vmm.mapPages_spared hbase h hfree _ _ (not_not.1 hrc)
      refine ⟨rfl, ?_⟩
      split_ifs
      · exact hsp
      · exact hsp

theorem mmapFramebuffer_result {cursor : ℕ}
    (hbase : (if addr ≠ 0 then pageUp addr else pageUp cursor) = base)
    (hok : 0 ≤ (m.mmapFramebuffer cursor addr len prot flags off).2) :
    (m.mmapFramebuffer cursor addr len prot flags off).2 = base ∧
      userMmapRangeOk base (pageUp len) = true ∧ 0 ≤ (m.vmm.graphicsFbMap base off len).2 ∧
      (m.mmapFramebuffer cursor addr len prot flags off).1.vmm =
        (m.vmm.graphicsFbMap base off len).1 := by
  have heinval : -einval < 0 := by decide
  have henomem : -enomem < 0 := by decide
  have heio : -eio < 0 := by decide
  simp only [mmapFramebuffer, hbase] at hok ⊢
  generalize (if off < m.vmm.fbSize then m.vmm.fbPhys % pageSize + m.vmm.fbSize - off else 0) =
    remaining at hok ⊢
  split at hok
  · exact absurd hok (not_nonneg heinval)
  next h₁ =>
  rw [if_neg h₁]
  split at hok
  · exact absurd hok (not_nonneg henomem)
  next h₂ =>
  rw [if_neg h₂]
  split at hok
  · exact absurd hok (not_nonneg heio)
  next h₃ =>
  rw [if_neg h₃]
  refine ⟨rfl, by simpa using h₂, not_lt.1 h₃, ?_⟩
  split_ifs
  · rfl
  · rfl

/-- A successful call without `MAP_FIXED` is one of the two: the framebuffer at its base, or what
the search for a gap has found. -/
theorem sysMmap_result {fd : MmapFd} (hfixed : mapFixed flags = false)
    (hok : 0 ≤ (m.sysMmap addr len prot flags fd off).2) :
    ∃ m₁, m.activate = some m₁ ∧
      ((mapAnon flags = false ∧ fd.isFb = true ∧ m.sysMmap addr len prot flags fd off =
          m₁.taskSharedMmapCursor.1.mmapFramebuffer m₁.taskSharedMmapCursor.2 addr len prot
            flags off) ∨
        ¬ (mapAnon flags = false ∧ fd.isFb = true) ∧ ∃ base,
          userMmapFindGap m₁.vmm (pageUp len) m₁.taskSharedMmapCursor.1.task.heapEnd
            (pageUp m₁.taskSharedMmapCursor.2) = some base ∧
          m.sysMmap addr len prot flags fd off =
            m₁.taskSharedMmapCursor.1.mmapAt m₁.taskSharedMmapCursor.2 base (pageUp len) prot flags
              fd off) := by
  have hneg : -efault < 0 ∧ -einval < 0 ∧ -eacces < 0 ∧ -ebadf < 0 ∧ -enomem < 0 := by decide
  obtain ⟨hefault, heinval, heacces, hebadf, henomem⟩ := hneg
  cases ha : m.activate with
  | none =>
    simp only [sysMmap, ha] at hok
    exact absurd hok (not_nonneg hefault)
  | some m₁ =>
  refine ⟨m₁, rfl, ?_⟩
  simp only [sysMmap, ha, hfixed, Bool.false_eq_true, false_and, if_false] at hok ⊢
  split at hok
  · exact absurd hok (not_nonneg heinval)
  next h₁ =>
  rw [if_neg h₁]
  split at hok
  · exact absurd hok (not_nonneg heinval)
  next h₂ =>
  rw [if_neg h₂]
  split at hok
  · exact absurd hok (not_nonneg heacces)
  next h₃ =>
  rw [if_neg h₃]
  by_cases hfb : mapAnon flags = false ∧ fd.isFb = true
  · refine .inl ⟨hfb.1, hfb.2, ?_⟩
    cases fd with
    | framebuffer => rw [hfb.1]
    | _ => cases hfb.2
  · refine .inr ⟨hfb, ?_⟩
    revert hok
    split
    · exact fun hok ↦ absurd hok (not_nonneg hebadf)
    · exact fun hok ↦ absurd hok (not_nonneg hebadf)
    · next hanon => exact absurd ⟨hanon, rfl⟩ hfb
    · intro hok
      split at hok
      · exact absurd hok (not_nonneg henomem)
      next h₄ =>
      rw [if_neg h₄]
      simp only [mmapBase, Bool.false_eq_true, if_false] at hok ⊢
      cases hgap : userMmapFindGap m₁.taskSharedMmapCursor.1.vmm (pageUp len)
          m₁.taskSharedMmapCursor.1.task.heapEnd (pageUp m₁.taskSharedMmapCursor.2) with
      | none =>
        rw [hgap] at hok
        exact absurd hok (not_nonneg henomem)
      | some base => exact ⟨base, hgap, rfl⟩

theorem mmin_le_of_rangeOk (h : userMmapRangeOk base size = true) : userMmapMin ≤ base := by
  simp only [userMmapRangeOk, decide_eq_true_eq] at h
  exact h.2.1

theorem Running.undisturbed (h : m.Running False) {m' : Mm} (hbase : userMmapMin ≤ base)
    (hvacant : ∀ va, base ≤ va → va < base + size → m.Vacant va) (hsp : m.vmm.Spared m'.vmm) :
    m.Undisturbed m' base size :=
  ⟨hvacant, fun va hva _ ↦ h.offHeap hbase va hva, hsp, fun _ ↦ hsp.maps⟩

theorem Running.mmap_undisturbed_iff (h : m.Running False) {fd : MmapFd}
    (hfixed : mapFixed flags = false) (hok : 0 ≤ (m.sysMmap addr len prot flags fd off).2) :
    m.Undisturbed
    (m.sysMmap addr len prot flags fd off).1 (m.sysMmap addr len prot flags fd off).2.toNat
      (pageUp len) ↔ (mapAnon flags = false ∧ fd.isFb = true →
        ∀ va, m.fbBase addr ≤ va → va < m.fbBase addr + pageUp len → m.Vacant va) := by
  obtain ⟨m₁, ha, hres⟩ := sysMmap_result hfixed hok
  have h₁ : m₁.Running False := h.activate ha
  have hm₁ := activate_some ha
  have hvacant : ∀ va, m₁.Vacant va → m.Vacant va := by
    rw [hm₁]
    exact fun va hva ↦ hva
  have hspared : ∀ v, m₁.vmm.Spared v → m.vmm.Spared v := by
    rw [hm₁]
    exact fun v hv ↦ hv
  have hu : m₁.vmm.user = some m₁.task.cr3 := by
    rw [hm₁]
    rfl
  have hnone : ∀ va, m.vmm.vmmUserTranslateCr3 m.task.cr3 va = none →
      m₁.vmm.vmmUserTranslateCr3 m₁.task.cr3 va = none := by
    rw [hm₁]
    exact fun va hva ↦ hva
  obtain ⟨hanon, hfb, heq⟩ | ⟨hnot, base, hgap, heq⟩ := hres
  · rw [heq] at hok ⊢
    have hbase : (if addr ≠ 0 then pageUp addr else pageUp m₁.taskSharedMmapCursor.2) =
        m.fbBase addr := by
      rw [hm₁]
      rfl
    obtain ⟨hrc, hrange, hmap, hvmm⟩ := mmapFramebuffer_result hbase hok
    rw [hrc, Int.toNat_natCast]
    constructor
    · exact fun hu _ ↦ hu.vacant
    · intro hfree
      have hfree := hfree ⟨hanon, hfb⟩
      refine h.undisturbed (mmin_le_of_rangeOk hrange) hfree (hspared _ ?_)
      rw [hvmm]
      refine Vmm.graphicsFbMap_spared (fun va hva ↦ ?_) hmap
      obtain ⟨hle, hlt⟩ := Vmm.range_of_mem_pages hva
      exact (Vmm.translate_eq_of_user hu va).trans (hnone va (hfree va hle hlt).1)
  · rw [heq] at hok ⊢
    have hsize : pageSize ∣ pageUp len := pageUp_dvd len
    obtain ⟨hrange, hfree, -, halign⟩ := userMmapFindGap_spec hsize hgap
    obtain ⟨hrc, hsp⟩ :=
      mmapAt_spared (m := m₁.taskSharedMmapCursor.1) h₁.framed (halign (pageUp_dvd _)) hfree prot
        hfixed fd off hok
    rw [hrc, Int.toNat_natCast]
    constructor
    · exact fun _ hc ↦ absurd hc hnot
    · exact fun _ ↦ h.undisturbed (mmin_le_of_rangeOk hrange)
        (fun va hva hlt ↦ hvacant va (h₁.vacant_gap hu hsize hgap va hva hlt)) (hspared _ hsp)

/-- The framebuffer is mapped where the hint or the cursor says, whatever is there: of the calls
without `MAP_FIXED` that succeed, exactly those that find this range vacant disturb nothing. -/
theorem mmap_undisturbed (pmm : Pmm) (bytes : ℕ → ℕ → UInt8) (fbPhys fbSize : ℕ)
    (hfb : FbReserved pmm fbPhys fbSize) (l : List MmCall) (addr len prot flags : ℕ) (fd : MmapFd)
    (off : ℕ) : let m := (boot pmm bytes fbPhys fbSize).run l
    let r := m.sysMmap addr len prot flags fd off
    m.task.used = true → mapFixed flags = false → 0 ≤ r.2 →
      (m.Undisturbed r.1 r.2.toNat (pageUp len) ↔ (mapAnon flags = false ∧ fd.isFb = true →
        ∀ va, m.fbBase addr ≤ va → va < m.fbBase addr + pageUp len → m.Vacant va)) := by
  intro m r hused hfixed hok
  have h : m.Orderly False := run_orderly hfb bytes (fun hh ↦ hh.elim)
  exact (Running.mk h hused).mmap_undisturbed_iff hfixed hok

def ownPage : List MmCall :=
  [.launch (some (onePage 5)) ⟨[47, 97], [], []⟩, .mmap 0 4096 3 0x22 .negative 0]

/-- A program that has mapped a page of its own, on a machine whose framebuffer lies above 4 GiB. -/
def besideFb : Mm := (boot freeMemory (fun _ _ ↦ 0) (2 ^ 32) 4096).run ownPage

theorem fbReserved_above : FbReserved freeMemory (2 ^ 32) 4096 := fun f hf ↦ by
  have hle := hf.1
  refine .inr ?_
  simp only [pmmTrackLimit, pageSize] at *
  omega

/-- With the page for a hint, the framebuffer takes its place. -/
theorem framebuffer_takes_page :
    let r := besideFb.sysMmap userMmapMin 4096 3 1 .framebuffer 0
    besideFb.task.used = true ∧ mapFixed 1 = false ∧ 0 ≤ r.2 ∧
      ¬ besideFb.Undisturbed r.1 r.2.toNat (pageUp 4096) := by
  obtain ⟨hused, hok, hlo, hhi, htaken⟩ : besideFb.task.used = true ∧
      0 ≤ (besideFb.sysMmap userMmapMin 4096 3 1 .framebuffer 0).2 ∧
      (besideFb.sysMmap userMmapMin 4096 3 1 .framebuffer 0).2.toNat ≤ userMmapMin ∧
      userMmapMin < (besideFb.sysMmap userMmapMin 4096 3 1 .framebuffer 0).2.toNat + pageUp 4096 ∧
      besideFb.vmm.vmmUserTranslateCr3 besideFb.task.cr3 userMmapMin ≠ none := by decide +kernel
  exact ⟨hused, by decide, hok, fun h ↦ htaken (h.vacant userMmapMin hlo hhi).1⟩

theorem besideFb_vacant (va : ℕ) (h₁ : besideFb.fbBase 0 ≤ va)
    (h₂ : va < besideFb.fbBase 0 + pageUp 4096) : besideFb.Vacant va := by
  obtain ⟨hbase, hfree, hnone⟩ : besideFb.fbBase 0 = 65537 * pageSize ∧
      besideFb.vmm.vmmUserTranslateCr3 besideFb.task.cr3 (65537 * pageSize) = none ∧
      ∀ i, (besideFb.tasks i).lazyMmaps.isEmpty = true := by decide +kernel
  have hsize : pageUp 4096 = pageSize := by decide
  have hpage : Pmm.pageOf va = 65537 * pageSize := by
    rw [hbase] at h₁ h₂
    rw [hsize] at h₂
    simp only [Pmm.pageOf, pageSize] at *
    omega
  refine ⟨?_, fun i _ r hr ↦ ?_⟩
  · rw [← Vmm.translate_pageOf, hpage, hfree]
  · rw [List.isEmpty_iff.1 (hnone i)] at hr
    cases hr

theorem mmap_undisturbed_framebuffer :
    let r := besideFb.sysMmap 0 4096 3 1 .framebuffer 0
    0 ≤ r.2 ∧ besideFb.Undisturbed r.1 r.2.toNat (pageUp 4096) := by
  obtain ⟨hused, hok⟩ : besideFb.task.used = true ∧
      0 ≤ (besideFb.sysMmap 0 4096 3 1 .framebuffer 0).2 := by decide +kernel
  have hiff := mmap_undisturbed freeMemory (fun _ _ ↦ 0) (2 ^ 32) 4096 fbReserved_above ownPage 0
    4096 3 1 .framebuffer 0 hused (by decide) hok
  have hvacant := besideFb_vacant
  unfold besideFb at hvacant hok ⊢
  exact ⟨hok, hiff.2 (fun _ ↦ hvacant)⟩

end Mm

end YabroOS.Memory
