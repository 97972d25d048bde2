import YabroOS.Memory.Brk
import YabroOS.Memory.LazyRegions

namespace YabroOS.Memory

open Lib Function

namespace Vmm

variable {s s' s'' : Vmm} {p : Pmm} {root va virt off : ℕ} {flags : PteFlags} {N : Multiset ℕ}
  {rc : ℤ} {l : List ℕ}

theorem unmapFree_of_none (hu : s.user = some root) (hnone : s.vmmUserTranslateCr3 root va = none) :
    s.unmapFree va = s := by
  simp only [unmapFree, vmmUserUnmap, hu, hnone]
  split_ifs
  · rfl
  · rfl

theorem unmap_alloc (hu : s.user = some root) {q : Pmm} {frame : ℕ}
    (ha : s.pmm.pmmAllocPage = (q, some frame)) (hnone : s.vmmUserTranslateCr3 root va = none)
    (fixed : Bool) :
    (if fixed then ({ s with pmm := q } : Vmm).unmapFree va else { s with pmm := q }) =
      { s with pmm := q } := by
  have htr : ({ s with pmm := q } : Vmm).vmmUserTranslateCr3 root va =
    s.vmmUserTranslateCr3 root va :=
    translate_congr rfl (hhdm_alloc ha)
  have hu' : ({ s with pmm := q } : Vmm).user = some root := hu
  rw [unmapFree_of_none hu' (htr.trans hnone), ite_self]

theorem mmapPage_fresh (root : ℕ) (fixed : Bool) (content : ℕ → Option (ℕ → UInt8))
    (flags : PteFlags) :
    MapsFresh root
    (fun va ↦ (content va).getD (fun _ ↦ 0)) flags True (mmapPage fixed content flags) where
  keeps := Keeps.mmapPage fixed content flags
  done := by
    intro s s' va p N hs hu h hfree hc
    have hnone := hfree trivial
    simp only [mmapPage] at hc
    split at hc
    · cases hc
    next q frame ha =>
    split at hc
    swap
    · cases hc
    rw [unmap_alloc hu ha hnone] at hc
    split at hc
    · cases hc
    next b hb =>
    cases hm : vmmUserMap { s with pmm := q, bytes := update s.bytes frame b } va frame flags with
    | mk s₁ rc =>
    rw [hm] at hc
    dsimp only at hc
    split at hc
    · cases hc
    next hrc =>
    rw [not_not] at hrc
    subst hrc
    cases hc
    obtain ⟨M, hM, htab, hoff, hsome, hbytes⟩ := allocMap_done hs hu h ha hm
    exact ⟨frame, M, hM, htab, hoff, hnone, hsome, by rw [hb]; exact hbytes⟩
  failed := by
    intro s s' va p N rc hs hu h hfree hc hrc
    have hnone := hfree trivial
    simp only [mmapPage] at hc
    split at hc
    · next q ha =>
      cases hc
      exact fail_none h ha
    next q frame ha =>
    split at hc
    swap
    · cases hc
      exact fail_freed h ha
    rw [unmap_alloc hu ha hnone] at hc
    split at hc
    · cases hc
      exact fail_freed h ha
    next b hb =>
    cases hm : vmmUserMap { s with pmm := q, bytes := update s.bytes frame b } va frame flags with
    | mk s₁ rc₁ =>
    rw [hm] at hc
    dsimp only at hc
    split at hc
    · next hrc₁ =>
      cases hc
      exact allocMap_failed hs hu h ha hnone hm hrc₁
    · cases hc
      exact absurd rfl hrc

theorem Off.of_none {P : ℕ → Prop} (h : Off root P s s')
    (hnone : ∀ k, P k → s.vmmUserTranslateCr3 root k = none ∧ s'.vmmUserTranslateCr3 root k = none) :
    Off root (fun _ ↦ False) s s' where
  translate r va _ := by
    by_cases hva : r = root ∧ P (Pmm.pageOf va)
    · obtain ⟨rfl, hP⟩ := hva
      rw [← translate_pageOf, (hnone _ hP).2, ← translate_pageOf, (hnone _ hP).1]
    · exact h.translate r va (fun hr hP ↦ hva ⟨hr, hP⟩)
  bytes r va e _ he := by
    by_cases hva : r = root ∧ P (Pmm.pageOf va)
    · obtain ⟨rfl, hP⟩ := hva
      rw [← translate_pageOf, (hnone _ hP).1] at he
      cases he
    · exact h.bytes r va e (fun hr hP ↦ hva ⟨hr, hP⟩) he

/-- Nothing that user code can see has changed, and the frames that are missing are tables of the
address space. -/
structure OnlyTables (root : ℕ) (s s' : Vmm) : Prop where
  off : Off root (fun _ ↦ False) s s'
  books : s'.pmm.freePages + s'.tables root = s.pmm.freePages + s.tables root

theorem OnlyTables.of_eq (hsp : s'.spaces = s.spaces) (hp : s'.pmm = s.pmm)
    (hb : s'.bytes = s.bytes) : OnlyTables root s s' where
  off := .of_spaces hsp (by rw [hp]) (fun _ _ ↦ by rw [hb])
  books := by rw [tables_congr hsp (by rw [hp]), hp]

theorem OnlyTables.refl (s : Vmm) : OnlyTables root s s := .of_eq rfl rfl rfl

theorem OnlyTables.trans (h : OnlyTables root s s') (h' : OnlyTables root s' s'') :
    OnlyTables root s s'' :=
  ⟨h.off.trans h'.off, h'.books.trans h.books⟩

theorem Grown.onlyTables {content : ℕ → ℕ → UInt8} {M : Multiset ℕ}
    (h : Grown root content flags s [] M s') : OnlyTables root s s' where
  off := h.off.mono (fun _ hk ↦ (List.not_mem_nil hk).elim)
  books := by
    have hfree := h.holding.freePages
    rw [List.map_nil, Multiset.coe_nil, zero_add] at hfree
    rw [h.tables]
    omega

theorem mapPages_fails {fixed : Bool} {content : ℕ → Option (ℕ → UInt8)} (hok : s.pmm.Ok)
    (hs : s.Framed) (hu : s.user = some root) (hal : ∀ va ∈ l, va % pageSize = 0) (hnodup : l.Nodup)
    (hfree : ∀ va ∈ l, s.vmmUserTranslateCr3 root va = none)
    (hc : s.mapPages (mmapPage fixed content flags) l = (s', rc)) (hrc : rc ≠ 0) :
    OnlyTables root s s' := by
  obtain ⟨pgs, M, hgrown, hpgs⟩ :=
    mapPages_grown hok (mmapPage_fresh root fixed content flags) hs hu hal hnodup (fun _ ↦ hfree) hc
  rw [if_neg hrc] at hpgs
  rw [List.map_eq_nil_iff.1 hpgs] at hgrown
  exact hgrown.onlyTables

theorem fbLoop_fails {n : ℕ} (h : p.Holding N s.pmm) (hu : s.user = some root)
    (hal : ∀ va ∈ l, va % pageSize = 0) (hnodup : l.Nodup)
    (hfree : ∀ va ∈ l, s.vmmUserTranslateCr3 root va = none)
    (hc : eachPage (fbPage virt off) l s = (s', n, rc)) (hrc : rc ≠ 0) :
    Off root (· ∈ l.take n) s s' ∧ s'.user = some root ∧
      ∃ M, p.Holding (M + N) s'.pmm ∧ s'.tables root = s.tables root + M.card := by
  induction l generalizing s n N with
  | nil =>
    cases hc
    exact absurd rfl hrc
  | cons va l ih =>
    have hpage : Pmm.pageOf va = va := pageOf_aligned (hal va (.head _))
    obtain ⟨hva, hnodup⟩ := List.nodup_cons.1 hnodup
    simp only [eachPage] at hc
    cases hp : fbPage virt off s va with
    | mk s₁ rc₁ =>
    obtain ⟨M, hM, htab⟩ := userMap_books h hu hp
    have hkept :=
      userMap_frame s va (s.fbPhys / pageSize + off / pageSize + (va - virt) / pageSize) fbFlags
    have hoff :=
      off_userMap hu va (s.fbPhys / pageSize + off / pageSize + (va - virt) / pageSize) fbFlags
    rw [show vmmUserMap s va _ fbFlags = (s₁, rc₁) from hp] at hkept hoff
    have hu₁ : s₁.user = some root := hkept.2.2.1.trans hu
    rw [hp] at hc
    dsimp only at hc
    by_cases hrc₁ : rc₁ = 0
    swap
    · rw [if_pos hrc₁] at hc
      cases hc
      exact ⟨(off_userMap_fail hu (hfree va (.head _)) hp hrc).mono (fun _ hk ↦ hk.elim), hu₁, M,
        hM, htab⟩
    subst hrc₁
    rw [if_neg (by simp)] at hc
    cases he : eachPage (fbPage virt off) l s₁ with
    | mk s₂ q =>
    obtain ⟨k, rc₂⟩ := q
    rw [he] at hc
    cases hc
    have hfree₁ : ∀ v ∈ l, s₁.vmmUserTranslateCr3 root v = none := by
      intro v hv
      refine (hoff.translate root v (fun _ heq ↦ ?_)).trans (hfree v (.tail _ hv))
      rw [pageOf_aligned (hal v (.tail _ hv)), hpage] at heq
      exact hva (heq ▸ hv)
    obtain ⟨hrest, hu₂, M', hM', htab'⟩ := ih hM hu₁ (fun v hv ↦ hal v (.tail _ hv)) hnodup hfree₁ he
    refine ⟨(hoff.mono fun k hk ↦ ?_).trans (hrest.mono fun k hk ↦ ?_), hu₂, M' + M,
      by rwa [add_assoc], ?_⟩
    · rw [hk, hpage]
      exact .head _
    · exact .tail _ hk
    · rw [htab', htab, Multiset.card_add]
      omega

theorem userUnmap_spec (hu : s.user = some root) (hal : va % pageSize = 0) :
    Off root (· = Pmm.pageOf va) s (s.vmmUserUnmap va).1 ∧ (s.vmmUserUnmap va).1.vmmUserTranslateCr3
      root va = none ∧ (s.vmmUserUnmap va).1.user = some root ∧ (s.vmmUserUnmap va).1.pmm = s.pmm ∧
      (s.vmmUserUnmap va).1.tables root = s.tables root := by
  simp only [vmmUserUnmap, hu]
  rw [if_neg (not_not.2 hal)]
  cases he : s.vmmUserTranslateCr3 root va with
  | none => exact ⟨.refl s, he, hu, rfl, rfl⟩
  | some e =>
    refine ⟨.setLeaf he rfl rfl (fun _ _ ↦ rfl), ?_, hu, rfl, tables_setLeaf rfl rfl⟩
    simp only [vmmUserTranslateCr3, Vmm.setLeaf, setLeafIn] at he ⊢
    split_ifs at he ⊢
    split at he
    · cases he
    · simp only [Slots.get?_set_self]
      exact Tab.walk_setLeaf he

theorem fbUndo_spec (hu : s.user = some root) (hal : ∀ va ∈ l, va % pageSize = 0)
    (hc : l.foldl (fun s va ↦ (s.vmmUserUnmap va).1) s = s') :
    Off root (· ∈ l) s s' ∧ (∀ va ∈ l, s'.vmmUserTranslateCr3 root va = none) ∧ s'.pmm = s.pmm ∧
      s'.tables root = s.tables root := by
  induction l generalizing s with
  | nil =>
    subst hc
    exact ⟨.refl s, fun _ hva ↦ (List.not_mem_nil hva).elim, rfl, rfl⟩
  | cons v l ih =>
    have hpage : Pmm.pageOf v = v := pageOf_aligned (hal v (.head _))
    obtain ⟨hfirst, hgone₁, hu₁, hp₁, ht₁⟩ := userUnmap_spec hu (hal v (.head _))
    obtain ⟨hoff, hgone, hp, ht⟩ := ih hu₁ (fun va hva ↦ hal va (.tail _ hva)) hc
    rw [hpage] at hfirst
    refine ⟨(hfirst.mono fun k hk ↦ hk ▸ .head _).trans (hoff.mono fun k hk ↦ .tail _ hk),
      fun va hva ↦ ?_,
      hp.trans hp₁, ht.trans ht₁⟩
    by_cases hmem : va ∈ l
    · exact hgone va hmem
    · obtain rfl | hva := List.mem_cons.1 hva
      · exact (hoff.translate root va (fun _ ↦ by rwa [hpage])).trans hgone₁
      · exact absurd hva hmem

theorem graphicsFbMap_fails {len : ℕ} (hok : s.pmm.Ok) (hu : s.user = some root)
    (hfree : ∀ va ∈ pages virt (pageUp len), s.vmmUserTranslateCr3 root va = none)
    (hrc : (s.graphicsFbMap virt off len).2 < 0) :
    OnlyTables root s (s.graphicsFbMap virt off len).1 := by
  simp only [graphicsFbMap] at hrc ⊢
  split
  · exact .refl s
  next hargs =>
  rw [if_neg hargs] at hrc
  split
  · exact .refl s
  next hsize =>
  rw [if_neg hsize] at hrc
  split
  · exact .refl s
  next htop =>
  rw [if_neg htop] at hrc
  simp only [not_or, not_not] at hargs
  have hdvd : pageSize ∣ virt := Nat.dvd_of_mod_eq_zero hargs.2.2.1
  have hal : ∀ va ∈ pages virt (pageUp len), va % pageSize = 0 := fun va hva ↦
    Nat.mod_eq_zero_of_dvd (pageSize_dvd_of_mem hdvd hva)
  cases he : eachPage (fbPage virt off) (pages virt (pageUp len)) s with
  | mk s₁ q =>
  obtain ⟨n, rc⟩ := q
  rw [he] at hrc
  dsimp only at hrc ⊢
  split_ifs at hrc ⊢ with hrc₁
  swap
  · exact absurd hrc (not_lt.2 (Int.natCast_nonneg _))
  obtain ⟨hoff, hu₁, M, hM, htab⟩ :=
    fbLoop_fails hok.holding hu hal (List.Nodup.of_map _ (pages_nodup hdvd _)) hfree he hrc₁
  obtain ⟨hundo, hgone, hp, ht⟩ :=
    fbUndo_spec hu₁ (fun va hva ↦ hal va (List.mem_of_mem_take hva)) rfl
  refine ⟨(hoff.trans hundo).of_none (fun k hk ↦ ⟨hfree k (List.mem_of_mem_take hk), hgone k hk⟩),
    ?_⟩
  have hcard := hM.freePages
  rw [hp, ht, htab]
  rw [add_zero] at hcard
  omega

theorem unmapPages_of_none (hu : s.user = some root)
    (hnone : ∀ va ∈ l, s.vmmUserTranslateCr3 root va = none) : s.unmapPages l = s := by
  induction l with
  | nil => rfl
  | cons va l ih =>
    show (s.unmapFree va).unmapPages l = s
    rw [unmapFree_of_none hu (hnone va (.head _))]
    exact ih (fun v hv ↦ hnone v (.tail _ hv))

end Vmm

namespace Mm

variable {m m' m'' : Mm} {heaps : Prop} {base size prot flags off cursor addr len : ℕ} {fd : MmapFd}

/-- Where a call maps that does not look for a gap. -/
def mmapTarget (m : Mm) (addr flags : ℕ) (fd : MmapFd) : Option ℕ :=
  if mapAnon flags = false ∧ fd.isFb = true then some (m.fbBase addr)
  else if mapFixed flags then some addr else none

/-- The call takes the place of a page or of a reservation. -/
def Overmaps (m : Mm) (addr len flags : ℕ) (fd : MmapFd) : Prop :=
  ∃ base ∈ m.mmapTarget addr flags fd, ∃ va, base ≤ va ∧ va < base + pageUp len ∧ ¬ m.Vacant va

/-- No user code can tell that there was a call; the frames that are missing are tables of the
address space. -/
structure Untouched (m m' : Mm) : Prop where
  vmm : Vmm.OnlyTables m.task.cr3 m.vmm m'.vmm
  lazyMmaps : ∀ i va, taskLazyMmapProtection (m'.tasks i) va = taskLazyMmapProtection (m.tasks i) va

theorem Untouched.refl (m : Mm) : m.Untouched m := ⟨.refl _, fun _ _ ↦ rfl⟩

theorem Untouched.trans (h : m.Untouched m') (hcr3 : m'.task.cr3 = m.task.cr3)
    (h' : m'.Untouched m'') : m.Untouched m'' :=
  ⟨h.vmm.trans (hcr3 ▸ h'.vmm), fun i va ↦ (h'.lazyMmaps i va).trans (h.lazyMmaps i va)⟩

theorem Running.mmapPages_fails (h : m.Running heaps) (hok : m.vmm.pmm.Ok)
    (hu : m.vmm.user = some m.task.cr3) (hbase : pageSize ∣ base) (hlt : 0 < size)
    (hfree : ∀ va ∈ pages base size, m.vmm.vmmUserTranslateCr3 m.task.cr3 va = none) {fixed : Bool}
    (hlazy : fixed = true → ∀ r ∈ m.task.lazyMmaps, ∀ a, base ≤ a → a < base + size → ¬ r.Has a)
    {content : ℕ → Option (ℕ → UInt8)}
    (hrc : (m.mmapPages cursor base size prot fixed content).2 < 0) :
    m.Untouched (m.mmapPages cursor base size prot fixed content).1 := by
  have hremove : ∃ m₁ lrc, (if fixed then m.taskLazyMmapTransformShared base (base + size) .remove 0
      else (m, 0)) = (m₁, lrc) ∧
      m₁.vmm = m.vmm ∧
        ∀ i va, taskLazyMmapProtection (m₁.tasks i) va = taskLazyMmapProtection (m.tasks i) va := by
    cases fixed with
    | false => exact ⟨m, 0, rfl, rfl, fun _ _ ↦ rfl⟩
    | true =>
      rw [if_pos rfl, h.transform_eq]
      cases he : taskLazyMmapTransform m.task.lazyMmaps base (base + size) .remove 0 with
      | error rc => exact ⟨m, rc, rfl, rfl, fun _ _ ↦ rfl⟩
      | ok out =>
        refine ⟨_, 0, rfl, rfl, fun i va ↦ ?_⟩
        simp only [Mm.updateShared]
        split_ifs with hi
        · rw [taskLazyMmapProtection_eq, taskLazyMmapProtection_eq, h.lazy_current hi]
          exact LazyMmap.protection_transform_remove (Nat.lt_add_of_pos_right hlt) he (hlazy rfl) va
        · rfl
  obtain ⟨m₁, lrc, heq, hvmm, hsame⟩ := hremove
  have hstart : m.Untouched m₁ := ⟨.of_eq (by rw [hvmm]) (by rw [hvmm]) (by rw [hvmm]), hsame⟩
  simp only [Mm.mmapPages, heq] at hrc ⊢
  split
  · exact hstart
  next hlrc =>
  rw [if_neg hlrc, hvmm] at hrc
  rw [hvmm]
  cases hmap : m.vmm.mapPages (Vmm.mmapPage fixed content (Vmm.protToPte prot))
    (pages base size) with
  | mk v rc =>
  rw [hmap] at hrc
  dsimp only at hrc ⊢
  split_ifs at hrc ⊢ with hmrc
  · refine ⟨?_, hsame⟩
    refine Vmm.mapPages_fails hok h.framed hu (fun va hva ↦ ?_)
      (List.Nodup.of_map _ (Vmm.pages_nodup hbase _)) hfree hmap hmrc
    exact Nat.mod_eq_zero_of_dvd (pageSize_dvd_of_mem hbase hva)
  · exact absurd hrc (not_lt.2 (Int.natCast_nonneg _))
  · exact absurd hrc (not_lt.2 (Int.natCast_nonneg _))

/-- What holds when the range of a call is known: it is not mapped, and a call with `MAP_FIXED`
finds no reservation in it. -/
theorem Running.mmapAt_fails (h : m.Running heaps) (hok : m.vmm.pmm.Ok)
    (hu : m.vmm.user = some m.task.cr3) (hbase : pageSize ∣ base) (hlt : 0 < size)
    (hfree : ∀ va ∈ pages base size, m.vmm.vmmUserTranslateCr3 m.task.cr3 va = none)
    (hlazy : mapFixed flags = true → ∀ r ∈ m.task.lazyMmaps, ∀ a, base ≤ a → a < base + size →
    ¬ r.Has a) (hrc : (m.mmapAt cursor base size prot flags fd off).2 < 0) :
    m.Untouched (m.mmapAt cursor base size prot flags fd off).1 := by
  unfold Mm.mmapAt at hrc ⊢
  split
  · next hreserve =>
    rw [if_pos hreserve] at hrc
    have hun : (if mapFixed flags then { m with vmm := m.vmm.unmapPages (pages base size) }
      else m) = m := by
      rw [Vmm.unmapPages_of_none hu hfree, ite_self]
    simp only [Mm.mmapReserve, hun] at hrc ⊢
    rw [h.transform_eq] at hrc ⊢
    cases he : taskLazyMmapTransform m.task.lazyMmaps base (base + size) .replace 0 with
    | error rc =>
      rw [he] at hrc
      dsimp only at hrc ⊢
      split_ifs at hrc ⊢
      · exact .refl m
      · exact absurd hrc (not_lt.2 (Int.natCast_nonneg _))
      · exact absurd hrc (not_lt.2 (Int.natCast_nonneg _))
    | ok out =>
      rw [he] at hrc
      exact absurd hrc (not_lt.2 (Int.natCast_nonneg _))
  · next hpages =>
    rw [if_neg hpages] at hrc
    exact h.mmapPages_fails hok hu hbase hlt hfree hlazy hrc

theorem Running.mmapAt_rc (h : m.Running heaps) (hlt : 0 < size)
    (hrc : (m.mmapAt cursor base size prot flags fd off).2 < 0) :
    (m.mmapAt cursor base size prot flags fd off).2 = -enomem ∨
      (m.mmapAt cursor base size prot flags fd off).2 = -eio := by
  have hbase : ∀ {P : Prop}, ((base : ℕ) : ℤ) < 0 → P :=
    fun hneg ↦ absurd hneg (not_lt.2 (Int.natCast_nonneg _))
  unfold Mm.mmapAt at hrc ⊢
  split at hrc
  · next hreserve =>
    rw [if_pos hreserve]
    have hun : (if mapFixed flags then { m with vmm := m.vmm.unmapPages (pages base size) }
      else m).Running heaps := by
      split_ifs
      · exact h.setVmm (Vmm.Keeps.unmapPages _ _)
      · exact h
    simp only [Mm.mmapReserve] at hrc ⊢
    generalize (if mapFixed flags then { m with vmm := m.vmm.unmapPages (pages base size) }
      else m) = m₁ at hrc hun ⊢
    rw [hun.transform_eq] at hrc ⊢
    cases he : taskLazyMmapTransform m₁.task.lazyMmaps base (base + size) .replace 0 with
    | error rc =>
      obtain rfl := LazyMmap.transform_error (Nat.lt_add_of_pos_right hlt) he
      exact .inl rfl
    | ok out =>
      rw [he] at hrc
      exact hbase hrc
  · next hpages =>
    rw [if_neg hpages]
    simp only [Mm.mmapPages] at hrc ⊢
    generalize (if mapFixed flags then m.taskLazyMmapTransformShared base (base + size) .remove 0
      else (m, 0)) = r at hrc ⊢
    split at hrc
    · next hlrc =>
      rw [if_pos hlrc]
      exact .inl rfl
    next hlrc =>
    rw [if_neg hlrc]
    have hcodes :=
      Vmm.mapPages_rc (Q := fun rc ↦ rc = 0 ∨ rc = -enomem ∨ rc = -eio)
        (Vmm.mmapPage_rc (mapFixed flags)
      (fun va ↦ fd.pageContent (mapAnon flags) (off + (va - base))) (Vmm.protToPte prot)) (.inl rfl)
        (pages base size) r.1.vmm
    split at hrc
    · next hmrc =>
      rw [if_pos hmrc]
      exact hcodes.resolve_left hmrc
    · exact hbase hrc

theorem mmapFramebuffer_fails (hok : m.vmm.pmm.Ok) (hu : m.vmm.user = some m.task.cr3)
    (hbase : (if addr ≠ 0 then pageUp addr else pageUp cursor) = base)
    (hfree : (m.mmapFramebuffer cursor addr len prot flags off).2 = -eio →
      ∀ va ∈ pages base (pageUp len), m.vmm.vmmUserTranslateCr3 m.task.cr3 va = none)
    (hrc : (m.mmapFramebuffer cursor addr len prot flags off).2 < 0) :
    m.Untouched (m.mmapFramebuffer cursor addr len prot flags off).1 := by
  simp only [Mm.mmapFramebuffer, hbase] at hfree hrc ⊢
  generalize (if off < m.vmm.fbSize then m.vmm.fbPhys % pageSize + m.vmm.fbSize - off else 0) =
    remaining at hfree hrc ⊢
  split
  · exact .refl m
  next hargs =>
  rw [if_neg hargs] at hfree hrc
  split
  · exact .refl m
  next hrange =>
  rw [if_neg hrange] at hfree hrc
  split
  · next hmap =>
    rw [if_pos hmap] at hfree
    exact ⟨Vmm.graphicsFbMap_fails hok hu (hfree rfl) hmap, fun _ _ ↦ rfl⟩
  · next hmap =>
    rw [if_neg hmap] at hrc
    exact absurd hrc (not_lt.2 (Int.natCast_nonneg _))

theorem cursor_fields (m : Mm) (i : Slot) :
    (m.taskSharedMmapCursor.1.tasks i).used = (m.tasks i).used ∧
      (m.taskSharedMmapCursor.1.tasks i).cr3 = (m.tasks i).cr3 ∧
      (m.taskSharedMmapCursor.1.tasks i).lazyMmaps = (m.tasks i).lazyMmaps := by
  simp only [taskSharedMmapCursor, Mm.updateShared]
  split_ifs
  · exact ⟨rfl, rfl, rfl⟩
  · exact ⟨rfl, rfl, rfl⟩

theorem untouched_cursor {m₁ : Mm} (ha : m.activate = some m₁) :
    m.Untouched m₁.taskSharedMmapCursor.1 ∧ m₁.taskSharedMmapCursor.1.task.cr3 = m.task.cr3 ∧
      ∀ va, m.Vacant va → m₁.taskSharedMmapCursor.1.Vacant va := by
  have hfields := cursor_fields m₁
  rw [activate_some ha] at hfields ⊢
  have hcr3 := (hfields m.current).2.1
  refine ⟨⟨.of_eq rfl rfl rfl, fun i va ↦ ?_⟩, hcr3, fun va hva ↦ ⟨?_, fun i hi r hr ↦ ?_⟩⟩
  · rw [taskLazyMmapProtection_eq, (hfields i).2.2]
    rfl
  · exact (congrArg (fun r ↦ m.vmm.vmmUserTranslateCr3 r va) hcr3).trans hva.1
  · obtain ⟨hused, hroot, hlazy⟩ := hfields i
    exact hva.2 i ⟨hused.symm.trans hi.1, hroot.symm.trans (hi.2.trans hcr3)⟩ r (hlazy ▸ hr)

theorem Running.mmapChosen_fails (h : m.Running heaps) (hok : m.vmm.pmm.Ok)
    (hu : m.vmm.user = some m.task.cr3) (hlt : 0 < pageUp len)
    (haddr : mapFixed flags = true → addr % pageSize = 0)
    (hb : m.mmapBase cursor addr (pageUp len) (mapFixed flags) = .ok base)
    (hvacant : mapFixed flags = true → ∀ va, addr ≤ va → va < addr + pageUp len → m.Vacant va)
    (hrc : (m.mmapAt cursor base (pageUp len) prot flags fd off).2 < 0) :
    m.Untouched (m.mmapAt cursor base (pageUp len) prot flags fd off).1 := by
  cases hf : mapFixed flags with
  | true =>
    simp only [mmapBase, hf, if_true] at hb
    split at hb
    swap
    · cases hb
    cases hb
    refine h.mmapAt_fails hok hu (Nat.dvd_of_mod_eq_zero (haddr hf)) hlt (fun va hva ↦ ?_)
      (fun _ r hr a h₁ h₂ ↦ ?_) hrc
    · obtain ⟨h₁, h₂⟩ := Vmm.range_of_mem_pages hva
      exact (hvacant hf va h₁ h₂).1
    · exact (hvacant hf a h₁ h₂).2 m.current ⟨h.used, rfl⟩ r hr
  | false =>
    simp only [mmapBase, hf, Bool.false_eq_true, if_false] at hb
    split at hb
    swap
    · cases hb
    next hgap =>
    cases hb
    obtain ⟨-, hfree, -, halign⟩ := userMmapFindGap_spec (pageUp_dvd len) hgap
    refine h.mmapAt_fails hok hu (halign (pageUp_dvd _)) hlt (fun va hva ↦ ?_) (fun hf' ↦ ?_) hrc
    · have hnone : ∀ va ∈ pages base (pageUp len), m.vmm.vmmUserTranslate va = none := by
        simpa [Vmm.rangeFree] using hfree
      exact (Vmm.translate_eq_of_user hu va).symm.trans (hnone va hva)
    · rw [hf] at hf'
      cases hf'

theorem Running.sysMmap_fails (h : m.Running heaps) (hok : m.vmm.pmm.Ok)
    (hrc : (m.sysMmap addr len prot flags fd off).2 < 0)
    (hover : (m.sysMmap addr len prot flags fd off).2 = -enomem ∨
      (m.sysMmap addr len prot flags fd off).2 = -eio →
      ¬ m.Overmaps addr len flags fd) :
    m.Untouched (m.sysMmap addr len prot flags fd off).1 := by
  cases ha : m.activate with
  | none =>
    simp only [Mm.sysMmap, ha]
    exact .refl m
  | some m₁ =>
  have h₂ := (h.activate ha).cursor
  obtain ⟨hstart, hcr3, hvacant⟩ := untouched_cursor ha
  have hu : m₁.taskSharedMmapCursor.1.vmm.user = some m₁.taskSharedMmapCursor.1.task.cr3 := by
    rw [hcr3, activate_some ha]
    rfl
  have hok₂ : m₁.taskSharedMmapCursor.1.vmm.pmm.Ok := by
    rw [activate_some ha]
    exact hok
  have hfb : (if addr ≠ 0 then pageUp addr else pageUp m₁.taskSharedMmapCursor.2) =
      m.fbBase addr := by
    rw [activate_some ha]
    rfl
  have hfree : ¬ m.Overmaps addr len flags fd → ∀ base, m.mmapTarget addr flags fd = some base →
      ∀ va, base ≤ va → va < base + pageUp len → m₁.taskSharedMmapCursor.1.Vacant va := by
    intro hnot base hbase va h₁ h₂
    refine hvacant va (not_not.1 fun hv ↦ hnot ⟨base, hbase, va, h₁, h₂, hv⟩)
  simp only [Mm.sysMmap, ha] at hrc hover ⊢
  generalize m₁.taskSharedMmapCursor = r at *
  obtain ⟨m₂, cursor⟩ := r
  dsimp only at *
  split
  · exact hstart
  next hlen =>
  rw [if_neg hlen] at hrc hover
  split
  · exact hstart
  next hoff =>
  rw [if_neg hoff] at hrc hover
  split
  · exact hstart
  next hwx =>
  rw [if_neg hwx] at hrc hover
  by_cases hdev : mapAnon flags = false ∧ fd.isFb = true
  · have htarget : m.mmapTarget addr flags fd = some (m.fbBase addr) := if_pos hdev
    obtain ⟨hanon, hisFb⟩ := hdev
    cases fd with
    | framebuffer =>
      rw [hanon] at hrc hover ⊢
      dsimp only at hrc hover ⊢
      split
      · exact hstart
      next hal =>
      rw [if_neg hal] at hrc hover
      refine hstart.trans hcr3 (mmapFramebuffer_fails hok₂ hu hfb (fun heio va hva ↦ ?_) hrc)
      obtain ⟨h₁, h₂⟩ := Vmm.range_of_mem_pages hva
      exact (hfree (hover (.inr heio)) _ htarget va h₁ h₂).1
    | _ => cases hisFb
  · have htarget : mapFixed flags = true → m.mmapTarget addr flags fd = some addr := fun hf ↦
      (if_neg hdev).trans (if_pos hf)
    revert hrc hover
    split
    · exact fun _ _ ↦ hstart
    · exact fun _ _ ↦ hstart
    · next hanon => exact absurd ⟨hanon, rfl⟩ hdev
    intro hrc hover
    split
    · exact hstart
    next hal =>
    rw [if_neg hal] at hrc hover
    split
    · exact hstart
    next hsize =>
    rw [if_neg hsize] at hrc hover
    cases hb : m₂.mmapBase cursor addr (pageUp len) (mapFixed flags) with
    | error rc => exact hstart
    | ok base =>
    rw [hb] at hrc hover
    dsimp only at hrc hover ⊢
    have hlt : 0 < pageUp len := Nat.pos_of_ne_zero (fun hz ↦ hsize (.inl hz))
    have hcode := h₂.mmapAt_rc hlt hrc
    exact hstart.trans hcr3
      (h₂.mmapChosen_fails hok₂ hu hlt (fun hf ↦ not_not.1 fun hne ↦ hal ⟨hf, hne⟩) hb
      (fun hf va h₁ h₂ ↦ hfree (hover hcode) addr (htarget hf) va h₁ h₂) hrc)

def tightPage (n : ℕ) (l : List MmCall) : Mm := (boot (clearFrames n) (fun _ _ ↦ 0) 0 0).run l

/-- A call that fails leaves all pages with their contents and all reservations, and has taken no
more than tables; a call that takes the place of pages or reservations has to fail before it comes
to them. -/
theorem mmap_failure_leaves_tables (pmm : Pmm) (hok : pmm.Ok) (bytes : ℕ → ℕ → UInt8)
    (fbPhys fbSize : ℕ) (hfb : FbReserved pmm fbPhys fbSize) (l : List MmCall)
    (addr len prot flags : ℕ) (fd : MmapFd) (off : ℕ) :
    let m := (boot pmm bytes fbPhys fbSize).run l
    let r := m.sysMmap addr len prot flags fd off
    m.task.used = true → r.2 < 0 → (r.2 = -enomem ∨ r.2 = -eio → ¬ m.Overmaps addr len flags fd) →
      (∀ root va, r.1.vmm.vmmUserTranslateCr3 root va = m.vmm.vmmUserTranslateCr3 root va) ∧
      (∀ root va, r.1.vmm.userByte root va = m.vmm.userByte root va) ∧
      (∀ i va, taskLazyMmapProtection (r.1.tasks i) va = taskLazyMmapProtection (m.tasks i) va) ∧
      r.1.vmm.pmm.freePages + r.1.vmm.tables m.task.cr3 =
        m.vmm.pmm.freePages + m.vmm.tables m.task.cr3 := by
  intro m r hused hrc hover
  have h : m.Orderly False := run_orderly hfb bytes (fun hh ↦ hh.elim)
  have hfails := (Running.mk h hused).sysMmap_fails (run_ok hok hfb bytes l) hrc hover
  exact ⟨fun root va ↦ hfails.vmm.off.translate root va (fun _ ↦ id),
    fun root va ↦ hfails.vmm.off.userByte (fun _ ↦ id),
    hfails.lazyMmaps, hfails.vmm.books⟩

/-- There is room for a table and one of the two pages. -/
theorem mmap_failure_leaves_tables_two :
    ((tightPage 74 (ownPage.take 1)).sysMmap 0 8192 3 0x22 .negative 0).2 = -enomem ∧
      ((tightPage 74 (ownPage.take 1)).sysMmap 0 8192 3 0x22 .negative 0).1.vmm.userByte 4096
        0x400000 = (tightPage 74 (ownPage.take 1)).vmm.userByte 4096 0x400000 := by
  obtain ⟨hused, hrc⟩ : (tightPage 74 (ownPage.take 1)).task.used = true ∧
      ((tightPage 74 (ownPage.take 1)).sysMmap 0 8192 3 0x22 .negative 0).2 = -enomem := by
        decide +kernel
  have hover : ¬ (tightPage 74 (ownPage.take 1)).Overmaps 0 8192 0x22 .negative := by
    rintro ⟨base, hbase, -⟩
    cases hbase
  have hneg : ((tightPage 74 (ownPage.take 1)).sysMmap 0 8192 3 0x22 .negative 0).2 < 0 := by
    rw [hrc]
    decide
  unfold tightPage at hused hrc hover hneg ⊢
  have hfails :=
    mmap_failure_leaves_tables (clearFrames 74) (clearFrames_ok (by decide)) (fun _ _ ↦ 0) 0 0
      (fbReserved_none _)
    (ownPage.take 1) 0 8192 3 0x22 .negative 0 hused hneg (fun _ ↦ hover)
  exact ⟨hrc, hfails.2.1 _ _⟩

/-- The table stays when the second page is missing; and a page that `MAP_FIXED` is to replace is
gone when the file cannot be read. -/
theorem mmap_failure_takes :
    (let m := tightPage 74 (ownPage.take 1)
      let r := m.sysMmap 0 8192 3 0x22 .negative 0
      m.task.used = true ∧ r.2 = -enomem ∧ m.vmm.pmm.freePages = 2 ∧ r.1.vmm.pmm.freePages = 1) ∧
    let m := tightPage 75 ownPage
    let r := m.sysMmap userMmapMin 4096 3 0x12 (.file 4096 (fun _ _ ↦ none)) 0
    m.task.used = true ∧ r.2 = -eio ∧ (m.vmm.vmmUserTranslateCr3 m.task.cr3 userMmapMin).isSome =
      true ∧ r.1.vmm.vmmUserTranslateCr3 m.task.cr3 userMmapMin = none := by
  decide +kernel

end Mm

end YabroOS.Memory
