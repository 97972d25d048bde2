import YabroOS.Memory.FreshPages
import YabroOS.Memory.MmMoves

namespace YabroOS.Memory

open Lib Function

namespace Vmm

variable {s s' : Vmm} {root va : ℕ}

theorem brkPage_fresh (root : ℕ) : MapsFresh root (fun _ _ ↦ 0) heapFlags False brkPage where
  keeps := Keeps.brkPage
  done := by
    intro s s' va p N hs hu h _ hc
    simp only [brkPage, translate_eq_of_user hu] at hc
    split at hc
    · cases hc
    next hnone =>
    split at hc
    · cases hc
    next q frame ha =>
    split at hc
    swap
    · cases hc
    cases hm : vmmUserMap { s with pmm := q, bytes := update s.bytes frame (fun _ ↦ 0) } va frame
      heapFlags with
    | mk s₁ rc =>
    rw [hm] at hc
    dsimp only at hc
    split at hc
    · cases hc
    next hrc =>
    rw [not_not] at hrc
    subst hrc
    obtain ⟨M, hM, htab, hoff, hsome, hb⟩ := allocMap_done hs hu h ha hm
    split at hc
    · split at hc
      · cases hc
        exact ⟨frame, M, hM, htab, hoff, hnone, hsome, hb⟩
      · cases hc
    · cases hc
  failed := by
    intro s s' va p N rc hs hu h _ hc hrc
    have hsame : p.Holding (0 + N) s.pmm ∧ s.tables root = s.tables root + (0 : Multiset ℕ).card ∧
        Off root (fun _ ↦ False) s s :=
          ⟨by rwa [zero_add], by rw [Multiset.card_zero, add_zero], .refl s⟩
    simp only [brkPage, translate_eq_of_user hu] at hc
    split at hc
    · cases hc
      exact ⟨0, hsame⟩
    next hnone =>
    split at hc
    · next q ha =>
      cases hc
      exact fail_none h ha
    next q frame ha =>
    split at hc
    swap
    · cases hc
      exact fail_freed h ha
    cases hm : vmmUserMap { s with pmm := q, bytes := update s.bytes frame (fun _ ↦ 0) } va frame
      heapFlags with
    | mk s₁ rc₁ =>
    rw [hm] at hc
    dsimp only at hc
    split at hc
    · next hrc₁ =>
      cases hc
      exact allocMap_failed hs hu h ha hnone hm hrc₁
    next hrc₁ =>
    rw [not_not] at hrc₁
    subst hrc₁
    -- The audit finds the entry that was just written.
    have he := translate_userMap hm
    rw [he] at hc
    cases hc
    exact absurd rfl hrc

theorem unmapPages_off (hu : s.user = some root) {l : List ℕ} (hal : ∀ va ∈ l, va % pageSize = 0) :
    Off root (· ∈ l) s (s.unmapPages l) ∧ ∀ va ∈ l, (s.unmapPages l).vmmUserTranslateCr3 root va =
      none := by
  induction l generalizing s with
  | nil => exact ⟨.refl s, fun _ hva ↦ (List.not_mem_nil hva).elim⟩
  | cons v l ih =>
    have hv := hal v (.head _)
    have hpage : Pmm.pageOf v = v := pageOf_aligned hv
    obtain ⟨hoff, hgone⟩ :=
      ih ((Keeps.unmapFree s v).user.trans hu) (fun va hva ↦ hal va (.tail _ hva))
    have hfirst := off_unmapFree hu v
    rw [hpage] at hfirst
    refine ⟨(hfirst.mono fun k hk ↦ hk ▸ .head _).trans (hoff.mono fun k hk ↦ .tail _ hk),
      fun va hva ↦ ?_⟩
    by_cases hmem : va ∈ l
    · exact hgone va hmem
    · obtain rfl | hva := List.mem_cons.1 hva
      · exact (hoff.translate root va (fun _ ↦ by rwa [hpage])).trans (unmapFree_translate hu hv)
      · exact absurd hva hmem

theorem pageOf_mem_iff {lo hi : ℕ} (hlo : pageSize ∣ lo) (hhi : pageSize ∣ hi) (hle : lo ≤ hi) :
    Pmm.pageOf va ∈ pages lo (hi - lo) ↔ lo ≤ va ∧ va < hi := by
  constructor
  · intro hmem
    obtain ⟨h₁, h₂⟩ := range_of_mem_pages hmem
    obtain ⟨a, rfl⟩ := hlo
    obtain ⟨b, rfl⟩ := hhi
    simp only [Pmm.pageOf, pageSize] at *
    omega
  · rintro ⟨h₁, h₂⟩
    exact pageOf_mem_pages hlo (Nat.dvd_sub hhi hlo) h₁ (by omega)

end Vmm

structure BrkCall where
  task : Slot
  addr : ℕ

theorem pageUp_of_lt {x : ℕ} (h : x < userHeapMax) : x ≤ pageUp x ∧ pageUp x < x + pageSize := by
  have hmax : userHeapMax = 0xF000000 := rfl
  simp only [pageUp, Pmm.pageOf, pageSize] at *
  omega

theorem pageUp_mono {x y : ℕ} (h : x ≤ y) (hy : y < userHeapMax) : pageUp x ≤ pageUp y := by
  have hmax : userHeapMax = 0xF000000 := rfl
  simp only [pageUp, Pmm.pageOf, pageSize] at *
  omega

theorem pageUp_of_dvd {x : ℕ} (h : pageSize ∣ x) (hx : x < userHeapMax) : pageUp x = x := by
  have hmax : userHeapMax = 0xF000000 := rfl
  obtain ⟨k, rfl⟩ := h
  simp only [pageUp, Pmm.pageOf, pageSize] at *
  omega

theorem imageHeapBase_dvd (imageEnd : ℕ) : pageSize ∣ imageHeapBase imageEnd := by
  have hbase : pageSize ∣ if userHeapBase < imageEnd then pageUp imageEnd else userHeapBase := by
    split_ifs
    · exact pageUp_dvd _
    · decide
  simp only [imageHeapBase]
  generalize (if userHeapBase < imageEnd then pageUp imageEnd else userHeapBase) = base at hbase ⊢
  split_ifs
  · decide
  · decide
  · decide
  · exact hbase

theorem userHeapBase_le_imageHeapBase (imageEnd : ℕ) : userHeapBase ≤ imageHeapBase imageEnd := by
  simp only [imageHeapBase]
  generalize (if userHeapBase < imageEnd then pageUp imageEnd else userHeapBase) = base
  have hle : userHeapBase ≤ if base < userHeapBase then userHeapBase else base := by
    split_ifs with hb
    · exact le_rfl
    · exact not_lt.1 hb
  generalize (if base < userHeapBase then userHeapBase else base) = base at hle ⊢
  split_ifs
  · decide
  · exact hle

namespace Mm

variable {m m₀ m' : Mm} {root base stop : ℕ}

def brk (m : Mm) (c : BrkCall) : Mm × ℤ := { m with current := c.task }.sysBrk c.addr

def brks (m : Mm) (l : List BrkCall) : Mm := l.foldl (fun m c ↦ (m.brk c).1) m

def Sharer (root : ℕ) (m : Mm) (i : Slot) : Prop := (m.tasks i).used = true ∧ (m.tasks i).cr3 = root

/-- An image has just been loaded: in all tasks of the address space the break is at the base of its
heap. -/
def Loaded (root imageEnd : ℕ) (m : Mm) : Prop := ∀ i, m.Sharer root i →
  (m.tasks i).heapBase = imageHeapBase imageEnd ∧ (m.tasks i).heapEnd = imageHeapBase imageEnd

/-- The heap of an address space with its break, and the address space as it was when the image was
loaded. -/
structure HeapAt (root base : ℕ) (m₀ m : Mm) (stop : ℕ) : Prop where
  orderly : m.Orderly False
  ok : m.vmm.pmm.Ok
  table : m.vmm.pmm.table root = true
  sharer : ∀ i, m.Sharer root i ↔ m₀.Sharer root i
  heap : ∀ i, m.Sharer root i → (m.tasks i).heapBase = base ∧ (m.tasks i).heapEnd = stop
  base_le : base ≤ stop
  stop_lt : stop < userHeapMax
  mapped : ∀ va, base ≤ va → va < pageUp stop → m₀.vmm.vmmUserTranslateCr3 root va = none ∧
    (m.vmm.vmmUserTranslateCr3 root va).isSome = true
  others : ∀ va, ¬ (base ≤ va ∧ va < pageUp stop) →
    m.vmm.vmmUserTranslateCr3 root va = m₀.vmm.vmmUserTranslateCr3 root va

theorem sharedHeap_eq (hcur : m.Sharer root m.current)
    (hheap : ∀ i, m.Sharer root i → (m.tasks i).heapBase = base ∧ (m.tasks i).heapEnd = stop)
    (hshares : ∀ i, m.shares i = true → m.Sharer root i) (hbase : base ≠ 0) (hle : base ≤ stop) :
    m.sharedHeap = (base, stop) := by
  have hfold : ∀ l : List Slot, (∀ i ∈ l, m.shares i = true) → l.foldl (fun r i ↦
      (if (m.tasks i).heapBase ≠ 0 then (m.tasks i).heapBase else r.1, max r.2 (m.tasks i).heapEnd))
        (base, stop) =
      (base, stop) := by
    intro l hl
    induction l with
    | nil => rfl
    | cons i l ih =>
      obtain ⟨hb, he⟩ := hheap i (hshares i (hl i (.head _)))
      rw [List.foldl_cons]
      simp only [hb, he, hbase, ne_eq, not_false_eq_true, if_true, max_self]
      simpa using ih (fun j hj ↦ hl j (.tail _ hj))
  obtain ⟨hb, he⟩ := hheap m.current hcur
  have hstop : stop ≠ 0 := by omega
  have hstart : (if m.task.heapBase ≠ 0 then m.task.heapBase else userHeapBase) = base ∧
      (if m.task.heapEnd ≠ 0 then m.task.heapEnd else base) = stop := by
    simp only [task, hb, he, hbase, hstop, ne_eq, not_false_eq_true, if_true, and_self]
  simp only [sharedHeap, hstart.1, hstart.2]
  rw [hfold _ (fun i hi ↦ (List.mem_filter.1 hi).2)]
  simp [hle]

theorem Running.heapSync_tasks (h : m.Running False) (hroot : m.task.cr3 = root) (base stop : ℕ) :
    (∀ i, (m.taskSharedHeapSync base stop).Sharer root i ↔ m.Sharer root i) ∧
      ∀ i, (m.taskSharedHeapSync base stop).Sharer root i →
        ((m.taskSharedHeapSync base stop).tasks i).heapBase = base ∧
        ((m.taskSharedHeapSync base stop).tasks i).heapEnd = stop := by
  have hfield : ∀ i, ((m.taskSharedHeapSync base stop).tasks i).used = (m.tasks i).used ∧
      ((m.taskSharedHeapSync base stop).tasks i).cr3 = (m.tasks i).cr3 := by
    intro i
    simp only [taskSharedHeapSync, Mm.updateShared]
    split_ifs
    · exact ⟨rfl, rfl⟩
    · exact ⟨rfl, rfl⟩
  have hsharer : ∀ i, (m.taskSharedHeapSync base stop).Sharer root i ↔ m.Sharer root i := by
    intro i
    unfold Sharer
    rw [(hfield i).1, (hfield i).2]
  refine ⟨hsharer, fun i hi ↦ ?_⟩
  obtain ⟨hused, hcr3⟩ := (hsharer i).1 hi
  have hs : m.shares i = true := (h.shares_iff i).2 ⟨hused, hcr3.trans hroot.symm⟩
  simp only [taskSharedHeapSync, Mm.updateShared, hs, if_true, and_self]

inductive BrkStep (root base stop addr : ℕ) (s : Vmm) : ℕ → Vmm → Prop
  | refused : BrkStep root base stop addr s stop s
  | failed {M : Multiset ℕ} {s' : Vmm} (hg : Vmm.Grown root (fun _ _ ↦ 0) Vmm.heapFlags s [] M s') :
      BrkStep root base stop addr s stop s'
  | grown {pgs : List (ℕ × ℕ)} {M : Multiset ℕ} {s' : Vmm} (hlt : stop < addr)
      (hmax : addr < userHeapMax) (hg : Vmm.Grown root (fun _ _ ↦ 0) Vmm.heapFlags s pgs M s')
      (hp : pgs.map Prod.fst = pages (pageUp stop) (pageUp addr - pageUp stop)) : BrkStep root base
        stop addr s addr s'
  | shrunk (hle : base ≤ addr) (hge : addr ≤ stop) :
      BrkStep root base stop addr s addr
        (s.unmapPages (pages (pageUp addr) (pageUp stop - pageUp addr)))

theorem Running.sysBrk_step (h : m.Running False) (hroot : m.task.cr3 = root)
    (htab : m.vmm.pmm.table root = true) (hok : m.vmm.pmm.Ok)
    (hheap : ∀ i, m.Sharer root i → (m.tasks i).heapBase = base ∧ (m.tasks i).heapEnd = stop)
    (hpos : base ≠ 0) (hle : base ≤ stop) (hstop : stop < userHeapMax) (addr : ℕ) :
    ∃ new : ℕ, (m.sysBrk addr).2 = new ∧
      BrkStep root base stop addr { m.vmm with user := some root } new (m.sysBrk addr).1.vmm ∧
      (∀ i, (m.sysBrk addr).1.Sharer root i ↔ m.Sharer root i) ∧
      ∀ i, (m.sysBrk addr).1.Sharer root i → ((m.sysBrk addr).1.tasks i).heapBase = base ∧
        ((m.sysBrk addr).1.tasks i).heapEnd = new := by
  have hact : m.activate = some { m with vmm := { m.vmm with user := some root } } := by
    have hne : root ≠ 0 := hroot ▸ (h.rooted m.current h.used).1
    simp only [Mm.activate, Vmm.vmmUserActivate, hroot, htab, hne, if_true, ne_eq,
      not_true_eq_false, or_self, if_false]
  have h₁ := h.activate hact
  have hshared := sharedHeap_eq (m := { m with vmm := { m.vmm with user := some root } })
    ⟨h.used, hroot⟩ hheap (fun i hi ↦ by
      obtain ⟨hu, hc⟩ := (h.shares_iff i).1 hi
      exact ⟨hu, hc.trans hroot⟩) hpos hle
  unfold Mm.sysBrk
  rw [hact]
  dsimp only
  rw [hshared]
  dsimp only
  -- The heap as it is goes to all tasks first.
  have h₂ := h₁.heapSync (show base < userHeapMax by omega) hstop
  obtain ⟨hs₂, hh₂⟩ := h₁.heapSync_tasks hroot base stop
  have hkept : ∀ i, (taskSharedHeapSync { m with vmm := { m.vmm with user := some root } } base
    stop).Sharer root i ↔
      m.Sharer root i := hs₂
  have hvmm : (taskSharedHeapSync { m with vmm := { m.vmm with user := some root } } base stop).vmm =
      { m.vmm with user := some root } := rfl
  have hroot₂ : (taskSharedHeapSync { m with vmm := { m.vmm with user := some root } } base
    stop).task.cr3 = root :=
    ((hs₂ m.current).2 ⟨h.used, hroot⟩).2
  generalize taskSharedHeapSync { m with vmm := { m.vmm with user := some root } } base stop =
    m₂ at h₂ hh₂ hkept hvmm hroot₂ ⊢
  have hsync : ∀ (v : Vmm) (new : ℕ), m₂.vmm.Keeps v →
      (∀ i, ({ m₂ with vmm := v }.taskSharedHeapSync base new).Sharer root i ↔
      m.Sharer root i) ∧ ∀ i, ({ m₂ with vmm := v }.taskSharedHeapSync base new).Sharer root i →
        (({ m₂ with vmm := v }.taskSharedHeapSync base new).tasks i).heapBase = base ∧
          (({ m₂ with vmm := v }.taskSharedHeapSync base new).tasks i).heapEnd = new := by
    intro v new hv
    obtain ⟨hs₃, hh₃⟩ := (h₂.setVmm hv).heapSync_tasks hroot₂ base new
    exact ⟨fun i ↦ (hs₃ i).trans (hkept i), hh₃⟩
  have hrefused : BrkStep root base stop addr { m.vmm with user := some root } stop m₂.vmm := by
    rw [hvmm]
    exact .refused
  split
  · exact ⟨stop, rfl, hrefused, hkept, hh₂⟩
  split
  · exact ⟨stop, rfl, hrefused, hkept, hh₂⟩
  next hrange =>
  simp only [not_or, not_lt, not_le] at hrange
  split
  · next hlt =>
    split
    · exact ⟨stop, rfl, hrefused, hkept, hh₂⟩
    have hkeeps := Vmm.Keeps.mapPages (l := pages (pageUp stop) (pageUp addr - pageUp stop))
      (fun s va _ ↦ Vmm.Keeps.brkPage s va) m₂.vmm
    cases hmap : m₂.vmm.mapPages Vmm.brkPage (pages (pageUp stop) (pageUp addr - pageUp stop)) with
    | mk v rc =>
    rw [hmap] at hkeeps
    rw [hvmm] at hmap
    have hdvd : ∀ va ∈ pages (pageUp stop) (pageUp addr - pageUp stop), va % pageSize = 0 :=
      fun va hva ↦
      Nat.mod_eq_zero_of_dvd (pageSize_dvd_of_mem (pageUp_dvd stop) hva)
    have hnodup := (Vmm.pages_nodup (pageUp_dvd stop) (pageUp addr - pageUp stop)).of_map
    obtain ⟨pgs, M, hg, hpgs⟩ := Vmm.mapPages_grown (s := { m.vmm with user := some root }) hok
      (Vmm.brkPage_fresh root) h.framed rfl hdvd hnodup (fun hh ↦ hh.elim) hmap
    dsimp only
    split
    · next hrc =>
      rw [if_neg hrc] at hpgs
      obtain rfl := List.map_eq_nil_iff.1 hpgs
      exact ⟨stop, rfl, .failed hg, hkept, hh₂⟩
    · next hrc =>
      rw [not_not] at hrc
      rw [if_pos hrc] at hpgs
      exact ⟨addr, rfl, .grown hlt hrange.2 hg hpgs, hsync v addr hkeeps⟩
  · next hlt =>
    refine ⟨addr, rfl, ?_, hsync _ addr (Vmm.Keeps.unmapPages _ _)⟩
    dsimp only
    rw [show (taskSharedHeapSync _ base addr).vmm = _ from rfl, hvmm]
    exact .shrunk hrange.1 (not_lt.1 hlt)

structure BrkEffect (root base old addr : ℕ) (s : Vmm) (new : ℕ) (s' : Vmm) : Prop where
  base_le : base ≤ new
  new_lt : new < userHeapMax
  mapped : ∀ va, va < pageUp new →
    (va < pageUp old ∧ s'.vmmUserTranslateCr3 root va = s.vmmUserTranslateCr3 root va) ∨
    (pageUp old ≤ va ∧ s.vmmUserTranslateCr3 root va = none ∧
      (s'.vmmUserTranslateCr3 root va).isSome = true)
  others : ∀ va, pageUp new ≤ va →
    (pageUp old ≤ va ∧ s'.vmmUserTranslateCr3 root va = s.vmmUserTranslateCr3 root va) ∨
    (base ≤ va ∧ va < pageUp old ∧ s'.vmmUserTranslateCr3 root va = none)
  bytes : ∀ va, va < old → va < new → s'.userByte root va = s.userByte root va
  zeros : ∀ va, pageUp old ≤ va → va < pageUp new → s'.userByte root va = some 0
  refused : new ≠ addr → new = old ∧ Vmm.Off root (fun _ ↦ False) s s' ∧
    s'.pmm.freePages + s'.tables root = s.pmm.freePages + s.tables root

theorem BrkStep.effect {s s' : Vmm} {old new addr : ℕ} (h : BrkStep root base old addr s new s')
    (hu : s.user = some root) (hle : base ≤ old) (hlt : old < userHeapMax) :
    BrkEffect root base old addr s new s' := by
  have hsame : ∀ {s' : Vmm}, Vmm.Off root (fun _ ↦ False) s s' → s'.pmm.freePages + s'.tables root =
      s.pmm.freePages + s.tables root → BrkEffect root base old addr s old s' := by
    intro s' hoff hfree
    refine ⟨hle, hlt, fun va hva ↦ .inl ⟨hva, hoff.translate root va (fun _ ↦ id)⟩,
      fun va hva ↦ .inl ⟨hva, hoff.translate root va (fun _ ↦ id)⟩, fun va _ _ ↦
        hoff.userByte (fun _ ↦ id), fun va h₁ h₂ ↦ ?_,
      fun _ ↦ ⟨rfl, hoff, hfree⟩⟩
    omega
  have hup := pageUp_of_lt hlt
  cases h with
  | refused => exact hsame (.refl s) rfl
  | @failed M s' hg =>
    refine hsame (hg.off.mono fun k hk ↦ (List.not_mem_nil hk).elim) ?_
    have hcard := hg.holding.freePages
    have htab := hg.tables
    rw [List.map_nil, Multiset.coe_nil, zero_add] at hcard
    omega
  | @grown pgs M s' hgrow hmax hg hp =>
    have hmono : pageUp old ≤ pageUp new := pageUp_mono hgrow.le hmax
    have hmem : ∀ va, Pmm.pageOf va ∈ pgs.map Prod.fst ↔ pageUp old ≤ va ∧ va < pageUp new := by
      intro va
      rw [hp]
      exact Vmm.pageOf_mem_iff (pageUp_dvd old) (pageUp_dvd new) hmono
    have hout : ∀ va, ¬ (pageUp old ≤ va ∧ va < pageUp new) → root = root →
        ¬ Pmm.pageOf va ∈ pgs.map Prod.fst := by
      intro va hva _
      rwa [hmem]
    have hnew : ∀ va, pageUp old ≤ va → va < pageUp new → ∃ f, s.vmmUserTranslateCr3 root va =
        none ∧ s'.vmmUserTranslateCr3 root va = some (Vmm.userPte f Vmm.heapFlags) ∧
          s'.bytes f = fun _ ↦ 0 := by
      intro va h₁ h₂
      obtain ⟨q, hq, hpage⟩ := List.mem_map.1 ((hmem va).2 ⟨h₁, h₂⟩)
      obtain ⟨hnone, hsome, hb⟩ := hg.pages q hq
      rw [hpage, Vmm.translate_pageOf] at hnone hsome
      exact ⟨q.2, hnone, hsome, hb⟩
    refine ⟨by omega, hmax, fun va hva ↦ ?_, fun va hva ↦ ?_, fun va h₁ h₂ ↦ ?_, fun va h₁ h₂ ↦ ?_,
      fun hne ↦ absurd rfl hne⟩
    · by_cases hold : va < pageUp old
      · exact .inl ⟨hold, hg.off.translate root va (hout va (by omega))⟩
      · obtain ⟨f, hnone, hsome, -⟩ := hnew va (not_lt.1 hold) hva
        exact .inr ⟨not_lt.1 hold, hnone, by rw [hsome]; rfl⟩
    · exact .inl ⟨by omega, hg.off.translate root va (hout va (by omega))⟩
    · exact hg.off.userByte (hout va (by omega))
    · obtain ⟨f, -, hsome, hb⟩ := hnew va h₁ h₂
      simp only [Vmm.userByte, hsome, Option.map_some, Vmm.userPte, hb]
  | shrunk hbase hge =>
    have hmax : new < userHeapMax := by omega
    have hup' := pageUp_of_lt hmax
    have hmono : pageUp new ≤ pageUp old := pageUp_mono hge hlt
    have hal : ∀ va ∈ pages (pageUp new) (pageUp old - pageUp new), va % pageSize = 0 := fun va hva ↦
      Nat.mod_eq_zero_of_dvd (pageSize_dvd_of_mem (pageUp_dvd new) hva)
    obtain ⟨hoff, hgone⟩ := Vmm.unmapPages_off hu hal
    have hmem : ∀ va, Pmm.pageOf va ∈ pages (pageUp new) (pageUp old - pageUp new) ↔
        pageUp new ≤ va ∧ va < pageUp old :=
      fun va ↦ Vmm.pageOf_mem_iff (pageUp_dvd new) (pageUp_dvd old) hmono
    have hout : ∀ va, ¬ (pageUp new ≤ va ∧ va < pageUp old) → root = root →
        ¬ Pmm.pageOf va ∈ pages (pageUp new) (pageUp old - pageUp new) := by
      intro va hva _
      rwa [hmem]
    refine ⟨hbase, hmax, fun va hva ↦ .inl ⟨by omega, hoff.translate root va (hout va (by omega))⟩,
      fun va hva ↦ ?_,
      fun va h₁ h₂ ↦ hoff.userByte (hout va (by omega)), fun va h₁ h₂ ↦ by
        omega, fun hne ↦ absurd rfl hne⟩
    by_cases hold : va < pageUp old
    · have hnone := hgone _ ((hmem va).2 ⟨hva, hold⟩)
      rw [Vmm.translate_pageOf] at hnone
      exact .inr ⟨by omega, hold, hnone⟩
    · exact .inl ⟨not_lt.1 hold, hoff.translate root va (hout va (by omega))⟩

theorem BrkEffect.setUser {s s' : Vmm} {old new addr : ℕ} {u : Option ℕ}
    (h : BrkEffect root base old addr { s with user := u } new s') :
    BrkEffect root base old addr s new s' := by
  refine ⟨h.base_le, h.new_lt, h.mapped, h.others, h.bytes, h.zeros, fun hne ↦ ?_⟩
  obtain ⟨hnew, hoff, hfree⟩ := h.refused hne
  exact ⟨hnew, ⟨hoff.translate, hoff.bytes⟩, hfree⟩

theorem HeapAt.brk {c : BrkCall} (h : HeapAt root base m₀ m stop) (hpos : base ≠ 0)
    (hc : m₀.Sharer root c.task) :
    ∃ new : ℕ, (m.brk c).2 = new ∧ BrkEffect root base stop c.addr m.vmm new (m.brk c).1.vmm ∧
      HeapAt root base m₀ (m.brk c).1 new := by
  obtain ⟨hused, hroot⟩ := (h.sharer c.task).2 hc
  have hrun := h.orderly.turn hused
  obtain ⟨new, hret, hstep, hsharer, hheap⟩ :=
    hrun.sysBrk_step hroot h.table h.ok h.heap hpos h.base_le h.stop_lt c.addr
  have heffect : BrkEffect root base stop c.addr m.vmm new (m.brk c).1.vmm :=
    (hstep.effect rfl h.base_le h.stop_lt).setUser
  have hmoved := moved_sysBrk { m with current := c.task } c.addr
  refine ⟨new, hret, heffect, (hrun.sysBrk c.addr).toOrderly, hmoved.moves.ok h.ok,
    (hmoved.moves.table root).trans h.table,
    fun i ↦ (hsharer i).trans (h.sharer i), hheap, heffect.base_le, heffect.new_lt, fun va hb hva ↦
      ?_, fun va hva ↦ ?_⟩
  · obtain ⟨hold, hsame⟩ | ⟨hold, hnone, hsome⟩ := heffect.mapped va hva
    · obtain ⟨h₀, hmapped⟩ := h.mapped va hb hold
      exact ⟨h₀, hsame ▸ hmapped⟩
    · exact ⟨(h.others va (by omega)).symm.trans hnone, hsome⟩
  · have hbase := (pageUp_of_lt h.stop_lt).1.trans' h.base_le
    by_cases hnew : va < pageUp new
    · obtain ⟨-, hsame⟩ | ⟨hold, -, -⟩ := heffect.mapped va hnew
      · exact hsame.trans (h.others va (by omega))
      · omega
    · obtain ⟨hold, hsame⟩ | ⟨hb, hold, hnone⟩ := heffect.others va (not_lt.1 hnew)
      · exact hsame.trans (h.others va (by omega))
      · exact hnone.trans (h.mapped va hb hold).1.symm

theorem HeapAt.brks {l : List BrkCall} (h : HeapAt root base m₀ m stop) (hpos : base ≠ 0)
    (hl : ∀ c ∈ l, m₀.Sharer root c.task) : ∃ new, HeapAt root base m₀ (m.brks l) new := by
  induction l generalizing m stop with
  | nil => exact ⟨stop, h⟩
  | cons c l ih =>
    obtain ⟨new, -, -, hnew⟩ := h.brk hpos (hl c (.head _))
    exact ih hnew (fun c' hc' ↦ hl c' (.tail _ hc'))

def clearFrames (n : ℕ) : Pmm :=
  { freeMemory with regions := [⟨4096, 4096 + n, 4096⟩], freePages := n }

theorem clearFrames_frames (n : ℕ) : (clearFrames n).frames = Finset.Ico 4096 (4096 + n) := by
  ext f
  rw [Pmm.frames, Pmm.mem_framesOf, Finset.mem_Ico]
  simp [clearFrames]

theorem clearFrames_ok {n : ℕ} (hn : n ≤ 4096) : (clearFrames n).Ok := by
  have hfree : (clearFrames n).freeFrames = Finset.Ico 4096 (4096 + n) := by
    ext f
    rw [Pmm.freeFrames, Pmm.mem_clearIn, clearFrames_frames]
    exact and_iff_left rfl
  refine ⟨⟨[], n, ⟨?hhdm, ?pages, ?region, ?reserved, ?counts⟩, ?free, ?total⟩, ?marks, ?word⟩
  case reserved =>
    intro f _ hres
    cases hres
  case pages =>
    intro hready
    cases hready
  case marks =>
    intro f hf
    cases hf
  case hhdm => simp [clearFrames, freeMemory]
  case region =>
    intro r hr
    obtain rfl := List.mem_singleton.1 hr
    refine ⟨?_, ?_, ?_⟩
    all_goals
      simp only [pmmMinPhys, pmmTrackLimit, pageSize]
      omega
  case counts =>
    intro f _ _
    exact iff_of_false (by simp [clearFrames, freeMemory]) (by simp [clearFrames, freeMemory])
  case free =>
    rw [show (PmmState.mk (clearFrames n) [] n).freeFrames = (clearFrames n).freeFrames from rfl,
      hfree, Nat.card_Ico]
    exact (Nat.add_sub_cancel_left _ _).symm
  case total =>
    rw [show (PmmState.mk (clearFrames n) [] n).frames = (clearFrames n).frames from rfl,
      clearFrames_frames, Nat.card_Ico]
    exact (Nat.add_sub_cancel_left _ _).symm
  case word =>
    intro f
    simp [clearFrames, freeMemory]

def farPage : ExecFile where
  image := ⟨4096, true, false, 0x200000, 64, [⟨1, 5, 0, 0x200000, 0, 4096⟩],
    fun _ len ↦ some (List.replicate len 0)⟩
  bootfs := fun _ ↦ none

def startFar (n : ℕ) : Mm :=
  (boot (clearFrames n) (fun _ _ ↦ 0) 0 0).run [.launch (some farPage) ⟨[47, 97], [], []⟩]

/-- After any calls to `sys_brk` from a new image on, the heap has the pages up to the break, and
the break is what the call has returned. A call that is refused leaves no more than tables. -/
theorem brk_keeps_heap (pmm : Pmm) (hok : pmm.Ok) (bytes : ℕ → ℕ → UInt8) (fbPhys fbSize : ℕ)
    (hfb : FbReserved pmm fbPhys fbSize)
    (l₀ : List MmCall) (root imageEnd : ℕ)
    (hload : ((boot pmm bytes fbPhys fbSize).run l₀).Loaded root imageEnd)
    (l : List BrkCall) (c : BrkCall)
    (hl : ∀ c' ∈ c :: l, ((boot pmm bytes fbPhys fbSize).run l₀).Sharer root c'.task) :
    let m₀ := (boot pmm bytes fbPhys fbSize).run l₀
    let base := imageHeapBase imageEnd
    let m := m₀.brks l
    let m' := (m.brk c).1
    ∃ old new : ℕ, (∀ i, m.Sharer root i → (m.tasks i).heapEnd = old) ∧
      (m.brk c).2 = new ∧
        (∀ i, m'.Sharer root i → (m'.tasks i).heapBase = base ∧ (m'.tasks i).heapEnd = new) ∧
      (∀ va, base ≤ va ∧ va < pageUp new → m₀.vmm.vmmUserTranslateCr3 root va = none ∧
        (m'.vmm.vmmUserTranslateCr3 root va).isSome = true) ∧
      (∀ va, ¬ (base ≤ va ∧ va < pageUp new) →
        m'.vmm.vmmUserTranslateCr3 root va = m₀.vmm.vmmUserTranslateCr3 root va) ∧
      (∀ va, va < old → va < new → m'.vmm.userByte root va = m.vmm.userByte root va) ∧
      (∀ va, pageUp old ≤ va → va < pageUp new → m'.vmm.userByte root va = some 0) ∧
      (new ≠ c.addr → new = old ∧ Vmm.Off root (fun _ ↦ False) m.vmm m'.vmm ∧
        m'.vmm.pmm.freePages + m'.vmm.tables root = m.vmm.pmm.freePages + m.vmm.tables root) := by
  intro m₀ base m m'
  have h₀ : m₀.Orderly False := run_orderly hfb bytes (fun hh ↦ hh.elim)
  have hbase := userHeapBase_le_imageHeapBase imageEnd
  have hpos : base ≠ 0 := fun hz ↦ by
    have hheap : userHeapBase ≤ 0 := hz ▸ hbase
    exact absurd hheap (by decide)
  have hstart : HeapAt root base m₀ m₀ base := by
    obtain ⟨hused, hroot⟩ := hl c (.head _)
    have hsome := hroot ▸ (h₀.rooted c.task hused).2
    have hup : pageUp base = base :=
      pageUp_of_dvd (imageHeapBase_dvd imageEnd) (imageHeapBase_lt imageEnd)
    refine ⟨h₀, run_ok hok hfb bytes l₀, run_table hfb bytes l₀ hsome, fun _ ↦ .rfl, hload, le_rfl,
      imageHeapBase_lt _,
      fun va h₁ h₂ ↦ ?_, fun _ _ ↦ rfl⟩
    rw [hup] at h₂
    omega
  obtain ⟨old, hheap⟩ := hstart.brks hpos (fun c' hc' ↦ hl c' (.tail _ hc'))
  obtain ⟨new, hret, heffect, hafter⟩ := hheap.brk hpos (hl c (.head _))
  exact ⟨old, new, fun i hi ↦ (hheap.heap i hi).2, hret, hafter.heap,
    fun va hva ↦ hafter.mapped va hva.1 hva.2, hafter.others,
    heffect.bytes, heffect.zeros, heffect.refused⟩

/-- The heap grows to two pages and back to one. -/
theorem brk_keeps_heap_far :
    ((((startFar 128).brks [⟨0, userHeapBase + 6144⟩]).brk
      ⟨0, userHeapBase + 2048⟩).1.vmm.vmmUserTranslateCr3 4096
        userHeapBase).isSome = true ∧
      (((startFar 128).brks [⟨0, userHeapBase + 6144⟩]).brk
        ⟨0, userHeapBase + 2048⟩).1.vmm.vmmUserTranslateCr3 4096
        (userHeapBase + 4096) =
          (startFar 128).vmm.vmmUserTranslateCr3 4096 (userHeapBase + 4096) := by
  obtain ⟨hload, hret, hsharer⟩ : (startFar 128).Loaded 4096 0 ∧
      (((startFar 128).brks [⟨0, userHeapBase + 6144⟩]).brk ⟨0, userHeapBase + 2048⟩).2 =
        ((userHeapBase + 2048 : ℕ) : ℤ) ∧
      (startFar 128).Sharer 4096 0 := by
    unfold Loaded Sharer
    decide +kernel
  have hl : ∀ c' ∈ [BrkCall.mk 0 (userHeapBase + 2048), ⟨0, userHeapBase + 6144⟩],
      (startFar 128).Sharer 4096 c'.task := by
    intro c' hc'
    simp only [List.mem_cons, List.not_mem_nil, or_false] at hc'
    obtain rfl | rfl := hc' <;> exact hsharer
  unfold startFar at hload hret hl ⊢
  obtain ⟨old, new, -, hnew, -, hmapped, hothers, -⟩ :=
    brk_keeps_heap (clearFrames 128) (clearFrames_ok (by decide))
    (fun _ _ ↦ 0) 0 0 (fbReserved_none _) [.launch (some farPage) ⟨[47, 97], [], []⟩] 4096 0 hload
    [⟨0, userHeapBase + 6144⟩] ⟨0, userHeapBase + 2048⟩ hl
  obtain rfl : userHeapBase + 2048 = new := Nat.cast_injective (hret.symm.trans hnew)
  exact ⟨(hmapped userHeapBase ⟨by decide, by decide⟩).2, hothers (userHeapBase + 4096) (by decide)⟩

/-- With two frames left, a heap of two pages is refused, and one of the frames stays with the
address space as a table. -/
theorem brk_refused_keeps_table :
    (startFar 74).Loaded 4096 0 ∧ (startFar 74).Sharer 4096 0 ∧
      ((startFar 74).brk ⟨0, userHeapBase + 8192⟩).2 = userHeapBase ∧
      (startFar 74).vmm.pmm.freePages = 2 ∧
        ((startFar 74).brk ⟨0, userHeapBase + 8192⟩).1.vmm.pmm.freePages = 1 := by
  unfold Loaded Sharer
  decide +kernel

end Mm

end YabroOS.Memory
