import YabroOS.Memory.CloneAtomic
import YabroOS.Memory.OrderlyRuns

namespace YabroOS.Memory.Vmm

open Lib Function

variable {s s' : Vmm} {root addr virt : ℕ} {e e' : Pte}

def Ordinary (E : ℕ → Prop) (_ _ : ℕ) (e : Pte) : Prop := e.cow = true → ¬ E e.frame

/-- Address spaces that share frames: the allocator's accounts are right, every entry has a
reference to its frame, and only counted frames are marked for copying. -/
structure Sharing (s : Vmm) : Prop where
  ok : s.pmm.Ok
  framed : s.Framed
  ordinary : Pages (Ordinary s.pmm.pool.exempt) s

/-- Address spaces before any fork. -/
structure Unshared (s : Vmm) : Prop where
  ok : s.pmm.Ok
  framed : s.Framed
  unmarked : Pages (fun _ _ e ↦ e.cow = false) s

theorem Unshared.sharing (h : Unshared s) : Sharing s where
  ok := h.ok
  framed := h.framed
  ordinary root t ht := (h.unmarked root t ht).imp fun _ e he hc ↦ by
    rw [he] at hc
    cases hc

section Step

variable {E : ℕ → Prop}

theorem ordinary_promotable : Promotable (Ordinary E) := fun _ _ _ _ _ _ _ hc ↦ by cases hc

theorem ordinary_userPte (r k f : ℕ) (flags : PteFlags) : Ordinary E r k (userPte f flags) :=
  fun hc ↦ by cases hc

theorem ordinary_markable : Tab.MarkableOff E (Ordinary E 0) := fun _ _ _ _ hex _ ↦ hex

theorem ordinary_step (h : Pages (Ordinary s.pmm.pool.exempt) s) (op : Op) :
    Pages (Ordinary s.pmm.pool.exempt) (s.step op) := by
  cases op with
  | activate root => exact h.activate root
  | clone root => exact h.clone_off ordinary_markable root (fun _ hg ↦ hg)
  | cowFault root addr => exact h.cowFault ordinary_promotable root addr
  | map virt content flags => exact h.mapFresh (fun _ _ ↦ ordinary_userPte _ _ _ _)
  | unmap virt => exact h.unmapFree virt
  | mprotect virt prot =>
    simp only [step, mprotectPage]
    split_ifs
    · exact h
    · exact h.unmapFree virt
    · exact h.userProtect ordinary_promotable (fun _ _ _ _ _ ↦ ordinary_userPte _ _ _ _)
  | copyTo root dst data => exact h.userCopyToCr3 ordinary_promotable root dst data
  | store root va b => exact h.userStore ordinary_promotable root va b
  | destroy root => exact h.destroy root

theorem framed_step (h : s.Framed) (op : Op) : (s.step op).Framed := by
  cases op with
  | activate root =>
    simp only [step, vmmUserActivate]
    split_ifs
    · exact h
    · exact h
  | clone root => exact (clone_spec h root).1.framed h
  | cowFault root addr => exact (Keeps.cowFault s root addr).framed h
  | map virt content flags => exact (Keeps.mapFresh s virt content flags).framed h
  | unmap virt => exact (Keeps.unmapFree s virt).framed h
  | mprotect virt prot =>
    simp only [step, mprotectPage]
    split_ifs
    · exact h
    · exact (Keeps.unmapFree s virt).framed h
    · exact (Keeps.userProtect s virt _).framed h
  | copyTo root dst data => exact (Keeps.userCopyToCr3 s root dst data).framed h
  | store root va b => exact (Keeps.userStore s root va b).framed h
  | destroy root =>
    refine framed_of_kept ?_ ?_ (kept_destroy h rfl)
    all_goals
      simp only [step, vmmUserSpaceDestroy]
      split
      · rfl
      · split
        · rfl
        · rfl

end Step

theorem Sharing.step (h : Sharing s) (op : Op) : Sharing (s.step op) where
  ok := (moves_step s op).ok h.ok
  framed := framed_step h.framed op
  ordinary := by
    rw [(moves_step s op).exempt]
    exact ordinary_step h.ordinary op

theorem Sharing.run (h : Sharing s) (l : List Op) : Sharing (l.foldl Vmm.step s) := by
  induction l generalizing s with
  | nil => exact h
  | cons op l ih => exact ih (h.step op)

structure Counted (p : Pmm) (f : ℕ) : Prop where
  mem : f ∈ p.frames
  reserved : p.reservedState f = false
  state : p.pageState f = true
  refs : 1 ≤ p.pageRefs f
  refcount : p.pmmPageRefcount (f * pageSize) = p.pageRefs f

theorem Sharing.counted (h : Sharing s) (he : s.vmmUserTranslateCr3 root virt = some e)
    (hcow : e.cow = true) : Counted s.pmm e.frame := by
  have hex : ¬ s.pmm.pool.exempt e.frame := h.ordinary.translate he hcow
  obtain ⟨r, hr, -⟩ := translate_uses he
  have hmem : e.frame ∈ s.uses.map Prod.fst := by
    rw [hr, Multiset.map_cons]
    exact Multiset.mem_cons_self _ _
  obtain ⟨⟨hal, hlt⟩, hle⟩ := h.framed.1 e.frame hmem hex
  have hpos : 0 < (s.uses.map Prod.fst).count e.frame := Multiset.count_pos.2 hmem
  have hstate : s.pmm.pageState e.frame = true := by
    simpa [Pmm.pageIsAllocated, Pmm.tracked, hlt, Pmm.mul_div_pageSize] using hal
  have hres : s.pmm.reservedState e.frame = false := by
    have hres : ¬ s.pmm.isReserved (e.frame * pageSize) = true := fun hc ↦ hex (.inl hc)
    simpa [Pmm.isReserved, Pmm.pageOf_mul, Pmm.tracked, hlt, Pmm.mul_div_pageSize] using hres
  have hin := h.ok.outside _ hstate hres
  obtain ⟨l, t, hinv⟩ := h.ok.inv
  have hlow := (hinv.toSound.bounds (s := ⟨s.pmm, l, t⟩) hin).1
  have hready : ¬ s.pmm.ready = false := fun hc ↦ by
    have hnone : s.pmm.regions = [] := hinv.idle hc
    simp [Pmm.frames, hnone, Pmm.framesOf] at hin
  have hrefs : (s.uses.map Prod.fst).count e.frame ≤ s.pmm.pageRefs e.frame := hle
  refine ⟨hin, hres, hstate, by omega, ?_⟩
  have hzero : ¬ e.frame * pageSize = 0 := by
    rw [pmmMinPhys] at hlow
    omega
  simp only [Pmm.pmmPageRefcount, Pmm.pageOf_mul, Pmm.mul_div_pageSize]
  rw [if_neg]
  rintro (hc | hc | hc)
  · exact hready hc
  · exact hzero hc
  · omega

theorem mapCount_eq_one (h : s.Framed) (he : s.vmmUserTranslateCr3 root virt = some e)
    (hex : ¬ s.pmm.pool.exempt e.frame) (hone : s.pmm.pageRefs e.frame = 1) :
    s.mapCount e.frame = 1 := by
  obtain ⟨r, hr, -⟩ := translate_uses he
  have hmem : e.frame ∈ s.uses.map Prod.fst := by
    rw [hr, Multiset.map_cons]
    exact Multiset.mem_cons_self _ _
  have hle : (s.uses.map Prod.fst).count e.frame ≤ s.pmm.pageRefs e.frame := (h.1 e.frame hmem hex).2
  have hcount : s.mapCount e.frame ≤ (s.uses.map Prod.fst).count e.frame := by
    rw [mapCount_eq, Multiset.countP_eq_card_filter, Multiset.count_map]
    exact Multiset.card_le_card (Multiset.monotone_filter_right _ fun p hp ↦ hp.1.symm)
  have hpos : 1 ≤ s.mapCount e.frame := by
    rw [mapCount_eq, hr, Multiset.countP_cons_of_pos _ ⟨rfl, claim_ne_pinned e⟩]
    omega
  omega

/-- The page at `virt` has become writable, in the frame of `e'` that it has for itself, and nothing
else has changed but the count of the frame it has left. -/
structure CowDone (s s' : Vmm) (root virt : ℕ) (e e' : Pte) : Prop where
  page : s'.vmmUserTranslateCr3 root virt = some e'
  flags : e'.w = true ∧ e'.cow = false ∧ e'.u = e.u ∧ e'.nx = e.nx ∧ e'.pwt = e.pwt ∧
    e'.pcd = e.pcd ∧ e'.low = e.low ∧ e'.ps = e.ps
  bytes : s'.bytes e'.frame = s.bytes e.frame
  alone : s'.mapCount e'.frame = 1
  frame : s.pmm.pageRefs e.frame = 1 ∧ e'.frame = e.frame ∧ s'.pmm = s.pmm ∨
    s.pmm.pageRefs e.frame ≠ 1 ∧ e'.frame ≠ e.frame ∧ s.pmm.pageState e'.frame = false ∧
      s'.pmm.pageState = update s.pmm.pageState e'.frame true ∧
      s'.pmm.pageRefs = update (update s.pmm.pageRefs e'.frame 1) e.frame
        (s.pmm.pageRefs e.frame - 1)
  pages : ∀ r va, r ≠ root ∨ Pmm.pageOf va ≠ virt →
    s'.vmmUserTranslateCr3 r va = s.vmmUserTranslateCr3 r va
  others : ∀ f, f ≠ e'.frame → s'.bytes f = s.bytes f

theorem pages_setLeaf {o : Option Pte} (he : s.vmmUserTranslateCr3 root (Pmm.pageOf addr) = some e)
    (hsp : s'.spaces = setLeafIn s.spaces root (Pmm.pageOf addr) o) (hh : s'.pmm.hhdm = s.pmm.hhdm)
    (r va : ℕ) (hne : r ≠ root ∨ Pmm.pageOf va ≠ Pmm.pageOf addr) :
    s'.vmmUserTranslateCr3 r va = s.vmmUserTranslateCr3 r va := by
  by_cases hr : r = root
  · subst hr
    refine translate_setLeaf_of_ne he hsp hh ?_
    rw [show Pmm.pageOf (Pmm.pageOf addr) = Pmm.pageOf addr from Pmm.pageOf_mul _]
    exact hne.resolve_left (fun hc ↦ hc rfl)
  · have hget : s'.spaces.get? r = s.spaces.get? r := by
      rw [← Slots.get?_erase_of_ne _ hr, hsp, setLeafIn_erase, Slots.get?_erase_of_ne _ hr]
    simp only [vmmUserTranslateCr3, hget, walk_congr hh]

theorem Sharing.cowFault_ok (h : Sharing s)
    (he : s.vmmUserTranslateCr3 root (Pmm.pageOf addr) = some e) (hu : e.u = true)
    (hcow : e.cow = true) (hw : e.w = false) (hrc : s.vmmUserCowFault root addr = (s', 0)) :
    ∃ e', CowDone s s' root (Pmm.pageOf addr) e e' := by
  have hcount := h.counted he hcow
  have hex : ¬ s.pmm.pool.exempt e.frame := h.ordinary.translate he hcow
  have hframed : s'.Framed := by
    have hk := (Keeps.cowFault s root addr).framed h.framed
    rwa [hrc] at hk
  have hexempt : s'.pmm.pool.exempt = s.pmm.pool.exempt := by
    have hm := (moves_cowFault s root addr).exempt
    rwa [hrc] at hm
  have hflags : ¬ (e.u = false ∨ e.cow = false ∨ e.w = true) := by simp [hu, hcow, hw]
  unfold vmmUserCowFault at hrc
  simp only [he, if_neg hflags, hcount.refcount] at hrc
  by_cases hone : s.pmm.pageRefs e.frame = 1
  · rw [if_pos hone] at hrc
    cases hrc
    have hpage :
        (s.setLeaf root (Pmm.pageOf addr)
          (some { e with w := true, cow := false })).vmmUserTranslateCr3 root
        (Pmm.pageOf addr) = some { e with w := true, cow := false } := translate_setLeaf he rfl rfl
    refine ⟨{ e with w := true, cow := false }, hpage, ⟨rfl, rfl, rfl, rfl, rfl, rfl, rfl, rfl⟩,
      rfl, ?_, .inl ⟨hone, rfl, rfl⟩,
      pages_setLeaf he rfl rfl, fun _ _ ↦ rfl⟩
    exact mapCount_eq_one hframed hpage hex hone
  rw [if_neg hone] at hrc
  split at hrc
  · cases hrc
  next pmm np ha =>
  split_ifs at hrc with hvirt
  swap
  · cases hrc
  have hhold := h.ok.holding.alloc_some ha
  obtain ⟨hin, hres, hclear, hzero⟩ := hhold.free np (Multiset.mem_cons_self _ _)
  have hne : e.frame ≠ np := by
    rintro rfl
    rw [hcount.state] at hclear
    cases hclear
  obtain ⟨-, hhdm, -, -, hstate, hrefs⟩ := Pmm.pmmAllocPage_some ha
  have hold : pmm.pageRefs e.frame = s.pmm.pageRefs e.frame := by rw [hrefs, update_of_ne hne]
  have hfree := (hhold.ok h.ok).free_shared (f := e.frame) (by rw [hhold.frames]; exact hcount.mem)
    (by rw [hhold.reserved]; exact hcount.reserved)
      (by rw [hstate, update_of_ne hne]; exact hcount.state) (by
      have hpos := hcount.refs
      omega)
  rw [hfree, hold, hrefs] at hrc
  have hs' := (Prod.mk.inj hrc).1
  set e' : Pte := { e with frame := np, u := true, w := true, cow := false, high := 0 } with he'
  have hspaces : s'.spaces = setLeafIn s.spaces root (Pmm.pageOf addr) (some e') := by
    rw [← hs']
    rfl
  have hhdm' : s'.pmm.hhdm = s.pmm.hhdm := by
    rw [← hs']
    exact hhdm
  have hbytes : s'.bytes = update s.bytes np (s.bytes e.frame) := by
    rw [← hs']
    rfl
  have hrefs' : s'.pmm.pageRefs = update (update s.pmm.pageRefs np 1) e.frame
      (s.pmm.pageRefs e.frame - 1) := by
    rw [← hs']
  have hstate' : s'.pmm.pageState = update s.pmm.pageState np true := by
    rw [← hs']
    exact hstate
  have hpage : s'.vmmUserTranslateCr3 root (Pmm.pageOf addr) = some e' :=
    translate_setLeaf he hspaces hhdm'
  refine ⟨e', hpage, ⟨rfl, rfl, hu.symm, rfl, rfl, rfl, rfl, rfl⟩, ?_, ?_,
    .inr ⟨hone, hne.symm, hclear, hstate', hrefs'⟩, pages_setLeaf he hspaces hhdm', fun f hf ↦ ?_⟩
  · rw [hbytes]
    exact update_self _ _ _
  · refine mapCount_eq_one hframed hpage ?_ ?_
    · rw [hexempt]
      exact (Pmm.pool_alloc ha).counted
    · rw [hrefs', update_of_ne hne.symm]
      exact update_self _ _ _
  · rw [hbytes]
    exact update_of_ne hf _ _

theorem cowFault_error {rc : Int} (h : s.pmm.Ok) (hrc : s.vmmUserCowFault root addr = (s', rc))
    (hne : rc ≠ 0) : s'.spaces = s.spaces ∧ s'.bytes = s.bytes ∧ s.pmm.Agrees s'.pmm := by
  unfold vmmUserCowFault at hrc
  dsimp only at hrc
  split at hrc
  · cases hrc
    exact ⟨rfl, rfl, h.holding.agrees⟩
  next pte hpte =>
  split at hrc
  · cases hrc
    exact ⟨rfl, rfl, h.holding.agrees⟩
  split at hrc
  · cases hrc
    exact absurd rfl hne
  split at hrc
  · next pmm ha =>
    cases hrc
    exact ⟨rfl, rfl, (h.holding.alloc_none ha).agrees⟩
  next pmm np ha =>
  split at hrc
  · cases hrc
    exact absurd rfl hne
  · cases hrc
    exact ⟨rfl, rfl, (h.holding.alloc_some ha).free_page.agrees⟩

/-- In every run of forks, faults and memory calls from unshared spaces, a handled fault makes the
page private and leaves everything else, and a fault that is not handled changes nothing. -/
theorem cowFault_private {rc : Int} (h : Unshared s) (l : List Op) (root addr : ℕ)
    (hrc : (l.foldl step s).vmmUserCowFault root addr = (s', rc)) :
    (∀ e, (l.foldl step s).vmmUserTranslateCr3 root (Pmm.pageOf addr) = some e → e.u = true →
      e.cow = true →
      e.w = false → rc = 0 → ∃ e', CowDone (l.foldl step s) s' root (Pmm.pageOf addr) e e') ∧
    (rc ≠ 0 → s'.spaces = (l.foldl step s).spaces ∧ s'.bytes = (l.foldl step s).bytes ∧
      (l.foldl step s).pmm.Agrees s'.pmm) := by
  have hrun := h.sharing.run l
  refine ⟨?_, fun hne ↦ cowFault_error hrun.ok hrc hne⟩
  rintro e he hu hcow hw rfl
  exact hrun.cowFault_ok he hu hcow hw hrc

theorem forkState_framed : (forkState 1 4101 0xFD000).Framed := by
  have huses : (forkState 1 4101 0xFD000).uses.map Prod.fst =
      {4097, 4098, 4099, 4100, 4101, 0xFD000} := by decide +kernel
  have hall : ∀ f ∈ ({4097, 4098, 4099, 4100, 4101, 0xFD000} : Multiset ℕ),
      ((sixteenFrames 1).pageIsAllocated (f * pageSize) = true ∧ f * pageSize < pmmTrackLimit) ∧
        ({4097, 4098, 4099, 4100, 4101, 0xFD000} : Multiset ℕ).count f ≤
          (sixteenFrames 1).pageRefs f ∨
      (sixteenFrames 1).isReserved (f * pageSize) = true := by decide +kernel
  refine ⟨fun f hf hex ↦ ?_, fun f hf ↦ ?_⟩
  · rw [huses] at hf ⊢
    exact (hall f hf).resolve_right fun hres ↦ hex (.inl hres)
  · obtain ⟨-, hlt⟩ := hf
    simp [forkState] at hlt

theorem forkState_unmarked : Pages (fun _ _ e ↦ e.cow = false) (forkState 1 4101 0xFD000) := by
  intro root t ht
  by_cases hroot : root = 4097
  · subst hroot
    rw [forkState, Slots.get?_set_self] at ht
    cases ht
    exact leaves_twoPages (fun _ ↦ rfl) (fun _ ↦ rfl)
  · rw [forkState, Slots.get?_set_of_ne _ hroot] at ht
    cases ht

theorem forkState_unshared : Unshared (forkState 1 4101 0xFD000) where
  ok := sixteenFrames_ok (by decide) (by decide)
  framed := forkState_framed
  unmarked := forkState_unmarked

/-- After a fork of two pages, the first store to the shared one copies it to a frame of its own,
and the store of the other process then finds the old frame for itself. -/
theorem cowFault_private_forked :
    let s := [Op.clone 4097].foldl step (forkState 1 4101 0xFD000)
    let s' := [Op.clone 4097, .cowFault 4102 0x1000].foldl step (forkState 1 4101 0xFD000)
    (∃ e', CowDone s (s.vmmUserCowFault 4102 0x1000).1 4102 0x1000
      { writablePte 4101 with w := false, cow := true } e') ∧
      (∃ e', CowDone s' (s'.vmmUserCowFault 4097 0x1000).1 4097 0x1000
        { writablePte 4101 with w := false, cow := true } e') ∧
      s.pmm.pageRefs 4101 = 2 ∧ s'.pmm.pageRefs 4101 = 1 := by
  have hfirst := (cowFault_private forkState_unshared [.clone 4097] 4102 0x1000 rfl).1
    { writablePte 4101 with w := false, cow := true } (by decide +kernel) rfl rfl rfl
      (by decide +kernel)
  have hsecond :=
    (cowFault_private forkState_unshared [.clone 4097, .cowFault 4102 0x1000] 4097 0x1000 rfl).1
    { writablePte 4101 with w := false, cow := true } (by decide +kernel) rfl rfl rfl
      (by decide +kernel)
  exact ⟨hfirst, hsecond, by decide +kernel, by decide +kernel⟩

end YabroOS.Memory.Vmm
