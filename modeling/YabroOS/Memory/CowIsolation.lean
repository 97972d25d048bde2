import YabroOS.Memory.Cow

namespace YabroOS.Memory.Vmm

open Lib Function

variable {s : Vmm}

/-- Address spaces whose private frames are in use once: each page and each table has an
allocated frame of its own. -/
structure Private (s : Vmm) : Prop where
  live : ∀ p ∈ s.uses, ¬ s.pmm.pool.exempt p.1 → s.pmm.pool.live p.1 ∧ 1 ≤ s.pmm.pool.refs p.1
  once : ∀ p ∈ s.uses, ¬ s.pmm.pool.exempt p.1 → (s.uses.map Prod.fst).count p.1 = 1
  tables : ∀ f, (f, .pinned) ∈ s.uses → ¬ s.pmm.pool.exempt f

theorem Private.inv (h : Private s) : Inv s where
  backed f hf he := by
    obtain ⟨p, hp, rfl⟩ := Multiset.mem_map.1 hf
    rw [h.once p hp he]
    exact h.live p hp he
  alone f k hf _ he := h.once (f, k) hf he
  pinned := h.tables

/-- `sys_mprotect` adds `PTE_W` to a page that is neither writable nor marked copy-on-write
while another user entry maps the same private frame. -/
def UpgradesShared (s : Vmm) : Op → Prop
  | .mprotect virt prot => virt % pageSize = 0 ∧ userProtWx prot = false ∧ prot.testBit 1 = true ∧
      ∃ e, s.vmmUserTranslate virt = some e ∧ e.w = false ∧ e.cow = false ∧
        ¬ s.pmm.pool.exempt e.frame ∧ 1 < s.mapCount e.frame
  | _ => False

theorem inv_step (h : Inv s) (op : Op) (hop : ¬ UpgradesShared s op) : Inv (s.step op) := by
  cases op with
  | activate root =>
    simp only [step, vmmUserActivate]
    split_ifs
    · exact h
    · exact h
  | clone root => exact kept_clone h.kept rfl
  | cowFault root addr => exact (cowFault_spec h rfl).1
  | map virt content flags => exact kept_mapFresh h.kept rfl
  | unmap virt => exact kept_unmapFree h.kept
  | mprotect virt prot =>
    simp only [step, mprotectPage]
    split_ifs with hwx
    · exact h
    · exact kept_unmapFree h.kept
    · refine inv_protect h (fun hal e he hw hew hec hex ↦ ?_)
      by_contra hlt
      exact hop ⟨hal, by simpa using hwx, hw, e, he, hew, hec, hex, not_le.1 hlt⟩
  | copyTo root dst data => exact (userCopyToCr3_spec h rfl).1
  | store root va b => exact (userStore_spec h).1
  | destroy root => exact kept_destroy h.kept rfl

/-- No private frame that two address spaces map is writable in either. -/
def Isolated (s : Vmm) : Prop :=
  ∀ r₁ r₂ v₁ v₂ e₁ e₂ w₁ w₂ u₁ u₂, r₁ ≠ r₂ → s.cpuAccess r₁ v₁ = some (e₁, w₁, u₁) →
    s.cpuAccess r₂ v₂ = some (e₂, w₂, u₂) → e₁.frame = e₂.frame → ¬ s.pmm.pool.exempt e₁.frame →
    e₁.w = false ∧ e₂.w = false

def StoresThrough (root : ℕ) : Op → Prop
  | .copyTo r _ _ => r = root
  | .store r _ _ => r = root
  | _ => False

/-- A store or kernel copy through one address space leaves what every other one reads. -/
def StoresPrivate (s : Vmm) : Prop :=
  ∀ op root, StoresThrough root op → ∀ r va, r ≠ root →
    (∀ e w u, s.cpuAccess r va = some (e, w, u) → ¬ s.pmm.pool.exempt e.frame) →
    (s.step op).userLoad r va = s.userLoad r va

theorem claim_mem_other {r₁ r₂ v₂ : ℕ} {e₂ : Pte} {w₂ u₂ : Bool} (hne : r₂ ≠ r₁)
    (h₂ : s.cpuAccess r₂ v₂ = some (e₂, w₂, u₂)) : Tab.claim e₂ ∈ s.otherUses r₁ := by
  simp only [cpuAccess] at h₂
  split_ifs at h₂
  obtain ⟨t, ht, hwalk⟩ := Option.bind_eq_some_iff.1 h₂
  obtain ⟨⟨r, hr⟩, -⟩ := Tab.cpuWalk_weigh (M := Multiset (ℕ × Mode)) (fun e ↦ {Tab.claim e})
    (fun f ↦ {(f, .pinned)}) hwalk
  have ht' : (s.spaces.erase r₁).get? r₂ = some t := by rw [Slots.get?_erase_of_ne _ hne, ht]
  rw [otherUses, Slots.total_of_get? _ ht', treeUses, Tab.uses, hr]
  simp

theorem Inv.isolated (h : Inv s) : Isolated s := by
  have hside : ∀ {r₁ r₂ v₁ v₂ e₁ e₂ w₁ w₂ u₁ u₂}, r₁ ≠ r₂ → s.cpuAccess r₁ v₁ = some (e₁, w₁, u₁) →
      s.cpuAccess r₂ v₂ = some (e₂, w₂, u₂) → e₁.frame = e₂.frame → ¬ s.pmm.pool.exempt e₁.frame →
      e₁.w = false := by
    intro r₁ r₂ v₁ v₂ e₁ e₂ w₁ w₂ u₁ u₂ hne h₁ h₂ hf hex
    by_contra hw
    have hnot := not_mem_other h (cpuAccess_other h₁).1 (by simpa using hw) hex
    refine hnot (Multiset.mem_map.2 ⟨_, claim_mem_other (Ne.symm hne) h₂, ?_⟩)
    exact hf.symm
  intro r₁ r₂ v₁ v₂ e₁ e₂ w₁ w₂ u₁ u₂ hne h₁ h₂ hf hex
  exact ⟨hside hne h₁ h₂ hf hex, hside (Ne.symm hne) h₂ h₁ hf.symm (hf ▸ hex)⟩

theorem Spares.userLoad {s' : Vmm} {root r va : ℕ} (h : Spares s s' root) (hne : r ≠ root)
    (hex : ∀ e w u, s.cpuAccess r va = some (e, w, u) → ¬ s.pmm.pool.exempt e.frame) :
    s'.userLoad r va = s.userLoad r va := by
  have hget : s'.spaces.get? r = s.spaces.get? r := by
    rw [← Slots.get?_erase_of_ne _ hne, h.spaces, Slots.get?_erase_of_ne _ hne]
  have hacc : s'.cpuAccess r va = s.cpuAccess r va := by simp only [cpuAccess, hget]
  simp only [Vmm.userLoad, hacc]
  split
  · next e w he =>
    have hb : s'.bytes e.frame = s.bytes e.frame :=
      h.bytes _ (claim_mem_other hne he) (hex e w true he)
    rw [hb]
  · rfl

theorem Inv.storesPrivate (h : Inv s) : StoresPrivate s := by
  intro op root hop r va hne hex
  cases op with
  | copyTo r' dst data =>
    cases hop
    exact (userCopyToCr3_spec h rfl).2.userLoad hne hex
  | store r' va' b =>
    cases hop
    exact (userStore_spec h).2.userLoad hne hex
  | activate _ => cases hop
  | clone _ => cases hop
  | cowFault _ _ => cases hop
  | map _ _ _ => cases hop
  | unmap _ => cases hop
  | mprotect _ _ => cases hop
  | destroy _ => cases hop

/-- In a run in which no `mprotect` makes a shared page writable, no private frame is ever
mapped writable beside another address space's mapping of it. -/
theorem cow_isolation (s : Vmm) (hs : Private s) (l : List Op)
    (hl : Along step (fun s op ↦ ¬ UpgradesShared s op) s l) :
    Isolated (l.foldl step s) ∧ StoresPrivate (l.foldl step s) := by
  have hinv := Along.invariant (I := Inv) (fun s op h hop ↦ inv_step h op hop) hs.inv hl
  exact ⟨hinv.isolated, hinv.storesPrivate⟩

def oneReadOnlyPage : Vmm where
  pmm :=
    { regions := [⟨4096, 4120, 4102⟩]
      hhdm := 0xFFFF800000000000
      freePages := 18
      pageState := fun f ↦ 4097 ≤ f ∧ f ≤ 4101
      reservedState := fun _ ↦ false
      pageRefs := fun f ↦ if 4097 ≤ f ∧ f ≤ 4101 then 1 else 0
      ready := true }
  spaces :=
    let pt : Tab 0 := Slots.empty.set 1 ⟨⟨false, true, true, false, false, false, 0, 0⟩, 4101, false⟩
    let pd : Tab 1 := Slots.empty.set 0 (.next Tab.tableFlags 4100 pt)
    let pdpt : Tab 2 := Slots.empty.set 0 (.next Tab.tableFlags 4099 pd)
    Slots.empty.set 4097 (Slots.empty.set 0 (.next Tab.tableFlags 4098 pdpt))
  user := none
  bytes := fun _ _ ↦ 0
  fbPhys := 0
  fbSize := 0
  upper := fun _ _ ↦ 0
  kernelCr3 := 0

theorem oneReadOnlyPage_private : Private oneReadOnlyPage := by
  have hlive : ∀ f, 4097 ≤ f → f ≤ 4101 →
      ¬ oneReadOnlyPage.pmm.pool.exempt f ∧ oneReadOnlyPage.pmm.pool.live f ∧
        1 ≤ oneReadOnlyPage.pmm.pool.refs f := by
    intro f h₁ h₂
    have hlt : f * pageSize < pmmTrackLimit := by simp only [pageSize, pmmTrackLimit]; omega
    rw [Pmm.exempt_iff, Pmm.live_iff]
    simp [hlt, oneReadOnlyPage, Pmm.pool, h₁, h₂]
  have hmem : ∀ p ∈ oneReadOnlyPage.uses, 4097 ≤ p.1 ∧ p.1 ≤ 4101 := by decide +kernel
  refine ⟨fun p hp _ ↦ (hlive p.1 (hmem p hp).1 (hmem p hp).2).2, fun p hp _ ↦ ?_, fun f hf ↦ ?_⟩
  · have hcount : ∀ p ∈ oneReadOnlyPage.uses, (oneReadOnlyPage.uses.map Prod.fst).count p.1 = 1 := by
      decide +kernel
    exact hcount p hp
  · exact (hlive f (hmem _ hf).1 (hmem _ hf).2).1

/-- The parent maps its page read-only, forks, and the child makes its copy of the page writable. -/
def upgradeAfterFork : List Op := [.clone 4097, .activate 4102, .mprotect 0x1000 3]

theorem upgrade_after_fork_shares : Private oneReadOnlyPage ∧
    ¬ Isolated (upgradeAfterFork.foldl step oneReadOnlyPage) ∧
    ¬ StoresPrivate (upgradeAfterFork.foldl step oneReadOnlyPage) := by
  have hparent : (upgradeAfterFork.foldl step oneReadOnlyPage).cpuAccess 4097 0x1000 =
      some (⟨⟨false, true, true, false, false, false, 0, 0⟩, 4101, false⟩, false, true) := by
        decide +kernel
  have hchild : (upgradeAfterFork.foldl step oneReadOnlyPage).cpuAccess 4102 0x1000 =
      some (⟨⟨true, true, true, false, false, false, 0, 0⟩, 4101, false⟩, true, true) := by
        decide +kernel
  have hex : ¬ (upgradeAfterFork.foldl step oneReadOnlyPage).pmm.pool.exempt 4101 := by
    rw [Pmm.exempt_iff]
    decide +kernel
  refine ⟨oneReadOnlyPage_private, fun h ↦ ?_, fun h ↦ ?_⟩
  · exact absurd (h 4102 4097 0x1000 0x1000 _ _ _ _ _ _ (by decide) hchild hparent rfl hex).1
      (by decide)
  · have hload := h (.store 4102 0x1000 7) 4102 rfl 4097 0x1000 (by decide) (fun e w u he ↦ by
      rw [hparent] at he
      cases he
      exact hex)
    revert hload
    decide +kernel

theorem cow_isolation_fork_and_store :
    Isolated ([Op.activate 4097, .mprotect 0x1000 3, .clone 4097, .store 4097 0x1000 7].foldl step
      oneReadOnlyPage) ∧
    StoresPrivate
      ([Op.activate 4097, .mprotect 0x1000 3, .clone 4097, .store 4097 0x1000 7].foldl step
        oneReadOnlyPage) := by
  refine cow_isolation _ oneReadOnlyPage_private _ ⟨id, ?_, id, id, trivial⟩
  rintro ⟨-, -, -, e, he, -, -, -, hc⟩
  have he' : (step oneReadOnlyPage (.activate 4097)).vmmUserTranslate 0x1000 =
      some ⟨⟨false, true, true, false, false, false, 0, 0⟩, 4101, false⟩ := by decide +kernel
  rw [he'] at he
  cases he
  revert hc
  decide +kernel

end YabroOS.Memory.Vmm
