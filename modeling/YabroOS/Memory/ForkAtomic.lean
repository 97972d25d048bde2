import YabroOS.Fd.ForkFail
import YabroOS.Memory.CloneAtomic

namespace YabroOS.Memory

open Lib Function

/-- What a fork works on: the tasks with their descriptors, and the address spaces. -/
structure ForkState where
  fds : Fds
  vmm : Vmm

namespace ForkState

variable {s s' : ForkState} {t : Slot} {root : ℕ} {src : Tab 3}

/-- `root` is the parent's. A child that is given up still has it, so `task_reap_resources` finds it
shared and leaves the address space alone. -/
def sysFork (s : ForkState) (t : Slot) (root : ℕ) : ForkState × ℤ :=
  match s.fds.sysClone t false true with
  | (fds, rc, none) => (⟨fds, s.vmm⟩, rc)
  | (fds, rc, some child) =>
    match s.vmm.vmmUserSpaceClone root with
    | (vmm, .error _) => (⟨fds.reap child, vmm⟩, -Errno.enomem)
    | (vmm, .ok _) => (⟨fds, vmm⟩, rc)

/-- A call that fails has changed nothing of the memory, the task slots, the tables and the counts.
-/
structure Atomic (s : ForkState) (t : Slot) (root : ℕ) : Prop where
  clone : s.vmm.CloneAtomic root
  fork : ∀ s' rc, s.sysFork t root = (s', rc) → rc < 0 →
    s.fds.ForkUntouched s'.fds ∧ s'.vmm.spaces = s.vmm.spaces ∧ s.vmm.pmm.Agrees s'.vmm.pmm

theorem fork_fds (h : s.fds.Inv false) {rc : ℤ} (hs : s.sysFork t root = (s', rc)) (hneg : rc < 0) :
    s.fds.ForkUntouched s'.fds := by
  have hfail := fun cloned ↦ Fds.fork_failed h t cloned
  unfold Fds.sysFork at hfail
  unfold sysFork at hs
  cases hc : s.fds.sysClone t false true with
  | mk fds r =>
    obtain ⟨rc₁, child⟩ := r
    rw [hc] at hs
    simp only [hc] at hfail
    cases child with
    | none =>
      cases hs
      exact hfail true hneg
    | some child =>
      dsimp only at hs hfail
      split at hs
      · next vmm err hclone =>
        cases hs
        exact hfail false (show -Errno.enomem < 0 by decide)
      · next vmm dst hclone =>
        cases hs
        exact hfail true hneg

theorem fork_vmm {rc : ℤ} (hs : s.sysFork t root = (s', rc)) (hneg : rc < 0) :
    s'.vmm = s.vmm ∨ ∃ err, s.vmm.vmmUserSpaceClone root = (s'.vmm, .error err) := by
  unfold sysFork at hs
  cases hc : s.fds.sysClone t false true with
  | mk fds r =>
    obtain ⟨rc₁, child⟩ := r
    rw [hc] at hs
    cases child with
    | none =>
      cases hs
      exact .inl rfl
    | some child =>
      dsimp only at hs
      split at hs
      · next vmm err hclone =>
        cases hs
        exact .inr ⟨err, hclone⟩
      · next vmm dst hclone =>
        cases hs
        obtain ⟨n, rc, hn⟩ | ⟨child', s₁, -, hn⟩ := s.fds.sysClone_cases t false true
        · rw [hc] at hn
          cases hn
        · rw [hc, if_pos rfl] at hn
          cases hn
          exact absurd hneg (by simp)

/-- A failed fork is atomic but in one case: the tables can be copied, every page passes the test,
and some counter cannot take the references of all the entries that map its frame. -/
theorem atomic_iff (hfds : s.fds.Inv false) (hok : s.vmm.pmm.Ok)
    (hsrc : s.vmm.spaces.get? root = some src) (hsane : Vmm.Sane s.vmm.pmm src) :
    s.Atomic t root ↔ ¬ (Vmm.Fits s.vmm.pmm root src ∧ Vmm.Crowded s.vmm.pmm src) := by
  rw [← Vmm.cloneAtomic_iff hok hsrc hsane]
  refine ⟨fun h ↦ h.clone, fun h ↦ ⟨h, fun s' rc hs hneg ↦ ⟨fork_fds hfds hs hneg, ?_⟩⟩⟩
  obtain heq | ⟨err, hclone⟩ := fork_vmm hs hneg
  · rw [heq]
    exact ⟨rfl, hok.holding.agrees⟩
  · exact h _ err hclone

theorem refs_eq (h : s.Atomic t root) {err : Int}
    (hr : (s.vmm.vmmUserSpaceClone root).2 = .error err) :
    (s.vmm.vmmUserSpaceClone root).1.pmm.pageRefs = s.vmm.pmm.pageRefs :=
  (h.clone _ err (Prod.ext rfl hr)).2.pageRefs

/-- A page that is mapped twice and has room for one more reference. -/
theorem not_atomic_alias :
    ¬ (ForkState.mk Fds.init (Vmm.forkState 0xFFFE 4101 4101)).Atomic 0 4097 := by
  intro h
  have hr : ((Vmm.forkState 0xFFFE 4101 4101).vmmUserSpaceClone 4097).2 = .error (-1) := by
    decide +kernel
  have hpage : ((Vmm.forkState 0xFFFE 4101 4101).vmmUserSpaceClone 4097).1.pmm.pageRefs 4101 ≠
      (Vmm.forkState 0xFFFE 4101 4101).pmm.pageRefs 4101 := by decide +kernel
  exact hpage (congrFun (refs_eq h hr) 4101)

/-- With room for both references nothing can go wrong. -/
theorem atomic_iff_alias : (ForkState.mk Fds.init (Vmm.forkState 2 4101 4101)).Atomic 0 4097 := by
  have hsane : Vmm.Sane (Vmm.sixteenFrames 2) (Vmm.twoPages 4101 4101) :=
    Vmm.twoPages_sane (.inl rfl) (.inl rfl)
  refine (atomic_iff (Fds.inv_init false) (Vmm.sixteenFrames_ok (by decide) (by decide))
    (Slots.get?_set_self _ _ _) hsane).2 ?_
  rintro ⟨-, f, hf⟩
  have hcard : (Tab.sharedFrames (Vmm.sixteenFrames 2) 3 (Vmm.twoPages 4101 4101)).card = 2 := by
    decide +kernel
  have hcount :=
    Multiset.count_le_card f (Tab.sharedFrames (Vmm.sixteenFrames 2) 3 (Vmm.twoPages 4101 4101))
  have hrefs : (Vmm.sixteenFrames 2).pageRefs f ≤ 2 := by
    simp only [Vmm.sixteenFrames]
    split_ifs <;> omega
  change 0xFFFF < (Vmm.sixteenFrames 2).pageRefs f + _ at hf
  rw [hcard] at hcount
  change _ ≤ 2 at hcount
  have hf' : 0xFFFF < 2 + 2 := hf.trans_le (Nat.add_le_add hrefs hcount)
  omega

end ForkState

end YabroOS.Memory
