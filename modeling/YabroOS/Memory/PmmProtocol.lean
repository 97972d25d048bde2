import YabroOS.Memory.PmmBoot

namespace YabroOS.Memory

open Function

def PmmOp.frees (f : ℕ) : PmmOp → Bool
  | .freePage phys => phys.toNat / pageSize = f
  | _ => false

namespace PmmState

open Pmm

def retainsNow (f : ℕ) (s : PmmState) : PmmOp → Bool
  | .retainPage phys => phys.toNat / pageSize = f ∧ (s.exec (.retainPage phys)).2 = .retained true
  | _ => false

def retains (f : ℕ) : PmmState → List PmmOp → ℕ
  | _, [] => 0
  | s, op :: l => (s.retainsNow f op).toNat + retains f (s.exec op).1 l

/-- At no point of the run have the frees of the frame overtaken its retains. -/
def Held (f : ℕ) (s : PmmState) (l : List PmmOp) : Prop :=
  ∀ l', l' <+: l → l'.countP (PmmOp.frees f) ≤ retains f s l'

variable {s : PmmState} {f : ℕ}

theorem run_snoc (s : PmmState) (l : List PmmOp) (op : PmmOp) :
    s.run (l ++ [op]) = ((s.run l).exec op).1 := by
  rw [run, List.foldl_append]
  rfl

theorem retains_snoc (s : PmmState) (l : List PmmOp) (op : PmmOp) :
    retains f s (l ++ [op]) = retains f s l + ((s.run l).retainsNow f op).toNat := by
  induction l generalizing s with
  | nil => rw [List.nil_append, retains, retains, retains, run, List.foldl_nil, Nat.add_comm]
  | cons a l ih =>
    rw [List.cons_append, retains, retains, ih, ← Nat.add_assoc]
    rfl

theorem reservedState_mono (op : PmmOp) (h : s.reservedState f = true) :
    (s.exec op).1.reservedState f = true := by
  refine exec_induction (P := fun s ↦ s.reservedState f = true) ?_ ?_ ?_ ?_ h op
  · intro s h
    simp only [pmmAllocPage]
    split_ifs
    · exact h
    · split <;> exact h
  · intro s addr h
    simp only [pmmFreePage]
    split_ifs <;> exact h
  · intro s addr p hr h
    obtain ⟨-, -, rfl⟩ := retain_some hr
    exact h
  · intro s addr h
    rcases reserve_cases s addr with he | ⟨-, he⟩ | ⟨-, hres, ⟨-, he⟩ | ⟨-, he⟩⟩ <;> rw [he]
    · exact h
    · exact h
    all_goals
      simp only [update_apply]
      split_ifs
      · rfl
      · exact h

theorem reservedState_run_mono (l : List PmmOp) (h : s.reservedState f = true) :
    (s.run l).reservedState f = true := by
  induction l generalizing s with
  | nil => exact h
  | cons op l ih => exact ih (reservedState_mono op h)

theorem Sound.frames_exec (h : s.Sound) (op : PmmOp) : (s.exec op).1.frames = s.frames := by
  refine (exec_induction (P := fun t ↦ t.Sound ∧ t.frames = s.frames) ?_ ?_ ?_ ?_ ⟨h, rfl⟩ op).2
  · rintro t ⟨h, hf⟩
    refine ⟨h.allocPage, ?_⟩
    obtain ⟨rs, hfr, -, -, ⟨ha, -⟩ | ⟨g, -, -, ha⟩⟩ := alloc_cases h.region
    all_goals
      rw [ha]
      exact hfr.trans hf
  · rintro t addr ⟨h, hf⟩
    refine ⟨h.freePage addr, ?_⟩
    rcases h.free_cases addr with ⟨he, -⟩ | ⟨-, -, -, ⟨-, he⟩ | ⟨-, he⟩⟩
    all_goals
      rw [he]
      exact hf
  · rintro t addr p hr ⟨h, hf⟩
    refine ⟨h.retainPage hr, ?_⟩
    obtain ⟨-, -, rfl⟩ := retain_some hr
    exact hf
  · rintro t addr ⟨h, hf⟩
    refine ⟨h.reservePage addr, ?_⟩
    rcases reserve_cases t addr with he | ⟨-, he⟩ | ⟨-, -, ⟨-, he⟩ | ⟨-, he⟩⟩
    all_goals
      rw [he]
      exact hf

theorem Sound.frames_run (h : s.Sound) (l : List PmmOp) : (s.run l).frames = s.frames := by
  induction l generalizing s with
  | nil => rfl
  | cons op l ih => exact (ih (h.exec op)).trans (h.frames_exec op)

theorem reservePages_held {n : ℕ} (h : s.pageState f = true ∧ s.pageRefs f = n) (start limit : ℕ) :
    (s.reservePages start limit).pageState f = true ∧
      (s.reservePages start limit).pageRefs f = n := by
  refine reservePages_induction (P := fun s ↦ s.pageState f = true ∧ s.pageRefs f = n) ?_ h
    start limit
  rintro s addr ⟨hs, hn⟩
  rcases reserve_cases s addr with he | ⟨-, he⟩ | ⟨-, -, ⟨-, he⟩ | ⟨-, he⟩⟩ <;> rw [he]
  · exact ⟨hs, hn⟩
  · exact ⟨hs, hn⟩
  · refine ⟨?_, hn⟩
    simp only [update_apply]
    split_ifs
    · rfl
    · exact hs
  · exact ⟨hs, hn⟩

theorem Sound.alloc_held (h : s.Sound) (hs : s.pageState f = true) :
    s.pmmAllocPage.1.pageState f = true ∧ s.pmmAllocPage.1.pageRefs f = s.pageRefs f ∧
      s.pmmAllocPage.2 ≠ some f := by
  obtain ⟨rs, -, -, -, ⟨ha, -⟩ | ⟨g, hg, hav, ha⟩⟩ := alloc_cases h.region
  · rw [ha]
    exact ⟨hs, rfl, by simp⟩
  · have hne : f ≠ g := by
      rintro rfl
      rw [(h.available_iff hg).1 hav] at hs
      cases hs
    rw [ha]
    refine ⟨?_, ?_, ?_⟩
    · simpa [update_of_ne hne] using hs
    · simp [update_of_ne hne]
    · simpa using Ne.symm hne

theorem Sound.free_held (h : s.Sound) (hf : f ∈ s.frames) (hs : s.pageState f = true)
    (hr : s.reservedState f = false) {addr : ℕ} (hlast : addr / pageSize = f → 1 < s.pageRefs f) :
    (s.pmmFreePage addr).pageState f = true ∧
      (s.pmmFreePage addr).pageRefs f + (decide (addr / pageSize = f)).toNat = s.pageRefs f := by
  by_cases hfa : addr / pageSize = f
  · have hone := hlast hfa
    subst hfa
    rcases h.free_cases addr with ⟨-, hno | hno | hno⟩ | ⟨-, -, -, ⟨-, he⟩ | ⟨hle, -⟩⟩
    · exact absurd hf hno
    · rw [hr] at hno
      cases hno
    · rw [hs] at hno
      cases hno
    · rw [he]
      refine ⟨hs, ?_⟩
      simp only [update_self, decide_true, Bool.toNat_true]
      omega
    · omega
  · simp only [hfa, decide_false, Bool.toNat_false, Nat.add_zero]
    have hfa : f ≠ addr / pageSize := Ne.symm hfa
    rcases h.free_cases addr with ⟨he, -⟩ | ⟨-, -, -, ⟨-, he⟩ | ⟨-, he⟩⟩
    · rw [he]
      exact ⟨hs, rfl⟩
    · rw [he]
      exact ⟨hs, update_of_ne hfa _ _⟩
    · rw [he]
      exact ⟨(update_of_ne hfa _ _).trans hs, update_of_ne hfa _ _⟩

theorem Sound.exec_held (h : s.Sound) (hf : f ∈ s.frames) (hs : s.pageState f = true)
    (hr : s.reservedState f = false) {op : PmmOp} (hlast : op.frees f = true → 1 < s.pageRefs f) :
    (s.exec op).1.pageState f = true ∧
      (s.exec op).1.pageRefs f + (op.frees f).toNat = s.pageRefs f + (s.retainsNow f op).toNat ∧
      (s.exec op).2 ≠ .page (some f) := by
  cases op with
  | reserveRange base length =>
    simp only [PmmState.exec, pmmReserveRange, PmmOp.frees, retainsNow, Bool.toNat_false,
      Nat.add_zero]
    refine and_assoc.1 ⟨?_, by simp⟩
    split_ifs
    · exact ⟨hs, rfl⟩
    · exact ⟨hs, rfl⟩
    · exact reservePages_held ⟨hs, rfl⟩ _ _
  | allocPage =>
    obtain ⟨hs', hr', hne⟩ := h.alloc_held hs
    exact ⟨hs', by simpa [PmmState.exec, PmmOp.frees, retainsNow] using hr',
      by simpa [PmmState.exec] using hne⟩
  | allocZeroed =>
    obtain ⟨hs', hr', hne⟩ := h.alloc_held hs
    have ha := h.allocPage
    have hfa : f ∈ s.pmmAllocPage.1.frames := (h.frames_exec .allocPage).symm ▸ hf
    simp only [PmmState.exec, pmmAllocZeroed, PmmOp.frees, retainsNow, Bool.toNat_false,
      Nat.add_zero]
    split
    · next p he =>
      rw [he] at hs' hr'
      exact ⟨hs', hr', by simp⟩
    · next p g he =>
      rw [he] at hs' hr' hne ha hfa
      split_ifs
      · exact ⟨hs', hr', by simpa using hne⟩
      · -- The page that cannot be cleared goes back, and it is another one.
        have hg : ¬ g * pageSize / pageSize = f := by
          rw [mul_div_pageSize]
          rintro rfl
          exact hne rfl
        have hres : p.reservedState f = false := by
          rw [(h.alloc_some he).2.2.2.1]
          exact hr
        have hfree := ha.free_held hfa hs' hres fun hc ↦ absurd hc hg
        simp only [hg, decide_false, Bool.toNat_false, Nat.add_zero] at hfree
        exact ⟨hfree.1, hfree.2.trans hr', by simp⟩
  | freePage phys =>
    obtain ⟨hs', hr'⟩ := h.free_held hf hs hr fun hc ↦ hlast (by simpa [PmmOp.frees] using hc)
    exact ⟨hs', by simpa [PmmState.exec, PmmOp.frees, retainsNow] using hr', by simp [PmmState.exec]⟩
  | retainPage phys =>
    have hnow : s.retainsNow f (.retainPage phys) =
        decide (phys.toNat / pageSize = f ∧ (s.pmmRetainPage phys.toNat).isSome) := by
      rw [retainsNow, decide_eq_decide, PmmState.exec]
      split <;> simp [*]
    rw [hnow]
    simp only [PmmState.exec, PmmOp.frees, Bool.toNat_false, Nat.add_zero]
    cases hret : s.pmmRetainPage phys.toNat with
    | none => exact ⟨hs, by simp, by simp⟩
    | some p =>
      obtain ⟨-, -, rfl⟩ := retain_some hret
      refine ⟨hs, ?_, by simp⟩
      by_cases hfa : phys.toNat / pageSize = f
      · simp [hfa]
      · simp [hfa, update_of_ne (Ne.symm hfa)]

theorem Held.of_prefix {l l' : List PmmOp} (h : Held f s l) (hl : l' <+: l) : Held f s l' :=
  fun _ h' ↦ h _ (h'.trans hl)

theorem Sound.run_held (h : s.Sound) (hf : f ∈ s.frames) (hs : s.pageState f = true)
    (hone : s.pageRefs f = 1) {l : List PmmOp} (hr : (s.run l).reservedState f = false)
    (hl : Held f s l) :
    f ∈ (s.run l).frames ∧ (s.run l).pageState f = true ∧
      (s.run l).pageRefs f + l.countP (PmmOp.frees f) = 1 + retains f s l ∧
      ∀ l' op, l' ++ [op] <+: l → ((s.run l').exec op).2 ≠ .page (some f) := by
  induction l using List.reverseRecOn with
  | nil => exact ⟨hf, hs, hone, by simp⟩
  | append_singleton l op ih =>
    rw [run_snoc] at hr ⊢
    have hr' : (s.run l).reservedState f = false := by
      by_contra hc
      rw [reservedState_mono op (by simpa using hc)] at hr
      cases hr
    obtain ⟨hin, hal, hcount, hnot⟩ := ih hr' (hl.of_prefix (List.prefix_append l [op]))
    have hle := hl _ List.prefix_rfl
    have hfc : (l ++ [op]).countP (PmmOp.frees f) = l.countP (PmmOp.frees f) +
        (op.frees f).toNat := by
      rw [List.countP_append, List.countP_singleton, Bool.toNat]
      cases op.frees f <;> rfl
    rw [hfc, retains_snoc] at hle ⊢
    have hlast : op.frees f = true → 1 < (s.run l).pageRefs f := by
      intro hop
      have hnow : (s.run l).retainsNow f op = false := by
        cases op <;> simp_all [PmmOp.frees, retainsNow]
      rw [hop, hnow, Bool.toNat_true, Bool.toNat_false] at hle
      omega
    obtain ⟨hal', hcount', hnot'⟩ := (h.run l).exec_held hin hal hr' hlast
    refine ⟨((h.run l).frames_exec op).symm ▸ hin, hal', by omega, ?_⟩
    intro l' op' hpre
    rcases List.prefix_concat_iff.1 hpre with he | hpre
    · obtain ⟨rfl, hop⟩ := List.append_inj' he rfl
      obtain rfl := List.singleton_inj.1 hop
      exact hnot'
    · exact hnot l' op' hpre

/-- The protocol of one frame: allocation, retains and frees in any order, until the last free. -/
theorem frame_protocol (entries : Option Memmap) (hhdm kernelBase kernelEnd cr3 : UInt64)
    (mem : ℕ → ℕ → UInt64) (ops : List PmmOp) (f : ℕ) :
    let s := (pmmInit entries hhdm kernelBase kernelEnd cr3 mem).run ops
    (s.exec .allocPage).2 = .page (some f) → ∀ l : List PmmOp,
      let t := (s.exec .allocPage).1
      (t.run l).reservedState f = false →
      (Held f t l →
        (t.run l).pageState f = true ∧
        (t.run l).pageRefs f = 1 + retains f t l - l.countP (PmmOp.frees f) ∧
        (∀ l' op, l' ++ [op] <+: l → ((t.run l').exec op).2 ≠ .page (some f)) ∧
        ∀ phys : UInt64, phys.toNat / pageSize = f →
          let u := ((t.run l).exec (.freePage phys)).1
          (u.pageState f = false ↔ l.countP (PmmOp.frees f) + 1 = 1 + retains f t l) ∧
          (u.pageState f = false → u.freePages = (t.run l).freePages + 1)) ∧
      ∀ phys : UInt64, phys.toNat / pageSize = f →
        ((t.run l).pageState f = false → (t.run l).exec (.freePage phys) = (t.run l, .done)) ∧
        (((t.run l).exec (.retainPage phys)).2 = .retained false ↔
          (t.run l).pageState f = false ∨ (t.run l).pageRefs f = 65535) := by
  intro s hf l t hres
  have hs : s.Sound := (sound_pmmInit entries hhdm kernelBase kernelEnd cr3 mem).run ops
  have hf : s.pmmAllocPage.2 = some f := PmmResult.page.inj hf
  obtain ⟨hin, -, -, -, hps, hrf⟩ :=
    hs.alloc_some (Prod.ext rfl hf : s.pmmAllocPage = (s.pmmAllocPage.1, some f))
  have ht : t.Sound := hs.exec .allocPage
  have htin : f ∈ t.frames := (hs.frames_exec .allocPage).symm ▸ hin
  have hal : t.pageState f = true := (congrFun hps f).trans (update_self f true s.pageState)
  have hone : t.pageRefs f = 1 := (congrFun hrf f).trans (update_self f 1 s.pageRefs)
  have hrun := ht.run l
  have hmem : f ∈ (t.run l).frames := by
    clear hres hrun
    induction l using List.reverseRecOn with
    | nil => exact htin
    | append_singleton l op ih =>
      rw [run_snoc]
      exact ((ht.run l).frames_exec op).symm ▸ ih
  refine ⟨?_, ?_⟩
  · intro hheld
    obtain ⟨-, hal', hcount, hnot⟩ := ht.run_held htin hal hone hres hheld
    refine ⟨hal', by omega, hnot, ?_⟩
    rintro phys rfl
    have hle := hheld l List.prefix_rfl
    rcases hrun.free_cases phys.toNat
      with ⟨-, hno | hno | hno⟩ | ⟨-, -, -, ⟨hmany, he⟩ | ⟨hlast, he⟩⟩
    · exact absurd hmem hno
    · rw [hres] at hno
      cases hno
    · rw [hal'] at hno
      cases hno
    · simp only [PmmState.exec, he, hal', Bool.true_eq_false, false_iff, false_imp_iff, and_true]
      omega
    · simp only [PmmState.exec, he, update_self, true_iff, forall_const, and_true]
      omega
  · rintro phys rfl
    constructor
    · intro hpool
      rcases hrun.free_cases phys.toNat with ⟨he, -⟩ | ⟨-, -, hno, -⟩
      · simp only [PmmState.exec, he]
      · rw [hpool] at hno
        cases hno
    · rw [← hrun.retain_none_iff hmem hres]
      simp only [PmmState.exec]
      cases (t.run l).pmmRetainPage phys.toNat <;> simp

theorem frame_protocol_shared_page :
    let s := pmmInit (some [some ⟨0x1000000, 0x3000, 0⟩]) 0xffff800000000000 0 0 0 (fun _ _ ↦ 0)
    let t := (s.exec .allocPage).1
    let l : List PmmOp := [.retainPage 0x1000008, .allocPage, .freePage 0x1000fff]
    (s.exec .allocPage).2 = .page (some 0x1000) ∧ (t.run l).reservedState 0x1000 = false ∧
      Held 0x1000 t l ∧
      (t.run l).pageState 0x1000 = true ∧
        ((t.run l).exec (.freePage 0x1000000)).1.pageState 0x1000 = false := by
  intro s t l
  have ha : (s.exec .allocPage).2 = .page (some 0x1000) := by decide +kernel
  have hr : (t.run l).reservedState 0x1000 = false := by decide +kernel
  have hh : Held 0x1000 t l := by
    have hall : ∀ l' ∈ l.inits, l'.countP (PmmOp.frees 0x1000) ≤ retains 0x1000 t l' := by
      decide +kernel
    exact fun l' hl' ↦ hall l' ((List.mem_inits l' l).2 hl')
  have h := (frame_protocol (some [some ⟨0x1000000, 0x3000, 0⟩]) 0xffff800000000000 0 0 0
    (fun _ _ ↦ 0) [] 0x1000 ha l
    hr).1 hh
  exact ⟨ha, hr, hh, h.1, (h.2.2.2 0x1000000 rfl).1.2 (by decide +kernel)⟩

end PmmState

end YabroOS.Memory
