import YabroOS.Lib.Runs
import YabroOS.Memory.ForkCow
import YabroOS.Memory.Vmm

namespace YabroOS.Memory.Vmm

open Lib Function

def treeUses (root : ℕ) (t : Tab 3) : Multiset (ℕ × Mode) := (root, .pinned) ::ₘ Tab.uses 3 t

def uses (s : Vmm) : Multiset (ℕ × Mode) := s.spaces.total treeUses

def otherUses (s : Vmm) (root : ℕ) : Multiset (ℕ × Mode) := (s.spaces.erase root).total treeUses

def Kept (A : Account ℕ) (s : Vmm) : Prop := A.Holds s.pmm.pool s.uses

def Inv (s : Vmm) : Prop := Sound s.pmm.pool s.uses

variable {A : Account ℕ} {s s' : Vmm} {root virt addr : ℕ} {t : Tab 3}

theorem Kept.inv (h : Kept (Account.sound ℕ) s) : Inv s := h

theorem Inv.kept (h : Inv s) : Kept (Account.sound ℕ) s := h

theorem uses_of_get? (h : s.spaces.get? root = some t) :
    s.uses = treeUses root t + s.otherUses root :=
  Slots.total_of_get? _ h

theorem translate_uses {e : Pte} (h : s.vmmUserTranslateCr3 root virt = some e) :
    ∃ r, s.uses = Tab.claim e ::ₘ r ∧
      (∀ e', (setLeafIn s.spaces root virt (some e')).total treeUses = Tab.claim e' ::ₘ r) ∧
      (setLeafIn s.spaces root virt none).total treeUses = r ∧ s.otherUses root ≤ r := by
  simp only [vmmUserTranslateCr3] at h
  split_ifs at h with hcan
  split at h
  · cases h
  · next t ht =>
    obtain ⟨r, h₁, h₂, h₃⟩ := Tab.walk_weigh (M := Multiset (ℕ × Mode)) (fun e ↦ {Tab.claim e})
      (fun f ↦ {(f, .pinned)}) h
    refine ⟨(root, .pinned) ::ₘ (r + s.otherUses root), ?_, fun e' ↦ ?_, ?_, ?_⟩
    · rw [uses_of_get? ht, treeUses, Tab.uses, h₁]
      simp only [← Multiset.singleton_add]
      abel
    · simp only [setLeafIn, ht]
      rw [Slots.total_set, treeUses, Tab.uses, h₂, otherUses]
      simp only [← Multiset.singleton_add]
      abel
    · simp only [setLeafIn, ht]
      rw [Slots.total_set, treeUses, Tab.uses, h₃, Multiset.cons_add, otherUses]
    · rw [← Multiset.cons_add]
      exact Multiset.le_add_left _ _

theorem setLeafIn_erase (spaces : Slots (Tab 3)) (root virt : ℕ) (e : Option Pte) :
    (setLeafIn spaces root virt e).erase root = spaces.erase root := by
  unfold setLeafIn
  split
  · rfl
  · exact Slots.erase_set _ _ _

/-- Nothing the other address spaces see has changed, exempt frames aside. -/
structure Spares (s s' : Vmm) (root : ℕ) : Prop where
  spaces : s'.spaces.erase root = s.spaces.erase root
  exempt : s'.pmm.pool.exempt = s.pmm.pool.exempt
  bytes : ∀ p ∈ s.otherUses root, ¬ s.pmm.pool.exempt p.1 → s'.bytes p.1 = s.bytes p.1

theorem Spares.refl (s : Vmm) (root : ℕ) : Spares s s root := ⟨rfl, rfl, fun _ _ _ ↦ rfl⟩

theorem Spares.trans {s₁ s₂ s₃ : Vmm} (h : Spares s₁ s₂ root) (h' : Spares s₂ s₃ root) :
    Spares s₁ s₃ root where
  spaces := h'.spaces.trans h.spaces
  exempt := h'.exempt.trans h.exempt
  bytes p hp he := by
    have hother : s₂.otherUses root = s₁.otherUses root := by rw [otherUses, otherUses, h.spaces]
    rw [h'.bytes p (hother ▸ hp) (h.exempt ▸ he), h.bytes p hp he]

theorem Spares.write {f : ℕ} {c : ℕ → UInt8} (hspaces : s'.spaces.erase root = s.spaces.erase root)
    (hex : s'.pmm.pool.exempt = s.pmm.pool.exempt) (hb : s'.bytes = update s.bytes f c)
    (hf : ¬ s.pmm.pool.exempt f → f ∉ (s.otherUses root).map Prod.fst) : Spares s s' root := by
  refine ⟨hspaces, hex, fun p hp he ↦ ?_⟩
  have hne : p.1 ≠ f := by
    rintro rfl
    exact hf he (Multiset.mem_map_of_mem _ hp)
  rw [hb, update_of_ne hne]

theorem exempt_free (p : Pmm) (a : ℕ) : (p.pmmFreePage a).pool.exempt = p.pool.exempt :=
  Pmm.pool_exempt_eq (Pmm.pmmFreePage_reserved p a)

theorem exempt_alloc {p p' : Pmm} {o : Option ℕ} (h : p.pmmAllocPage = (p', o)) :
    p'.pool.exempt = p.pool.exempt := by
  cases o with
  | none => exact Pmm.pool_exempt_eq (Pmm.pmmAllocPage_none h).2.2.1
  | some f => exact (Pmm.pool_alloc h).exempt

theorem kept_cowFault {rc : Int} (h : Kept A s) (hc : s.vmmUserCowFault root addr = (s', rc)) :
    Kept A s' ∧ Spares s s' root := by
  simp only [vmmUserCowFault] at hc
  split at hc
  · cases hc
    exact ⟨h, .refl s root⟩
  · next pte hpte =>
    obtain ⟨r, hr, hset, -, hother⟩ := translate_uses hpte
    have hs : A.Holds s.pmm.pool (Tab.claim pte ::ₘ r) := hr ▸ h
    split_ifs at hc with hflags href
    · cases hc
      exact ⟨h, .refl s root⟩
    · cases hc
      have hw : pte.w = false := by
        cases hw : pte.w
        · rfl
        · exact absurd (.inr (.inr hw)) hflags
      have hcl : Tab.claim pte = (pte.frame, .shared) := by simp [Tab.claim, hw]
      have hle : s.pmm.pool.refs pte.frame ≤ 1 := by
        simp only [Pmm.pmmPageRefcount, Pmm.pageOf_mul, Pmm.mul_div_pageSize] at href
        split_ifs at href
        · exact le_of_eq href
      refine ⟨?_, setLeafIn_erase _ _ _ _, rfl, fun _ _ _ ↦ rfl⟩
      show A.Holds s.pmm.pool ((setLeafIn s.spaces root _ _).total treeUses)
      rw [hset]
      exact (hcl ▸ hs).promote hle
    · split at hc
      · next pmm ha =>
        cases hc
        exact ⟨Pmm.holds_alloc_none h ha, rfl, exempt_alloc ha, fun _ _ _ ↦ rfl⟩
      · next pmm np ha =>
        have h₁ := Pmm.holds_alloc hs ha .sole
        split_ifs at hc with hok
        · cases hc
          refine ⟨?_, Spares.write (f := np) (setLeafIn_erase _ _ _ _)
            ((exempt_free _ _).trans (exempt_alloc ha)) rfl ?_⟩
          · show A.Holds (pmm.pmmFreePage (pte.frame * pageSize)).pool _
            refine Pmm.holds_free (k := (Tab.claim pte).2) (h₁.mono (le_of_eq ?_))
            rw [Multiset.cons_swap]
            exact congrArg _ (hset _)
          · intro _ hmem
            have hnot := hs.not_mem (Pmm.pool_alloc ha)
            rw [Multiset.map_cons, Multiset.mem_cons] at hnot
            exact hnot (.inr (Multiset.mem_of_le (Multiset.map_le_map hother) hmem))
        · cases hc
          refine ⟨?_, rfl, (exempt_free _ _).trans (exempt_alloc ha), fun _ _ _ ↦ rfl⟩
          exact Pmm.holds_free (hr ▸ h₁)

theorem cowFault_spec {rc : Int} (h : Inv s) (hc : s.vmmUserCowFault root addr = (s', rc)) :
    Inv s' ∧ Spares s s' root := kept_cowFault h.kept hc

theorem walk_congr {p p' : Pmm} (h : p'.hhdm = p.hhdm) (n frame : ℕ) (t : Tab n) (virt : ℕ) :
    Tab.walk p' n frame t virt = Tab.walk p n frame t virt := by
  have htab : ∀ f, p'.table f = p.table f := Pmm.table_congr h
  induction n generalizing frame with
  | zero => simp only [Tab.walk, htab]
  | succ n ih =>
    simp only [Tab.walk, htab]
    split_ifs
    · split
      · exact ih _ _
      · rfl
    · rfl

theorem translate_setLeaf {e e' : Pte} (h : s.vmmUserTranslateCr3 root virt = some e)
    (hsp : s'.spaces = setLeafIn s.spaces root virt (some e')) (hh : s'.pmm.hhdm = s.pmm.hhdm) :
    s'.vmmUserTranslateCr3 root virt = some e' := by
  simp only [vmmUserTranslateCr3] at h ⊢
  split_ifs at h with hcan
  split at h
  · cases h
  · next t ht =>
    rw [if_pos hcan, hsp]
    simp only [setLeafIn, ht, Slots.get?_set_self]
    rw [walk_congr hh]
    exact Tab.walk_setLeaf h

theorem cowFault_writable (hc : s.vmmUserCowFault root addr = (s', 0)) :
    ∃ e, s'.vmmUserTranslateCr3 root (Pmm.pageOf addr) = some e ∧ e.w = true ∧ e.u = true := by
  simp only [vmmUserCowFault] at hc
  split at hc
  · cases hc
  · next pte hpte =>
    split_ifs at hc with hflags href
    · cases hc
    · cases hc
      refine ⟨_, translate_setLeaf hpte rfl rfl, rfl, ?_⟩
      cases hu : pte.u
      · exact absurd (.inl hu) hflags
      · rfl
    · split at hc
      · cases hc
      · next pmm np ha =>
        split_ifs at hc with hok
        · cases hc
          refine ⟨_, translate_setLeaf hpte rfl ?_, rfl, rfl⟩
          exact (Pmm.pmmFreePage_hhdm _ _).trans (Pmm.pmmAllocPage_some ha).2.1
        · cases hc

def mapCount (s : Vmm) (f : ℕ) : ℕ :=
  s.spaces.total (fun _ t ↦ Tab.weigh (fun e ↦ if e.frame = f then 1 else 0) (fun _ ↦ 0) 3 t)

theorem mapCount_eq (s : Vmm) (f : ℕ) :
    s.mapCount f = s.uses.countP (fun p ↦ p.1 = f ∧ p.2 ≠ .pinned) := by
  let φ := Multiset.countPAddMonoidHom (fun p : ℕ × Mode ↦ p.1 = f ∧ p.2 ≠ .pinned)
  have hone : ∀ a, φ {a} = if a.1 = f ∧ a.2 ≠ .pinned then 1 else 0 := by
    intro a
    rw [← Multiset.cons_zero]
    simp only [φ, Multiset.coe_countPAddMonoidHom, Multiset.countP_cons, Multiset.countP_zero,
      zero_add]
  have hleaf : ∀ e : Pte, φ {Tab.claim e} = if e.frame = f then 1 else 0 := by
    intro e
    have hne : (Tab.claim e).2 ≠ .pinned := by
      unfold Tab.claim
      cases e.w <;> simp
    rw [hone]
    simp only [hne, ne_eq, not_false_eq_true, and_true]
    rfl
  show _ = φ (s.spaces.total treeUses)
  rw [Slots.map_total, mapCount]
  refine Slots.total_congr (fun i t _ ↦ ?_)
  rw [treeUses, ← Multiset.singleton_add, map_add, Tab.uses, Tab.map_weigh]
  simp only [hleaf, hone, ne_eq, not_true_eq_false, and_false, if_false, zero_add]

end YabroOS.Memory.Vmm

namespace YabroOS.Memory.Vmm

open Lib Function

variable {A : Account ℕ} {s s' : Vmm} {root virt va : ℕ} {t : Tab 3} {rc : Int} {e : Pte}
  {flags : PteFlags}

/-- The last phase of `vmm_user_space_clone`: the marked original and a complete copy are sound,
and so is the marked original beside the tables of an abandoned copy. -/
theorem holds_marked {p p' : Pmm} {dstPhys : ℕ} {src dst src' dst' : Tab 3}
    (hsrc : s.spaces.get? root = some src) (hcov : Tab.Covered 3 dst src)
    (h : A.Holds p.pool (Tab.tables 3 dst + ((dstPhys, .pinned) ::ₘ s.uses)))
    (ha : Tab.applyLoop (Tab.applyForkCow 2) p src dst (Slots.list src) = (p', src', dst', rc)) :
    (rc ≠ 0 → A.Holds p'.pool (Tab.tables 3 dst' +
      ((dstPhys, .pinned) ::ₘ (s.spaces.set root src').total treeUses))) ∧
    (rc = 0 → A.Holds p'.pool (((s.spaces.set root src').set dstPhys dst').total treeUses)) := by
  have h₁ : A.Holds p.pool (Tab.leaves 3 src + (Tab.tables 3 dst + ((dstPhys, .pinned) ::ₘ
      (root, .pinned) ::ₘ (Tab.tables 3 src + s.otherUses root)))) := by
    refine h.mono (le_of_eq ?_)
    rw [uses_of_get? hsrc, treeUses, Tab.uses_eq]
    simp only [← Multiset.singleton_add]
    abel
  obtain ⟨h₂, htables⟩ := Tab.holds_applyTable (Tab.applyForkCow_marks 2) hcov h₁ ha
  have hnew : (s.spaces.set root src').total treeUses = treeUses root src' + s.otherUses root :=
    Slots.total_set _ _ _ _
  refine ⟨fun hrc ↦ ?_, fun hrc ↦ ?_⟩
  · rw [if_neg hrc, add_zero] at h₂
    refine h₂.mono (le_of_eq ?_)
    rw [hnew, treeUses, Tab.uses_eq, htables]
    simp only [← Multiset.singleton_add]
    abel
  · rw [if_pos hrc] at h₂
    refine h₂.mono ?_
    rw [Slots.total_set]
    have hle : ((s.spaces.set root src').erase dstPhys).total treeUses ≤
        treeUses root src' + s.otherUses root := by
      rw [← hnew, Slots.total_erase treeUses (s.spaces.set root src') dstPhys]
      exact Multiset.le_add_left _ _
    refine (add_le_add_right hle _).trans (le_of_eq ?_)
    rw [treeUses, treeUses, Tab.uses_eq, Tab.uses_eq, htables]
    simp only [← Multiset.singleton_add]
    abel

theorem leaves_le_uses {src : Tab 3} (hsrc : s.spaces.get? root = some src) :
    Tab.leaves 3 src ≤ s.uses := by
  rw [uses_of_get? hsrc, treeUses, Tab.uses_eq, Multiset.cons_add, add_assoc]
  refine le_trans ?_ (Multiset.le_cons_self _ _)
  exact (Multiset.le_add_right _ _).trans (Multiset.le_add_left _ _)

theorem kept_clone {r : Except Int ℕ} (h : Kept A s) (hc : s.vmmUserSpaceClone root = (s', r)) :
    Kept A s' := by
  simp only [vmmUserSpaceClone] at hc
  split at hc
  · cases hc
    exact h
  next src hsrc =>
  by_cases htab : s.pmm.table root = true
  swap
  · rw [if_neg htab] at hc
    cases hc
    exact h
  rw [if_pos htab] at hc
  split at hc
  · next pmm ha =>
    cases hc
    exact Pmm.holds_allocTable_none h ha
  next pmm₁ dstPhys ha =>
  have h₁ := Pmm.holds_allocTable_some h ha
  have hdrop : ∀ {p : Pmm} {dst : Tab 3} {u : Multiset (ℕ × Mode)},
      A.Holds p.pool (Tab.tables 3 dst + ((dstPhys, .pinned) ::ₘ u)) →
      A.Holds (Tab.destroyCloneLevel 3 p dstPhys dst).pool u := by
    intro p dst u hp
    refine Tab.holds_destroyCloneLevel dst dstPhys (hp.mono (le_of_eq ?_))
    rw [Multiset.cons_add, Multiset.add_cons]
  have hclone := Tab.holds_cloneUserTables (A := A) 2
  split at hc
  · next pmm₂ dst err hl =>
    cases hc
    exact hdrop (Tab.holds_cloneLoop_empty hclone.1 hclone.2 h₁ hl).1
  next pmm₂ dst hl =>
  obtain ⟨h₂, hcov⟩ := Tab.holds_cloneLoop_empty hclone.1 hclone.2 h₁ hl
  cases hp : Tab.preflightLoop (Tab.preflightForkPages 2) pmm₂ (Slots.list src) with
  | mk pmm₃ rc₁ =>
  have hleaves : Tab.leaves 3 src ≤ Tab.tables 3 dst + ((dstPhys, .pinned) ::ₘ s.uses) :=
    ((leaves_le_uses hsrc).trans (Multiset.le_cons_self _ _)).trans (Multiset.le_add_left _ _)
  have h₃ := Tab.holds_preflightLoop (fun hs hle hp ↦ Tab.holds_preflightForkPages hs hle hp) h₂
    (Tab.entry_leaves_le hleaves) hp
  cases ha' : Tab.applyLoop (Tab.applyForkCow 2) pmm₃ src dst (Slots.list src) with
  | mk pmm₄ q =>
  obtain ⟨src', dst', rc₂⟩ := q
  obtain ⟨hfail, hdone⟩ := holds_marked hsrc hcov h₃ ha'
  simp only [hp, ha'] at hc
  split_ifs at hc with hrc₁ hrc₂
  · cases hc
    exact hdrop h₃
  · cases hc
    exact hdrop (hfail hrc₂)
  · cases hc
    exact hdone (not_not.1 hrc₂)

theorem kept_destroy (h : Kept A s) (hd : s.vmmUserSpaceDestroy root = (s', rc)) : Kept A s' := by
  simp only [vmmUserSpaceDestroy] at hd
  split at hd
  · cases hd
    exact h
  · next t ht =>
    split_ifs at hd with htab
    · cases hd
      have h₁ : A.Holds s.pmm.pool (Tab.uses 3 t + ((root, .pinned) ::ₘ s.otherUses root)) := by
        refine h.mono (le_of_eq ?_)
        rw [uses_of_get? ht, treeUses, Multiset.cons_add, Multiset.add_cons]
      exact Pmm.holds_free (Tab.holds_destroyUserLevel s.fbFrame t root h₁)
    · cases hd
      exact h

theorem kept_map {frame : ℕ} (h : A.Holds s.pmm.pool (Tab.claim (userPte frame flags) ::ₘ s.uses))
    (hm : s.vmmUserMap virt frame flags = (s', rc)) :
    if rc = 0 then Kept A s' else A.Holds s'.pmm.pool
      (Tab.claim (userPte frame flags) ::ₘ s'.uses) := by
  simp only [vmmUserMap] at hm
  split at hm
  · cases hm
    simpa using h
  next root hroot =>
  split_ifs at hm with hbad
  · cases hm
    simpa using h
  split at hm
  · cases hm
    simpa using h
  next t ht =>
  cases hl : Tab.mapLeaf 3 s.pmm t virt (userPte frame flags) with
  | mk pmm q =>
  obtain ⟨t', ok⟩ := q
  rw [hl] at hm
  cases hm
  have h₁ : A.Holds s.pmm.pool (Tab.claim (userPte frame flags) ::ₘ Tab.uses 3 t +
      ((root, .pinned) ::ₘ s.otherUses root)) := by
    refine h.mono (le_of_eq ?_)
    rw [uses_of_get? ht, treeUses]
    simp only [← Multiset.singleton_add]
    abel
  have h₂ := Tab.holds_mapLeaf h₁ hl
  have hnew : (s.spaces.set root t').total treeUses = treeUses root t' + s.otherUses root :=
    Slots.total_set _ _ _ _
  cases ok with
  | true =>
    simp only [if_true, add_zero] at h₂ ⊢
    show A.Holds pmm.pool ((s.spaces.set root t').total treeUses)
    refine h₂.mono (le_of_eq ?_)
    rw [hnew, treeUses, Multiset.cons_add, Multiset.add_cons]
  | false =>
    simp only [Bool.false_eq_true, if_false, reduceCtorEq] at h₂ ⊢
    show A.Holds pmm.pool (_ ::ₘ (s.spaces.set root t').total treeUses)
    refine h₂.mono (le_of_eq ?_)
    rw [hnew, treeUses]
    simp only [← Multiset.singleton_add]
    abel

theorem kept_mapFresh {content : ℕ → UInt8} (h : Kept A s)
    (hm : s.mapFresh virt content flags = (s', rc)) : Kept A s' := by
  simp only [mapFresh] at hm
  split at hm
  · next pmm ha =>
    cases hm
    exact Pmm.holds_alloc_none h ha
  next pmm frame ha =>
  have h₁ := Pmm.holds_alloc h ha (Tab.claim (userPte frame flags)).2
  cases hmap : vmmUserMap { s with pmm := pmm, bytes := update s.bytes frame content } virt frame
    flags with
  | mk s₂ rc₂ =>
  have h₂ := kept_map (s := { s with pmm := pmm, bytes := update s.bytes frame content }) h₁ hmap
  simp only [hmap] at hm
  split_ifs at hm with hok hrc
  · cases hm
    rw [if_neg hrc] at h₂
    exact Pmm.holds_free h₂
  · cases hm
    rwa [if_pos (not_not.1 hrc)] at h₂
  · cases hm
    exact Pmm.holds_free h₁

theorem kept_unmapFree (h : Kept A s) : Kept A (s.unmapFree virt) := by
  simp only [unmapFree, vmmUserUnmap]
  split
  · next s₁ hu =>
    split at hu
    · cases hu
      exact h
    next root hroot =>
    split_ifs at hu with hal
    · cases hu
      exact h
    · split at hu
      · cases hu
        exact h
      · cases hu
  · next s₁ e hu =>
    split at hu
    · cases hu
    next root hroot =>
    split_ifs at hu with hal
    · cases hu
    split at hu
    · cases hu
    next e' he =>
    cases hu
    obtain ⟨r, hr, -, hclear, -⟩ := translate_uses he
    have hs : A.Holds s.pmm.pool (Tab.claim e ::ₘ r) := hr ▸ h
    split_ifs with hz
    · show A.Holds s.pmm.pool ((setLeafIn s.spaces root virt none).total treeUses)
      rw [hclear]
      exact hs.mono (Multiset.le_cons_self _ _)
    · show A.Holds (s.pmm.pmmFreePage (e.frame * pageSize)).pool
        ((setLeafIn s.spaces root virt none).total treeUses)
      rw [hclear]
      exact Pmm.holds_free hs

theorem inv_setLeaf_flags (h : Inv s) (he : s.vmmUserTranslateCr3 root virt = some e)
    (hok : flags.w = true → e.w = false → ¬ s.pmm.pool.exempt e.frame → s.mapCount e.frame ≤ 1) :
    Inv (s.setLeaf root virt (some (userPte e.frame flags))) := by
  obtain ⟨r, hr, hset, -, -⟩ := translate_uses he
  have hs : Sound s.pmm.pool (Tab.claim e ::ₘ r) := hr ▸ h
  show Sound s.pmm.pool ((setLeafIn s.spaces root virt _).total treeUses)
  rw [hset]
  cases hfw : flags.w with
  | false =>
    have hcl : Tab.claim (userPte e.frame flags) = (e.frame, .shared) := by
      simp [Tab.claim, userPte, hfw]
    rw [hcl]
    exact hs.share
  | true =>
    have hcl : Tab.claim (userPte e.frame flags) = (e.frame, .sole) := by
      simp [Tab.claim, userPte, hfw]
    rw [hcl]
    cases hew : e.w with
    | true =>
      have hce : Tab.claim e = (e.frame, .sole) := by simp [Tab.claim, hew]
      exact hce ▸ hs
    | false =>
      have hce : Tab.claim e = (e.frame, .shared) := by simp [Tab.claim, hew]
      rw [hce] at hs hr
      by_cases hex : s.pmm.pool.exempt e.frame
      · exact (hs.mono (Multiset.le_cons_self _ _)).exempt_cons hex (by simp)
      · refine hs.promote_of_not_mem (fun hmem ↦ ?_)
        obtain ⟨⟨f, k⟩, hp, hf⟩ := Multiset.mem_map.1 hmem
        simp only at hf
        subst hf
        have hcount := hok hfw hew hex
        rw [mapCount_eq, hr, Multiset.countP_cons_of_pos _ (by simp)] at hcount
        have hk : k = .pinned := by
          by_contra hk
          have hpos : 0 < r.countP (fun p ↦ p.1 = e.frame ∧ p.2 ≠ .pinned) :=
            Multiset.countP_pos.2 ⟨(e.frame, k), hp, rfl, hk⟩
          omega
        have halone := hs.alone e.frame k (Multiset.mem_cons_of_mem hp) (by simp [hk]) hex
        have hpos := Sound.count_pos hp
        rw [Multiset.map_cons, Multiset.count_cons_self] at halone
        omega

theorem inv_protect (h : Inv s)
    (hok : virt % pageSize = 0 → ∀ e, s.vmmUserTranslate virt = some e → flags.w = true →
      e.w = false → e.cow = false → ¬ s.pmm.pool.exempt e.frame → s.mapCount e.frame ≤ 1) :
    Inv (s.vmmUserProtect virt flags).1 := by
  simp only [vmmUserProtect]
  cases hu : s.user with
  | none => exact h
  | some root =>
  simp only
  by_cases hal : virt % pageSize ≠ 0
  · rw [if_pos hal]
    exact h
  rw [if_neg hal]
  cases he : s.vmmUserTranslateCr3 root virt with
  | none => exact h
  | some e =>
  have htr : s.vmmUserTranslate virt = some e := by simp [vmmUserTranslate, hu, he]
  simp only
  by_cases hcow : (flags.w && e.cow) = true
  · rw [if_pos hcow]
    cases hf : s.vmmUserCowFault root virt with
    | mk s₁ rc =>
    have h₁ := (cowFault_spec h hf).1
    simp only
    by_cases hrc : rc ≠ 0
    · rw [if_pos hrc]
      exact h₁
    rw [if_neg hrc]
    cases he₁ : s₁.vmmUserTranslateCr3 root virt with
    | none => exact h₁
    | some e₁ =>
    have hpage : Pmm.pageOf virt = virt := by
      have := Nat.div_add_mod virt pageSize
      rw [Pmm.pageOf, mul_comm]
      omega
    obtain ⟨e₂, he₂, hw, -⟩ := cowFault_writable (not_not.1 hrc ▸ hf)
    rw [hpage, he₁] at he₂
    cases he₂
    exact inv_setLeaf_flags h₁ he₁ (fun _ hw' ↦ absurd hw (by simp [hw']))
  · rw [if_neg hcow]
    refine inv_setLeaf_flags h he (fun hfw hew ↦ hok (not_not.1 hal) e htr hfw hew ?_)
    cases hec : e.cow
    · rfl
    · simp [hfw, hec] at hcow

theorem not_mem_other (h : Inv s) (he : ∃ r, s.uses = Tab.claim e ::ₘ r ∧ s.otherUses root ≤ r)
    (hw : e.w = true) :
    ¬ s.pmm.pool.exempt e.frame → e.frame ∉ (s.otherUses root).map Prod.fst := by
  intro hex hmem
  obtain ⟨r, hr, hother⟩ := he
  have hcl : Tab.claim e = (e.frame, .sole) := by simp [Tab.claim, hw]
  have hs : Sound s.pmm.pool ((e.frame, .sole) ::ₘ r) := hcl ▸ hr ▸ h
  exact hs.not_mem_of_alone (by simp) hex (Multiset.mem_of_le (Multiset.map_le_map hother) hmem)

theorem translate_other (he : s.vmmUserTranslateCr3 root virt = some e) :
    ∃ r, s.uses = Tab.claim e ::ₘ r ∧ s.otherUses root ≤ r := by
  obtain ⟨r, hr, -, -, hother⟩ := translate_uses he
  exact ⟨r, hr, hother⟩

theorem cpuAccess_other {w u : Bool} (he : s.cpuAccess root va = some (e, w, u)) :
    (∃ r, s.uses = Tab.claim e ::ₘ r ∧ s.otherUses root ≤ r) ∧ (w = true → e.w = true) := by
  simp only [cpuAccess] at he
  split_ifs at he
  obtain ⟨t, ht, hwalk⟩ := Option.bind_eq_some_iff.1 he
  obtain ⟨⟨r, hr⟩, hw⟩ := Tab.cpuWalk_weigh (M := Multiset (ℕ × Mode)) (fun e ↦ {Tab.claim e})
    (fun f ↦ {(f, .pinned)}) hwalk
  refine ⟨⟨(root, .pinned) ::ₘ r + s.otherUses root, ?_, Multiset.le_add_left _ _⟩, hw⟩
  rw [uses_of_get? ht, treeUses, Tab.uses, hr]
  simp only [← Multiset.singleton_add]
  abel

theorem writablePage_spec {page : ℕ} {o : Option Pte} (h : Inv s)
    (hc : s.writablePage root page = (s', o)) :
    Inv s' ∧ Spares s s' root ∧
      ∀ e, o = some e → s'.vmmUserTranslateCr3 root page = some e ∧ e.w = true := by
  simp only [writablePage] at hc
  split at hc
  · cases hc
    exact ⟨h, .refl _ root, by simp⟩
  next e he =>
  cases hf : s.vmmUserCowFault root page with
  | mk s₁ rc₁ =>
  obtain ⟨h₁, hsp⟩ := cowFault_spec h hf
  simp only [hf] at hc
  split_ifs at hc with hu hw hcow hrc
  · cases hc
    exact ⟨h, .refl _ root, by simp⟩
  · cases hc
    refine ⟨h, .refl _ root, fun e' he' ↦ ?_⟩
    cases he'
    exact ⟨he, hw⟩
  · cases hc
    exact ⟨h, .refl _ root, by simp⟩
  · cases hc
    exact ⟨h₁, hsp, by simp⟩
  · split at hc
    · cases hc
      exact ⟨h₁, hsp, by simp⟩
    · next e₁ he₁ =>
      split_ifs at hc with hbad
      · cases hc
        exact ⟨h₁, hsp, by simp⟩
      · cases hc
        refine ⟨h₁, hsp, fun e' he' ↦ ?_⟩
        cases he'
        refine ⟨he₁, ?_⟩
        cases hw₁ : e₁.w
        · exact absurd (.inr hw₁) hbad
        · rfl

theorem copyToLoop_spec (fuel : ℕ) {dst : ℕ} {data : List UInt8} (h : Inv s)
    (hc : copyToLoop root fuel s dst data = (s', rc)) : Inv s' ∧ Spares s s' root := by
  induction fuel generalizing s dst data with
  | zero =>
    cases hc
    exact ⟨h, .refl _ root⟩
  | succ fuel ih =>
    simp only [copyToLoop] at hc
    split_ifs at hc with hd
    · cases hc
      exact ⟨h, .refl _ root⟩
    cases hp : s.writablePage root (Pmm.pageOf dst) with
    | mk s₁ o =>
    obtain ⟨h₁, hsp, hpage⟩ := writablePage_spec h hp
    rw [hp] at hc
    cases o with
    | none =>
      cases hc
      exact ⟨h₁, hsp⟩
    | some e =>
      obtain ⟨he, hw⟩ := hpage e rfl
      simp only at hc
      split_ifs at hc with hv
      · obtain ⟨h₂, hsp₂⟩ := ih (s := s₁.putBytes _ _ _) h₁ hc
        have hsp₁ : Spares s₁
            (s₁.putBytes e.frame (dst % pageSize) (data.take (pageSize - dst % pageSize))) root :=
          .write rfl rfl rfl (not_mem_other h₁ (translate_other he) hw)
        exact ⟨h₂, (hsp.trans hsp₁).trans hsp₂⟩
      · cases hc
        exact ⟨h₁, hsp⟩

theorem userCopyToCr3_spec {dst : ℕ} {data : List UInt8} (h : Inv s)
    (hc : s.userCopyToCr3 root dst data = (s', rc)) : Inv s' ∧ Spares s s' root := by
  simp only [userCopyToCr3] at hc
  split_ifs at hc
  · cases hc
    exact ⟨h, .refl _ root⟩
  · exact copyToLoop_spec _ h hc

theorem writeByte_spec {off : ℕ} {b : UInt8} {u : Bool} (h : Inv s)
    (he : s.cpuAccess root va = some (e, true, u)) :
    Inv (s.writeByte e.frame off b) ∧ Spares s (s.writeByte e.frame off b) root := by
  obtain ⟨hother, hw⟩ := cpuAccess_other he
  exact ⟨h, Spares.write rfl rfl rfl (not_mem_other h hother (hw rfl))⟩

theorem userStore_spec {b : UInt8} (h : Inv s) :
    Inv (s.userStore root va b) ∧ Spares s (s.userStore root va b) root := by
  simp only [userStore]
  split
  · exact ⟨h, .refl _ root⟩
  · next e he => exact writeByte_spec h he
  · cases hf : s.vmmUserCowFault root va with
    | mk s₁ rc₁ =>
    obtain ⟨h₁, hsp⟩ := cowFault_spec h hf
    simp only
    split_ifs
    · exact ⟨h₁, hsp⟩
    · split
      · next e he =>
        exact (writeByte_spec h₁ he).imp id (fun hsp₂ ↦ hsp.trans hsp₂)
      · exact ⟨h₁, hsp⟩

end YabroOS.Memory.Vmm
