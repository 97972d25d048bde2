import YabroOS.Memory.TableWords
import YabroOS.Memory.UserCopy

namespace YabroOS.Memory

open Lib Function

namespace Pmm

variable {p p' : Pmm} {f g : ℕ}

theorem available_eq (p : Pmm) (f : ℕ) : p.available f = true ↔
    f * pageSize < pmmTrackLimit ∧ pmmMinPhys ≤ f * pageSize ∧ p.reservedState f = false ∧
      p.pageState f = false := by
  simp only [available, isReserved, pageIsAllocated, tracked, pageOf_mul, mul_div_pageSize,
    decide_eq_true_eq]
  by_cases hlt : f * pageSize < pmmTrackLimit
  · simp [hlt]
  · simp [hlt]

theorem available_alloc (ha : p.pmmAllocPage = (p', some f)) (hg : p'.available g = true) :
    p.available g = true ∧ g ≠ f := by
  obtain ⟨-, -, -, hres, hst, -⟩ := pmmAllocPage_some ha
  obtain ⟨hlt, hlow, hr, hs⟩ := (available_eq p' g).1 hg
  rw [hres] at hr
  have hne : g ≠ f := by
    rintro rfl
    rw [hst, update_self] at hs
    cases hs
  rw [hst, update_of_ne hne] at hs
  exact ⟨(available_eq p g).2 ⟨hlt, hlow, hr, hs⟩, hne⟩

theorem available_free (hg : (p.pmmFreePage (f * pageSize)).available g = true) :
    p.available g = true ∨ g = f := by
  by_cases hne : g = f
  · exact .inr hne
  obtain ⟨hlt, hlow, hr, hs⟩ := (available_eq _ g).1 hg
  rw [pmmFreePage_reserved] at hr
  refine .inl ((available_eq p g).2 ⟨hlt, hlow, hr, ?_⟩)
  simp only [pmmFreePage, pageOf_mul, mul_div_pageSize] at hs
  split_ifs at hs
  · exact hs
  · exact hs
  · exact hs
  · exact hs
  · exact hs
  · have hkept : update p.pageState f false g = false := hs
    rwa [update_of_ne hne] at hkept

end Pmm

namespace Paging

variable {s s' : Paging} {root : UInt64} {pml4 parent f i c virt va pt : ℕ} {p : List ℕ}

section Bits

variable (a b c : UInt64)

theorem or_and : (a ||| b) &&& c = a &&& c ||| b &&& c := by
  apply UInt64.toBitVec_inj.1
  simp only [UInt64.toBitVec_and, UInt64.toBitVec_or, BitVec.and_or_distrib_right]

theorem link_present : (a &&& pteAddrMask ||| pteP ||| pteW ||| pteU) &&& pteP ≠ 0 := by
  simp only [or_and, UInt64.and_assoc, show pteAddrMask &&& pteP = 0 by decide, UInt64.and_zero,
    UInt64.zero_or]
  decide

theorem link_small : (a &&& pteAddrMask ||| pteP ||| pteW ||| pteU) &&& ptePs = 0 := by
  simp only [or_and, UInt64.and_assoc, show pteAddrMask &&& ptePs = 0 by decide, UInt64.and_zero,
    UInt64.zero_or]
  decide

theorem link_addr :
    (a &&& pteAddrMask ||| pteP ||| pteW ||| pteU) &&& pteAddrMask = a &&& pteAddrMask := by
  simp only [or_and, UInt64.and_assoc, UInt64.and_self, show pteP &&& pteAddrMask = 0 by decide,
    show pteW &&& pteAddrMask = 0 by decide, show pteU &&& pteAddrMask = 0 by decide, UInt64.or_zero]

end Bits

def next (s : Paging) (f i : ℕ) : Option ℕ :=
  if s.words f i &&& pteP = 0 ∨ s.words f i &&& ptePs ≠ 0 then none
  else s.table (s.words f i &&& pteAddrMask)

def userPath (va : ℕ) : List ℕ := [idx 3 va, idx 2 va, idx 1 va]

def leafTable (s : Paging) (pml4 va : ℕ) : Option ℕ := follow s.next pml4 (userPath va)

def page (s : Paging) (pt va : ℕ) : Option (UInt64 × UInt64) :=
  if s.words pt (idx 0 va) &&& pteP = 0 then none
  else some (s.words pt (idx 0 va) &&& pteAddrMask ||| UInt64.ofNat (va % pageSize),
    s.words pt (idx 0 va))

theorem next_bind {α : Type} (s : Paging) (f i : ℕ) (k : ℕ → Option α) :
    (if s.words f i &&& pteP = 0 ∨ s.words f i &&& ptePs ≠ 0 then none
      else (s.table (s.words f i &&& pteAddrMask)).bind k) =
      (s.next f i).bind k := by
  unfold next
  split_ifs
  · rfl
  · rfl

theorem leafTable_eq (s : Paging) (pml4 va : ℕ) : s.leafTable pml4 va =
    (s.next pml4 (idx 3 va)).bind
      (fun pdpt ↦ (s.next pdpt (idx 2 va)).bind (fun pd ↦ s.next pd (idx 1 va))) := by
  simp only [leafTable, userPath, follow, List.foldlM_cons, List.foldlM_nil]
  cases s.next pml4 (idx 3 va) with
  | none => rfl
  | some pdpt =>
    show ((s.next pdpt (idx 2 va)).bind fun pd ↦ (s.next pd (idx 1 va)).bind some) = _
    simp only [Option.bind_fun_some, Option.bind_some]

theorem vmmUserTranslate_eq (hu : s.user = some root) (hva : va < userTop) :
    s.vmmUserTranslate va = (s.table root).bind fun pml4 ↦ (s.leafTable pml4 va).bind fun pt ↦
      s.page pt va := by
  have hcan : ¬ canonicalUser va = false := by simp [canonicalUser, hva]
  simp only [vmmUserTranslate, hu, if_neg hcan, Option.bind_eq_bind, next_bind, leafTable_eq, page,
    Option.bind_assoc]

theorem table_some {phys : UInt64} (ht : s.table phys = some f) :
    phys ≠ 0 ∧ phys &&& 0xFFF = 0 := by
  unfold table at ht
  split_ifs at ht with hbad
  · exact ⟨fun hc ↦ hbad (.inl hc), not_not.1 fun hc ↦ hbad (.inr hc)⟩

theorem and_pageMask {a : UInt64} (h : a &&& 0xFFF = 0) : a &&& ~~~0xFFF = a := by
  have hall : a &&& (~~~0xFFF ||| 0xFFF) = a := by
    rw [show (~~~0xFFF ||| 0xFFF : UInt64) = -1 by decide]
    exact UInt64.and_neg_one
  rw [UInt64.and_comm, or_and, UInt64.and_comm, UInt64.and_comm 0xFFF, h, UInt64.or_zero] at hall
  exact hall

theorem vmmUserTranslateCr3_eq (ht : s.table root = some pml4) (hva : va < userTop) :
    s.vmmUserTranslateCr3 root va = (s.leafTable pml4 va).bind fun pt ↦ s.page pt va := by
  obtain ⟨hzero, hal⟩ := table_some ht
  have hgood : ¬ (root = 0 ∨ root &&& 0xFFF ≠ 0 ∨ canonicalUser va = false) := by
    simp [hzero, hal, canonicalUser, hva]
  simp only [vmmUserTranslateCr3, and_pageMask hal, vmmCr3TranslateDirect, if_neg hgood,
    Option.bind_eq_bind, ht,
    Option.bind_some, next_bind, leafTable_eq, page, Option.bind_assoc]

theorem cowWalk_eq (ht : s.table root = some pml4) (hva : va < userTop) (hal : va % pageSize = 0) :
    s.cowWalk root va = (s.leafTable pml4 va).map fun pt ↦ (pt, idx 0 va) := by
  have hgood : ¬ (va % pageSize ≠ 0 ∨ userTop ≤ va) := by simp [hal, hva]
  simp only [cowWalk, and_pageMask (table_some ht).2, if_neg hgood, Option.bind_eq_bind, ht,
    Option.bind_some, next_bind,
    leafTable_eq, Option.map_eq_bind, Option.bind_assoc]
  rfl

theorem vmmUserUnmap_eq (hu : s.user = some root) (ht : s.table root = some pml4)
    (hva : va < userTop) (hal : va % pageSize = 0) :
    s.vmmUserUnmap va =
      match (s.leafTable pml4 va).bind fun pt ↦ (s.page pt va).map fun e ↦ (pt, e.2) with
      | none => (s, none)
      | some (pt, e) => (s.setWord pt (idx 0 va) 0, some (e &&& pteAddrMask)) := by
  have hgood : ¬ (canonicalUser va = false ∨ va % pageSize ≠ 0) := by simp [hal, canonicalUser, hva]
  have hlast : ∀ pd,
      (if s.words pd (idx 1 va) &&& pteP = 0 ∨ s.words pd (idx 1 va) &&& ptePs ≠ 0 then none
      else s.table (s.words pd (idx 1 va) &&& pteAddrMask)) = s.next pd (idx 1 va) := fun pd ↦ rfl
  simp only [vmmUserUnmap, hu, if_neg hgood, Option.bind_eq_bind, ht, Option.bind_some, hlast,
    next_bind]
  rw [← leafTable_eq]
  cases s.leafTable pml4 va with
  | none => rfl
  | some pt =>
    simp only [Option.bind_some, page]
    split_ifs
    · rfl
    · rfl

/-- The paths from the root that walks of user addresses take. -/
def UserPath (p : List ℕ) : Prop := p.length ≤ 3 ∧ (∀ i ∈ p, i < 512) ∧ ∀ i ∈ p.head?, i < 256

theorem userPath_closed : InitClosed UserPath := by
  rintro p i ⟨hlen, hall, hhead⟩
  rw [List.length_append] at hlen
  refine ⟨by omega, fun j hj ↦ hall j (List.mem_append_left _ hj), fun j hj ↦ hhead j ?_⟩
  cases p with
  | nil => cases hj
  | cons a p => exact hj

theorem idx_lt (n va : ℕ) : idx n va < 512 := Nat.mod_lt _ (by decide)

theorem userPath_ok (hva : va < userTop) : UserPath (userPath va) := by
  refine ⟨by simp [userPath], fun i hi ↦ ?_, fun i hi ↦ ?_⟩
  · simp only [userPath, List.mem_cons, List.not_mem_nil, or_false] at hi
    obtain rfl | rfl | rfl := hi
    all_goals exact idx_lt _ _
  · simp only [userPath, List.head?_cons, Option.mem_def, Option.some.injEq] at hi
    subst hi
    simp only [idx, userTop] at *
    omega

/-- The tables of the lower half form a tree without large pages, and none of them is free memory.
-/
structure TreeShape (s : Paging) (pml4 : ℕ) : Prop where
  tree : TreeLike s.next UserPath pml4
  small : ∀ p f i, UserPath (p ++ [i]) → follow s.next pml4 p = some f → s.words f i &&& pteP ≠ 0 →
    s.words f i &&& ptePs = 0
  owned : ∀ p f, UserPath p → follow s.next pml4 p = some f → s.pmm.available f = false

def entryAt (s : Paging) (pml4 va : ℕ) : Option (UInt64 × UInt64) :=
  (s.leafTable pml4 va).bind fun pt ↦ s.page pt va

/-- A step of `vmm_user_map` above the last level: the shape is kept, and no walk sees a difference.
-/
structure Grown (s s' : Paging) (pml4 : ℕ) : Prop where
  shape : s'.TreeShape pml4
  user : s'.user = s.user
  hhdm : s'.pmm.hhdm = s.pmm.hhdm
  entries : ∀ va < userTop, s'.entryAt pml4 va = s.entryAt pml4 va

theorem TreeShape.grown (h : s.TreeShape pml4) : Grown s s pml4 := ⟨h, rfl, rfl, fun _ _ ↦ rfl⟩

theorem Grown.trans {s'' : Paging} (h : Grown s s' pml4) (h' : Grown s' s'' pml4) :
    Grown s s'' pml4 where
  shape := h'.shape
  user := h'.user.trans h.user
  hhdm := h'.hhdm.trans h.hhdm
  entries va hva := (h'.entries va hva).trans (h.entries va hva)

theorem table_congr (hh : s'.pmm.hhdm = s.pmm.hhdm) (phys : UInt64) :
    s'.table phys = s.table phys := by
  simp only [table, Pmm.physToVirtOk_congr hh]

theorem next_congr (hh : s'.pmm.hhdm = s.pmm.hhdm) (hw : s'.words f i = s.words f i) :
    s'.next f i = s.next f i := by
  simp only [next, hw, table_congr hh]

theorem TreeShape.setPmm (h : s.TreeShape pml4) {pmm : Pmm} (hh : pmm.hhdm = s.pmm.hhdm)
    (hav : ∀ g, s.pmm.available g = false → pmm.available g = false) :
    Grown s { s with pmm := pmm } pml4 := by
  have hnext : ∀ f i, ({ s with pmm := pmm } : Paging).next f i = s.next f i :=
    fun f i ↦ next_congr hh rfl
  have hfollow : ∀ p, follow ({ s with pmm := pmm } : Paging).next pml4 p =
    follow s.next pml4 p := by
    rw [show ({ s with pmm := pmm } : Paging).next = s.next from funext₂ hnext]
    exact fun _ ↦ rfl
  refine ⟨⟨fun p q f hp hq hpf hqf ↦ ?_, fun p f i hp hf ↦ ?_, fun p f hp hf ↦ ?_⟩, rfl, hh,
    fun va _ ↦ ?_⟩
  · rw [hfollow] at hpf hqf
    exact h.tree p q f hp hq hpf hqf
  · rw [hfollow] at hf
    exact h.small p f i hp hf
  · rw [hfollow] at hf
    exact hav f (h.owned p f hp hf)
  · simp only [entryAt, leafTable, hfollow]
    rfl

theorem TreeShape.ne_leaf (h : s.TreeShape pml4) (hp : UserPath (p ++ [i]))
    (hf : follow s.next pml4 p = some f) (hva : va < userTop) (hpt : s.leafTable pml4 va = some pt) :
    pt ≠ f := by
  rintro rfl
  have hsame := h.tree p (userPath va) pt (userPath_closed p i hp) (userPath_ok hva) hf hpt
  have hlen := hp.1
  rw [hsame] at hlen
  simp [userPath] at hlen

theorem frame_phys (hlt : f * pageSize < pmmTrackLimit) :
    UInt64.ofNat (f * pageSize) &&& pteAddrMask = UInt64.ofNat (f * pageSize) ∧
    (UInt64.ofNat (f * pageSize)).toNat / pageSize = f := by
  have hnat : (UInt64.ofNat (f * pageSize)).toNat = f * pageSize := by
    rw [UInt64.toNat_ofNat', Nat.mod_eq_of_lt]
    simp only [pmmTrackLimit] at hlt
    omega
  have hf : f < 2 ^ 40 := by
    simp only [pmmTrackLimit, pageSize] at hlt
    omega
  refine ⟨UInt64.toNat_inj.1 ?_, by rw [hnat, Nat.mul_div_cancel _ (by decide)]⟩
  rw [UInt64.toNat_and, hnat, show pteAddrMask.toNat = (2 ^ 40 - 1) * 2 ^ 12 by decide,
    show pageSize = 2 ^ 12 from rfl]
  refine Nat.eq_of_testBit_eq fun j ↦ ?_
  rw [Nat.testBit_and, Nat.testBit_mul_two_pow, Nat.testBit_mul_two_pow, Nat.testBit_two_pow_sub_one]
  by_cases hj : j - 12 < 40
  · simp +contextual [hj]
  · rw [Nat.testBit_lt_two_pow (hf.trans_le (Nat.pow_le_pow_right (by decide) (not_lt.1 hj)))]
    simp

theorem TreeShape.newUserTable (h : s.TreeShape pml4) (hp : UserPath (p ++ [i]))
    (hf : follow s.next pml4 p = some parent) (habs : s.next parent i = none) {o : Option ℕ}
    (hn : s.newUserTable parent i = (s', o)) :
    Grown s s' pml4 ∧ ∀ c, o = some c → follow s'.next pml4 (p ++ [i]) = some c := by
  have hp' := userPath_closed p i hp
  simp only [Paging.newUserTable] at hn
  split at hn
  · next pmm ha =>
    cases hn
    obtain ⟨hh, -, hres, hst, -⟩ := Pmm.pmmAllocPage_none ha
    refine ⟨h.setPmm hh fun g hg ↦ ?_, fun c hc ↦ by cases hc⟩
    by_contra hav
    obtain ⟨hlt, hlow, hr, hs⟩ := (Pmm.available_eq pmm g).1 (by simpa using hav)
    rw [hres] at hr
    rw [hst] at hs
    rw [(Pmm.available_eq s.pmm g).2 ⟨hlt, hlow, hr, hs⟩] at hg
    cases hg
  next pmm t ha =>
  obtain ⟨hav, hhdm, -⟩ := Pmm.pmmAllocPage_some ha
  have hlt := ((Pmm.available_eq s.pmm t).1 hav).1
  split at hn
  · cases hn
    refine ⟨h.setPmm ((Pmm.pmmFreePage_hhdm _ _).trans hhdm) fun g hg ↦ ?_, fun c hc ↦ by cases hc⟩
    by_contra hav'
    rcases Pmm.available_free (by simpa using hav') with hback | rfl
    · rw [(Pmm.available_alloc ha hback).1] at hg
      cases hg
    · rw [hav] at hg
      cases hg
  next t' ht =>
  obtain ⟨hphys, hframe⟩ := frame_phys hlt
  have htt : t' = t := by
    simp only [table, hphys, hframe] at ht
    split_ifs at ht
    exact (Option.some.inj ht).symm
  subst htt
  cases hn
  have hfresh : ∀ q, UserPath q → follow s.next pml4 q ≠ some t' := fun q hq hc ↦ by
    rw [h.owned q t' hq hc] at hav
    cases hav
  have hne : t' ≠ parent := fun hc ↦ hfresh p hp' (hc ▸ hf)
  set link := UInt64.ofNat (t' * pageSize) &&& pteAddrMask ||| pteP ||| pteW ||| pteU with hlink
  set s₁ : Paging :=
    ({ s with pmm := pmm, words := update s.words t' (fun _ ↦ 0) } : Paging).setWord parent i link
      with hs₁
  have hzero : ∀ j, s₁.words t' j = 0 := fun j ↦ by
    simp only [hs₁, setWord, update_of_ne hne, update_self]
  have hentry : s₁.words parent i = link := by
    simp only [hs₁, setWord, update_self]
  have hword : ∀ g j, g ≠ t' → (g ≠ parent ∨ j ≠ i) → s₁.words g j = s.words g j := by
    intro g j hg hgj
    simp only [hs₁, setWord]
    by_cases hgp : g = parent
    · subst hgp
      rw [update_self, update_of_ne (hgj.resolve_left (fun hc ↦ hc rfl)), update_of_ne hg]
    · rw [update_of_ne hgp, update_of_ne hg]
  have hgraft : Grafts s.next s₁.next UserPath pml4 parent i t' := by
    refine ⟨habs, ?_, fun j ↦ ?_, fun g j hg hgj ↦ next_congr hhdm (hword g j hg hgj), hfresh⟩
    · have hgood : ¬ (link &&& pteP = 0 ∨ link &&& ptePs ≠ 0) := by
        rw [hlink]
        exact not_or.2 ⟨link_present _, not_not.2 (link_small _)⟩
      rw [next, hentry, if_neg hgood, hlink, link_addr, hphys]
      exact ht
    · rw [next, hzero j, if_pos (.inl (by decide))]
  have hfollow := fun q (hq : UserPath q) g ↦ hgraft.follow userPath_closed h.tree hp' hf hq (g := g)
  refine ⟨⟨⟨hgraft.treeLike userPath_closed h.tree hp' hf, fun q g j hq hg hpres ↦ ?_,
    fun q g hq hg ↦ ?_⟩, rfl, hhdm,
    fun va hva ↦ ?_⟩, fun c hc ↦ ?_⟩
  · rcases (hfollow q (userPath_closed q j hq) g).1 hg with hold | ⟨-, rfl⟩
    · have hgt : g ≠ t' := fun hc ↦ hfresh q (userPath_closed q j hq) (hc ▸ hold)
      by_cases hsame : g = parent ∧ j = i
      · obtain ⟨rfl, rfl⟩ := hsame
        rw [hentry, hlink]
        exact link_small _
      · rw [hword g j hgt (not_and_or.1 hsame)] at hpres ⊢
        exact h.small q g j hq hold hpres
    · rw [hzero j] at hpres
      exact absurd (by decide) hpres
  · by_contra hav'
    obtain ⟨hbefore, hgt⟩ := Pmm.available_alloc (g := g) ha (eq_true_of_ne_false hav')
    rcases (hfollow q hq g).1 hg with hold | ⟨-, rfl⟩
    · rw [h.owned q g hq hold] at hbefore
      cases hbefore
    · exact hgt rfl
  · have hiff := hfollow (userPath va) (userPath_ok hva)
    simp only [entryAt]
    cases hold : s.leafTable pml4 va with
    | some pt =>
      have hnew : s₁.leafTable pml4 va = some pt := (hiff pt).2 (.inl hold)
      have hpt : pt ≠ t' := fun hc ↦ hfresh (userPath va) (userPath_ok hva) (hc ▸ hold)
      rw [hnew, Option.bind_some, Option.bind_some]
      simp only [page, hword pt (idx 0 va) hpt (.inl (h.ne_leaf hp hf hva hold))]
    | none =>
      rw [Option.bind_none]
      cases hnew : s₁.leafTable pml4 va with
      | none => rfl
      | some pt =>
        rcases (hiff pt).1 hnew with hsome | ⟨-, rfl⟩
        · rw [leafTable, hsome] at hold
          cases hold
        · rw [Option.bind_some, page, hzero, if_pos (by decide)]
  · cases hc
    exact (hfollow (p ++ [i]) hp t').2 (.inr ⟨rfl, rfl⟩)

theorem TreeShape.ensureUserChild (h : s.TreeShape pml4) (hp : UserPath (p ++ [i]))
    (hf : follow s.next pml4 p = some parent) {o : Option ℕ}
    (hn : s.ensureUserChild parent i = (s', o)) :
    Grown s s' pml4 ∧ ∀ c, o = some c → follow s'.next pml4 (p ++ [i]) = some c := by
  simp only [Paging.ensureUserChild] at hn
  by_cases hbad : s.words parent i &&& pteP = 0 ∨ s.words parent i &&& ptePs ≠ 0
  · rw [if_pos hbad] at hn
    exact h.newUserTable hp hf (if_pos hbad) hn
  rw [if_neg hbad] at hn
  cases ht : s.table (s.words parent i &&& pteAddrMask) with
  | none =>
    rw [ht] at hn
    exact h.newUserTable hp hf (by rw [next, if_neg hbad, ht]) hn
  | some child =>
    rw [ht] at hn
    have hchild : s.next parent i = some child := by rw [next, if_neg hbad, ht]
    simp only at hn
    split_ifs at hn
    swap
    · cases hn
      refine ⟨h.grown, fun c hc ↦ ?_⟩
      cases hc
      exact follow_snoc_some.2 ⟨parent, hf, hchild⟩
    -- The entry gets `PTE_W` and `PTE_U`, and leads to the same table.
    cases hn
    set link := s.words parent i &&& pteAddrMask ||| pteP ||| pteW ||| pteU with hlink
    have hword : ∀ g j, g ≠ parent ∨ j ≠ i → (s.setWord parent i link).words g j = s.words g j := by
      intro g j hgj
      simp only [setWord]
      by_cases hgp : g = parent
      · subst hgp
        rw [update_self, update_of_ne (hgj.resolve_left (fun hc ↦ hc rfl))]
      · rw [update_of_ne hgp]
    have hentry : (s.setWord parent i link).words parent i = link := by
      simp only [setWord, update_self]
    have hnext : (s.setWord parent i link).next = s.next := by
      funext g j
      by_cases hsame : g = parent ∧ j = i
      · obtain ⟨rfl, rfl⟩ := hsame
        have hgood : ¬ (link &&& pteP = 0 ∨ link &&& ptePs ≠ 0) := by
          rw [hlink]
          exact not_or.2 ⟨link_present _, not_not.2 (link_small _)⟩
        rw [next, hentry, if_neg hgood, hlink, link_addr, hchild]
        exact ht
      · exact next_congr rfl (hword g j (not_and_or.1 hsame))
    refine ⟨⟨⟨?_, fun q g j hq hg hpres ↦ ?_, fun q g hq hg ↦ ?_⟩, rfl, rfl, fun va hva ↦ ?_⟩,
      fun c hc ↦ ?_⟩
    · rw [hnext]
      exact h.tree
    · rw [hnext] at hg
      by_cases hsame : g = parent ∧ j = i
      · obtain ⟨rfl, rfl⟩ := hsame
        rw [hentry, hlink]
        exact link_small _
      · rw [hword g j (not_and_or.1 hsame)] at hpres ⊢
        exact h.small q g j hq hg hpres
    · rw [hnext] at hg
      exact h.owned q g hq hg
    · have hleaf : (s.setWord parent i link).leafTable pml4 va = s.leafTable pml4 va := by
        simp only [leafTable, hnext]
      simp only [entryAt, hleaf]
      cases hold : s.leafTable pml4 va with
      | none => rfl
      | some pt =>
        rw [Option.bind_some, Option.bind_some]
        simp only [page, hword pt (idx 0 va) (.inl (h.ne_leaf hp hf hva hold))]
    · cases hc
      rw [hnext]
      exact follow_snoc_some.2 ⟨parent, hf, hchild⟩

theorem TreeShape.setLeaf (h : s.TreeShape pml4) (hvirt : virt < userTop)
    (hpt : s.leafTable pml4 virt = some pt) (e : UInt64) :
    (s.setWord pt (idx 0 virt) e).TreeShape pml4 ∧
      (s.setWord pt (idx 0 virt) e).leafTable pml4 virt = some pt ∧
      ∀ va < userTop, Pmm.pageOf va ≠ Pmm.pageOf virt →
        (s.setWord pt (idx 0 virt) e).entryAt pml4 va = s.entryAt pml4 va := by
  set s₁ := s.setWord pt (idx 0 virt) e with hs₁
  have hword : ∀ g j, g ≠ pt ∨ j ≠ idx 0 virt → s₁.words g j = s.words g j := by
    intro g j hgj
    simp only [hs₁, setWord]
    by_cases hg : g = pt
    · subst hg
      rw [update_self, update_of_ne (hgj.resolve_left (fun hc ↦ hc rfl))]
    · rw [update_of_ne hg]
  -- The table written to is no inner table of a path.
  have hinner : ∀ q j g, UserPath (q ++ [j]) → follow s.next pml4 q = some g → g ≠ pt :=
    fun q j g hq hg hc ↦
    h.ne_leaf hq hg hvirt hpt hc.symm
  have hfollow : ∀ {q}, UserPath q → follow s₁.next pml4 q = follow s.next pml4 q := fun {q} hq ↦
    follow_congr userPath_closed (fun r j g hr hg ↦ show s₁.next g j = s.next g j from
      next_congr rfl (hword g j (.inl (hinner r j g hr hg)))) hq
  have hleaf : ∀ va < userTop, s₁.leafTable pml4 va = s.leafTable pml4 va :=
    fun va hva ↦ hfollow (userPath_ok hva)
  refine ⟨⟨fun q r g hq hr hqg hrg ↦ ?_, fun q g j hq hg hpres ↦ ?_, fun q g hq hg ↦ ?_⟩, ?_,
    fun va hva hne ↦ ?_⟩
  · rw [hfollow hq] at hqg
    rw [hfollow hr] at hrg
    exact h.tree q r g hq hr hqg hrg
  · rw [hfollow (userPath_closed q j hq)] at hg
    rw [hword g j (.inl (hinner q j g hq hg))] at hpres ⊢
    exact h.small q g j hq hg hpres
  · rw [hfollow hq] at hg
    exact h.owned q g hq hg
  · rw [hleaf virt hvirt, hpt]
  · simp only [entryAt, hleaf va hva]
    cases hold : s.leafTable pml4 va with
    | none => rfl
    | some pt' =>
      rw [Option.bind_some, Option.bind_some]
      have hdiff : pt' ≠ pt ∨ idx 0 va ≠ idx 0 virt := by
        by_contra hc
        push Not at hc
        obtain ⟨rfl, hidx⟩ := hc
        have hpath :=
          h.tree (userPath va) (userPath virt) pt' (userPath_ok hva) (userPath_ok hvirt) hold hpt
        simp only [userPath, List.cons.injEq, and_true] at hpath
        obtain ⟨j, hj, hne'⟩ := Tab.exists_idx_ne hva hvirt hne
        have hcases : j = 0 ∨ j = 1 ∨ j = 2 ∨ j = 3 := by omega
        rcases hcases with rfl | rfl | rfl | rfl
        · exact hne' hidx
        · exact hne' hpath.2.2
        · exact hne' hpath.2.1
        · exact hne' hpath.1
      simp only [page, hword pt' (idx 0 va) hdiff]

def userEntry (phys flags : UInt64) : UInt64 :=
  phys &&& pteAddrMask ||| pteP ||| pteU ||| flags &&& (pteW ||| pteNx ||| ptePwt ||| ptePcd)

theorem TreeShape.vmmUserMap (h : s.TreeShape pml4) (hu : s.user = some root)
    (ht : s.table root = some pml4) {phys flags : UInt64} {rc : ℤ}
    (hc : s.vmmUserMap virt phys flags = (s', rc)) :
    rc ≠ 0 ∧ Grown s s' pml4 ∨ rc = 0 ∧ virt < userTop ∧ ∃ s₁ pt, Grown s s₁ pml4 ∧ s₁.leafTable
      pml4 virt = some pt ∧ s' = s₁.setWord pt (idx 0 virt) (userEntry phys flags) := by
  simp only [Paging.vmmUserMap, hu, ht] at hc
  split_ifs at hc with hbad
  · cases hc
    exact .inl ⟨by decide, h.grown⟩
  have hvirt : virt < userTop := by
    by_contra hge
    exact hbad (.inl (by simpa [canonicalUser] using hge))
  have hpath := userPath_ok hvirt
  have hpath₂ : UserPath ([idx 3 virt] ++ [idx 2 virt]) := userPath_closed _ (idx 1 virt) hpath
  have hpath₁ : UserPath ([] ++ [idx 3 virt]) := userPath_closed _ (idx 2 virt) hpath₂
  cases he₁ : s.ensureUserChild pml4 (idx 3 virt) with
  | mk s₁ o₁ =>
  obtain ⟨hg₁, hf₁⟩ := h.ensureUserChild hpath₁ follow_nil he₁
  rw [he₁] at hc
  cases o₁ with
  | none =>
    cases hc
    exact .inl ⟨by decide, hg₁⟩
  | some pdpt =>
  simp only at hc
  cases he₂ : s₁.ensureUserChild pdpt (idx 2 virt) with
  | mk s₂ o₂ =>
  obtain ⟨hg₂, hf₂⟩ := hg₁.shape.ensureUserChild hpath₂ (hf₁ pdpt rfl) he₂
  rw [he₂] at hc
  cases o₂ with
  | none =>
    cases hc
    exact .inl ⟨by decide, hg₁.trans hg₂⟩
  | some pd =>
  simp only at hc
  cases he₃ : s₂.ensureUserChild pd (idx 1 virt) with
  | mk s₃ o₃ =>
  obtain ⟨hg₃, hf₃⟩ := hg₂.shape.ensureUserChild hpath (hf₂ pd rfl) he₃
  rw [he₃] at hc
  cases o₃ with
  | none =>
    cases hc
    exact .inl ⟨by decide, (hg₁.trans hg₂).trans hg₃⟩
  | some pt =>
    cases hc
    exact .inr ⟨rfl, hvirt, s₃, pt, (hg₁.trans hg₂).trans hg₃, hf₃ pt rfl, rfl⟩

theorem userEntry_bits (phys flags : UInt64) : userEntry phys flags &&& pteP ≠ 0 ∧
    userEntry phys flags &&& pteAddrMask = phys &&& pteAddrMask ∧
    userEntry phys flags &&& ~~~pteAddrMask = pteP ||| pteU ||| flags &&&
      (pteW ||| pteNx ||| ptePwt ||| ptePcd) := by
  refine ⟨?_, ?_, ?_⟩
  · simp only [userEntry, or_and, UInt64.and_assoc, show pteAddrMask &&& pteP = 0 by decide,
      UInt64.and_zero, UInt64.zero_or,
      show (pteW ||| pteNx ||| ptePwt ||| ptePcd) &&& pteP = 0 by decide, UInt64.or_zero]
    decide
  · simp only [userEntry, or_and, UInt64.and_assoc, UInt64.and_self,
      show pteP &&& pteAddrMask = 0 by decide,
      show pteU &&& pteAddrMask = 0 by
        decide, show (pteW ||| pteNx ||| ptePwt ||| ptePcd) &&& pteAddrMask = 0 by decide,
      UInt64.and_zero, UInt64.or_zero]
  · simp only [userEntry, or_and, UInt64.and_assoc,
      show pteAddrMask &&& ~~~pteAddrMask = 0 by decide,
      show pteP &&& ~~~pteAddrMask = pteP by decide, show pteU &&& ~~~pteAddrMask = pteU by decide,
      show (pteW ||| pteNx ||| ptePwt ||| ptePcd) &&& ~~~pteAddrMask = pteW ||| pteNx ||| ptePwt |||
        ptePcd by decide,
      UInt64.and_zero, UInt64.zero_or]

theorem translate_congr (hu : s'.user = s.user) (hroot : s.user = some root)
    (ht : s.table root = some pml4) (hh : s'.pmm.hhdm = s.pmm.hhdm)
    (he : va < userTop → s'.entryAt pml4 va = s.entryAt pml4 va) :
    s'.vmmUserTranslate va = s.vmmUserTranslate va := by
  by_cases hva : va < userTop
  · have ht' : s'.table root = some pml4 := (table_congr hh root).trans ht
    rw [vmmUserTranslate_eq hroot hva, vmmUserTranslate_eq (hu.trans hroot) hva, ht, ht']
    exact he hva
  · have hcan : canonicalUser va = false := by simpa [canonicalUser] using hva
    simp only [vmmUserTranslate, hu, hroot, hcan, if_true]

theorem page_offset {o : ℕ} (hal : virt % pageSize = 0) (ho : o < pageSize) :
    Pmm.pageOf (virt + o) = Pmm.pageOf virt ∧ (virt + o) % pageSize = o := by
  simp only [Pmm.pageOf, pageSize] at *
  omega

theorem leafTable_offset {o : ℕ} (s : Paging) (pml4 : ℕ) (hal : virt % pageSize = 0)
    (ho : o < pageSize) :
    s.leafTable pml4 (virt + o) = s.leafTable pml4 virt ∧ idx 0 (virt + o) = idx 0 virt := by
  have hidx : ∀ n, idx n (virt + o) = idx n virt := fun n ↦ by
    rw [← Tab.idx_pageOf n (virt + o), (page_offset hal ho).1, Tab.idx_pageOf]
  simp only [leafTable, userPath, hidx, and_self]

theorem TreeShape.vmmUserUnmap (h : s.TreeShape pml4) (hu : s.user = some root)
    (ht : s.table root = some pml4) (hvirt : virt < userTop) (hal : virt % pageSize = 0)
    (hpt : s.leafTable pml4 virt = some pt) (hpres : s.words pt (idx 0 virt) &&& pteP ≠ 0) :
    ∃ s', s.vmmUserUnmap virt = (s', some (s.words pt (idx 0 virt) &&& pteAddrMask)) ∧
      s'.TreeShape pml4 ∧ (∀ o < pageSize, s'.vmmUserTranslate (virt + o) = none) ∧
      ∀ va, Pmm.pageOf va ≠ virt → s'.vmmUserTranslate va = s.vmmUserTranslate va := by
  obtain ⟨hshape, hleaf, hother⟩ := h.setLeaf hvirt hpt 0
  refine ⟨s.setWord pt (idx 0 virt) 0, ?_, hshape, fun o ho ↦ ?_, fun va hne ↦ ?_⟩
  · rw [vmmUserUnmap_eq hu ht hvirt hal, hpt, Option.bind_some, page, if_neg hpres]
    rfl
  · obtain ⟨hsame, hidx⟩ := leafTable_offset (s.setWord pt (idx 0 virt) 0) pml4 hal ho
    have hlt : virt + o < userTop := by
      simp only [userTop, pageSize] at *
      omega
    have hu' : (s.setWord pt (idx 0 virt) 0).user = some root := hu
    have ht' : (s.setWord pt (idx 0 virt) 0).table root = some pml4 := ht
    rw [vmmUserTranslate_eq hu' hlt, ht', Option.bind_some, hsame, hleaf, Option.bind_some,
      page, hidx]
    simp [setWord]
  · have hpage : Pmm.pageOf virt = virt := by
      simp only [Pmm.pageOf, pageSize] at *
      omega
    exact translate_congr rfl hu ht rfl fun hva ↦ hother va hva (by rwa [hpage])

/-- The algebra of `vmm_user_map`, `vmm_user_unmap` and the walks, for a root whose tables form a
tree. -/
theorem user_pages (s : Paging) (root : UInt64) (pml4 : ℕ) (hu : s.user = some root)
    (ht : s.table root = some pml4) (h : s.TreeShape pml4) :
    (∀ virt phys flags s', virt % pageSize = 0 → phys &&& pteAddrMask = phys →
      s.vmmUserMap virt phys flags = (s', 0) → s'.TreeShape pml4 ∧
      (∀ o < pageSize, ∃ pte, s'.vmmUserTranslate (virt + o) = some (phys ||| UInt64.ofNat o, pte) ∧
        pte &&& pteAddrMask = phys ∧
        pte &&& ~~~pteAddrMask = pteP ||| pteU ||| flags &&& (pteW ||| pteNx ||| ptePwt ||| ptePcd)) ∧
      (∀ va, Pmm.pageOf va ≠ virt → s'.vmmUserTranslate va = s.vmmUserTranslate va) ∧
      ∃ s'', s'.vmmUserUnmap virt = (s'', some phys) ∧ s''.TreeShape pml4 ∧
        (∀ o < pageSize, s''.vmmUserTranslate (virt + o) = none) ∧
        ∀ va, Pmm.pageOf va ≠ virt → s''.vmmUserTranslate va = s'.vmmUserTranslate va) ∧
    (∀ virt phys flags s' rc, s.vmmUserMap virt phys flags = (s', rc) → rc ≠ 0 →
      s'.TreeShape pml4 ∧ ∀ va, s'.vmmUserTranslate va = s.vmmUserTranslate va) ∧
    (∀ va, s.vmmUserTranslateCr3 root va = s.vmmUserTranslate va ∧
      s.vmmUserTranslate va = (s.cowWalk root (Pmm.pageOf va)).bind fun leaf ↦
        if s.words leaf.1 leaf.2 &&& pteP = 0 then none
        else some (s.words leaf.1 leaf.2 &&& pteAddrMask ||| UInt64.ofNat (va % pageSize),
          s.words leaf.1 leaf.2)) := by
  refine ⟨fun virt phys flags s' hal hphys hc ↦ ?_, fun virt phys flags s' rc hc hrc ↦ ?_,
    fun va ↦ ?_⟩
  · obtain ⟨hrc, -⟩ | ⟨-, hvirt, s₁, pt, hg, hpt, rfl⟩ := h.vmmUserMap hu ht hc
    · exact absurd rfl hrc
    obtain ⟨hbit, haddr, hflags⟩ := userEntry_bits phys flags
    rw [hphys] at haddr
    have hpage : Pmm.pageOf virt = virt := by
      simp only [Pmm.pageOf, pageSize] at *
      omega
    obtain ⟨hshape, hleaf, hother⟩ := hg.shape.setLeaf hvirt hpt (userEntry phys flags)
    set s₂ := s₁.setWord pt (idx 0 virt) (userEntry phys flags) with hs₂
    have hword : s₂.words pt (idx 0 virt) = userEntry phys flags := by
      simp only [hs₂, setWord, update_self]
    have hu₂ : s₂.user = some root := hg.user.trans hu
    have ht₂ : s₂.table root = some pml4 := (table_congr hg.hhdm root).trans ht
    refine ⟨hshape, fun o ho ↦ ⟨userEntry phys flags, ?_, haddr, hflags⟩, fun va hne ↦ ?_, ?_⟩
    · obtain ⟨hsame, hidx⟩ := leafTable_offset s₂ pml4 hal ho
      have hlt : virt + o < userTop := by
        simp only [userTop, pageSize] at *
        omega
      rw [vmmUserTranslate_eq hu₂ hlt, ht₂, Option.bind_some, hsame, hleaf, Option.bind_some, page,
        hidx, hword, if_neg hbit,
        haddr, (page_offset hal ho).2]
    · refine translate_congr hg.user hu ht hg.hhdm fun hva ↦ ?_
      rw [hother va hva (by rwa [hpage]), hg.entries va hva]
    · have hun := hshape.vmmUserUnmap hu₂ ht₂ hvirt hal hleaf (by rwa [hword])
      rwa [hword, haddr] at hun
  · obtain ⟨-, hg⟩ | ⟨hzero, -⟩ := h.vmmUserMap hu ht hc
    · exact ⟨hg.shape, fun va ↦ translate_congr hg.user hu ht hg.hhdm (hg.entries va)⟩
    · exact absurd hzero hrc
  · by_cases hva : va < userTop
    · have hbase : Pmm.pageOf va < userTop := Vmm.pageOf_lt_userTop.2 hva
      have hal : Pmm.pageOf va % pageSize = 0 := by
        simp only [Pmm.pageOf, pageSize]
        omega
      have hwalk : s.leafTable pml4 (Pmm.pageOf va) = s.leafTable pml4 va := by
        simp only [leafTable, userPath, Tab.idx_pageOf]
      rw [vmmUserTranslateCr3_eq ht hva, vmmUserTranslate_eq hu hva, ht, Option.bind_some,
        cowWalk_eq ht hbase hal, hwalk]
      refine ⟨rfl, ?_⟩
      cases s.leafTable pml4 va with
      | none => rfl
      | some pt =>
        simp only [Option.bind_some, Option.map_some, page, Tab.idx_pageOf]
    · have hcan : canonicalUser va = false := by simpa [canonicalUser] using hva
      have hnone : s.vmmUserTranslate va = none := by simp only [vmmUserTranslate, hu, hcan, if_true]
      have hout : Pmm.pageOf va % pageSize ≠ 0 ∨ userTop ≤ Pmm.pageOf va :=
        .inr (not_lt.1 fun hc ↦ hva (Vmm.pageOf_lt_userTop.1 hc))
      refine ⟨?_, ?_⟩
      · rw [hnone, vmmUserTranslateCr3, vmmCr3TranslateDirect, if_pos (.inr (.inr hcan))]
      · rw [hnone, cowWalk, if_pos hout, Option.bind_none]

def emptyRoot : Paging where
  pmm :=
    { regions := [⟨4096, 4224, 4097⟩]
      hhdm := 0xFFFF800000000000
      freePages := 127
      pageState := fun f ↦ f = 4096
      reservedState := fun _ ↦ false
      pageRefs := fun f ↦ if f = 4096 then 1 else 0
      ready := true }
  words := fun _ _ ↦ 0
  user := some 0x1000000

theorem emptyRoot_shape : emptyRoot.TreeShape 4096 := by
  have hnext : ∀ f i, emptyRoot.next f i = none :=
    fun f i ↦ if_pos (.inl (show (0 : UInt64) &&& pteP = 0 by decide))
  have hroot : ∀ p f, follow emptyRoot.next 4096 p = some f → p = [] ∧ f = 4096 := by
    intro p f hf
    induction p using List.reverseRecOn with
    | nil => exact ⟨rfl, (Option.some.inj hf).symm⟩
    | append_singleton p i _ =>
      obtain ⟨g, -, hg⟩ := follow_snoc_some.1 hf
      rw [hnext] at hg
      cases hg
  refine ⟨fun p q f _ _ hp hq ↦ ?_, fun p f i _ _ hpres ↦
    absurd (show (0 : UInt64) &&& pteP = 0 by decide) hpres, fun p f _ hf ↦ ?_⟩
  · rw [(hroot p f hp).1, (hroot q f hq).1]
  · rw [(hroot p f hf).2]
    decide +kernel

def oneMapped : Paging := (emptyRoot.vmmUserMap 0x400000 0x5000 (pteW ||| pteNx)).1

theorem user_pages_one : oneMapped.TreeShape 4096 ∧
    (∃ pte, oneMapped.vmmUserTranslate (0x400000 + 8) = some (0x5000 ||| UInt64.ofNat 8, pte) ∧
      pte &&& ~~~pteAddrMask = pteP ||| pteU ||| (pteW ||| pteNx) &&&
        (pteW ||| pteNx ||| ptePwt ||| ptePcd)) ∧
    (oneMapped.vmmUserUnmap 0x400000).2 = some 0x5000 := by
  obtain ⟨hmap, -, -⟩ := user_pages emptyRoot 0x1000000 4096 rfl (by decide +kernel) emptyRoot_shape
  have hrc : emptyRoot.vmmUserMap 0x400000 0x5000 (pteW ||| pteNx) = (oneMapped, 0) :=
    Prod.ext rfl (by decide +kernel)
  obtain ⟨hshape, hat, -, s', hun, -⟩ :=
    hmap 0x400000 0x5000 (pteW ||| pteNx) oneMapped (by decide) (by decide) hrc
  obtain ⟨pte, htr, -, hflags⟩ := hat 8 (by decide)
  exact ⟨hshape, ⟨pte, htr, hflags⟩, by rw [hun]⟩

/-- The walk for copy-on-write refuses addresses inside a page and finds entries that are not
present, and an address beyond the 52 bits of an entry is cut off. -/
theorem walks_differ : emptyRoot.TreeShape 4096 ∧
    ((oneMapped.vmmUserTranslate 0x400001).isSome = true ∧
      oneMapped.cowWalk 0x1000000 0x400001 = none) ∧
    (oneMapped.vmmUserTranslate 0x401000 = none ∧
      (oneMapped.cowWalk 0x1000000 0x401000).isSome = true) ∧
    (emptyRoot.vmmUserMap 0x400000 0x10000000000000 0).2 = 0 ∧
      ((emptyRoot.vmmUserMap 0x400000 0x10000000000000 0).1.vmmUserTranslate 0x400000).map
        Prod.fst = some 0 := by
  refine ⟨emptyRoot_shape, ⟨?_, ?_⟩, ⟨?_, ?_⟩, ?_, ?_⟩
  all_goals decide +kernel

end Paging

end YabroOS.Memory
