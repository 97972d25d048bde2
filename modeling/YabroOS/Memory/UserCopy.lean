import YabroOS.Memory.Cow

namespace YabroOS.Memory

open Lib Function

namespace Tab

theorem walk_setLeaf_of_ne {s : Pmm} {n frame virt va : ℕ} {t : Tab n} {e : Option Pte}
    (h : ∃ j ≤ n, idx j va ≠ idx j virt) :
    walk s n frame (setLeaf n t virt e) va = walk s n frame t va := by
  obtain ⟨j, hj, hne⟩ := h
  induction n generalizing frame with
  | zero =>
    have hne : idx 0 va ≠ idx 0 virt := by
      rwa [Nat.le_zero.1 hj] at hne
    simp only [walk]
    cases e with
    | none => simp only [setLeaf, Slots.get?_erase_of_ne t hne]
    | some e => simp only [setLeaf, Slots.get?_set_of_ne t hne]
  | succ n ih =>
    simp only [setLeaf]
    split
    · next fl f c hc =>
      simp only [walk]
      by_cases hi : idx (n + 1) va = idx (n + 1) virt
      · have hjn : j ≤ n := by
          by_contra hlt
          have hj' : j = n + 1 := by omega
          subst hj'
          exact hne hi
        simp only [hi, Slots.get?_set_self, hc, ih hjn]
      · simp only [Slots.get?_set_of_ne t hi]
    · rfl

theorem idx_pageOf (n va : ℕ) : idx n (Pmm.pageOf va) = idx n va := by
  have h : Pmm.pageOf va / 2 ^ (12 + 9 * n) = va / 2 ^ (12 + 9 * n) := by
    rw [Pmm.pageOf, pageSize, pow_add, ← Nat.div_div_eq_div_mul, ← Nat.div_div_eq_div_mul]
    congr 1
    omega
  rw [idx, h, idx]

theorem walk_pageOf (s : Pmm) (n frame va : ℕ) (t : Tab n) :
    walk s n frame t (Pmm.pageOf va) = walk s n frame t va := by
  induction n generalizing frame with
  | zero => simp only [walk, idx_pageOf]
  | succ n ih => simp only [walk, idx_pageOf, ih]

theorem exists_idx_ne {va virt : ℕ} (hva : va < userTop) (hvirt : virt < userTop)
    (h : Pmm.pageOf va ≠ Pmm.pageOf virt) : ∃ j ≤ 3, idx j va ≠ idx j virt := by
  by_contra hall
  push Not at hall
  have h₀ := hall 0 (by omega)
  have h₁ := hall 1 (by omega)
  have h₂ := hall 2 (by omega)
  have h₃ := hall 3 (by omega)
  simp only [idx, userTop, Pmm.pageOf, pageSize] at *
  norm_num at h₀ h₁ h₂ h₃
  omega

end Tab

namespace Vmm

variable {s s' : Vmm} {root virt va r : ℕ} {e : Pte}

def userByte (s : Vmm) (root va : ℕ) : Option UInt8 :=
  (s.vmmUserTranslateCr3 root va).map (fun e ↦ s.bytes e.frame (va % pageSize))

def copyFromLoop (s : Vmm) (root : ℕ) : ℕ → ℕ → ℕ → Option (List UInt8)
  | 0, _, len => if len = 0 then some [] else none
  | fuel + 1, src, len =>
    if len = 0 then some []
    else
      let off := src % pageSize
      let n := min (pageSize - off) len
      match s.vmmUserTranslateCr3 root (Pmm.pageOf src) with
      | none => none
      | some pte =>
        if pte.u ∧ s.pmm.physToVirtOk (pte.frame * pageSize) then
          (copyFromLoop s root fuel (src + n) (len - n)).map
            (fun rest ↦ (List.range n).map (fun i ↦ s.bytes pte.frame (off + i)) ++ rest)
        else none

/-- The bytes that are copied; `none` is the source's `-EFAULT`. -/
def userCopyFromCr3 (s : Vmm) (root src len : ℕ) : Option (List UInt8) :=
  if root = 0 then none else copyFromLoop s root len src len

def vmmUserRangeOk (s : Vmm) (virt len : ℕ) (write : Bool) : Bool :=
  if s.user = none ∨ len = 0 ∨ canonicalUser virt = false ∨ userTop - virt < len then false
  else
    (List.range ((virt + len - 1) / pageSize - virt / pageSize + 1)).all (fun i ↦
      match s.vmmUserTranslate ((virt / pageSize + i) * pageSize) with
      | none => false
      | some pte => pte.u && (!write || pte.w || pte.cow))

theorem pageOf_lt_userTop : Pmm.pageOf va < userTop ↔ va < userTop := by
  simp only [Pmm.pageOf, pageSize, userTop]
  omega

theorem translate_pageOf :
    s.vmmUserTranslateCr3 root (Pmm.pageOf va) = s.vmmUserTranslateCr3 root va := by
  have hcan : canonicalUser (Pmm.pageOf va) = canonicalUser va := by
    simp only [canonicalUser, pageOf_lt_userTop]
  simp only [vmmUserTranslateCr3, hcan, Tab.walk_pageOf]

theorem translate_lt (h : s.vmmUserTranslateCr3 root va = some e) : va < userTop := by
  simp only [vmmUserTranslateCr3] at h
  split_ifs at h with hcan
  simpa [canonicalUser] using hcan

theorem translate_congr (hsp : s'.spaces = s.spaces) (hh : s'.pmm.hhdm = s.pmm.hhdm) :
    s'.vmmUserTranslateCr3 root va = s.vmmUserTranslateCr3 root va := by
  simp only [vmmUserTranslateCr3, hsp, walk_congr hh]

theorem translate_setLeaf_of_ne {o : Option Pte} (h : s.vmmUserTranslateCr3 root virt = some e)
    (hsp : s'.spaces = setLeafIn s.spaces root virt o) (hh : s'.pmm.hhdm = s.pmm.hhdm)
    (hne : Pmm.pageOf va ≠ Pmm.pageOf virt) :
    s'.vmmUserTranslateCr3 root va = s.vmmUserTranslateCr3 root va := by
  have hvirt := translate_lt h
  simp only [vmmUserTranslateCr3] at h ⊢
  split_ifs at h
  split at h
  · cases h
  · next t ht =>
    by_cases hva : va < userTop
    · rw [hsp]
      simp only [setLeafIn, ht, Slots.get?_set_self]
      rw [walk_congr hh, Tab.walk_setLeaf_of_ne (Tab.exists_idx_ne hva hvirt hne)]
    · have hcan : canonicalUser va = false := by simpa [canonicalUser] using hva
      simp [hcan]

/-- A page of `s` has been given another frame with the same contents, or nothing has changed for
the address spaces. -/
inductive Remaps (s s' : Vmm) (root virt : ℕ) : Prop
  | same (spaces : s'.spaces = s.spaces) (bytes : s'.bytes = s.bytes)
  | moved (e e' : Pte) (page : s.vmmUserTranslateCr3 root virt = some e)
      (spaces : s'.spaces = setLeafIn s.spaces root virt (some e'))
      (bytes : s'.bytes = update s.bytes e'.frame (s.bytes e.frame))
      (frame : e'.frame = e.frame ∨ ¬ s.pmm.pool.exempt e'.frame ∧ e'.frame ∉ s.uses.map Prod.fst)

theorem cowFault_remaps {addr : ℕ} {rc : Int} (h : s.pmm.pool.Backed (s.uses.map Prod.fst))
    (hc : s.vmmUserCowFault root addr = (s', rc)) :
    Remaps s s' root (Pmm.pageOf addr) ∧ s'.pmm.hhdm = s.pmm.hhdm := by
  simp only [vmmUserCowFault] at hc
  split at hc
  · cases hc
    exact ⟨.same rfl rfl, rfl⟩
  next pte hpte =>
  split_ifs at hc
  · cases hc
    exact ⟨.same rfl rfl, rfl⟩
  · cases hc
    refine ⟨.moved pte _ hpte rfl ?_ (.inl rfl), rfl⟩
    exact (update_eq_self _ _).symm
  · split at hc
    · next pmm ha =>
      cases hc
      exact ⟨.same rfl rfl, (Pmm.pmmAllocPage_none ha).1⟩
    · next pmm np ha =>
      have hhdm := (Pmm.pmmAllocPage_some ha).2.1
      split_ifs at hc
      · cases hc
        refine ⟨.moved pte _ hpte rfl rfl (.inr ⟨(Pmm.pool_alloc ha).counted, ?_⟩), ?_⟩
        · exact h.not_mem (Pmm.pool_alloc ha)
        · exact (Pmm.pmmFreePage_hhdm _ _).trans hhdm
      · cases hc
        exact ⟨.same rfl rfl, (Pmm.pmmFreePage_hhdm _ _).trans hhdm⟩

theorem frame_mem_uses (h : s.vmmUserTranslateCr3 root va = some e) :
    e.frame ∈ s.uses.map Prod.fst := by
  obtain ⟨r, hr, -⟩ := translate_uses h
  rw [hr, Multiset.map_cons]
  exact Multiset.mem_cons_self _ _

theorem Remaps.bytes (h : Remaps s s' root virt) {f : ℕ} (hf : f ∈ s.uses.map Prod.fst) :
    s'.bytes f = s.bytes f := by
  cases h with
  | same _ hb => rw [hb]
  | moved e e' _ _ hb hframe =>
    rw [hb]
    by_cases hfe : f = e'.frame
    · subst hfe
      rcases hframe with hsame | ⟨-, hnot⟩
      · rw [update_self, hsame]
      · exact absurd hf hnot
    · rw [update_of_ne hfe]

theorem Remaps.userByte (h : Remaps s s' root (Pmm.pageOf virt)) (hh : s'.pmm.hhdm = s.pmm.hhdm) :
    s'.userByte root va = s.userByte root va := by
  have hbytes : ∀ e, s.vmmUserTranslateCr3 root va = some e → s'.bytes e.frame = s.bytes e.frame :=
    fun e he ↦ h.bytes (frame_mem_uses he)
  cases h with
  | same hsp hb => simp only [Vmm.userByte, translate_congr hsp hh, hb]
  | moved e e' he hsp hb hframe =>
    by_cases hpage : Pmm.pageOf va = Pmm.pageOf virt
    · have he' := translate_setLeaf he hsp hh
      rw [← hpage, translate_pageOf] at he he'
      simp only [Vmm.userByte, he, he', Option.map_some, hb, update_self]
    · have hne : Pmm.pageOf va ≠ Pmm.pageOf (Pmm.pageOf virt) := by
        rwa [show Pmm.pageOf (Pmm.pageOf virt) = Pmm.pageOf virt from Pmm.pageOf_mul _]
      have htr := translate_setLeaf_of_ne he hsp hh hne
      simp only [Vmm.userByte, htr]
      cases hva : s.vmmUserTranslateCr3 root va with
      | none => rfl
      | some e₁ => simp only [Option.map_some, hbytes e₁ hva]

theorem Remaps.translate_other (h : Remaps s s' root virt) (hh : s'.pmm.hhdm = s.pmm.hhdm)
    (hr : r ≠ root) : s'.vmmUserTranslateCr3 r va = s.vmmUserTranslateCr3 r va := by
  have herase : s'.spaces.erase root = s.spaces.erase root := by
    cases h with
    | same hsp _ => rw [hsp]
    | moved e e' _ hsp _ _ => rw [hsp, setLeafIn_erase]
  have hget : s'.spaces.get? r = s.spaces.get? r := by
    rw [← Slots.get?_erase_of_ne _ hr, herase, Slots.get?_erase_of_ne _ hr]
  simp only [vmmUserTranslateCr3, hget, walk_congr hh]

theorem Remaps.other (h : Remaps s s' root virt) (hh : s'.pmm.hhdm = s.pmm.hhdm) (hr : r ≠ root) :
    s'.userByte r va = s.userByte r va := by
  have htr : s'.vmmUserTranslateCr3 r va = s.vmmUserTranslateCr3 r va := h.translate_other hh hr
  simp only [Vmm.userByte, htr]
  cases hva : s.vmmUserTranslateCr3 r va with
  | none => rfl
  | some e => simp only [Option.map_some, h.bytes (frame_mem_uses hva)]

theorem writablePage_remaps {page : ℕ} {o : Option Pte}
    (h : s.pmm.pool.Backed (s.uses.map Prod.fst)) (hc : s.writablePage root page = (s', o)) :
    Remaps s s' root (Pmm.pageOf page) ∧ s'.pmm.hhdm = s.pmm.hhdm := by
  have hsame : Remaps s s root (Pmm.pageOf page) ∧ s.pmm.hhdm = s.pmm.hhdm := ⟨.same rfl rfl, rfl⟩
  simp only [writablePage] at hc
  split at hc
  · cases hc
    exact hsame
  cases hf : s.vmmUserCowFault root page with
  | mk s₁ rc₁ =>
  have h₁ := cowFault_remaps h hf
  simp only [hf] at hc
  split_ifs at hc
  · cases hc
    exact hsame
  · cases hc
    exact hsame
  · cases hc
    exact hsame
  · cases hc
    exact h₁
  · split at hc
    · cases hc
      exact h₁
    · split_ifs at hc
      · cases hc
        exact h₁
      · cases hc
        exact h₁

theorem putBytes_userByte {off : ℕ} {data : List UInt8}
    (h : ∀ e', s.vmmUserTranslateCr3 r va = some e' → e'.frame = e.frame → va % pageSize < off ∨
      off + data.length ≤ va % pageSize) :
    (s.putBytes e.frame off data).userByte r va = s.userByte r va := by
  have htr : (s.putBytes e.frame off data).vmmUserTranslateCr3 r va = s.vmmUserTranslateCr3 r va :=
    translate_congr rfl rfl
  simp only [userByte, htr]
  cases hva : s.vmmUserTranslateCr3 r va with
  | none => rfl
  | some e' =>
    simp only [Option.map_some, putBytes]
    by_cases hf : e'.frame = e.frame
    · rw [hf, update_self]
      rcases h e' hva hf with hlt | hge
      · simp only [writeBytes, if_neg (not_le.2 hlt)]
      · have hnone : data[va % pageSize - off]? = none := List.getElem?_eq_none (by omega)
        simp only [writeBytes, hnone, Option.getD_none, ite_self]
    · rw [update_of_ne hf]

theorem putBytes_reads {i off : ℕ} {data : List UInt8} (he : s.vmmUserTranslateCr3 root va = some e)
    (hi : i < data.length) (hoff : va % pageSize = off + i) :
    (s.putBytes e.frame off data).userByte root va = data[i]? := by
  have htr : (s.putBytes e.frame off data).vmmUserTranslateCr3 root va =
      s.vmmUserTranslateCr3 root va :=
    translate_congr rfl rfl
  simp only [userByte, htr, he, Option.map_some]
  simp only [putBytes, update_self, writeBytes, hoff]
  rw [if_pos (Nat.le_add_right off i), Nat.add_sub_cancel_left, List.getElem?_eq_getElem hi,
    Option.getD_some]

theorem Remaps.translate_of_ne (h : Remaps s s' root (Pmm.pageOf virt))
    (hh : s'.pmm.hhdm = s.pmm.hhdm) (hne : Pmm.pageOf va ≠ Pmm.pageOf virt) :
    s'.vmmUserTranslateCr3 root va = s.vmmUserTranslateCr3 root va := by
  cases h with
  | same hsp _ => exact translate_congr hsp hh
  | moved e e' he hsp _ _ =>
    refine translate_setLeaf_of_ne he hsp hh ?_
    rwa [show Pmm.pageOf (Pmm.pageOf virt) = Pmm.pageOf virt from Pmm.pageOf_mul _]

end Vmm

end YabroOS.Memory
