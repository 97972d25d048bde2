import YabroOS.Memory.Pages

namespace YabroOS.Memory

open Lib Function

/-- The frames of the framebuffer, the first and the last of them perhaps in part. -/
def fbRange (phys size f : ℕ) : Prop := phys / pageSize ≤ f ∧ f * pageSize < phys + size

namespace Vmm

variable {A : Account ℕ} {s s' s'' : Vmm} {root virt va : ℕ} {e : Pte} {o : Option ℕ}

/-- Every page and every table of an address space has a reference, unless it is the framebuffer's.
-/
def Framed (s : Vmm) : Prop := Kept (Account.backed (fbRange s.fbPhys s.fbSize)) s

/-- Pages come and go, and no address space is made or dropped. -/
structure Keeps (s s' : Vmm) : Prop where
  fbPhys : s'.fbPhys = s.fbPhys
  fbSize : s'.fbSize = s.fbSize
  user : s'.user = s.user
  hhdm : s'.pmm.hhdm = s.pmm.hhdm
  roots : ∀ r, (s'.spaces.get? r).isSome = (s.spaces.get? r).isSome
  framed : s.Framed → s'.Framed
  moves : s.pmm.Moves s'.pmm

theorem Keeps.refl (s : Vmm) : s.Keeps s := ⟨rfl, rfl, rfl, rfl, fun _ ↦ rfl, id, .refl _⟩

theorem Keeps.trans (h : s.Keeps s') (h' : s'.Keeps s'') : s.Keeps s'' where
  fbPhys := h'.fbPhys.trans h.fbPhys
  fbSize := h'.fbSize.trans h.fbSize
  user := h'.user.trans h.user
  hhdm := h'.hhdm.trans h.hhdm
  roots r := (h'.roots r).trans (h.roots r)
  framed hf := h'.framed (h.framed hf)
  moves := h.moves.trans h'.moves

theorem framed_of_kept (hphys : s'.fbPhys = s.fbPhys) (hsize : s'.fbSize = s.fbSize)
    (hk : Kept (Account.backed (fbRange s.fbPhys s.fbSize)) s') : s'.Framed := by
  unfold Framed
  rwa [hphys, hsize]

theorem Keeps.of_bytes (b : ℕ → ℕ → UInt8) (hs : s' = { s with bytes := b }) : s.Keeps s' := by
  subst hs
  exact ⟨rfl, rfl, rfl, rfl, fun _ ↦ rfl, id, .refl _⟩

theorem isSome_set {α : Type} {t : Slots α} {i : ℕ} {a b : α} (h : t.get? i = some a) (r : ℕ) :
    ((t.set i b).get? r).isSome = (t.get? r).isSome := by
  by_cases hr : r = i
  · subst hr
    rw [Slots.get?_set_self, h]
    rfl
  · rw [Slots.get?_set_of_ne t hr]

theorem isSome_setLeafIn (spaces : Slots (Tab 3)) (root virt : ℕ) (e : Option Pte) (r : ℕ) :
    ((setLeafIn spaces root virt e).get? r).isSome = (spaces.get? r).isSome := by
  unfold setLeafIn
  split
  · rfl
  · next t ht => exact isSome_set ht r

section Hhdm

variable {p p' : Pmm} {n : ℕ}

theorem hhdm_alloc (h : p.pmmAllocPage = (p', o)) : p'.hhdm = p.hhdm := by
  cases o with
  | none => exact (Pmm.pmmAllocPage_none h).1
  | some f => exact (Pmm.pmmAllocPage_some h).2.1

theorem hhdm_allocTable (h : p.allocTable = (p', o)) : p'.hhdm = p.hhdm := by
  simp only [Pmm.allocTable] at h
  split at h
  · next p₁ ha =>
    cases h
    exact hhdm_alloc ha
  · next p₁ f ha =>
    split_ifs at h
    · cases h
      exact hhdm_alloc ha
    · cases h
      exact (Pmm.pmmFreePage_hhdm _ _).trans (hhdm_alloc ha)

theorem hhdm_newUserTable {o : Option (PteFlags × ℕ × Tab n)} (h : Tab.newUserTable p n = (p', o)) :
    p'.hhdm = p.hhdm := by
  simp only [Tab.newUserTable] at h
  split at h
  · next p₁ ha =>
    cases h
    exact hhdm_allocTable ha
  · next p₁ f ha =>
    cases h
    exact hhdm_allocTable ha

theorem hhdm_ensureUserChild {e : Option (Entry (Tab n))} {o : Option (PteFlags × ℕ × Tab n)}
    (h : Tab.ensureUserChild p n e = (p', o)) : p'.hhdm = p.hhdm := by
  unfold Tab.ensureUserChild at h
  split at h
  · split_ifs at h
    · cases h
      rfl
    · cases h
      rfl
    · exact hhdm_newUserTable h
  · exact hhdm_newUserTable h

theorem hhdm_mapLeaf {t t' : Tab n} {ok : Bool} (h : Tab.mapLeaf n p t virt e = (p', t', ok)) :
    p'.hhdm = p.hhdm := by
  induction n generalizing p p' ok with
  | zero =>
    cases h
    rfl
  | succ n ih =>
    simp only [Tab.mapLeaf] at h
    split at h
    · next p₁ hc =>
      cases h
      exact hhdm_ensureUserChild hc
    · next p₁ fl f c hc =>
      cases h
      exact (ih rfl).trans (hhdm_ensureUserChild hc)

end Hhdm

section Walk

variable {p p' : Pmm} {n frame : ℕ}

theorem allocTable_table {f : ℕ} (h : p.allocTable = (p', some f)) : p'.table f = true := by
  simp only [Pmm.allocTable] at h
  split at h
  · cases h
  · split_ifs at h with ht
    · cases h
      exact ht
    · cases h

theorem ensureUserChild_some {e : Option (Entry (Tab n))} {fl : PteFlags} {f : ℕ} {c : Tab n}
    (h : Tab.ensureUserChild p n e = (p', some (fl, f, c))) :
    p'.table f = true ∧
      ((∃ fl', e = some (.next fl' f c)) ∨ c = Tab.empty n ∧
        ∀ fl' f' c', e = some (.next fl' f' c') → p.table f' = false) := by
  have hnew : ∀ {q : Pmm}, Tab.newUserTable q n = (p', some (fl, f, c)) → p'.table f = true ∧
      c = Tab.empty n := by
    intro q hq
    simp only [Tab.newUserTable] at hq
    split at hq
    · cases hq
    · next q₁ f₁ ha =>
      cases hq
      exact ⟨allocTable_table ha, rfl⟩
  unfold Tab.ensureUserChild at h
  split at h
  · next fl' f' c' =>
    split_ifs at h with htab
    · cases h
      exact ⟨htab, .inl ⟨_, rfl⟩⟩
    · cases h
      exact ⟨htab, .inl ⟨_, rfl⟩⟩
    · refine ⟨(hnew h).1, .inr ⟨(hnew h).2, fun fl₁ f₁ c₁ he ↦ ?_⟩⟩
      cases he
      simpa using htab
  · next hne => exact ⟨(hnew h).1, .inr ⟨(hnew h).2, fun fl₁ f₁ c₁ he ↦ (hne fl₁ f₁ c₁ he).elim⟩⟩

theorem walk_mapLeaf {t t' : Tab n} (hf : p.table frame = true)
    (h : Tab.mapLeaf n p t virt e = (p', t', true)) : Tab.walk p' n frame t' virt = some e := by
  have hf' : p'.table frame = true := by rw [Pmm.table_congr (hhdm_mapLeaf h), hf]
  induction n generalizing p p' frame with
  | zero =>
    cases h
    simp only [Tab.walk, hf', if_true]
    exact Slots.get?_set_self _ _ _
  | succ n ih =>
    simp only [Tab.mapLeaf] at h
    split at h
    · cases h
    · next p₁ fl f c hc =>
      cases hm : Tab.mapLeaf n p₁ c virt e with
      | mk p₂ q =>
      obtain ⟨c', ok⟩ := q
      rw [hm] at h
      cases h
      have hchild := (ensureUserChild_some hc).1
      have hwalk := ih hchild hm (by rw [Pmm.table_congr (hhdm_mapLeaf hm), hchild])
      simp only [Tab.walk, hf', if_true, Slots.get?_set_self]
      exact hwalk

theorem walk_empty (p : Pmm) (n frame va : ℕ) : Tab.walk p n frame (Tab.empty n) va = none := by
  cases n with
  | zero =>
    simp only [Tab.walk]
    split_ifs
    · rfl
    · rfl
  | succ n =>
    simp only [Tab.walk]
    split_ifs
    · rfl
    · rfl

theorem walk_of_table {t : Tab n} (h : p.table frame = false) : Tab.walk p n frame t va = none := by
  cases n with
  | zero => simp [Tab.walk, h]
  | succ n => simp [Tab.walk, h]

theorem walk_mapLeaf_of_ne {t t' : Tab n} {ok : Bool} (hne : ∃ j ≤ n, idx j va ≠ idx j virt)
    (h : Tab.mapLeaf n p t virt e = (p', t', ok)) :
    Tab.walk p' n frame t' va = Tab.walk p n frame t va := by
  obtain ⟨j, hj, hne⟩ := hne
  have htab : ∀ f, p'.table f = p.table f := Pmm.table_congr (hhdm_mapLeaf h)
  induction n generalizing p p' frame ok with
  | zero =>
    cases h
    have hne : idx 0 va ≠ idx 0 virt := by rwa [Nat.le_zero.1 hj] at hne
    simp only [Tab.walk, Slots.get?_set_of_ne t hne]
  | succ n ih =>
    simp only [Tab.mapLeaf] at h
    split at h
    · next p₁ hc =>
      cases h
      exact walk_congr (hhdm_ensureUserChild hc) _ _ _ _
    next p₁ fl f c hc =>
    cases hm : Tab.mapLeaf n p₁ c virt e with
    | mk p₂ q =>
    obtain ⟨c', ok'⟩ := q
    rw [hm] at h
    cases h
    have hhdm₁ := hhdm_ensureUserChild hc
    have hhdm₂ := hhdm_mapLeaf hm
    simp only [Tab.walk, htab]
    split_ifs
    swap
    · rfl
    by_cases hi : idx (n + 1) va = idx (n + 1) virt
    swap
    · rw [Slots.get?_set_of_ne t hi]
      split
      · exact walk_congr (hhdm₂.trans hhdm₁) _ _ _ _
      · rfl
    have hjn : j ≤ n := by
      by_contra hlt
      have hj' : j = n + 1 := by omega
      subst hj'
      exact hne hi
    rw [hi, Slots.get?_set_self]
    have hwalk : Tab.walk p₂ n f c' va = Tab.walk p₁ n f c va := ih hm hjn (Pmm.table_congr hhdm₂)
    dsimp only
    rw [hwalk]
    -- The walk below is the one in the old child, or in an empty table that replaces nothing
    -- addressable.
    obtain ⟨-, ⟨fl', he⟩ | ⟨rfl, hold⟩⟩ := ensureUserChild_some hc
    · rw [he]
      exact walk_congr hhdm₁ _ _ _ _
    · rw [walk_empty]
      split
      · next fl' f' c₁ he => exact (walk_of_table (hold fl' f' c₁ he)).symm
      · rfl

end Walk

theorem userMap_frame (s : Vmm) (virt frame : ℕ) (flags : PteFlags) :
    (s.vmmUserMap virt frame flags).1.fbPhys = s.fbPhys ∧
      (s.vmmUserMap virt frame flags).1.fbSize = s.fbSize ∧
      (s.vmmUserMap virt frame flags).1.user = s.user ∧
        (s.vmmUserMap virt frame flags).1.pmm.hhdm = s.pmm.hhdm ∧
      ∀ r, ((s.vmmUserMap virt frame flags).1.spaces.get? r).isSome = (s.spaces.get? r).isSome := by
  simp only [vmmUserMap]
  split
  · exact ⟨rfl, rfl, rfl, rfl, fun _ ↦ rfl⟩
  split
  · exact ⟨rfl, rfl, rfl, rfl, fun _ ↦ rfl⟩
  split
  · exact ⟨rfl, rfl, rfl, rfl, fun _ ↦ rfl⟩
  · next t ht => exact ⟨rfl, rfl, rfl, hhdm_mapLeaf rfl, isSome_set ht⟩

theorem translate_userMap {frame : ℕ} {flags : PteFlags}
    (h : s.vmmUserMap virt frame flags = (s', 0)) :
    s'.vmmUserTranslate virt = some (userPte frame flags) := by
  simp only [vmmUserMap] at h
  split at h
  · cases h
  next root hroot =>
  split_ifs at h with hbad
  · cases h
  split at h
  · cases h
  next t ht =>
  cases hl : Tab.mapLeaf 3 s.pmm t virt (userPte frame flags) with
  | mk pmm q =>
  obtain ⟨t', ok⟩ := q
  rw [hl] at h
  cases ok with
  | false => cases h
  | true =>
    cases h
    simp only [not_or, Bool.not_eq_false] at hbad
    simp only [vmmUserTranslate, hroot, vmmUserTranslateCr3, hbad.1, if_true, Slots.get?_set_self]
    exact walk_mapLeaf hbad.2.2 hl

theorem translate_userMap_of_ne (s : Vmm) (frame : ℕ) (flags : PteFlags) {r : ℕ}
    (hne : s.user = some r → Pmm.pageOf va ≠ Pmm.pageOf virt) :
    (s.vmmUserMap virt frame flags).1.vmmUserTranslateCr3 r va = s.vmmUserTranslateCr3 r va := by
  simp only [vmmUserMap]
  split
  · rfl
  next root hroot =>
  split_ifs with hbad
  · rfl
  split
  · rfl
  next t ht =>
  have hhdm :=
    hhdm_mapLeaf (show Tab.mapLeaf 3 s.pmm t virt (userPte frame flags) = (_, _, _) from rfl)
  by_cases hr : r = root
  · subst hr
    have hvirt : virt < userTop := by
      simp only [not_or, Bool.not_eq_false] at hbad
      simpa [canonicalUser] using hbad.1
    simp only [vmmUserTranslateCr3, Slots.get?_set_self, ht]
    split_ifs with hcan
    · have hva : va < userTop := by simpa [canonicalUser] using hcan
      exact walk_mapLeaf_of_ne (Tab.exists_idx_ne hva hvirt (hne hroot)) rfl
    · rfl
  · simp only [vmmUserTranslateCr3, Slots.get?_set_of_ne _ hr]
    split_ifs
    · split
      · rfl
      · exact walk_congr hhdm _ _ _ _
    · rfl

theorem Keeps.setLeaf (s : Vmm) (root virt : ℕ) (e : Option Pte)
    (hk : s.Framed → Kept (Account.backed (fbRange s.fbPhys s.fbSize)) (s.setLeaf root virt e)) :
    s.Keeps (s.setLeaf root virt e) :=
  ⟨rfl, rfl, rfl, rfl, isSome_setLeafIn _ _ _ _, hk, .refl _⟩

theorem Keeps.cowFault (s : Vmm) (root addr : ℕ) : s.Keeps (s.vmmUserCowFault root addr).1 := by
  have hk : s.Framed →
      Kept (Account.backed (fbRange s.fbPhys s.fbSize)) (s.vmmUserCowFault root addr).1 :=
    fun h ↦ (kept_cowFault h rfl).1
  have hmoves := moves_cowFault s root addr
  revert hk hmoves
  simp only [vmmUserCowFault]
  split
  · exact fun _ _ ↦ .refl s
  split_ifs
  · exact fun _ _ ↦ .refl s
  · exact fun hk _ ↦ Keeps.setLeaf s _ _ _ hk
  split
  · next pmm ha => exact fun hk hmoves ↦ ⟨rfl, rfl, rfl, hhdm_alloc ha, fun _ ↦ rfl, hk, hmoves⟩
  · next pmm np ha =>
    split_ifs
    · exact fun hk hmoves ↦
        ⟨rfl, rfl, rfl, (Pmm.pmmFreePage_hhdm _ _).trans (hhdm_alloc ha), isSome_setLeafIn _ _ _ _,
          hk, hmoves⟩
    · exact fun hk hmoves ↦
        ⟨rfl, rfl, rfl, (Pmm.pmmFreePage_hhdm _ _).trans (hhdm_alloc ha), fun _ ↦ rfl, hk, hmoves⟩

theorem Keeps.unmapFree (s : Vmm) (virt : ℕ) : s.Keeps (s.unmapFree virt) := by
  have hk : s.Framed → Kept (Account.backed (fbRange s.fbPhys s.fbSize)) (s.unmapFree virt) :=
    fun h ↦ kept_unmapFree h
  have hmoves := moves_unmapFree s virt
  revert hk hmoves
  simp only [Vmm.unmapFree, vmmUserUnmap]
  cases s.user with
  | none => exact fun _ _ ↦ .refl s
  | some root =>
  dsimp only
  split_ifs with hal
  · exact fun _ _ ↦ .refl s
  cases s.vmmUserTranslateCr3 root virt with
  | none => exact fun _ _ ↦ .refl s
  | some e =>
  dsimp only
  split_ifs
  · exact fun hk _ ↦ Keeps.setLeaf s _ _ _ hk
  · exact fun hk hmoves ↦
      ⟨rfl, rfl, rfl, Pmm.pmmFreePage_hhdm _ _, isSome_setLeafIn _ _ _ _, hk, hmoves⟩

theorem Keeps.userUnmap (s : Vmm) (virt : ℕ) : s.Keeps (s.vmmUserUnmap virt).1 := by
  simp only [vmmUserUnmap]
  cases hu : s.user with
  | none => exact .refl s
  | some root =>
  dsimp only
  split_ifs
  · exact .refl s
  split
  · exact .refl s
  · next e he =>
    refine Keeps.setLeaf s _ _ _ (fun h ↦ ?_)
    obtain ⟨r, hr, -, hclear, -⟩ := translate_uses he
    show (Account.backed _).Holds s.pmm.pool ((setLeafIn s.spaces root virt none).total treeUses)
    rw [hclear]
    have hs : (Account.backed (fbRange s.fbPhys s.fbSize)).Holds s.pmm.pool (Tab.claim e ::ₘ r) :=
      hr ▸ h
    exact hs.mono (Multiset.le_cons_self _ _)

theorem Keeps.reflag (he : s.vmmUserTranslateCr3 root virt = some e) (flags : PteFlags) :
    s.Keeps (s.setLeaf root virt (some (userPte e.frame flags))) := by
  refine Keeps.setLeaf s _ _ _ (fun h ↦ ?_)
  obtain ⟨r, hr, hset, -, -⟩ := translate_uses he
  have hs : (Account.backed (fbRange s.fbPhys s.fbSize)).Holds s.pmm.pool (Tab.claim e ::ₘ r) :=
    hr ▸ h
  show (Account.backed _).Holds s.pmm.pool ((setLeafIn s.spaces root virt _).total treeUses)
  rw [hset]
  exact ⟨by simpa [Tab.claim, userPte] using hs.1, hs.2⟩

theorem Keeps.userProtect (s : Vmm) (virt : ℕ) (flags : PteFlags) :
    s.Keeps (s.vmmUserProtect virt flags).1 := by
  simp only [vmmUserProtect]
  cases hu : s.user with
  | none => exact .refl s
  | some root =>
  dsimp only
  split
  · exact .refl s
  split
  · exact .refl s
  next pte hpte =>
  split
  · have hcow := Keeps.cowFault s root virt
    split
    · exact hcow
    · split
      · exact hcow
      · next pte₁ hpte₁ => exact hcow.trans (Keeps.reflag hpte₁ flags)
  · exact Keeps.reflag hpte flags

def Pending (s s' : Vmm) (frame : ℕ) : Prop :=
  s'.fbPhys = s.fbPhys ∧ s'.fbSize = s.fbSize ∧ s'.user = s.user ∧ s'.pmm.hhdm = s.pmm.hhdm ∧
    (∀ r, (s'.spaces.get? r).isSome = (s.spaces.get? r).isSome) ∧
    (s.Framed → Kept ((Account.backed (fbRange s.fbPhys s.fbSize)).beside {(frame, .shared)}) s') ∧
      s.pmm.Moves s'.pmm

namespace Pending

variable {frame : ℕ}

theorem alloc {p : Pmm} (ha : s.pmm.pmmAllocPage = (p, some frame)) :
    s.Pending { s with pmm := p } frame :=
  ⟨rfl, rfl, rfl, hhdm_alloc ha, fun _ ↦ rfl, fun h ↦ Pmm.holds_alloc h ha .shared, .alloc ha⟩

theorem bytes (h : s.Pending s' frame) (b : ℕ → ℕ → UInt8) :
    s.Pending { s' with bytes := b } frame := h

theorem unmapFree (h : s.Pending s' frame) (virt : ℕ) : s.Pending (s'.unmapFree virt) frame := by
  obtain ⟨hphys, hsize, huser, hhdm, hroots, hkept, hmoves⟩ := h
  have hk := Keeps.unmapFree s' virt
  exact ⟨hk.fbPhys.trans hphys, hk.fbSize.trans hsize, hk.user.trans huser, hk.hhdm.trans hhdm,
    fun r ↦ (hk.roots r).trans (hroots r), fun h ↦ kept_unmapFree (hkept h), hmoves.trans hk.moves⟩

theorem free (h : s.Pending s' frame) :
    s.Keeps { s' with pmm := s'.pmm.pmmFreePage (frame * pageSize) } := by
  obtain ⟨hphys, hsize, huser, hhdm, hroots, hkept, hmoves⟩ := h
  refine ⟨hphys, hsize, huser, (Pmm.pmmFreePage_hhdm _ _).trans hhdm, hroots,
    fun h ↦ framed_of_kept hphys hsize ?_,
    hmoves.trans (.free _ _)⟩
  have hk : (Account.backed _).Holds s'.pmm.pool ((frame, .shared) ::ₘ s'.uses) := hkept h
  exact Pmm.holds_free hk

theorem keeps (h : s.Pending s' frame) : s.Keeps s' := by
  obtain ⟨hphys, hsize, huser, hhdm, hroots, hkept, hmoves⟩ := h
  refine ⟨hphys, hsize, huser, hhdm, hroots, fun h ↦ framed_of_kept hphys hsize ?_, hmoves⟩
  have hk : (Account.backed _).Holds s'.pmm.pool ((frame, .shared) ::ₘ s'.uses) := hkept h
  exact hk.mono (Multiset.le_cons_self _ _)

theorem map (h : s.Pending s' frame) (virt : ℕ) (flags : PteFlags) :
    if (s'.vmmUserMap virt frame flags).2 = 0 then s.Keeps (s'.vmmUserMap virt frame flags).1
    else s.Pending (s'.vmmUserMap virt frame flags).1 frame := by
  obtain ⟨hphys, hsize, huser, hhdm, hroots, hkept, hmoves⟩ := h
  obtain ⟨hphys', hsize', huser', hhdm', hroots'⟩ := userMap_frame s' virt frame flags
  have hmoves' := hmoves.trans (moves_userMap s' virt frame flags)
  generalize hr : s'.vmmUserMap virt frame flags = r at hphys' hsize' huser' hhdm' hroots' hmoves' ⊢
  have hmap : s.Framed → if r.2 = 0 then Kept (Account.backed (fbRange s.fbPhys s.fbSize)) r.1 else
      (Account.backed (fbRange s.fbPhys s.fbSize)).Holds r.1.pmm.pool
        (Tab.claim (userPte frame flags) ::ₘ r.1.uses) := by
    intro h
    refine kept_map ?_ hr
    obtain ⟨hb, he⟩ := hkept h
    exact ⟨by simpa [Tab.claim, userPte] using hb, he⟩
  split_ifs with hrc
  · refine ⟨hphys'.trans hphys, hsize'.trans hsize, huser'.trans huser, hhdm'.trans hhdm,
      fun r ↦ (hroots' r).trans (hroots r), fun h ↦
        framed_of_kept (hphys'.trans hphys) (hsize'.trans hsize) ?_, hmoves'⟩
    have hm := hmap h
    rwa [if_pos hrc] at hm
  · refine ⟨hphys'.trans hphys, hsize'.trans hsize, huser'.trans huser, hhdm'.trans hhdm,
      fun r ↦ (hroots' r).trans (hroots r), fun h ↦ ?_, hmoves'⟩
    have hm := hmap h
    rw [if_neg hrc] at hm
    obtain ⟨hb, he⟩ := hm
    exact ⟨by simpa [Tab.claim, userPte] using hb, he⟩

theorem map_keeps (h : s.Pending s' frame) (virt : ℕ) (flags : PteFlags) :
    s.Keeps (s'.vmmUserMap virt frame flags).1 := by
  have hm := h.map virt flags
  split_ifs at hm
  · exact hm
  · exact hm.keeps

theorem map_free (h : s.Pending s' frame) (virt : ℕ) (flags : PteFlags)
    (hrc : (s'.vmmUserMap virt frame flags).2 ≠ 0) :
    s.Keeps { (s'.vmmUserMap virt frame flags).1 with
      pmm := (s'.vmmUserMap virt frame flags).1.pmm.pmmFreePage (frame * pageSize) } := by
  have hm := h.map virt flags
  rw [if_neg hrc] at hm
  exact hm.free

end Pending

theorem Keeps.alloc {p : Pmm} (ha : s.pmm.pmmAllocPage = (p, o)) : s.Keeps { s with pmm := p } := by
  refine ⟨rfl, rfl, rfl, hhdm_alloc ha, fun _ ↦ rfl, fun h ↦ ?_, .alloc ha⟩
  cases o with
  | none => exact Pmm.holds_alloc_none h ha
  | some f => exact (Pmm.holds_alloc h ha .shared).mono (Multiset.le_cons_self _ _)

theorem Keeps.mapFresh (s : Vmm) (virt : ℕ) (content : ℕ → UInt8) (flags : PteFlags) :
    s.Keeps (s.mapFresh virt content flags).1 := by
  simp only [Vmm.mapFresh]
  split
  · next pmm ha => exact Keeps.alloc ha
  · next pmm frame ha =>
    have hpend := (Pending.alloc ha).bytes (update s.bytes frame content)
    split_ifs with hok hrc
    · exact hpend.map_free virt flags hrc
    · exact hpend.map_keeps virt flags
    · exact (Pending.alloc ha).free

theorem Keeps.mapZero (flags : PteFlags) (s : Vmm) (virt : ℕ) : s.Keeps (mapZero flags s virt).1 :=
  Keeps.mapFresh s virt _ flags

theorem Keeps.writablePage (s : Vmm) (root page : ℕ) : s.Keeps (s.writablePage root page).1 := by
  have hcow := Keeps.cowFault s root page
  simp only [Vmm.writablePage]
  split
  · exact .refl s
  · split_ifs
    · exact .refl s
    · exact .refl s
    · exact .refl s
    · exact hcow
    · split
      · exact hcow
      · split_ifs
        · exact hcow
        · exact hcow

theorem Keeps.copyToLoop (root fuel : ℕ) (s : Vmm) (dst : ℕ) (data : List UInt8) :
    s.Keeps (Vmm.copyToLoop root fuel s dst data).1 := by
  induction fuel generalizing s dst data with
  | zero => exact .refl s
  | succ fuel ih =>
    have hw := Keeps.writablePage s root (Pmm.pageOf dst)
    simp only [Vmm.copyToLoop]
    split_ifs
    · exact .refl s
    split
    · next s₁ he =>
      rw [he] at hw
      exact hw
    · next s₁ pte he =>
      rw [he] at hw
      split_ifs
      · exact (hw.trans (Keeps.of_bytes _ rfl)).trans (ih _ _ _)
      · exact hw

theorem Keeps.userCopyToCr3 (s : Vmm) (root dst : ℕ) (data : List UInt8) :
    s.Keeps (s.userCopyToCr3 root dst data).1 := by
  unfold Vmm.userCopyToCr3
  split_ifs
  · exact .refl s
  · exact Keeps.copyToLoop root _ s dst data

theorem Keeps.userStore (s : Vmm) (root va : ℕ) (b : UInt8) : s.Keeps (s.userStore root va b) := by
  have hcow := Keeps.cowFault s root va
  simp only [Vmm.userStore]
  split
  · exact .refl s
  · exact Keeps.of_bytes _ rfl
  · split_ifs
    · exact hcow
    · split
      · exact hcow.trans (Keeps.of_bytes _ rfl)
      · exact hcow

section Loops

variable {f : Vmm → ℕ → Vmm × ℤ} {l : List ℕ}

theorem Keeps.eachPage (hf : ∀ s : Vmm, ∀ va ∈ l, s.Keeps (f s va).1) (s : Vmm) :
    s.Keeps (Vmm.eachPage f l s).1 :=
  eachPage_invariant (I := s.Keeps) (fun _ va hmem h ↦ h.trans (hf _ va hmem)) (.refl s)

theorem Keeps.unmapPages (s : Vmm) (l : List ℕ) : s.Keeps (s.unmapPages l) :=
  unmapPages_invariant (I := s.Keeps) l (fun _ va h ↦ h.trans (Keeps.unmapFree _ va)) (.refl s)

theorem Keeps.mapPages (hf : ∀ s : Vmm, ∀ va ∈ l, s.Keeps (f s va).1) (s : Vmm) :
    s.Keeps (s.mapPages f l).1 :=
  mapPages_invariant (I := s.Keeps) (fun _ va hmem h ↦ h.trans (hf _ va hmem))
    (fun _ va h ↦ h.trans (Keeps.unmapFree _ va)) (.refl s)

end Loops

theorem Keeps.mprotectStep (prot : ℕ) (reserved : ℕ → Bool) (s : Vmm) (va : ℕ) :
    s.Keeps (mprotectStep prot reserved s va).1 := by
  unfold Vmm.mprotectStep
  split
  · split_ifs
    · exact .refl s
    · exact .refl s
    · exact Keeps.mapZero _ s va
  · split_ifs
    · exact Keeps.unmapFree s va
    · exact Keeps.userProtect s va _

theorem Keeps.mmapPage (fixed : Bool) (content : ℕ → Option (ℕ → UInt8)) (flags : PteFlags)
    (s : Vmm) (va : ℕ) : s.Keeps (mmapPage fixed content flags s va).1 := by
  simp only [Vmm.mmapPage]
  split
  · next pmm ha => exact Keeps.alloc ha
  next pmm frame ha =>
  split
  swap
  · exact (Pending.alloc ha).free
  -- With `MAP_FIXED` the old page goes while the new frame waits.
  have hpend : s.Pending (if fixed then { s with pmm := pmm }.unmapFree va
    else { s with pmm := pmm }) frame := by
    split_ifs
    · exact (Pending.alloc ha).unmapFree va
    · exact Pending.alloc ha
  generalize (if fixed then { s with pmm := pmm }.unmapFree va else { s with pmm := pmm }) =
    s₁ at hpend ⊢
  split
  · exact hpend.free
  next bytes hbytes =>
  have hpend' := hpend.bytes (update s₁.bytes frame bytes)
  split_ifs with hrc
  · exact hpend'.map_free va flags hrc
  · exact hpend'.map_keeps va flags

theorem Keeps.brkPage (s : Vmm) (va : ℕ) : s.Keeps (brkPage s va).1 := by
  simp only [Vmm.brkPage]
  split
  · exact .refl s
  split
  · next pmm ha => exact Keeps.alloc ha
  next pmm frame ha =>
  split
  swap
  · exact (Pending.alloc ha).free
  have hpend := (Pending.alloc ha).bytes (update s.bytes frame (fun _ ↦ 0))
  have hmap := hpend.map va heapFlags
  cases hr : vmmUserMap { s with pmm := pmm, bytes := update s.bytes frame (fun _ ↦ 0) } va frame
    heapFlags with
  | mk s₁ rc =>
  rw [hr] at hmap
  dsimp only at hmap ⊢
  by_cases hrc : rc = 0
  · rw [if_pos hrc] at hmap
    rw [if_neg (not_not.2 hrc)]
    split
    · split_ifs
      · exact hmap
      · exact hmap.trans (Keeps.unmapFree s₁ va)
    · next hnone =>
      -- The audit cannot miss the entry that was just written.
      rw [translate_userMap (hrc ▸ hr)] at hnone
      cases hnone
  · rw [if_neg hrc] at hmap
    rw [if_pos hrc]
    exact hmap.free

theorem claim_ne_pinned (e : Pte) : (Tab.claim e).2 ≠ .pinned := by
  unfold Tab.claim
  cases e.w
  · simp
  · simp

theorem Keeps.mapFb {frame : ℕ} (hf : fbRange s.fbPhys s.fbSize frame) (virt : ℕ)
    (flags : PteFlags) : s.Keeps (s.vmmUserMap virt frame flags).1 := by
  obtain ⟨hphys, hsize, huser, hhdm, hroots⟩ := userMap_frame s virt frame flags
  refine ⟨hphys, hsize, huser, hhdm, hroots, fun h ↦ framed_of_kept hphys hsize ?_,
    moves_userMap s virt frame flags⟩
  have hclaim : (Account.backed (fbRange s.fbPhys s.fbSize)).Holds s.pmm.pool
      (Tab.claim (userPte frame flags) ::ₘ s.uses) :=
    Account.Holds.exempt_cons h (h.2 frame hf) (claim_ne_pinned _)
  cases hr : s.vmmUserMap virt frame flags with
  | mk s₁ rc =>
  have hm := kept_map hclaim hr
  split_ifs at hm
  · exact hm
  · exact hm.mono (Multiset.le_cons_self _ _)

theorem pageUp_le (x : ℕ) : pageUp x ≤ (x + (pageSize - 1)) / pageSize * pageSize := by
  have h := Nat.mod_le (x + (pageSize - 1)) (2 ^ 64)
  simp only [pageUp, Pmm.pageOf]
  exact Nat.mul_le_mul_right _ (Nat.div_le_div_right h)

theorem mem_pages {base size : ℕ} :
    va ∈ pages base size ↔ ∃ k < size / pageSize, va = base + k * pageSize := by
  simp only [pages, List.mem_map, List.mem_range]
  constructor
  · rintro ⟨k, hk, rfl⟩
    exact ⟨k, hk, rfl⟩
  · rintro ⟨k, hk, rfl⟩
    exact ⟨k, hk, rfl⟩

theorem fbRange_page {phys fb virt off size : ℕ} (hoff : off % pageSize = 0) (hlt : off < fb)
    (hsize : size ≤ pageUp (phys % pageSize + (fb - off))) (hva : va ∈ pages virt size) :
    fbRange phys fb (phys / pageSize + off / pageSize + (va - virt) / pageSize) := by
  obtain ⟨k, hk, rfl⟩ := mem_pages.1 hva
  have hup := hsize.trans (pageUp_le _)
  simp only [fbRange, pageSize] at *
  omega

theorem Keeps.graphicsFbMap (s : Vmm) (virt off len : ℕ) :
    s.Keeps (s.graphicsFbMap virt off len).1 := by
  simp only [Vmm.graphicsFbMap]
  split
  · exact .refl s
  next h₁ =>
  split
  · exact .refl s
  next h₂ =>
  split
  · exact .refl s
  simp only [not_or, not_le, not_lt, not_not] at h₁ h₂
  have hloop : s.Keeps (Vmm.eachPage (fbPage virt off) (pages virt (pageUp len)) s).1 := by
    refine eachPage_invariant (I := s.Keeps) (fun s₁ va hva h ↦ h.trans (Keeps.mapFb ?_ va fbFlags))
      (.refl s)
    have hrange := fbRange_page h₁.2.2.2.1 h₁.2.2.2.2.2 h₂.2 hva
    rw [← h.fbPhys, ← h.fbSize] at hrange
    exact hrange
  split
  · refine hloop.trans ?_
    generalize (Vmm.eachPage (fbPage virt off) (pages virt (pageUp len)) s).1 = s₁
    generalize (pages virt (pageUp len)).take _ = l
    induction l generalizing s₁ with
    | nil => exact .refl _
    | cons va l ih => exact (Keeps.userUnmap s₁ va).trans (ih _)
  · exact hloop

theorem Keeps.graphicsFbUnmap (s : Vmm) (virt size : ℕ) :
    s.Keeps (s.graphicsFbUnmap virt size).1 := by
  simp only [Vmm.graphicsFbUnmap]
  split
  · exact .refl s
  split
  · exact .refl s
  refine Keeps.eachPage (fun s₁ va _ ↦ ?_) s
  have hun := Keeps.userUnmap s₁ va
  unfold fbUnmapPage
  split
  · next s₂ he =>
    rw [he] at hun
    exact hun
  · next s₂ e he =>
    rw [he] at hun
    exact hun

theorem Keeps.mapUserPage (pflags : ℕ) (s : Vmm) (va : ℕ) :
    s.Keeps (mapUserPage pflags s va).1 := by
  simp only [Vmm.mapUserPage]
  split
  · exact Keeps.userProtect s va _
  split
  · next pmm ha => exact Keeps.alloc ha
  next pmm frame ha =>
  have hmap := (Pending.alloc ha).map_keeps va (segmentFlags pflags)
  split_ifs
  · exact hmap
  · exact hmap.trans (Keeps.of_bytes _ rfl)
  · exact hmap

theorem Keeps.mapUserRange (s : Vmm) (start stop pflags : ℕ) :
    s.Keeps (s.mapUserRange start stop pflags).1 := by
  simp only [Vmm.mapUserRange]
  split
  · exact .refl s
  · exact Keeps.eachPage (fun s va _ ↦ Keeps.mapUserPage pflags s va) s

theorem Keeps.stackPage (s : Vmm) (va : ℕ) : s.Keeps (stackPage s va).1 := by
  simp only [Vmm.stackPage]
  split
  · next pmm ha => exact Keeps.alloc ha
  next pmm frame ha =>
  have hmap := (Pending.alloc ha).map_keeps va heapFlags
  split_ifs
  · exact hmap
  · exact hmap.trans (Keeps.of_bytes _ rfl)
  · exact hmap

theorem Keeps.mapUserStack (s : Vmm) : s.Keeps s.mapUserStack.1 := by
  simp only [Vmm.mapUserStack]
  exact Keeps.eachPage (fun s va _ ↦ Keeps.stackPage s va) s

theorem Keeps.storeLoop (ok : Pte → Bool) (fuel : ℕ) (s : Vmm) (dst : ℕ) (data : List UInt8) :
    s.Keeps (storeLoop ok fuel s dst data).1 := by
  induction fuel generalizing s dst data with
  | zero => exact .refl s
  | succ fuel ih =>
    simp only [Vmm.storeLoop]
    split
    · exact .refl s
    split
    · exact .refl s
    split
    · exact (Keeps.of_bytes _ rfl).trans (ih _ _ _)
    · exact .refl s

theorem Keeps.copySegment (img : ElfImage) (ph : Phdr) (va : ℕ) (l : List ℕ) (s : Vmm) :
    s.Keeps (copySegment img ph va l s).1 := by
  induction l generalizing s with
  | nil => exact .refl s
  | cons k l ih =>
    simp only [Vmm.copySegment]
    split
    · exact .refl s
    next data _ =>
    have hstore : s.Keeps (s.copyToUserLoader (va + k * pageSize) data).1 :=
      Keeps.storeLoop _ _ _ _ _
    split
    · exact hstore
    · exact hstore.trans (ih _)

theorem Keeps.loadSegment (s : Vmm) (img : ElfImage) (bias : ℕ) (ph : Phdr) :
    s.Keeps (s.loadSegment img bias ph).1 := by
  simp only [Vmm.loadSegment]
  split
  · exact .refl s
  have hmap := Keeps.mapUserRange s (Pmm.pageOf ((ph.vaddr + bias) % 2 ^ 64))
    (pageUp (((ph.vaddr + bias) % 2 ^ 64 + ph.memsz) % 2 ^ 64)) ph.flags
  generalize s.mapUserRange _ _ ph.flags = r at hmap ⊢
  split
  · exact hmap
  have hcopy := hmap.trans (Keeps.copySegment img ph ((ph.vaddr + bias) % 2 ^ 64)
    (List.range ((ph.filesz + (pageSize - 1)) / pageSize)) r.1)
  split
  · exact hcopy
  · exact hcopy.trans (Keeps.storeLoop _ _ _ _ _)

theorem Keeps.loadSegments (img : ElfImage) (bias entry : ℕ) (interp : Bool) (phs : List Phdr)
    (s : Vmm) (l : Loaded) : s.Keeps (loadSegments img bias entry interp phs s l).1 := by
  induction phs generalizing s l with
  | nil => exact .refl s
  | cons ph phs ih =>
    simp only [Vmm.loadSegments]
    split
    · exact ih s l
    split
    · split
      · exact .refl s
      · exact ih s _
    have hseg := Keeps.loadSegment s img bias ph
    split
    · exact hseg
    · exact hseg.trans (ih _ _)

theorem Keeps.loadImage (s : Vmm) (img : ElfImage) (bias : ℕ) (interp : Bool) :
    s.Keeps (s.loadImage img bias interp).1 := by
  have hseg :=
    Keeps.loadSegments img bias ((img.entry + bias) % 2 ^ 64) interp img.phdrs s ⟨0, false, 0⟩
  simp only [Vmm.loadImage]
  split
  · next s₁ he =>
    rw [he] at hseg
    exact hseg
  · next s₁ l he =>
    rw [he] at hseg
    exact hseg

theorem Keeps.loadBootfsElfImage (s : Vmm) (img : Option ElfImage) (bias : ℕ) :
    s.Keeps (s.loadBootfsElfImage img bias).1 := by
  unfold Vmm.loadBootfsElfImage
  split
  · exact .refl s
  next img =>
  split
  · exact .refl s
  have himg := Keeps.loadImage s img bias true
  split
  · next s₁ he =>
    rw [he] at himg
    exact himg
  · next s₁ l he =>
    rw [he] at himg
    exact himg

theorem Keeps.copyAll (l : List (ℕ × List UInt8)) (s : Vmm) : s.Keeps (copyAll l s).1 := by
  induction l generalizing s with
  | nil => exact .refl s
  | cons q l ih =>
    simp only [Vmm.copyAll]
    have hcopy : s.Keeps (s.copyToUser q.1 q.2).1 := Keeps.storeLoop _ _ _ _ _
    split
    · exact hcopy
    · exact hcopy.trans (ih _)

theorem Keeps.initUserStack (s : Vmm) (img : ElfImage) (bias entry interp : ℕ) (a : ExecArgs) :
    s.Keeps (s.initUserStack img bias entry interp a).1 := by
  simp only [Vmm.initUserStack]
  generalize (if a.argv = [] then [a.execfn] else a.argv) = argv
  split
  · exact .refl s
  have h₁ := Keeps.copyAll [(execfnVa, a.execfn ++ [0]), (randomVa, randomBytes)] s
  generalize Vmm.copyAll [(execfnVa, a.execfn ++ [0]), (randomVa, randomBytes)] s = r at h₁ ⊢
  split
  · exact h₁
  have h₂ := h₁.trans (Keeps.copyAll (placeStrings (argv ++ a.envp) randomVa).1 r.1)
  generalize Vmm.copyAll (placeStrings _ randomVa).1 r.1 = q at h₂ ⊢
  split
  · exact h₂
  split
  · exact h₂
  split
  · exact h₂.trans (Keeps.storeLoop _ _ _ _ _)
  · exact h₂.trans (Keeps.storeLoop _ _ _ _ _)

end Vmm

end YabroOS.Memory
