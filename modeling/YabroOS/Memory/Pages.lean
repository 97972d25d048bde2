import YabroOS.Memory.Leaves
import YabroOS.Memory.PmmMoves

namespace YabroOS.Memory.Vmm

open Lib Function

variable {P : ℕ → ℕ → Pte → Prop} {s s' : Vmm} {root virt : ℕ}

/-- Every page of every address space, by the root and the number of the page. -/
def Pages (P : ℕ → ℕ → Pte → Prop) (s : Vmm) : Prop :=
  ∀ root t, s.spaces.get? root = some t → Tab.Leaves (P root) 3 0 t

theorem Pages.congr (h : Pages P s) (hs : s'.spaces = s.spaces) : Pages P s' := by
  intro root t ht
  rw [hs] at ht
  exact h root t ht

theorem Pages.translate (h : Pages P s) {e : Pte} (he : s.vmmUserTranslateCr3 root virt = some e) :
    P root (virt / pageSize) e := by
  have hlt := translate_lt he
  simp only [vmmUserTranslateCr3] at he
  split_ifs at he
  split at he
  · cases he
  · next t ht =>
    have hp := (h root t ht).walk he
    rwa [Tab.pageNumber_user hlt] at hp

theorem Pages.cpuAccess (h : Pages P s) {e : Pte} {w u : Bool}
    (he : s.cpuAccess root virt = some (e, w, u)) : P root (virt / pageSize) e := by
  simp only [Vmm.cpuAccess] at he
  split_ifs at he with hcan
  obtain ⟨t, ht, hwalk⟩ := Option.bind_eq_some_iff.1 he
  have hp := (h root t ht).cpuWalk hwalk
  rwa [Tab.pageNumber_user (by simpa [canonicalUser] using hcan)] at hp

theorem Pages.setSpace (h : Pages P s) {t : Tab 3} (ht : Tab.Leaves (P root) 3 0 t)
    (hs : s'.spaces = s.spaces.set root t) : Pages P s' := by
  intro r t' ht'
  rw [hs] at ht'
  rcases get?_set_cases ht' with ⟨rfl, rfl⟩ | ht'
  · exact ht
  · exact h r t' ht'

theorem Pages.setLeaf (h : Pages P s) {e : Option Pte} (hv : virt < userTop)
    (he : ∀ e', e = some e' → P root (virt / pageSize) e') : Pages P (s.setLeaf root virt e) := by
  have hnumber := Tab.pageNumber_user hv
  unfold Vmm.setLeaf setLeafIn
  split
  · exact h.congr rfl
  · next t ht =>
    refine h.setSpace ((h root t ht).setLeaf (fun e' hee ↦ ?_)) rfl
    rw [hnumber]
    exact he e' hee

def Promotable (P : ℕ → ℕ → Pte → Prop) : Prop :=
  ∀ r k e f high, P r k e → e.cow = true →
    P r k { e with frame := f, u := true, w := true, cow := false, high := high }

theorem Pages.cowFault (hprom : Promotable P) (h : Pages P s) (root addr : ℕ) :
    Pages P (s.vmmUserCowFault root addr).1 := by
  simp only [vmmUserCowFault]
  split
  · exact h
  next pte hpte =>
  have hlt := translate_lt hpte
  have hp := h.translate hpte
  split_ifs with hflags href
  · exact h
  · obtain ⟨hu, hcow, hw⟩ : pte.u = true ∧ pte.cow = true ∧ pte.w = false := by
      simpa only [not_or, Bool.not_eq_false, Bool.not_eq_true] using hflags
    refine h.setLeaf hlt (fun e' he ↦ ?_)
    obtain rfl := Option.some.inj he
    have hsame : ({ pte with w := true, cow := false } : Pte) =
        { pte with frame := pte.frame, u := true, w := true, cow := false, high := pte.high } := by
          simp only [hu]
    rw [hsame]
    exact hprom root _ pte pte.frame pte.high hp hcow
  · obtain ⟨hu, hcow, hw⟩ : pte.u = true ∧ pte.cow = true ∧ pte.w = false := by
      simpa only [not_or, Bool.not_eq_false, Bool.not_eq_true] using hflags
    split
    · exact h.congr rfl
    · next pmm np ha =>
      split_ifs
      · refine Pages.congr (s := Vmm.setLeaf s root (Pmm.pageOf addr)
          (some { pte with frame := np, u := true, w := true, cow := false, high := 0 })) ?_ rfl
        refine h.setLeaf hlt (fun e' he ↦ ?_)
        obtain rfl := Option.some.inj he
        exact hprom root _ pte np 0 hp hcow
      · exact h.congr rfl

theorem Pages.userMap (h : Pages P s) (virt frame : ℕ) (flags : PteFlags)
    (hp : ∀ root, s.user = some root → P root (virt / pageSize) (userPte frame flags)) :
    Pages P (s.vmmUserMap virt frame flags).1 := by
  simp only [vmmUserMap]
  split
  · exact h
  next root hroot =>
  split_ifs with hbad
  · exact h
  have hv : virt < userTop := by
    have hcan : ¬ canonicalUser virt = false := fun hc ↦ hbad (.inl hc)
    simpa [canonicalUser] using hcan
  split
  · exact h
  · next t ht =>
    refine h.setSpace ((h root t ht).mapLeaf ?_ rfl) rfl
    rw [Tab.pageNumber_user hv]
    exact hp root hroot

theorem Pages.userUnmap (h : Pages P s) (virt : ℕ) : Pages P (s.vmmUserUnmap virt).1 := by
  simp only [vmmUserUnmap]
  split
  · exact h
  split_ifs
  · exact h
  split
  · exact h
  · next e he => exact h.setLeaf (translate_lt he) (fun e' hee ↦ by cases hee)

theorem Pages.unmapFree (h : Pages P s) (virt : ℕ) : Pages P (s.unmapFree virt) := by
  have hun := h.userUnmap virt
  unfold Vmm.unmapFree
  split
  · next s₁ he =>
    rw [he] at hun
    exact hun
  · next s₁ e he =>
    rw [he] at hun
    split_ifs
    · exact hun
    · exact hun.congr rfl

theorem Pages.userProtect (hprom : Promotable P) (h : Pages P s) {flags : PteFlags}
    (hp : ∀ root e, s.user = some root → s.vmmUserTranslate virt = some e →
      ∀ f, P root (virt / pageSize) (userPte f flags)) :
    Pages P (s.vmmUserProtect virt flags).1 := by
  simp only [vmmUserProtect]
  cases hu : s.user with
  | none => exact h
  | some root =>
  simp only
  split
  · exact h
  split
  · exact h
  next pte hpte =>
  have hp : ∀ f, P root (virt / pageSize) (userPte f flags) :=
    hp root pte hu (by simp [vmmUserTranslate, hu, hpte])
  split
  · have hcow := h.cowFault hprom root virt
    split
    · exact hcow
    · split
      · exact hcow
      · next pte₁ hpte₁ =>
        refine hcow.setLeaf (translate_lt hpte₁) (fun e' he ↦ ?_)
        obtain rfl := Option.some.inj he
        exact hp pte₁.frame
  · refine h.setLeaf (translate_lt hpte) (fun e' he ↦ ?_)
    obtain rfl := Option.some.inj he
    exact hp pte.frame

theorem Pages.writablePage (hprom : Promotable P) (h : Pages P s) (root page : ℕ) :
    Pages P (s.writablePage root page).1 := by
  have hcow := h.cowFault hprom root page
  simp only [Vmm.writablePage]
  split
  · exact h
  · split_ifs
    · exact h
    · exact h
    · exact h
    · exact hcow
    · split
      · exact hcow
      · split_ifs
        · exact hcow
        · exact hcow

theorem Pages.copyToLoop (hprom : Promotable P) (root fuel : ℕ) (h : Pages P s) (dst : ℕ)
    (data : List UInt8) : Pages P (Vmm.copyToLoop root fuel s dst data).1 := by
  induction fuel generalizing s dst data with
  | zero => exact h
  | succ fuel ih =>
    have hw := h.writablePage hprom root (Pmm.pageOf dst)
    simp only [Vmm.copyToLoop]
    split_ifs
    · exact h
    split
    · next s₁ he =>
      rw [he] at hw
      exact hw
    · next s₁ pte he =>
      rw [he] at hw
      have hput : Pages P
          (s₁.putBytes pte.frame (dst % pageSize) (data.take (pageSize - dst % pageSize))) :=
            hw.congr rfl
      split_ifs
      · exact ih hput _ _
      · exact hw

theorem Pages.userCopyToCr3 (hprom : Promotable P) (h : Pages P s) (root dst : ℕ)
    (data : List UInt8) : Pages P (s.userCopyToCr3 root dst data).1 := by
  unfold Vmm.userCopyToCr3
  split_ifs
  · exact h
  · exact h.copyToLoop hprom root data.length dst data

theorem Pages.userStore (hprom : Promotable P) (h : Pages P s) (root va : ℕ) (b : UInt8) :
    Pages P (s.userStore root va b) := by
  have hcow := h.cowFault hprom root va
  simp only [Vmm.userStore]
  split
  · exact h
  · exact h.congr rfl
  · split_ifs
    · exact hcow
    · split
      · exact hcow.congr rfl
      · exact hcow

theorem Pages.destroy (h : Pages P s) (root : ℕ) : Pages P (s.vmmUserSpaceDestroy root).1 := by
  unfold vmmUserSpaceDestroy
  split
  · exact h
  · split_ifs
    · exact fun r t ht ↦ h r t (get?_erase ht)
    · exact h

theorem Pages.activate (h : Pages P s) (root : ℕ) : Pages P (s.vmmUserActivate root).1 := by
  unfold vmmUserActivate
  split_ifs
  · exact h.congr rfl
  · exact h

theorem Pages.create (h : Pages P s) : Pages P s.vmmUserSpaceCreate.1 := by
  unfold vmmUserSpaceCreate
  split
  · exact h.congr rfl
  · exact h.setSpace (Tab.leaves_empty 3 0) rfl

theorem Pages.clone_off {E : ℕ → Prop} {P : ℕ → Pte → Prop} (hmark : Tab.MarkableOff E P)
    (h : Pages (fun _ ↦ P) s) (root : ℕ) (hE : ∀ g, E g → s.pmm.pool.exempt g) :
    Pages (fun _ ↦ P) (s.vmmUserSpaceClone root).1 := by
  simp only [vmmUserSpaceClone]
  split
  · exact h
  next src hsrc =>
  have hleaves := h root src hsrc
  by_cases htab : s.pmm.table root = true
  swap
  · rw [if_neg htab]
    exact h
  rw [if_pos htab]
  split
  · exact h.congr rfl
  next pmm₁ np hq =>
  split
  · exact h.congr rfl
  next pmm₂ dst hl =>
  have hdst : Tab.Leaves P 3 0 dst :=
    Tab.leaves_cloneLoop (fun _ _ _ _ _ _ _ hx hxc ↦ Tab.leaves_cloneUserTables hx hxc)
      (Tab.leaves_empty 3 0) hleaves.listed hl
  cases hp : Tab.preflightLoop (Tab.preflightForkPages 2) pmm₂ (Slots.list src) with
  | mk pmm₃ rc₁ =>
  cases ha : Tab.applyLoop (Tab.applyForkCow 2) pmm₃ src dst (Slots.list src) with
  | mk pmm₄ q =>
  obtain ⟨src', dst', rc₂⟩ := q
  have hmoves : s.pmm.Moves pmm₃ := by
    have hcopy :=
      Tab.moves_cloneLoop (Tab.moves_cloneUserTables 2) (Slots.list src) pmm₁ (Tab.empty 3)
    have hpre := Tab.moves_preflightLoop (Tab.moves_preflightForkPages 2) (Slots.list src) pmm₂
    rw [hl] at hcopy
    rw [hp] at hpre
    exact ((Pmm.Moves.allocTable hq).trans hcopy).trans hpre
  have hE' : ∀ g, E g → pmm₃.pool.exempt g := by rwa [hmoves.exempt]
  obtain ⟨-, hsrc', hdst'⟩ := Tab.leaves_applyLoop
    (fun _ _ _ _ _ _ _ _ _ _ hg hx hy hxy ↦ Tab.leaves_applyForkCow hmark hg hx hy hxy) hE' hleaves
      hdst hleaves.listed ha
  have hmarked : Pages (fun _ ↦ P) { s with spaces := s.spaces.set root src' } :=
    h.setSpace hsrc' rfl
  split_ifs
  · exact h.congr rfl
  · exact hmarked.congr rfl
  · exact hmarked.setSpace hdst' rfl

theorem Pages.clone {P : ℕ → Pte → Prop} (hmark : Tab.Markable P) (h : Pages (fun _ ↦ P) s)
    (root : ℕ) :
    Pages (fun _ ↦ P) (s.vmmUserSpaceClone root).1 := h.clone_off hmark.off root (fun _ hf ↦ hf.elim)

section Loops

variable {I : Vmm → Prop} {f : Vmm → ℕ → Vmm × ℤ}

theorem eachPage_invariant {l : List ℕ} (hf : ∀ s, ∀ va ∈ l, I s → I (f s va).1) (h : I s) :
    I (eachPage f l s).1 := by
  induction l generalizing s with
  | nil => exact h
  | cons va l ih =>
    have hva := hf s va (.head _) h
    simp only [eachPage]
    split
    · exact hva
    · exact ih (fun s va hmem ↦ hf s va (.tail _ hmem)) hva

theorem unmapPages_invariant (l : List ℕ) (hun : ∀ s va, I s → I (s.unmapFree va)) (h : I s) :
    I (s.unmapPages l) := by
  unfold unmapPages
  induction l generalizing s with
  | nil => exact h
  | cons va l ih => exact ih (hun s va h)

theorem mapPages_invariant {l : List ℕ} (hf : ∀ s, ∀ va ∈ l, I s → I (f s va).1)
    (hun : ∀ s va, I s → I (s.unmapFree va)) (h : I s) : I (s.mapPages f l).1 := by
  have heach := eachPage_invariant hf h
  simp only [mapPages]
  split
  · exact unmapPages_invariant _ hun heach
  · exact heach

end Loops

theorem Pages.mapFresh (h : Pages P s) {content : ℕ → UInt8} {flags : PteFlags}
    (hp : ∀ root f, P root (virt / pageSize) (userPte f flags)) :
    Pages P (s.mapFresh virt content flags).1 := by
  simp only [Vmm.mapFresh]
  split
  · exact h.congr rfl
  · next pmm frame ha =>
    have hs : Pages P { s with pmm := pmm, bytes := update s.bytes frame content } := h.congr rfl
    have hm := hs.userMap virt frame flags (fun root _ ↦ hp root frame)
    generalize vmmUserMap _ virt frame flags = r at hm ⊢
    split_ifs
    · exact hm.congr rfl
    · exact hm
    · exact h.congr rfl

end YabroOS.Memory.Vmm
