import YabroOS.Memory.Threads

namespace YabroOS.Memory

open Lib Function

namespace Vmm

variable {s s' s'' : Vmm} {root virt va : ℕ} {P Q : ℕ → Prop}

/-- Of all address spaces nothing has changed that user code can see, but for pages in `P` of one of
them. -/
structure Off (root : ℕ) (P : ℕ → Prop) (s s' : Vmm) : Prop where
  translate : ∀ r va, (r = root → ¬ P (Pmm.pageOf va)) →
    s'.vmmUserTranslateCr3 r va = s.vmmUserTranslateCr3 r va
  bytes : ∀ r va e, (r = root → ¬ P (Pmm.pageOf va)) → s.vmmUserTranslateCr3 r va = some e →
    s'.bytes e.frame = s.bytes e.frame

theorem Off.refl (s : Vmm) : Off root P s s := ⟨fun _ _ _ ↦ rfl, fun _ _ _ _ _ ↦ rfl⟩

theorem Off.trans (h : Off root P s s') (h' : Off root P s' s'') : Off root P s s'' where
  translate r va hva := (h'.translate r va hva).trans (h.translate r va hva)
  bytes r va e hva he :=
    (h'.bytes r va e hva ((h.translate r va hva).trans he)).trans (h.bytes r va e hva he)

theorem Off.mono (h : Off root P s s') (hPQ : ∀ k, P k → Q k) : Off root Q s s' where
  translate r va hva := h.translate r va (fun hr hp ↦ hva hr (hPQ _ hp))
  bytes r va e hva he := h.bytes r va e (fun hr hp ↦ hva hr (hPQ _ hp)) he

theorem Off.userByte (h : Off root P s s') {r : ℕ} (hva : r = root → ¬ P (Pmm.pageOf va)) :
    s'.userByte r va = s.userByte r va := by
  unfold Vmm.userByte
  rw [h.translate r va hva]
  cases he : s.vmmUserTranslateCr3 r va with
  | none => rfl
  | some e => rw [Option.map_some, Option.map_some, h.bytes r va e hva he]

theorem Off.of_spaces (hsp : s'.spaces = s.spaces) (hh : s'.pmm.hhdm = s.pmm.hhdm)
    (hb : ∀ f ∈ s.uses.map Prod.fst, s'.bytes f = s.bytes f) : Off root P s s' where
  translate _ _ _ := translate_congr hsp hh
  bytes _ _ _ _ he := hb _ (frame_mem_uses he)

theorem Off.pmm {p : Pmm} (hh : p.hhdm = s.pmm.hhdm) : Off root P s { s with pmm := p } :=
  .of_spaces rfl hh (fun _ _ ↦ rfl)

theorem Off.setLeaf {e : Pte} {o : Option Pte} (he : s.vmmUserTranslateCr3 root virt = some e)
    (hsp : s'.spaces = setLeafIn s.spaces root virt o) (hh : s'.pmm.hhdm = s.pmm.hhdm)
    (hb : ∀ f ∈ s.uses.map Prod.fst, s'.bytes f = s.bytes f) :
    Off root (· = Pmm.pageOf virt) s s' where
  translate r va hva := by
    by_cases hr : r = root
    · subst hr
      exact translate_setLeaf_of_ne he hsp hh (hva rfl)
    · have hget : s'.spaces.get? r = s.spaces.get? r := by
        rw [← Slots.get?_erase_of_ne _ hr, hsp, setLeafIn_erase, Slots.get?_erase_of_ne _ hr]
      simp only [vmmUserTranslateCr3, hget, walk_congr hh]
  bytes r va e' _ he' := hb _ (frame_mem_uses he')

theorem off_userMap (hu : s.user = some root) (virt frame : ℕ) (flags : PteFlags) :
    Off root (· = Pmm.pageOf virt) s (s.vmmUserMap virt frame flags).1 where
  translate r va hva := translate_userMap_of_ne s frame flags (fun hr ↦ hva (by
    rw [hu] at hr
    exact (Option.some.inj hr).symm))
  bytes _ _ _ _ _ := by rw [userMap_bytes]

theorem unmapFree_cases (hu : s.user = some root) (virt : ℕ) :
    (s.unmapFree virt = s ∧ (virt % pageSize = 0 → s.vmmUserTranslateCr3 root virt = none)) ∨
      ∃ e, virt % pageSize = 0 ∧ s.vmmUserTranslateCr3 root virt = some e ∧
        (s.unmapFree virt).spaces = setLeafIn s.spaces root virt none ∧
        (s.unmapFree virt).bytes = s.bytes ∧ (s.unmapFree virt).pmm.hhdm = s.pmm.hhdm := by
  simp only [unmapFree, vmmUserUnmap, hu]
  by_cases hal : virt % pageSize = 0
  swap
  · rw [if_pos hal]
    exact .inl ⟨rfl, fun h ↦ absurd h hal⟩
  rw [if_neg (not_not.2 hal)]
  cases he : s.vmmUserTranslateCr3 root virt with
  | none => exact .inl ⟨rfl, fun _ ↦ rfl⟩
  | some e =>
    refine .inr ⟨e, hal, rfl, ?_⟩
    dsimp only
    split_ifs
    · exact ⟨rfl, rfl, rfl⟩
    · exact ⟨rfl, rfl, Pmm.pmmFreePage_hhdm _ _⟩

theorem off_unmapFree (hu : s.user = some root) (virt : ℕ) :
    Off root (· = Pmm.pageOf virt) s (s.unmapFree virt) := by
  obtain ⟨hs, -⟩ | ⟨e, -, he, hsp, hb, hh⟩ := unmapFree_cases hu virt
  · rw [hs]
    exact .refl s
  · exact .setLeaf he hsp hh (fun _ _ ↦ by rw [hb])

theorem unmapFree_translate (hu : s.user = some root) (hal : virt % pageSize = 0) :
    (s.unmapFree virt).vmmUserTranslateCr3 root virt = none := by
  obtain ⟨hs, hnone⟩ | ⟨e, -, he, hsp, -, hh⟩ := unmapFree_cases hu virt
  · rw [hs]
    exact hnone hal
  · simp only [vmmUserTranslateCr3] at he ⊢
    split_ifs at he ⊢
    split at he
    · cases he
    · next t ht =>
      rw [hsp]
      simp only [setLeafIn, ht, Slots.get?_set_self]
      rw [walk_congr hh]
      exact Tab.walk_setLeaf he

theorem Framed.backed (h : s.Framed) : s.pmm.pool.Backed (s.uses.map Prod.fst) :=
  Account.Holds.backed h

theorem off_cowFault (h : s.Framed) {addr : ℕ} {rc : Int}
    (hc : s.vmmUserCowFault root addr = (s', rc)) :
    Off root (· = Pmm.pageOf addr) s s' ∧ ∀ va, s'.userByte root va = s.userByte root va := by
  obtain ⟨hre, hh⟩ := cowFault_remaps h.backed hc
  refine ⟨?_, fun va ↦ hre.userByte hh⟩
  have hbytes : ∀ f ∈ s.uses.map Prod.fst, s'.bytes f = s.bytes f := fun f hf ↦ hre.bytes hf
  cases hre with
  | same hsp hb => exact .of_spaces hsp hh hbytes
  | moved e e' he hsp hb _ =>
    have hoff := Off.setLeaf he hsp hh hbytes
    rwa [show Pmm.pageOf (Pmm.pageOf addr) = Pmm.pageOf addr from Pmm.pageOf_mul _] at hoff

theorem off_reflag {e e' : Pte} (he : s.vmmUserTranslateCr3 root virt = some e)
    (hf : e'.frame = e.frame) :
    Off root (· = Pmm.pageOf virt) s (s.setLeaf root virt (some e')) ∧
      ∀ va, (s.setLeaf root virt (some e')).userByte root va = s.userByte root va := by
  have hoff : Off root (· = Pmm.pageOf virt) s (s.setLeaf root virt (some e')) :=
    .setLeaf he rfl rfl (fun _ _ ↦ rfl)
  refine ⟨hoff, fun va ↦ ?_⟩
  by_cases hpage : Pmm.pageOf va = Pmm.pageOf virt
  · have he' : (s.setLeaf root virt (some e')).vmmUserTranslateCr3 root virt = some e' :=
      translate_setLeaf he rfl rfl
    rw [← translate_pageOf, ← hpage, translate_pageOf] at he he'
    simp only [Vmm.userByte, he, he', Option.map_some, hf]
    rfl
  · exact hoff.userByte (fun _ ↦ hpage)

theorem off_userProtect (h : s.Framed) (hu : s.user = some root) {flags : PteFlags} {rc : Int}
    (hc : s.vmmUserProtect virt flags = (s', rc)) :
    Off root (· = Pmm.pageOf virt) s s' ∧ ∀ va, s'.userByte root va = s.userByte root va := by
  simp only [vmmUserProtect, hu] at hc
  split at hc
  · cases hc
    exact ⟨.refl s, fun _ ↦ rfl⟩
  split at hc
  · cases hc
    exact ⟨.refl s, fun _ ↦ rfl⟩
  next e he =>
  split at hc
  · cases hf : s.vmmUserCowFault root virt with
    | mk s₁ rc₁ =>
    obtain ⟨hoff, hbyte⟩ := off_cowFault h hf
    rw [hf] at hc
    dsimp only at hc
    split at hc
    · cases hc
      exact ⟨hoff, hbyte⟩
    split at hc
    · cases hc
      exact ⟨hoff, hbyte⟩
    next e₁ he₁ =>
    cases hc
    obtain ⟨hoff', hbyte'⟩ :=
      off_reflag he₁ (show (userPte e₁.frame flags).frame = e₁.frame from rfl)
    exact ⟨hoff.trans hoff', fun va ↦ (hbyte' va).trans (hbyte va)⟩
  · cases hc
    exact off_reflag he rfl

theorem off_alloc (h : s.Framed) {p : Pmm} {frame : ℕ} (ha : s.pmm.pmmAllocPage = (p, some frame))
    (b : ℕ → UInt8) : Off root P s { s with pmm := p, bytes := update s.bytes frame b } := by
  have hnew : frame ∉ s.uses.map Prod.fst := h.backed.not_mem (Pmm.pool_alloc ha)
  refine .of_spaces rfl (hhdm_alloc ha) (fun f hf ↦ ?_)
  have hne : f ≠ frame := fun hff ↦ hnew (hff ▸ hf)
  exact update_of_ne hne _ _

theorem off_mapFresh (h : s.Framed) (hu : s.user = some root) (virt : ℕ) (content : ℕ → UInt8)
    (flags : PteFlags) : Off root (· = Pmm.pageOf virt) s (s.mapFresh virt content flags).1 := by
  simp only [mapFresh]
  split
  · next p ha => exact .pmm (hhdm_alloc ha)
  next p frame ha =>
  split
  · have hmap :=
      off_userMap (s := { s with pmm := p, bytes := update s.bytes frame content }) hu virt
        frame flags
    have hoff := (off_alloc h ha content).trans hmap
    split
    · exact hoff.trans (.pmm (Pmm.pmmFreePage_hhdm _ _))
    · exact hoff
  · exact .pmm ((Pmm.pmmFreePage_hhdm _ _).trans (hhdm_alloc ha))

theorem mapFresh_userByte (hu : s.user = some root) {content : ℕ → UInt8} {flags : PteFlags}
    (hc : s.mapFresh virt content flags = (s', 0)) (hpage : Pmm.pageOf va = Pmm.pageOf virt) :
    s'.userByte root va = some (content (va % pageSize)) := by
  simp only [mapFresh] at hc
  split at hc
  · cases hc
  next p frame ha =>
  split at hc
  swap
  · cases hc
  cases hm : ({ s with pmm := p, bytes := update s.bytes frame content } : Vmm).vmmUserMap virt
    frame flags with
  | mk s₁ rc =>
  rw [hm] at hc
  dsimp only at hc
  split at hc
  · next hrc =>
    cases hc
    exact absurd rfl hrc
  next hrc =>
  rw [not_not] at hrc
  subst hrc
  cases hc
  have hkept :=
    userMap_frame ({ s with pmm := p, bytes := update s.bytes frame content } : Vmm) virt frame
      flags
  have hbytes :=
    userMap_bytes ({ s with pmm := p, bytes := update s.bytes frame content } : Vmm) virt frame
      flags
  rw [hm] at hkept hbytes
  have he := translate_userMap hm
  rw [translate_eq_of_user (hkept.2.2.1.trans hu), ← translate_pageOf, ← hpage, translate_pageOf]
    at he
  have hb : s'.bytes frame = content := (congrFun hbytes frame).trans (update_self _ _ _)
  simp only [Vmm.userByte, he, Option.map_some, userPte, hb]

end Vmm

end YabroOS.Memory
