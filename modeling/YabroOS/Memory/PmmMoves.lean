import YabroOS.Memory.Books
import Mathlib.Logic.Relation

namespace YabroOS.Memory

open Lib Function Relation

namespace Pmm

inductive Step : Pmm → Pmm → Prop
  | alloc {p p' : Pmm} {f : Option ℕ} (h : p.pmmAllocPage = (p', f)) : Step p p'
  | free (p : Pmm) (addr : ℕ) : Step p (p.pmmFreePage addr)
  | retain {p p' : Pmm} {addr : ℕ} (h : p.pmmRetainPage addr = some p') : Step p p'

def Moves : Pmm → Pmm → Prop := ReflTransGen Step

variable {p p' p'' : Pmm} {f : ℕ} {α : Type} {o : Option ℕ}

theorem Moves.refl (p : Pmm) : p.Moves p := ReflTransGen.refl

theorem Moves.trans (h : p.Moves p') (h' : p'.Moves p'') : p.Moves p'' := ReflTransGen.trans h h'

theorem Moves.alloc (h : p.pmmAllocPage = (p', o)) : p.Moves p' := .single (.alloc h)

theorem Moves.free (p : Pmm) (addr : ℕ) : p.Moves (p.pmmFreePage addr) := .single (.free p addr)

theorem Moves.retain {addr : ℕ} (h : p.pmmRetainPage addr = some p') : p.Moves p' :=
  .single (.retain h)

theorem Moves.invariant {I : Pmm → Prop} (hstep : ∀ p p', Step p p' → I p → I p') (h : p.Moves p')
    (hp : I p) : I p' := by
  induction h with
  | refl => exact hp
  | tail _ hs ih => exact hstep _ _ hs ih

theorem Moves.foldl {g : Pmm → α → Pmm} (hg : ∀ (p : Pmm) a, p.Moves (g p a)) (l : List α)
    (p : Pmm) : p.Moves (l.foldl g p) := by
  induction l generalizing p with
  | nil => exact .refl p
  | cons a l ih => exact (hg p a).trans (ih (g p a))

theorem Ok.alloc (h : p.Ok) (ha : p.pmmAllocPage = (p', o)) : p'.Ok := by
  cases o with
  | none => exact (h.holding.alloc_none ha).ok h
  | some f => exact (h.holding.alloc_some ha).ok h

theorem Ok.free (h : p.Ok) (addr : ℕ) : (p.pmmFreePage addr).Ok := by
  obtain ⟨l, t, hinv⟩ := h.inv
  have hinv' := hinv.freePage (s := ⟨p, l, t⟩) addr
  have hword := h.word (addr / pageSize)
  have hcases := hinv.toSound.free_cases (s := ⟨p, l, t⟩) addr
  dsimp only at hcases hinv'
  obtain ⟨heq, -⟩ | ⟨-, -, -, ⟨-, heq⟩ | ⟨-, heq⟩⟩ := hcases
  · rwa [heq]
  · rw [heq] at hinv' ⊢
    exact ⟨⟨l, t, hinv'⟩, h.outside, update_le h.word (Nat.sub_le_of_le_add (by omega))⟩
  · rw [heq] at hinv' ⊢
    refine ⟨⟨l, t, hinv'⟩, fun f hst hres ↦ ?_, update_le h.word (Nat.zero_le _)⟩
    by_cases hf : f = addr / pageSize
    · subst hf
      dsimp only at hst
      rw [update_self] at hst
      cases hst
    · dsimp only at hst
      rw [update_of_ne hf] at hst
      exact h.outside f hst hres

theorem Moves.ok (h : p.Moves p') (hp : p.Ok) : p'.Ok := by
  refine h.invariant (fun q q' hs hq ↦ ?_) hp
  cases hs with
  | alloc ha => exact hq.alloc ha
  | free addr => exact hq.free addr
  | retain hr => exact hq.retain hr

theorem Moves.reserved (h : p.Moves p') : p'.reservedState = p.reservedState := by
  refine h.invariant (I := fun q ↦ q.reservedState = p.reservedState) (fun q q' hs hq ↦ ?_) rfl
  cases hs with
  | @alloc _ o ha =>
    cases o with
    | none => exact (pmmAllocPage_none ha).2.2.1.trans hq
    | some f => exact (pmmAllocPage_some ha).2.2.2.1.trans hq
  | free addr => exact (pmmFreePage_reserved q addr).trans hq
  | retain hr =>
    obtain ⟨-, -, rfl⟩ := PmmState.retain_some (s := ⟨q, [], 0⟩) hr
    exact hq

theorem Moves.hhdm (h : p.Moves p') : p'.hhdm = p.hhdm := by
  refine h.invariant (I := fun q ↦ q.hhdm = p.hhdm) (fun q q' hs hq ↦ ?_) rfl
  cases hs with
  | @alloc _ o ha =>
    cases o with
    | none => exact (pmmAllocPage_none ha).1.trans hq
    | some f => exact (pmmAllocPage_some ha).2.1.trans hq
  | free addr => exact (pmmFreePage_hhdm q addr).trans hq
  | retain hr =>
    obtain ⟨-, -, rfl⟩ := PmmState.retain_some (s := ⟨q, [], 0⟩) hr
    exact hq

theorem Moves.table (h : p.Moves p') (f : ℕ) : p'.table f = p.table f := table_congr h.hhdm f

theorem Moves.exempt (h : p.Moves p') : p'.pool.exempt = p.pool.exempt := pool_exempt_eq h.reserved

theorem Moves.allocTable (h : p.allocTable = (p', o)) : p.Moves p' := by
  simp only [Pmm.allocTable] at h
  split at h
  · next q hq =>
    cases h
    exact .alloc hq
  · next q f hq =>
    split_ifs at h
    · cases h
      exact .alloc hq
    · cases h
      exact (Moves.alloc hq).trans (.free _ _)

end Pmm

namespace Tab

open Pmm

variable {α : Type} {p p' : Pmm} {n : ℕ}

theorem moves_destroyCloneLevel (n : ℕ) (p : Pmm) (frame : ℕ) (t : Tab n) :
    p.Moves (destroyCloneLevel n p frame t) := by
  induction n generalizing p frame with
  | zero =>
    simp only [destroyCloneLevel]
    split_ifs
    · exact .free _ _
    · exact .refl p
  | succ n ih =>
    simp only [destroyCloneLevel]
    split_ifs
    · refine (Moves.foldl (fun q a ↦ ?_) _ _).trans (.free _ _)
      split
      · exact .refl q
      · exact ih _ _ _
    · exact .refl p

theorem moves_destroyUserLevel (fb : ℕ → Bool) (n : ℕ) (p : Pmm) (frame : ℕ) (t : Tab n) :
    p.Moves (destroyUserLevel fb n p frame t) := by
  induction n generalizing p frame with
  | zero =>
    simp only [destroyUserLevel]
    split_ifs
    · refine Moves.foldl (fun q a ↦ ?_) _ _
      split_ifs
      · exact .refl q
      · exact .free _ _
    · exact .refl p
  | succ n ih =>
    simp only [destroyUserLevel]
    split_ifs
    · refine Moves.foldl (fun q a ↦ ?_) _ _
      split
      · exact .refl q
      · exact (ih _ _ _).trans (.free _ _)
    · exact .refl p

theorem moves_cloneTable {src : ℕ} {o : Option ℕ} (h : cloneTable p src = (p', o)) :
    p.Moves p' := by
  simp only [cloneTable] at h
  split at h
  · next q hq =>
    cases h
    exact .allocTable hq
  · next q f hq =>
    split_ifs at h
    · cases h
      exact .allocTable hq
    · cases h
      exact (Moves.allocTable hq).trans (.free _ _)

theorem moves_cloneLoop {clone : Pmm → ℕ → α → Pmm × Except Int (ℕ × α)}
    (hclone : ∀ (p : Pmm) f c, p.Moves (clone p f c).1) (l : List (ℕ × Entry α)) (p : Pmm)
    (dst : Slots (Entry α)) : p.Moves (cloneLoop clone p dst l).1 := by
  induction l generalizing p dst with
  | nil => exact .refl p
  | cons q l ih =>
    obtain ⟨i, e⟩ := q
    cases e with
    | huge fl f => exact .refl p
    | next fl f c =>
      have hc := hclone p f c
      simp only [cloneLoop]
      split
      · next q err hq =>
        rw [hq] at hc
        exact hc
      · next q np d hq =>
        rw [hq] at hc
        exact hc.trans (ih _ _)

theorem moves_cloneUserTables (n : ℕ) (p : Pmm) (f : ℕ) (c : Tab n) :
    p.Moves (cloneUserTables n p f c).1 := by
  induction n generalizing p f with
  | zero =>
    simp only [cloneUserTables]
    split
    · next q hq => exact moves_cloneTable hq
    · next q dst hq =>
      split
      · exact (moves_cloneTable hq).trans (moves_destroyCloneLevel _ _ _ _)
      · exact moves_cloneTable hq
  | succ n ih =>
    simp only [cloneUserTables]
    split
    · next q hq => exact moves_cloneTable hq
    · next q dst hq =>
      have hl := moves_cloneLoop ih (Slots.list c) q Slots.empty
      split
      · next q' t err hq' =>
        rw [hq'] at hl
        exact ((moves_cloneTable hq).trans hl).trans (moves_destroyCloneLevel _ _ _ _)
      · next q' t hq' =>
        rw [hq'] at hl
        exact (moves_cloneTable hq).trans hl

theorem moves_preflightPages (l : List (ℕ × Pte)) (p : Pmm) : p.Moves (preflightPages p l).1 := by
  induction l generalizing p with
  | nil => exact .refl p
  | cons q l ih =>
    simp only [preflightPages]
    split_ifs
    · exact .refl p
    · exact .refl p
    · exact ih p
    · split
      · exact .refl p
      · next p₁ hr => exact ((Moves.retain hr).trans (.free _ _)).trans (ih _)

theorem moves_preflightLoop {preflight : Pmm → ℕ → α → Pmm × Int}
    (hpre : ∀ (p : Pmm) f c, p.Moves (preflight p f c).1) (l : List (ℕ × Entry α)) (p : Pmm) :
    p.Moves (preflightLoop preflight p l).1 := by
  induction l generalizing p with
  | nil => exact .refl p
  | cons q l ih =>
    obtain ⟨i, e⟩ := q
    cases e with
    | huge fl f => exact .refl p
    | next fl f c =>
      simp only [preflightLoop]
      split_ifs
      · exact hpre p f c
      · exact (hpre p f c).trans (ih _)

theorem moves_preflightForkPages (n : ℕ) (p : Pmm) (f : ℕ) (c : Tab n) :
    p.Moves (preflightForkPages n p f c).1 := by
  induction n generalizing p f with
  | zero =>
    simp only [preflightForkPages]
    split_ifs
    · exact moves_preflightPages _ _
    · exact .refl p
  | succ n ih =>
    simp only [preflightForkPages]
    split_ifs
    · exact moves_preflightLoop ih _ _
    · exact .refl p

theorem moves_applyPages (l : List (ℕ × Pte)) (p : Pmm) (src dst : Slots Pte) :
    p.Moves (applyPages p src dst l).1 := by
  induction l generalizing p src dst with
  | nil => exact .refl p
  | cons q l ih =>
    obtain ⟨i, e⟩ := q
    simp only [applyPages]
    by_cases h₁ : e.ps = true
    · rw [if_pos h₁]
      exact .refl p
    rw [if_neg h₁]
    by_cases h₂ : e.frame = 0
    · rw [if_pos h₂]
      exact .refl p
    rw [if_neg h₂]
    by_cases h₃ : p.pmmPageIsReserved (e.frame * pageSize) = true
    · rw [if_pos h₃]
      exact ih _ _ _
    rw [if_neg h₃]
    split
    · exact .refl p
    · next p₁ hr =>
      split_ifs
      · exact (Moves.retain hr).trans (ih _ _ _)
      · exact (Moves.retain hr).trans (ih _ _ _)

theorem moves_applyLoop {apply : Pmm → ℕ → α → ℕ → α → Pmm × α × α × Int}
    (happly : ∀ (p : Pmm) f c np d, p.Moves (apply p f c np d).1) (l : List (ℕ × Entry α)) (p : Pmm)
    (src dst : Slots (Entry α)) : p.Moves (applyLoop apply p src dst l).1 := by
  induction l generalizing p src dst with
  | nil => exact .refl p
  | cons q l ih =>
    obtain ⟨i, e⟩ := q
    cases e with
    | huge fl f => exact .refl p
    | next fl f c =>
      simp only [applyLoop]
      split
      · next fl' np d hd =>
        split_ifs
        · exact .refl p
        · exact happly p f c np d
        · exact (happly p f c np d).trans (ih _ _ _)
      · exact .refl p

theorem moves_applyForkCow (n : ℕ) (p : Pmm) (f : ℕ) (c : Tab n) (np : ℕ) (d : Tab n) :
    p.Moves (applyForkCow n p f c np d).1 := by
  induction n generalizing p f np with
  | zero =>
    simp only [applyForkCow]
    split_ifs
    · exact moves_applyPages _ _ _ _
    · exact .refl p
  | succ n ih =>
    simp only [applyForkCow]
    split_ifs
    · exact moves_applyLoop ih _ _ _ _
    · exact .refl p

theorem moves_ensureUserChild (p : Pmm) (n : ℕ) (e : Option (Entry (Tab n))) :
    p.Moves (ensureUserChild p n e).1 := by
  have hnew : p.Moves (newUserTable p n).1 := by
    simp only [newUserTable]
    split
    · next q hq => exact .allocTable hq
    · next q f hq => exact .allocTable hq
  unfold ensureUserChild
  split
  · split_ifs
    · exact .refl p
    · exact .refl p
    · exact hnew
  · exact hnew

theorem moves_mapLeaf (n : ℕ) (p : Pmm) (t : Tab n) (virt : ℕ) (e : Pte) :
    p.Moves (mapLeaf n p t virt e).1 := by
  induction n generalizing p with
  | zero => exact .refl p
  | succ n ih =>
    have hchild := moves_ensureUserChild p n (Slots.get? t (idx (n + 1) virt))
    simp only [mapLeaf]
    split
    · next q hq =>
      rw [hq] at hchild
      exact hchild
    · next q fl f c hq =>
      rw [hq] at hchild
      exact hchild.trans (ih q c)

end Tab

namespace Vmm

open Pmm Tab

variable {s s' : Vmm}

theorem moves_clone (s : Vmm) (root : ℕ) : s.pmm.Moves (s.vmmUserSpaceClone root).1.pmm := by
  simp only [vmmUserSpaceClone]
  split
  · exact .refl _
  next src hsrc =>
  split_ifs
  swap
  · exact .refl _
  split
  · next q hq => exact .allocTable hq
  next q dst hq =>
  have hcopy := moves_cloneLoop (moves_cloneUserTables 2) (Slots.list src) q (Tab.empty 3)
  split
  · next q' t err hq' =>
    rw [hq'] at hcopy
    exact ((Moves.allocTable hq).trans hcopy).trans (moves_destroyCloneLevel _ _ _ _)
  next q' t hq' =>
  rw [hq'] at hcopy
  have hpre := moves_preflightLoop (moves_preflightForkPages 2) (Slots.list src) q'
  have hbefore := ((Moves.allocTable hq).trans hcopy).trans hpre
  split_ifs
  · exact hbefore.trans (moves_destroyCloneLevel _ _ _ _)
  · exact (hbefore.trans (moves_applyLoop (moves_applyForkCow 2) _ _ _ _)).trans
      (moves_destroyCloneLevel _ _ _ _)
  · exact hbefore.trans (moves_applyLoop (moves_applyForkCow 2) _ _ _ _)

theorem moves_cowFault (s : Vmm) (root addr : ℕ) :
    s.pmm.Moves (s.vmmUserCowFault root addr).1.pmm := by
  simp only [vmmUserCowFault]
  split
  · exact .refl _
  split_ifs
  · exact .refl _
  · exact .refl _
  · split
    · next q hq => exact .alloc hq
    · next q np hq =>
      split_ifs
      · exact (Moves.alloc hq).trans (.free _ _)
      · exact (Moves.alloc hq).trans (.free _ _)

theorem moves_userMap (s : Vmm) (virt frame : ℕ) (flags : PteFlags) :
    s.pmm.Moves (s.vmmUserMap virt frame flags).1.pmm := by
  simp only [vmmUserMap]
  split
  · exact .refl _
  split_ifs
  · exact .refl _
  split
  · exact .refl _
  · exact moves_mapLeaf 3 _ _ _ _

theorem moves_mapFresh (s : Vmm) (virt : ℕ) (content : ℕ → UInt8) (flags : PteFlags) :
    s.pmm.Moves (s.mapFresh virt content flags).1.pmm := by
  simp only [mapFresh]
  split
  · next q hq => exact .alloc hq
  · next q frame hq =>
    have hmap :=
      moves_userMap { s with pmm := q, bytes := update s.bytes frame content } virt frame flags
    split_ifs
    · exact ((Moves.alloc hq).trans hmap).trans (.free _ _)
    · exact (Moves.alloc hq).trans hmap
    · exact (Moves.alloc hq).trans (.free _ _)

theorem userUnmap_pmm (s : Vmm) (virt : ℕ) : (s.vmmUserUnmap virt).1.pmm = s.pmm := by
  simp only [vmmUserUnmap]
  split
  · rfl
  split_ifs
  · rfl
  split
  · rfl
  · rfl

theorem moves_unmapFree (s : Vmm) (virt : ℕ) : s.pmm.Moves (s.unmapFree virt).pmm := by
  have hsame := userUnmap_pmm s virt
  simp only [unmapFree]
  split
  · next s₁ hs =>
    rw [hs] at hsame
    rw [hsame]
    exact .refl _
  · next s₁ e hs =>
    rw [hs] at hsame
    dsimp only at hsame
    split_ifs
    · rw [hsame]
      exact .refl _
    · dsimp only
      rw [hsame]
      exact .free _ _

theorem moves_userProtect (s : Vmm) (virt : ℕ) (flags : PteFlags) :
    s.pmm.Moves (s.vmmUserProtect virt flags).1.pmm := by
  simp only [vmmUserProtect]
  split
  · exact .refl _
  next root hroot =>
  have hcow := moves_cowFault s root virt
  split
  · exact .refl _
  split
  · exact .refl _
  split
  · split
    · exact hcow
    · split
      · exact hcow
      · exact hcow
  · exact .refl _

theorem moves_writablePage (s : Vmm) (root page : ℕ) :
    s.pmm.Moves (s.writablePage root page).1.pmm := by
  have hcow := moves_cowFault s root page
  simp only [writablePage]
  split
  · exact .refl _
  split_ifs
  · exact .refl _
  · exact .refl _
  · exact .refl _
  · exact hcow
  · split
    · exact hcow
    · split_ifs
      · exact hcow
      · exact hcow

theorem moves_copyToLoop (root fuel : ℕ) (s : Vmm) (dst : ℕ) (data : List UInt8) :
    s.pmm.Moves (copyToLoop root fuel s dst data).1.pmm := by
  induction fuel generalizing s dst data with
  | zero => exact .refl _
  | succ fuel ih =>
    have hpage := moves_writablePage s root (Pmm.pageOf dst)
    simp only [copyToLoop]
    split
    · exact .refl _
    split
    · next s₁ hs =>
      rw [hs] at hpage
      exact hpage
    · next s₁ pte hs =>
      rw [hs] at hpage
      split
      · exact hpage.trans (ih (s₁.putBytes pte.frame _ _) _ _)
      · exact hpage

theorem moves_userStore (s : Vmm) (root va : ℕ) (b : UInt8) :
    s.pmm.Moves (s.userStore root va b).pmm := by
  have hcow := moves_cowFault s root va
  simp only [userStore]
  split
  · exact .refl _
  · exact .refl _
  · split_ifs
    · exact hcow
    · split
      · exact hcow
      · exact hcow

theorem moves_destroy (s : Vmm) (root : ℕ) : s.pmm.Moves (s.vmmUserSpaceDestroy root).1.pmm := by
  simp only [vmmUserSpaceDestroy]
  split
  · exact .refl _
  split_ifs
  · exact (moves_destroyUserLevel _ 3 _ _ _).trans (.free _ _)
  · exact .refl _

theorem moves_step (s : Vmm) (op : Op) : s.pmm.Moves (s.step op).pmm := by
  cases op with
  | activate root =>
    simp only [step, vmmUserActivate]
    split_ifs
    · exact .refl _
    · exact .refl _
  | clone root => exact moves_clone s root
  | cowFault root addr => exact moves_cowFault s root addr
  | map virt content flags => exact moves_mapFresh s virt content flags
  | unmap virt => exact moves_unmapFree s virt
  | mprotect virt prot =>
    simp only [step, mprotectPage]
    split_ifs
    · exact .refl _
    · exact moves_unmapFree s virt
    · exact moves_userProtect s virt _
  | copyTo root dst data =>
    simp only [step, userCopyToCr3]
    split_ifs
    · exact .refl _
    · exact moves_copyToLoop _ _ _ _ _
  | store root va b => exact moves_userStore s root va b
  | destroy root => exact moves_destroy s root

end Vmm

end YabroOS.Memory
