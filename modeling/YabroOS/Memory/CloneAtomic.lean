import YabroOS.Memory.CloneMark

namespace YabroOS.Memory

open Lib Function

namespace Pmm

variable {p p' : Pmm} {N m : Multiset ℕ} {f : ℕ}

theorem Fixed.pageIsReserved (h : p.Fixed p') (a : ℕ) :
    p'.pmmPageIsReserved a = p.pmmPageIsReserved a := h.isReserved _

theorem Fixed.shared (h : p.Fixed p') : Tab.shared p' = Tab.shared p := by
  funext e
  simp only [Tab.shared, h.pageIsReserved]

theorem Fixed.mark (h : p.Fixed p') : Tab.mark p' = Tab.mark p := by
  funext e
  simp only [Tab.mark, h.pageIsReserved]

theorem Fixed.sharedFrames (h : p.Fixed p') {n : ℕ} (t : Tab n) :
    Tab.sharedFrames p' n t = Tab.sharedFrames p n t := by
  rw [Tab.sharedFrames, Tab.sharedFrames, h.shared]

theorem Fixed.addressable (h : p.Fixed p') : Tab.Addressable p' m ↔ Tab.Addressable p m := by
  simp only [Tab.Addressable, h.table]

theorem Fixed.walk (h : p.Fixed p') {n : ℕ} (frame : ℕ) (t : Tab n) (virt : ℕ) :
    Tab.walk p' n frame t virt = Tab.walk p n frame t virt := by
  induction n generalizing frame with
  | zero => simp only [Tab.walk, h.table]
  | succ n ih => simp only [Tab.walk, h.table, ih]

theorem Fixed.both (h : p.Fixed p') : Tab.Both p' = Tab.Both p := by
  funext f f'
  simp only [Tab.Both, h.table]

theorem Holding.isAllocated (h : p.Holding N p') (hf : f ∈ N) :
    p.pageIsAllocated (f * pageSize) = false := by
  obtain ⟨l, t, hinv⟩ := h.inv
  obtain ⟨hin, -, hclear, -⟩ := h.free f hf
  have hlt : f * pageSize < pmmTrackLimit := by
    refine (hinv.toSound.bounds (s := ⟨p', l, t⟩) ?_).2
    rw [show (PmmState.mk p' l t).frames = p'.frames from rfl, h.frames]
    exact hin
  simp [pageIsAllocated, tracked, hlt, mul_div_pageSize, hclear]

theorem Holding.allocTable_isSome (h : p.Holding N p') (hdirect : ∀ f ∈ p.frames, p.table f = true)
    (hfree : N.card < p.freePages) : ∃ q f, p'.allocTable = (q, some f) := by
  obtain ⟨q, f, ha⟩ := h.alloc_isSome hfree
  have hq := h.alloc_some ha
  have htab : q.table f = true := by
    rw [hq.toFixed.table]
    exact hdirect f (hq.free f (Multiset.mem_cons_self _ _)).1
  refine ⟨q, f, ?_⟩
  simp only [allocTable, ha]
  rw [if_pos htab]

theorem Holding.retains (h : p.Holding N p') (hm : ∀ f ∈ m, p.pageState f = true) :
    (p.retains m).Holding N (p'.retains m) := by
  obtain ⟨l, t, hinv⟩ := h.inv
  have hrefs : ∀ f ∈ p'.frames, p'.reservedState f = false →
      (p'.pageState f = true ↔ 1 ≤ p'.pageRefs f + m.count f) := by
    intro f hf hres
    have hiff := hinv.refs f hf hres
    by_cases hfm : f ∈ m
    · have hst : p'.pageState f = true := by rw [h.pageState f, hm f hfm, Bool.true_or]
      have hone : 1 ≤ p'.pageRefs f := hiff.1 hst
      exact iff_of_true hst (by omega)
    · rw [Multiset.count_eq_zero_of_notMem hfm]
      exact hiff
  refine ⟨⟨h.frames, h.hhdm, h.ready, h.reserved⟩,
    ⟨l, t, ⟨hinv.hhdm, hinv.idle, hinv.region, hinv.reserved, hrefs⟩, hinv.free, hinv.total⟩,
    h.nodup, fun f hf ↦ ?_, h.pageState, fun f ↦ ?_, h.freePages⟩
  · obtain ⟨hin, hres, hst, hzero⟩ := h.free f hf
    refine ⟨hin, hres, hst, ?_⟩
    have hnot : f ∉ m := fun hfm ↦ by
      rw [hm f hfm] at hst
      cases hst
    simp only [Pmm.retains, hzero, Multiset.count_eq_zero_of_notMem hnot]
  · simp only [Pmm.retains, h.pageRefs f]
    omega

end Pmm

namespace Tab

variable {p p' p'' : Pmm} {n : ℕ} {N m : Multiset ℕ}

/-- An entry maps a frame that is handed out, or reserved. -/
def Backed (p : Pmm) (e : Pte) : Prop :=
  p.pmmPageIsReserved (e.frame * pageSize) = true ∨ p.pageIsAllocated (e.frame * pageSize) = true

theorem passes_holding (h : p.Holding N p') {e : Pte} (hb : Backed p e) :
    Passes p' e ↔ Passes p e := by
  unfold Passes
  rw [h.toFixed.pageIsReserved]
  refine and_congr_right (fun _ ↦ and_congr_right (fun _ ↦ imp_congr_right (fun hres ↦ ?_)))
  have hal : p.pageIsAllocated (e.frame * pageSize) = true := hb.resolve_left (by simp [hres])
  have hnot : e.frame ∉ N := fun hf ↦ by
    rw [h.isAllocated hf] at hal
    cases hal
  unfold Pmm.Taken
  rw [h.toFixed.isReserved, h.ready, h.pageState, h.pageRefs, Multiset.count_eq_zero_of_notMem hnot,
    decide_eq_false hnot, Bool.or_false, add_zero]

theorem Leaves.imp_of {A P Q : Pte → Prop} {v : ℕ} {t : Tab n} (ha : Leaves (fun _ e ↦ A e) n v t)
    (h : Leaves (fun _ e ↦ P e) n v t) (himp : ∀ e, A e → P e → Q e) :
    Leaves (fun _ e ↦ Q e) n v t := by
  induction n generalizing v with
  | zero => exact fun i e he ↦ himp e (ha i e he) (h i e he)
  | succ n ih =>
    intro i e he
    have hi := h i e he
    have hai := ha i e he
    cases e with
    | huge fl f => exact hi
    | next fl f c => exact ih hai hi

theorem sits_holding (h : p.Holding N p') {t : Tab n} (hb : Leaves (fun _ e ↦ Backed p e) n 0 t) :
    Sits p' (Passes p') n t ↔ Sits p (Passes p) n t := by
  refine and_congr h.toFixed.addressable ⟨fun hl ↦ ?_, fun hl ↦ ?_⟩
  · exact hb.imp_of hl (fun e he ↦ (passes_holding h he).1)
  · exact hb.imp_of hl (fun e he ↦ (passes_holding h he).2)

end Tab

namespace Vmm

open Tab

variable {s s' : Vmm} {root : ℕ} {src : Tab 3} {r : Except Int ℕ}

def tablesOf (root : ℕ) (t : Tab 3) : Multiset ℕ := root ::ₘ tableFrames 3 t

/-- Where a fork stands when it begins to mark pages: the tables are copied, and the test has
passed. -/
structure Copied (s : Vmm) (root : ℕ) (src : Tab 3) (p : Pmm) (dst : ℕ) (t : Tab 3) : Prop where
  holding : s.pmm.Holding (dst ::ₘ tableFrames 3 t) p
  both : Both s.pmm root dst
  maps : Maps (Both s.pmm) id 3 src t
  reached : Addressable s.pmm (tableFrames 3 t)
  card : (tableFrames 3 t).card = (tableFrames 3 src).card
  sits : Sits p (Passes p) 3 src

/-- What a fork needs besides room in the counters. -/
structure Fits (p : Pmm) (root : ℕ) (src : Tab 3) : Prop where
  table : p.table root = true
  sits : Sits p (Passes p) 3 src
  room : (tablesOf root src).card ≤ p.freePages

/-- The direct map reaches the regions, and the pages of a tree are in use. -/
structure Sane (p : Pmm) (src : Tab 3) : Prop where
  direct : ∀ f ∈ p.frames, p.table f = true
  backed : Leaves (fun _ e ↦ Backed p e) 3 0 src

theorem clone_cases (hok : s.pmm.Ok) (hsrc : s.spaces.get? root = some src)
    (h : s.vmmUserSpaceClone root = (s', r)) :
    (∃ err p, r = .error err ∧ s' = { s with pmm := p } ∧ s.pmm.Agrees p ∧
        (Sane s.pmm src → ¬ Fits s.pmm root src)) ∨
      ∃ p dst t p' src' t' rc, Copied s root src p dst t ∧
        applyLoop (applyForkCow 2) p src t (Slots.list src) = (p', src', t', rc) ∧
        ((rc ≠ 0 ∧ r = .error (-1) ∧
            s' = { s with pmm := destroyCloneLevel 3 p' dst t', spaces := s.spaces.set root src' }) ∨
          (rc = 0 ∧ r = .ok dst ∧ s' = { s with
            pmm := p'
            spaces := (s.spaces.set root src').set dst t'
            upper := update s.upper dst (s.upper root) })) := by
  unfold vmmUserSpaceClone at h
  rw [hsrc] at h
  dsimp only at h
  by_cases htab : s.pmm.table root = true
  swap
  · rw [if_neg htab] at h
    cases h
    exact .inl ⟨-1, s.pmm, rfl, rfl, hok.holding.agrees, fun _ hfits ↦ htab hfits.table⟩
  rw [if_pos htab] at h
  split at h
  · next q hq =>
    cases h
    refine .inl ⟨-1, q, rfl, rfl, (hok.holding.allocTable_none hq).agrees, fun hsane hfits ↦ ?_⟩
    have hroom := hfits.room
    rw [tablesOf, Multiset.card_cons] at hroom
    obtain ⟨q', f, hsome⟩ := hok.holding.allocTable_isSome hsane.direct (by
      rw [Multiset.card_zero]
      omega)
    rw [hq] at hsome
    cases hsome
  · next q dst hq =>
    obtain ⟨hhold, hdst⟩ := hok.holding.allocTable_some hq
    split at h
    · next q' t err hc =>
      obtain ⟨h₁, h₂, -⟩ := copies_cloneTree (copies_cloneUserTables s.pmm 2) hhold hc
      cases h
      refine .inl ⟨err, _, rfl, rfl, (holding_destroyCloneLevel (N := 0) (h₂.cons hdst) ?_).agrees,
        fun hsane hfits ↦ ?_⟩
      · rwa [add_zero, ← Multiset.singleton_add, add_comm, ← Multiset.cons_zero]
      · have hroom := hfits.room
        rw [tablesOf, Multiset.card_cons] at hroom
        obtain ⟨q₁, t₁, hnone⟩ := cloneTree_isNone (copies_cloneUserTables s.pmm 2)
          (completes_cloneUserTables hsane.direct 2) hhold hfits.sits.1
            (hfits.sits.2.imp fun _ _ he ↦ he.1) (by
            rw [Multiset.card_cons, Multiset.card_zero]
            change 0 + 1 + (tableFrames 3 src).card ≤ _
            omega)
        rw [hc] at hnone
        cases hnone
    · next q' t hc =>
      obtain ⟨h₁, h₂, h₃⟩ := copies_cloneTree (copies_cloneUserTables s.pmm 2) hhold hc
      obtain ⟨hmaps, -, hcard, -⟩ := h₃ rfl
      have h₁' : s.pmm.Holding (dst ::ₘ tableFrames 3 t) q' := by
        rwa [← Multiset.singleton_add, add_comm, ← Multiset.cons_zero]
      have hpre := preflightLoop_spec (preflightForkPages_spec (h₁.ok hok) 2) (Slots.list src)
      rw [← sits_succ_iff] at hpre
      cases hpf : preflightLoop (preflightForkPages 2) q' (Slots.list src) with
      | mk q₂ rc =>
        rw [hpf] at h hpre
        obtain ⟨rfl, hpass⟩ := hpre
        dsimp only at h hpass
        by_cases hrc : rc = 0
        swap
        · rw [if_pos hrc] at h
          cases h
          refine .inl ⟨-1, _, rfl, rfl,
            (holding_destroyCloneLevel (N := 0) (h₂.cons hdst) ?_).agrees, fun hsane hfits ↦ ?_⟩
          · rwa [add_zero]
          · exact hrc (hpass.2 ((sits_holding h₁ hsane.backed).2 hfits.sits))
        · rw [if_neg (by simp [hrc])] at h
          cases hap : applyLoop (applyForkCow 2) q₂ src t (Slots.list src) with
          | mk p' x =>
            obtain ⟨src', t', rc'⟩ := x
            rw [hap] at h
            dsimp only at h
            refine .inr ⟨q₂, dst, t, p', src', t', rc',
              ⟨h₁', ⟨htab, hdst⟩, hmaps, h₂, hcard, hpass.1 hrc⟩, hap, ?_⟩
            by_cases hrc' : rc' = 0
            · rw [if_neg (by simp [hrc'])] at h
              cases h
              exact .inr ⟨hrc', rfl, rfl⟩
            · rw [if_pos hrc'] at h
              cases h
              exact .inl ⟨hrc', rfl, rfl⟩

theorem Copied.marks {p p' : Pmm} {dst : ℕ} {t src' t' : Tab 3} {rc : Int}
    (h : Copied s root src p dst t) (hok : s.pmm.Ok)
    (ha : applyLoop (applyForkCow 2) p src t (Slots.list src) = (p', src', t', rc)) :
    Marks p 0 (sharedFrames s.pmm 3 src) p' rc ∧ tableFrames 3 t' = tableFrames 3 t ∧
      (rc = 0 → Maps Eq (mark s.pmm) 3 src src' ∧ Maps (Both s.pmm) (mark s.pmm) 3 src t') := by
  have hfix := h.holding.toFixed
  rw [← hfix.sharedFrames, ← hfix.mark, ← hfix.both]
  have hw : Within p 0 := by
    intro f
    rw [Multiset.count_zero, add_zero]
    exact (h.holding.ok hok).word f
  have hmaps := h.maps
  rw [← hfix.both] at hmaps
  rw [← p.retains_zero] at ha
  exact applyTree_spec (applies_applyForkCow p 2) hw hmaps h.sits ha

def mappings (src : Tab 3) (f : ℕ) : ℕ :=
  weigh (fun e ↦ if e.frame = f then 1 else 0) (fun _ ↦ 0) 3 src

theorem count_sharedFrames {p : Pmm} {f : ℕ} (hf : p.pmmPageIsReserved (f * pageSize) = false)
    (src : Tab 3) : (sharedFrames p 3 src).count f = mappings src f := by
  have hmap := map_weigh (shared p) (fun _ ↦ 0) (Multiset.countAddMonoidHom f) 3 src
  refine hmap.trans ?_
  unfold mappings
  congr 1
  funext e
  simp only [shared, Multiset.coe_countAddMonoidHom]
  by_cases he : e.frame = f
  · subst he
    simp [hf]
  · split_ifs <;> simp [Ne.symm he]

theorem translate_maps {R : ℕ → ℕ → Prop} {g : Pte → Pte}
    (hR : ∀ f f', R f f' → s.pmm.table f = s.pmm.table f') {root' : ℕ} {t t' : Tab 3}
    (hroot : R root root') (hfix : s.pmm.Fixed s'.pmm) (hs : s.spaces.get? root = some t)
    (hs' : s'.spaces.get? root' = some t') (h : Maps R g 3 t t') (va : ℕ) :
    s'.vmmUserTranslateCr3 root' va = (s.vmmUserTranslateCr3 root va).map g := by
  simp only [vmmUserTranslateCr3, hs, hs']
  split_ifs
  · rw [hfix.walk]
    exact walk_maps hR hroot h
  · rfl

/-- A fork that succeeds: both spaces translate as before, with every writable page of a frame that
is not reserved marked in both. The frames have one more reference for each entry, and the new
tables are frames that were free. -/
theorem vmmUserSpaceClone_ok {dst : ℕ} (hok : s.pmm.Ok) (hsrc : s.spaces.get? root = some src)
    (htab : ∀ f ∈ tablesOf root src, s.pmm.pageIsAllocated (f * pageSize) = true)
    (h : s.vmmUserSpaceClone root = (s', .ok dst)) :
    (∀ va, s'.vmmUserTranslateCr3 dst va = (s.vmmUserTranslateCr3 root va).map (mark s.pmm)) ∧
      (∀ va, s'.vmmUserTranslateCr3 root va = (s.vmmUserTranslateCr3 root va).map (mark s.pmm)) ∧
      ∃ t, s'.spaces.get? dst = some t ∧
        (∀ f, s.pmm.pmmPageIsReserved (f * pageSize) = false →
          s'.pmm.pageRefs f = s.pmm.pageRefs f + mappings src f + (tablesOf dst t).count f) ∧
        (tablesOf dst t).Nodup ∧
        (∀ f ∈ tablesOf dst t, s.pmm.pageIsAllocated (f * pageSize) = false ∧
          s'.pmm.pageIsAllocated (f * pageSize) = true ∧ f ∉ tablesOf root src) ∧
        s'.upper dst = s.upper root := by
  obtain ⟨err, q, hr, -⟩ | ⟨p, dst', t, p', src', t', rc, hcop, hap, hend⟩ := clone_cases hok hsrc h
  · cases hr
  obtain ⟨-, hr, -⟩ | ⟨rfl, hr, rfl⟩ := hend
  · cases hr
  cases hr
  obtain ⟨hmarks, htabs, hmaps⟩ := hcop.marks hok hap
  obtain ⟨hp', -⟩ := hmarks.within
  rw [zero_add] at hp'
  subst hp'
  obtain ⟨hmsrc, hmdst⟩ := hmaps rfl
  have hhold := hcop.holding
  have hfix : s.pmm.Fixed (p.retains (sharedFrames s.pmm 3 src)) :=
    hhold.toFixed.trans (.retains p _)
  have hne : ∀ f ∈ tablesOf dst t, f ∉ tablesOf root src := by
    intro f hf hfs
    have hfree := hhold.isAllocated hf
    rw [htab f hfs] at hfree
    cases hfree
  have hroot : root ≠ dst := by
    rintro rfl
    exact hne root (Multiset.mem_cons_self _ _) (Multiset.mem_cons_self _ _)
  have htabs' : tablesOf dst t' = tablesOf dst t := by rw [tablesOf, tablesOf, htabs]
  refine ⟨fun va ↦ ?_, fun va ↦ ?_, t', Slots.get?_set_self _ _ _, fun f hf ↦ ?_, ?_, fun f hf ↦ ?_,
    update_self ..⟩
  · exact translate_maps (fun f f' hb ↦ hb.1.trans hb.2.symm) hcop.both hfix hsrc
      (Slots.get?_set_self _ _ _) hmdst va
  · refine translate_maps (fun f f' hb ↦ by rw [hb]) rfl hfix hsrc ?_ hmsrc va
    dsimp only
    rw [Slots.get?_set_of_ne _ hroot, Slots.get?_set_self]
  · rw [htabs', ← count_sharedFrames hf]
    simp only [Pmm.retains, hhold.pageRefs f, tablesOf]
    omega
  · rw [htabs']
    exact hhold.nodup
  · rw [htabs'] at hf
    have hfree := hhold.isAllocated hf
    refine ⟨hfree, ?_, hne f hf⟩
    simp only [Pmm.pageIsAllocated, Pmm.retains] at hfree ⊢
    split_ifs at hfree ⊢
    rw [hhold.pageState, Pmm.mul_div_pageSize, Bool.or_eq_true, decide_eq_true_eq]
    exact .inr hf

/-- Some counter has no room for all the references that a fork takes. -/
def Crowded (p : Pmm) (src : Tab 3) : Prop :=
  ∃ f, 0xFFFF < p.pageRefs f + (sharedFrames p 3 src).count f

/-- A clone that fails leaves every entry, every counter and every frame as it was. -/
def CloneAtomic (s : Vmm) (root : ℕ) : Prop :=
  ∀ s' err, s.vmmUserSpaceClone root = (s', .error err) → s'.spaces = s.spaces ∧ s.pmm.Agrees s'.pmm

end Vmm

namespace Tab

theorem mem_sum_map {α β : Type} {w : α → Multiset β} {l : List α} {x : β} (h : x ∈ (l.map w).sum) :
    ∃ a ∈ l, x ∈ w a := by
  rw [← Multiset.sum_coe] at h
  obtain ⟨m, hm, hx⟩ := Multiset.mem_join.1 h
  obtain ⟨a, ha, rfl⟩ := List.mem_map.1 (Multiset.mem_coe.1 hm)
  exact ⟨a, ha, hx⟩

theorem mem_sharedFrames {p : Pmm} {P : Pte → Prop} {n v f : ℕ} {t : Tab n}
    (h : Leaves (fun _ e ↦ P e) n v t) (hf : f ∈ sharedFrames p n t) :
    ∃ e, P e ∧ e.frame = f ∧ p.pmmPageIsReserved (f * pageSize) = false := by
  induction n generalizing v with
  | zero =>
    obtain ⟨q, hq, hf⟩ := mem_sum_map hf
    by_cases hres : p.pmmPageIsReserved (q.2.frame * pageSize) = true
    · simp [shared, hres] at hf
    · dsimp only [shared] at hf
      rw [if_neg hres, Multiset.mem_singleton] at hf
      subst hf
      exact ⟨q.2, h q.1 q.2 (get?_of_mem q hq), rfl, by simpa using hres⟩
  | succ n ih =>
    rw [sharedFrames_succ] at hf
    obtain ⟨⟨i, e⟩, hq, hf⟩ := mem_sum_map hf
    have hi := h i e (get?_of_mem _ hq)
    cases e with
    | huge fl g => exact hi.elim
    | next fl g c =>
      rw [entryShared_next] at hf
      exact ih hi hf

end Tab

namespace Vmm

open Tab

variable {s s' : Vmm} {root : ℕ} {src : Tab 3} {r : Except Int ℕ}

theorem Copied.stops {p p' : Pmm} {dst : ℕ} {t src' t' : Tab 3} {rc : Int}
    (h : Copied s root src p dst t) (hok : s.pmm.Ok)
    (hback : Leaves (fun _ e ↦ Backed s.pmm e) 3 0 src)
    (ha : applyLoop (applyForkCow 2) p src t (Slots.list src) = (p', src', t', rc)) (hrc : rc ≠ 0) :
    Crowded s.pmm src ∧ (destroyCloneLevel 3 p' dst t').pageRefs ≠ s.pmm.pageRefs := by
  obtain ⟨hmarks, htabs, -⟩ := h.marks hok ha
  obtain ⟨hzero, -⟩ | ⟨-, k, f, hle, rfl, hfull⟩ := hmarks
  · exact absurd hzero hrc
  rw [zero_add] at hfull ⊢
  have hsits : Sits s.pmm (Passes s.pmm) 3 src := (sits_holding h.holding hback).1 h.sits
  have htaken : ∀ g ∈ sharedFrames s.pmm 3 src, s.pmm.pageState g = true ∧
      s.pmm.pageRefs g ≠ 0xFFFF := by
    intro g hg
    obtain ⟨e, he, rfl, hres⟩ := mem_sharedFrames hsits.2 hg
    obtain ⟨⟨-, -, -, -, hst⟩, hne⟩ := he.2.2 hres
    exact ⟨hst, hne⟩
  have hf : f ∈ sharedFrames s.pmm 3 src := Multiset.mem_of_le hle (Multiset.mem_cons_self _ _)
  have hnot : f ∉ dst ::ₘ tableFrames 3 t := fun hm ↦ by
    have hclear := (h.holding.free f hm).2.2.1
    rw [(htaken f hf).1] at hclear
    cases hclear
  rw [h.holding.pageRefs, Multiset.count_eq_zero_of_notMem hnot, add_zero] at hfull
  have hcount := Multiset.count_le_of_le f hle
  rw [Multiset.count_cons_self] at hcount
  refine ⟨⟨f, by omega⟩, fun heq ↦ ?_⟩
  have hk : ∀ g ∈ k, s.pmm.pageState g = true := fun g hg ↦
    (htaken g (Multiset.mem_of_le hle (Multiset.mem_cons_of_mem hg))).1
  have hhold := h.holding.retains hk
  rw [← add_zero (dst ::ₘ tableFrames 3 t), ← htabs] at hhold
  have hreach : Addressable (s.pmm.retains k) (dst ::ₘ tableFrames 3 t') := by
    rw [htabs]
    exact h.reached.cons h.both.2
  have hend := congrFun (holding_destroyCloneLevel hreach hhold).agrees.pageRefs f
  rw [heq] at hend
  simp only [Pmm.retains] at hend
  have hne := (htaken f hf).2
  omega

/-- A failed clone is atomic unless all that is asked of the source and of the allocator is given
but some counter cannot take the references of all the entries that map its frame. -/
theorem cloneAtomic_iff (hok : s.pmm.Ok) (hsrc : s.spaces.get? root = some src)
    (hsane : Sane s.pmm src) :
    CloneAtomic s root ↔ ¬ (Fits s.pmm root src ∧ Crowded s.pmm src) := by
  constructor
  · rintro hatom ⟨hfits, g, hg⟩
    cases h : s.vmmUserSpaceClone root with
    | mk s' r =>
      obtain ⟨err, q, -, -, -, hno⟩ | ⟨p, dst, t, p', src', t', rc, hcop, hap, hend⟩ :=
        clone_cases hok hsrc h
      · exact hno hsane hfits
      obtain ⟨hrc, rfl, rfl⟩ | ⟨rfl, -, -⟩ := hend
      · exact (hcop.stops hok hsane.backed hap hrc).2 (hatom _ _ h).2.pageRefs
      · obtain ⟨-, hw⟩ := (hcop.marks hok hap).1.within
        have hwg := hw g
        rw [zero_add, hcop.holding.pageRefs] at hwg
        omega
  · intro hnot s' err h
    obtain ⟨err', q, -, rfl, hagrees, -⟩ | ⟨p, dst, t, p', src', t', rc, hcop, hap, hend⟩ :=
      clone_cases hok hsrc h
    · exact ⟨rfl, hagrees⟩
    obtain ⟨hrc, -, -⟩ | ⟨-, hr, -⟩ := hend
    · refine absurd ⟨⟨hcop.both.1, (sits_holding hcop.holding hsane.backed).1 hcop.sits, ?_⟩,
        (hcop.stops hok hsane.backed hap hrc).1⟩ hnot
      have hroom := hcop.holding.freePages
      rw [Multiset.card_cons, hcop.card] at hroom
      rw [tablesOf, Multiset.card_cons]
      omega
    · cases hr

def writablePte (f : ℕ) : Pte := ⟨⟨true, true, true, false, false, false, 0, 0⟩, f, false⟩

def twoPages (first second : ℕ) : Tab 3 :=
  let pt : Tab 0 := (Slots.empty.set 1 (writablePte first)).set 2 (writablePte second)
  let pd : Tab 1 := Slots.set (empty 1) 0 (.next tableFlags 4100 pt)
  let pdpt : Tab 2 := Slots.set (empty 2) 0 (.next tableFlags 4099 pd)
  Slots.set (empty 3) 0 (.next tableFlags 4098 pdpt)

def sixteenFrames (refs : ℕ) : Pmm where
  regions := [⟨4096, 4112, 4096⟩]
  hhdm := 0xFFFF800000000000
  freePages := 10
  pageState f := decide (4096 ≤ f ∧ f < 4102)
  reservedState f := decide (f = 0xFD000)
  pageRefs f := if f = 4101 then refs else if 4096 ≤ f ∧ f < 4101 then 1 else 0
  ready := true

def forkState (refs first second : ℕ) : Vmm where
  pmm := sixteenFrames refs
  spaces := Slots.empty.set 4097 (twoPages first second)
  user := some 4097
  bytes := fun _ _ ↦ 0
  fbPhys := 0
  fbSize := 0
  upper := fun _ _ ↦ 0
  kernelCr3 := 0

theorem sixteenFrames_frames (refs f : ℕ) :
    f ∈ (sixteenFrames refs).frames ↔ 4096 ≤ f ∧ f < 4112 := by
  rw [Pmm.frames, Pmm.mem_framesOf]
  simp [sixteenFrames]

theorem sixteenFrames_ok {refs : ℕ} (hpos : 1 ≤ refs) (hword : refs ≤ 0xFFFF) :
    (sixteenFrames refs).Ok := by
  have hframes : (sixteenFrames refs).frames = Finset.Ico 4096 4112 := by
    ext f
    rw [sixteenFrames_frames, Finset.mem_Ico]
  have hfree : (sixteenFrames refs).freeFrames = Finset.Ico 4102 4112 := by
    ext f
    rw [Pmm.freeFrames, Pmm.mem_clearIn, sixteenFrames_frames, Finset.mem_Ico]
    simp only [sixteenFrames, decide_eq_false_iff_not]
    omega
  refine ⟨⟨[], 16, ⟨?hhdm, nofun, ?region, ?reserved, ?counts⟩, ?free, ?total⟩, ?outside, ?word⟩
  case hhdm => simp [sixteenFrames]
  case region =>
    intro r hr
    obtain rfl := List.mem_singleton.1 hr
    exact ⟨by decide, by decide, by decide⟩
  case reserved =>
    intro f hf hres
    have hf := (sixteenFrames_frames refs f).1 hf
    simp only [sixteenFrames, decide_eq_true_eq] at hres
    omega
  case counts =>
    intro f hf hres
    have hf := (sixteenFrames_frames refs f).1 hf
    simp only [sixteenFrames, decide_eq_true_eq]
    split_ifs <;> omega
  case free => exact (congrArg Finset.card hfree).symm
  case total => exact (congrArg Finset.card hframes).symm
  case outside =>
    intro f hst hres
    simp only [sixteenFrames, decide_eq_true_eq] at hst
    rw [sixteenFrames_frames]
    omega
  case word =>
    intro f
    simp only [sixteenFrames]
    split_ifs <;> omega

theorem tablesOf_twoPages (first second : ℕ) :
    tablesOf 4097 (twoPages first second) = {4097, 4098, 4099, 4100} := by
  have hempty : ∀ n, tableFrames n (empty n) = 0 := fun n ↦ weigh_empty _ _ n
  unfold tablesOf twoPages
  dsimp only
  rw [tableFrames_set_new rfl, tableFrames_set_new rfl, tableFrames_set_new rfl, tableFrames_zero,
    hempty, hempty, hempty]
  rfl

theorem twoPages_tables (refs first second : ℕ) : ∀ f ∈ tablesOf 4097 (twoPages first second),
    (sixteenFrames refs).pageIsAllocated (f * pageSize) = true := by
  intro f hf
  rw [tablesOf_twoPages] at hf
  simp only [Multiset.insert_eq_cons, Multiset.mem_cons, Multiset.mem_singleton] at hf
  obtain rfl | rfl | rfl | rfl := hf <;> rfl

theorem leaves_twoPages {P : ℕ → Pte → Prop} {first second : ℕ} (h₁ : ∀ k, P k (writablePte first))
    (h₂ : ∀ k, P k (writablePte second)) : Leaves P 3 0 (twoPages first second) := by
  have hpt : Leaves P 0 0 ((Slots.empty.set 1 (writablePte first)).set 2 (writablePte second)) :=
    ((leaves_empty 0 0).set (h₁ _)).set (h₂ _)
  exact (leaves_empty 3 0).setNext _ _
    ((leaves_empty 2 _).setNext _ _ ((leaves_empty 1 _).setNext _ _ hpt))

theorem twoPages_sane {refs first second : ℕ} (h₁ : first = 4101 ∨ first = 0xFD000)
    (h₂ : second = 4101 ∨ second = 0xFD000) :
    Sane (sixteenFrames refs) (twoPages first second) := by
  refine ⟨fun f hf ↦ ?_, ?_⟩
  · obtain ⟨hlow, hhigh⟩ := (sixteenFrames_frames refs f).1 hf
    rw [Pmm.table, decide_eq_true_eq, Pmm.physToVirtOk, decide_eq_true_eq]
    simp only [sixteenFrames, pageSize]
    omega
  · have hback : ∀ g, g = 4101 ∨ g = 0xFD000 → Backed (sixteenFrames refs) (writablePte g) := by
      rintro g (rfl | rfl)
      · exact .inr
          (by simp [Pmm.pageIsAllocated, Pmm.tracked, pmmTrackLimit, pageSize, sixteenFrames,
            writablePte])
      · exact .inl
          (by simp [Pmm.pmmPageIsReserved, Pmm.isReserved, Pmm.pageOf, Pmm.tracked, pmmTrackLimit, pageSize,
          sixteenFrames, writablePte])
    exact leaves_twoPages (fun _ ↦ hback first h₁) (fun _ ↦ hback second h₂)

/-- A fork of a space with one page in an ordinary frame and one in a reserved frame. -/
theorem vmmUserSpaceClone_ok_mixed :
    let s := forkState 1 4101 0xFD000
    let s' := (s.vmmUserSpaceClone 4097).1
    (∀ va, s'.vmmUserTranslateCr3 4102 va = (s.vmmUserTranslateCr3 4097 va).map (mark s.pmm)) ∧
      s'.vmmUserTranslateCr3 4102 0x1000 = some { writablePte 4101 with w := false, cow := true } ∧
      s'.pmm.pageRefs 4101 = 2 := by
  have hr : ((forkState 1 4101 0xFD000).vmmUserSpaceClone 4097).2 = .ok 4102 := by decide +kernel
  have hok := vmmUserSpaceClone_ok (sixteenFrames_ok (by decide) (by decide))
    (Slots.get?_set_self _ _ _)
    (twoPages_tables 1 4101 0xFD000) (s := forkState 1 4101 0xFD000) (Prod.ext rfl hr)
  exact ⟨hok.1, by decide +kernel, by decide +kernel⟩

/-- The page in the reserved frame stays writable in both spaces. -/
theorem clone_leaves_reserved_writable :
    let s := forkState 1 4101 0xFD000
    let s' := (s.vmmUserSpaceClone 4097).1
    s.pmm.Ok ∧ Sane s.pmm (twoPages 4101 0xFD000) ∧ (s.vmmUserSpaceClone 4097).2 = .ok 4102 ∧
      s.vmmUserTranslateCr3 4097 0x2000 = some (writablePte 0xFD000) ∧
      s'.vmmUserTranslateCr3 4097 0x2000 = some (writablePte 0xFD000) ∧
      s'.vmmUserTranslateCr3 4102 0x2000 = some (writablePte 0xFD000) := by
  exact ⟨sixteenFrames_ok (by decide) (by decide), twoPages_sane (.inl rfl) (.inr rfl),
    by decide +kernel,
    by decide +kernel, by decide +kernel, by decide +kernel⟩

end Vmm

end YabroOS.Memory
