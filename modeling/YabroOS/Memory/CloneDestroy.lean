import YabroOS.Memory.CloneAtomic
import Mathlib.Algebra.Order.BigOperators.Group.List

namespace YabroOS.Memory

open Lib Function

namespace Pmm

variable {p p' p'' : Pmm} {m m' : Multiset ℕ} {f : ℕ}

/-- A frame whose references are counted: it lies in a region and is not reserved. -/
def Accounted (p : Pmm) (f : ℕ) : Prop := f ∈ p.frames ∧ p.reservedState f = false

theorem Fixed.accounted (h : p.Fixed p') : p'.Accounted f ↔ p.Accounted f := by
  rw [Accounted, Accounted, h.frames, h.reserved]

/-- From `p` to `p'` one reference has gone for each member of `m` whose references are counted. -/
structure Drops (p : Pmm) (m : Multiset ℕ) (p' : Pmm) : Prop extends p.Fixed p' where
  inv : ∃ l t, PmmState.Inv ⟨p', l, t⟩
  refs : ∀ f, p.Accounted f → p.pageRefs f = p'.pageRefs f + m.count f
  other : ∀ f, ¬ p.Accounted f → p'.pageRefs f = p.pageRefs f ∧ p'.pageState f = p.pageState f

theorem Drops.refl (h : ∃ l t, PmmState.Inv ⟨p, l, t⟩) : p.Drops 0 p where
  toFixed := .refl p
  inv := h
  refs f _ := by rw [Multiset.count_zero, add_zero]
  other _ _ := ⟨rfl, rfl⟩

theorem Drops.trans (h : p.Drops m p') (h' : p'.Drops m' p'') : p.Drops (m + m') p'' where
  toFixed := h.toFixed.trans h'.toFixed
  inv := h'.inv
  refs f hf := by
    rw [h.refs f hf, h'.refs f (h.toFixed.accounted.2 hf), Multiset.count_add]
    omega
  other f hf := by
    obtain ⟨h₁, h₂⟩ := h.other f hf
    obtain ⟨h₃, h₄⟩ := h'.other f (fun hc ↦ hf (h.toFixed.accounted.1 hc))
    exact ⟨h₃.trans h₁, h₄.trans h₂⟩

theorem Drops.state (h : p.Drops m p') (hf : p.Accounted f) :
    p'.pageState f = true ↔ 1 ≤ p'.pageRefs f := by
  obtain ⟨l, t, hinv⟩ := h.inv
  obtain ⟨hin, hres⟩ := h.toFixed.accounted.2 hf
  exact hinv.refs f hin hres

theorem drops_free (h : ∃ l t, PmmState.Inv ⟨p, l, t⟩) (hf : p.Accounted f → 1 ≤ p.pageRefs f) :
    p.Drops {f} (p.pmmFreePage (f * pageSize)) := by
  obtain ⟨l, t, hinv⟩ := h
  have hinv' := hinv.freePage (f * pageSize)
  have hcases := hinv.toSound.free_cases (s := ⟨p, l, t⟩) (f * pageSize)
  simp only [mul_div_pageSize] at hcases
  obtain ⟨hcase, hbad⟩ | ⟨hin, hres, hst, ⟨hmany, hcase⟩ | ⟨hfew, hcase⟩⟩ := hcases
  · have hnot : ¬ p.Accounted f := fun hc ↦ by
      obtain hbad | hbad | hbad := hbad
      · exact hbad hc.1
      · have hres := hc.2
        rw [show p.reservedState f = true from hbad] at hres
        cases hres
      · have hst := (hinv.refs f hc.1 hc.2).2 (hf hc)
        rw [show p.pageState f = false from hbad] at hst
        cases hst
    rw [show p.pmmFreePage (f * pageSize) = p from hcase]
    refine ⟨.refl p, ⟨l, t, hinv⟩, fun g hg ↦ ?_, fun _ _ ↦ ⟨rfl, rfl⟩⟩
    have hgf : g ≠ f := fun he ↦ hnot (he ▸ hg)
    rw [Multiset.count_singleton, if_neg hgf, add_zero]
  all_goals
    have hcase : p.pmmFreePage (f * pageSize) = _ := hcase
    have hacc : p.Accounted f := ⟨hin, hres⟩
    have hone := hf hacc
    refine ⟨?_, ⟨l, t, hinv'⟩, fun g hg ↦ ?_, fun g hg ↦ ?_⟩
    · rw [hcase]
      exact ⟨rfl, rfl, rfl, rfl⟩
    · rw [hcase, Multiset.count_singleton]
      dsimp only
      by_cases hgf : g = f
      · subst hgf
        rw [update_self, if_pos rfl]
        omega
      · rw [update_of_ne hgf, if_neg hgf, add_zero]
    · have hgf : g ≠ f := fun he ↦ hg (he ▸ hacc)
      rw [hcase]
      simp only [update_of_ne hgf, and_self]

theorem drops_foldl {l : List ℕ} (h : ∃ l t, PmmState.Inv ⟨p, l, t⟩)
    (hl : ∀ f, p.Accounted f → l.count f ≤ p.pageRefs f) :
    p.Drops l (l.foldl (fun p f ↦ p.pmmFreePage (f * pageSize)) p) := by
  induction l generalizing p with
  | nil => exact .refl h
  | cons f l ih =>
    have hfirst : p.Drops {f} (p.pmmFreePage (f * pageSize)) := drops_free h (fun hf ↦ by
      have hle := hl f hf
      rw [List.count_cons_self] at hle
      omega)
    rw [← Multiset.cons_coe, ← Multiset.singleton_add]
    refine hfirst.trans (ih hfirst.inv (fun g hg ↦ ?_))
    have hg := hfirst.toFixed.accounted.1 hg
    have hrefs := hfirst.refs g hg
    have hle := hl g hg
    rw [Multiset.count_singleton] at hrefs
    rw [List.count_cons] at hle
    by_cases hgf : g = f
    · subst hgf
      rw [if_pos rfl] at hrefs
      rw [if_pos (beq_self_eq_true g)] at hle
      omega
    · rw [if_neg hgf] at hrefs
      omega

theorem agrees_of_state (hp : ∃ l t, PmmState.Inv ⟨p, l, t⟩) (hp' : ∃ l t, PmmState.Inv ⟨p', l, t⟩)
    (h : p.Fixed p') (hrefs : ∀ f, p'.pageRefs f = p.pageRefs f)
    (hst : ∀ f, p'.pageState f = p.pageState f) : p.Agrees p' := by
  obtain ⟨l, t, hinv⟩ := hp
  obtain ⟨l', t', hinv'⟩ := hp'
  refine ⟨h, funext hst, funext hrefs, ?_⟩
  have hfree : p.freePages = (clearIn p.frames p.pageState).card := hinv.free
  have hfree' : p'.freePages = (clearIn p'.frames p'.pageState).card := hinv'.free
  rw [hfree, hfree', h.frames, funext hst]

end Pmm

namespace Tab

variable {p : Pmm} {n : ℕ}

/-- The frames of the pages below a table, the framebuffer's left out. -/
def leafPages (fb : ℕ → Bool) : (n : ℕ) → Tab n → Multiset ℕ
  | 0, t => Slots.total (fun _ e ↦ if fb e.frame then 0 else {e.frame}) t
  | n + 1, t => Slots.total (fun _ e ↦
      match e with
      | .huge _ _ => 0
      | .next _ _ c => leafPages fb n c) t

def releases (fb : ℕ → Bool) : (n : ℕ) → Tab n → List ℕ
  | 0, t => (Slots.list t).flatMap (fun q ↦ if fb q.2.frame then [] else [q.2.frame])
  | n + 1, t => (Slots.list t).flatMap (fun q ↦
      match q.2 with
      | .huge _ _ => []
      | .next _ f c => releases fb n c ++ [f])

theorem coe_flatMap {α : Type} (g : α → List ℕ) (l : List α) :
    ((l.flatMap g : List ℕ) : Multiset ℕ) = (l.map (fun a ↦ (g a : Multiset ℕ))).sum := by
  induction l with
  | nil => rfl
  | cons a l ih => rw [List.flatMap_cons, ← Multiset.coe_add, ih, List.map_cons, List.sum_cons]

theorem coe_releases (fb : ℕ → Bool) (t : Tab n) :
    (releases fb n t : Multiset ℕ) = leafPages fb n t + tableFrames n t := by
  induction n with
  | zero =>
    rw [tableFrames_zero, add_zero, releases, coe_flatMap, leafPages, Slots.total]
    refine congrArg List.sum (List.map_congr_left (fun q _ ↦ ?_))
    split_ifs <;> rfl
  | succ n ih =>
    rw [releases, coe_flatMap, leafPages, tableFrames_succ, ← Slots.total_add, Slots.total]
    refine congrArg List.sum (List.map_congr_left (fun q _ ↦ ?_))
    cases q.2 with
    | huge fl f => simp [entryFrames, entryWeight]
    | next fl f c =>
      dsimp only
      rw [entryFrames_next, ← Multiset.coe_add, ih, Multiset.coe_singleton, ← Multiset.singleton_add]
      abel

theorem foldl_hhdm (l : List ℕ) :
    (l.foldl (fun p f ↦ p.pmmFreePage (f * pageSize)) p).hhdm = p.hhdm := by
  induction l generalizing p with
  | nil => rfl
  | cons f l ih => rw [List.foldl_cons, ih, Pmm.pmmFreePage_hhdm]

theorem addressable_of_hhdm {p' : Pmm} {m : Multiset ℕ} (h : Addressable p m)
    (hh : p'.hhdm = p.hhdm) : Addressable p' m := by
  intro f hf
  exact (Pmm.table_congr hh f).trans (h f hf)

/-- What is left after a loop that calls `pmm_free_page` for the frames `w a` of each entry. -/
theorem foldl_flatMap {α : Type} {g : Pmm → α → Pmm} {w : α → List ℕ} {l : List α} {m : Multiset ℕ}
    (hadd : Addressable p m)
    (hg : ∀ a ∈ l, ∀ p', Addressable p' m →
      g p' a = (w a).foldl (fun p f ↦ p.pmmFreePage (f * pageSize)) p') :
    l.foldl g p = (l.flatMap w).foldl (fun p f ↦ p.pmmFreePage (f * pageSize)) p := by
  induction l generalizing p with
  | nil => rfl
  | cons a l ih =>
    rw [List.foldl_cons, List.flatMap_cons, List.foldl_append, hg a (.head _) p hadd]
    exact ih (addressable_of_hhdm hadd (foldl_hhdm _)) (fun b hb ↦ hg b (.tail _ hb))

theorem destroyUserLevel_eq {fb : ℕ → Bool} {t : Tab n} {frame : ℕ}
    (hadd : Addressable p (frame ::ₘ tableFrames n t)) :
    destroyUserLevel fb n p frame t =
      (releases fb n t).foldl (fun p f ↦ p.pmmFreePage (f * pageSize)) p := by
  induction n generalizing p frame with
  | zero =>
    rw [destroyUserLevel, if_pos (hadd frame (Multiset.mem_cons_self _ _)), releases]
    refine foldl_flatMap hadd (fun q _ p' _ ↦ ?_)
    split_ifs <;> rfl
  | succ n ih =>
    rw [destroyUserLevel, if_pos (hadd frame (Multiset.mem_cons_self _ _)), releases]
    refine foldl_flatMap hadd (fun q hq p' hadd' ↦ ?_)
    obtain ⟨i, e⟩ := q
    cases e with
    | huge fl f => rfl
    | next fl f c =>
      have hle := mem_total (w := fun _ e ↦ entryFrames n e) hq
      rw [← tableFrames_succ] at hle
      dsimp only
      rw [List.foldl_append, ← ih (hadd'.mono (hle.trans (Multiset.le_cons_self _ _)))]
      rfl

theorem count_leafPages {R : ℕ → ℕ → Prop} {fb : ℕ → Bool} {t t' : Tab n} {f : ℕ}
    (h : Maps R (mark p) n t t') (hfb : fb f = false)
    (hres : p.pmmPageIsReserved (f * pageSize) = false) :
    (leafPages fb n t').count f = (sharedFrames p n t).count f := by
  have hmap : ∀ {α : Type} (w : ℕ → α → Multiset ℕ) (s : Slots α),
      (s.total w).count f = s.total (fun i a ↦ (w i a).count f) :=
        fun w s ↦ Slots.map_total (Multiset.countAddMonoidHom f) w s
  have hframe : ∀ e, (mark p e).frame = e.frame := by
    intro e
    unfold mark
    split_ifs <;> rfl
  induction n with
  | zero =>
    rw [leafPages, sharedFrames, weigh_zero, hmap, hmap]
    refine Slots.total_eq_total (fun i ↦ ?_)
    rw [h i]
    cases Slots.get? t i with
    | none => rfl
    | some e =>
      simp only [Option.map_some, Option.elim_some, hframe, shared]
      by_cases hef : e.frame = f
      · subst hef
        simp [hfb, hres]
      · split_ifs <;> simp [Ne.symm hef]
  | succ n ih =>
    rw [leafPages, sharedFrames, weigh_succ, hmap, hmap]
    refine Slots.total_eq_total (fun i ↦ ?_)
    obtain ⟨h₁, h₂⟩ | ⟨fl, g, c, g', c', h₁, h₂, -, hc⟩ := h i
    · rw [h₁, h₂]
      rfl
    · rw [h₁, h₂]
      simp only [Option.elim_some, entryWeight, zero_add]
      exact ih hc

theorem leafPages_le (fb : ℕ → Bool) (t : Tab n) :
    leafPages fb n t + tableFrames n t ≤ (uses n t).map Prod.fst := by
  have hmap : ∀ {α : Type} (w : ℕ → α → Multiset (ℕ × Mode)) (s : Slots α),
      (s.total w).map Prod.fst = s.total (fun i a ↦ (w i a).map Prod.fst) := fun w s ↦
    Slots.map_total (Multiset.mapAddMonoidHom Prod.fst) w s
  induction n with
  | zero =>
    rw [tableFrames_zero, add_zero, leafPages, uses, weigh_zero, hmap]
    refine List.sum_le_sum (fun q _ ↦ ?_)
    dsimp only
    split_ifs
    · exact Multiset.zero_le _
    · rw [Multiset.map_singleton]
      exact le_rfl
  | succ n ih =>
    rw [leafPages, tableFrames_succ, ← Slots.total_add, uses, weigh_succ, hmap]
    refine List.sum_le_sum (fun q _ ↦ ?_)
    cases q.2 with
    | huge fl f =>
      have hnone : entryFrames n (.huge fl f) = 0 := by simp [entryFrames, entryWeight]
      dsimp only
      rw [hnone]
      exact Multiset.zero_le _
    | next fl f c =>
      have hc := ih c
      rw [uses] at hc
      dsimp only
      rw [entryFrames_next, entryWeight, Multiset.map_add, Multiset.map_singleton,
        Multiset.singleton_add, Multiset.add_cons]
      exact Multiset.cons_le_cons f hc

end Tab

namespace Vmm

open Tab

variable {s s' : Vmm} {root f dst : ℕ} {t : Tab 3}

/-- The framebuffer's frames are reserved, or lie outside the regions of usable memory. -/
def FbReserved (s : Vmm) : Prop :=
  ∀ f ∈ s.pmm.frames, s.fbFrame f = true → s.pmm.reservedState f = true

def released (fb : ℕ → Bool) (root : ℕ) (t : Tab 3) : Multiset ℕ :=
  leafPages fb 3 t + tablesOf root t

theorem destroy_eq (ht : s.spaces.get? root = some t) (hadd : Addressable s.pmm (tablesOf root t)) :
    ∃ l : List ℕ, (l : Multiset ℕ) = released s.fbFrame root t ∧ s.vmmUserSpaceDestroy root =
      ({ s with
        pmm := l.foldl (fun p f ↦ p.pmmFreePage (f * pageSize)) s.pmm
        spaces := s.spaces.erase root }, 0) := by
  refine ⟨releases s.fbFrame 3 t ++ [root], ?_, ?_⟩
  · rw [← Multiset.coe_add, coe_releases, Multiset.coe_singleton, released, tablesOf,
      ← Multiset.singleton_add]
    abel
  · rw [vmmUserSpaceDestroy, ht]
    dsimp only
    rw [if_pos (hadd root (Multiset.mem_cons_self _ _)), destroyUserLevel_eq hadd, List.foldl_append]
    rfl

theorem count_released_le (hback : s.pmm.pool.Backed (s.uses.map Prod.fst)) (hok : s.pmm.Ok)
    (ht : s.spaces.get? root = some t) (hf : s.pmm.Accounted f) :
    (released s.fbFrame root t).count f ≤ s.pmm.pageRefs f := by
  obtain ⟨l, n, hinv⟩ := hok.inv
  have hle : released s.fbFrame root t ≤ s.uses.map Prod.fst := by
    rw [uses_of_get? ht, treeUses, Multiset.map_add, Multiset.map_cons, released, tablesOf,
      Multiset.add_cons]
    exact (Multiset.cons_le_cons root (leafPages_le s.fbFrame t)).trans (Multiset.le_add_right _ _)
  have hcount := Multiset.count_le_of_le f hle
  by_cases hmem : f ∈ s.uses.map Prod.fst
  · have hlt : f * pageSize < pmmTrackLimit := (hinv.toSound.bounds (s := ⟨s.pmm, l, n⟩) hf.1).2
    have hnot : ¬ s.pmm.pool.exempt f := fun hc ↦ by
      have hres := (Pmm.exempt_iff s.pmm f).1 hc hlt
      rw [hf.2] at hres
      cases hres
    exact hcount.trans (hback f hmem hnot).2
  · rw [Multiset.count_eq_zero_of_notMem hmem] at hcount
    omega

theorem count_released_clone {src t' : Tab 3} (hfb : s.FbReserved) (hf : s.pmm.Accounted f)
    (hlt : f * pageSize < pmmTrackLimit) (hmaps : Maps (Both s.pmm) (mark s.pmm) 3 src t') :
    (released s.fbFrame dst t').count f = (sharedFrames s.pmm 3 src).count f +
      (tablesOf dst t').count f := by
  have hnotfb : s.fbFrame f = false := by
    cases hc : s.fbFrame f with
    | false => rfl
    | true => exact (hfb f hf.1 hc).symm.trans hf.2
  have hres : s.pmm.pmmPageIsReserved (f * pageSize) = false := by
    simp only [Pmm.pmmPageIsReserved, Pmm.isReserved, Pmm.pageOf_mul, Pmm.tracked, hlt,
      Pmm.mul_div_pageSize, decide_true, if_true]
    exact hf.2
  rw [released, Multiset.count_add, count_leafPages hmaps hnotfb hres]

theorem Copied.shared_accounted {p : Pmm} {src t : Tab 3} (h : Copied s root src p dst t)
    (hok : s.pmm.Ok) (hf : f ∈ sharedFrames s.pmm 3 src) :
    p.pageState f = true ∧ s.pmm.Accounted f := by
  have hfix := h.holding.toFixed
  rw [← hfix.sharedFrames] at hf
  obtain ⟨e, he, rfl, hres⟩ := mem_sharedFrames h.sits.2 hf
  obtain ⟨⟨-, -, hlt, hres', hst⟩, -⟩ := he.2.2 hres
  have hclear : p.reservedState e.frame = false := by
    simpa [Pmm.isReserved, Pmm.pageOf_mul, Pmm.tracked, hlt, Pmm.mul_div_pageSize] using hres'
  exact ⟨hst, hfix.accounted.1 ⟨(h.holding.ok hok).outside _ hst hclear, hclear⟩⟩

theorem clone_destroy_agrees (hok : s.pmm.Ok) (hfb : s.FbReserved)
    (h : s.vmmUserSpaceClone root = (s', .ok dst)) :
    ∃ s'', s'.vmmUserSpaceDestroy dst = (s'', 0) ∧ s.pmm.Agrees s''.pmm := by
  cases hsrc : s.spaces.get? root with
  | none =>
    rw [vmmUserSpaceClone, hsrc] at h
    cases h
  | some src =>
  obtain ⟨err, q, hr, -⟩ | ⟨p, dst', t, p', src', t', rc, hcop, hap, hend⟩ := clone_cases hok hsrc h
  · cases hr
  obtain ⟨-, hr, -⟩ | ⟨rfl, hr, rfl⟩ := hend
  · cases hr
  cases hr
  obtain ⟨hmarks, htabs, hmaps⟩ := hcop.marks hok hap
  obtain ⟨hp', -⟩ := hmarks.within
  rw [zero_add] at hp'
  subst hp'
  have hhold := hcop.holding
  have hokp : p.Ok := hhold.ok hok
  have htabs' : tablesOf dst t' = dst ::ₘ tableFrames 3 t := by rw [tablesOf, htabs]
  obtain ⟨l, n, hinv⟩ := hok.inv
  have hfix : s.pmm.Fixed (p.retains (sharedFrames s.pmm 3 src)) :=
    hhold.toFixed.trans (.retains p _)
  have hadd : Addressable (p.retains (sharedFrames s.pmm 3 src)) (tablesOf dst t') := by
    rw [htabs', hfix.addressable]
    exact hcop.reached.cons hcop.both.2
  obtain ⟨order, horder, hdestroy⟩ := destroy_eq (s := { s with
    pmm := p.retains (sharedFrames s.pmm 3 src)
    spaces := (s.spaces.set root src').set dst t'
    upper := update s.upper dst (s.upper root) }) (Slots.get?_set_self _ _ _) hadd
  have horder : (order : Multiset ℕ) = released s.fbFrame dst t' := horder
  refine ⟨_, hdestroy, ?_⟩
  dsimp only
  -- one reference more than before for each call that the destruction makes
  have hcount : ∀ f, s.pmm.Accounted f →
      (p.retains (sharedFrames s.pmm 3 src)).pageRefs f = s.pmm.pageRefs f + order.count f := by
    intro f hf
    have hlt : f * pageSize < pmmTrackLimit := (hinv.toSound.bounds (s := ⟨s.pmm, l, n⟩) hf.1).2
    rw [← Multiset.coe_count, horder, count_released_clone hfb hf hlt (hmaps rfl).2, htabs']
    simp only [Pmm.retains, hhold.pageRefs f]
    omega
  have hdrops :=
    Pmm.drops_foldl (hokp.holding.retains (fun f hf ↦ (hcop.shared_accounted hok hf).1)).inv
    (fun f hf ↦ (Nat.le_add_left _ _).trans_eq (hcount f (hfix.accounted.1 hf)).symm)
  refine Pmm.agrees_of_state hok.inv hdrops.inv (hfix.trans hdrops.toFixed) (fun f ↦ ?_) (fun f ↦ ?_)
  · by_cases hf : s.pmm.Accounted f
    · have hrefs := hdrops.refs f (hfix.accounted.2 hf)
      rw [hcount f hf, Multiset.coe_count] at hrefs
      omega
    · rw [(hdrops.other f (fun hc ↦ hf (hfix.accounted.1 hc))).1]
      have hnew : f ∉ dst ::ₘ tableFrames 3 t :=
        fun hc ↦ hf ⟨(hhold.free f hc).1, (hhold.free f hc).2.1⟩
      have hsh : f ∉ sharedFrames s.pmm 3 src := fun hc ↦ hf (hcop.shared_accounted hok hc).2
      simp only [Pmm.retains, hhold.pageRefs f, Multiset.count_eq_zero_of_notMem hnew,
        Multiset.count_eq_zero_of_notMem hsh,
        add_zero]
  · by_cases hf : s.pmm.Accounted f
    · have hrefs := hdrops.refs f (hfix.accounted.2 hf)
      rw [hcount f hf, Multiset.coe_count, Nat.add_right_cancel_iff] at hrefs
      rw [Bool.eq_iff_iff, hdrops.state (hfix.accounted.2 hf), ← hrefs]
      exact (hinv.refs f hf.1 hf.2).symm
    · rw [(hdrops.other f (fun hc ↦ hf (hfix.accounted.1 hc))).2]
      have hnew : f ∉ dst ::ₘ tableFrames 3 t :=
        fun hc ↦ hf ⟨(hhold.free f hc).1, (hhold.free f hc).2.1⟩
      simp only [Pmm.retains, hhold.pageState f, decide_eq_false hnew, Bool.or_false]

/-- A clone that is destroyed at once leaves the allocator as it was. In general, the destruction of
a space calls `pmm_free_page` once for each page outside the framebuffer and once for each table,
and each call drops one reference. -/
theorem clone_destroy (hok : s.pmm.Ok) (hfb : s.FbReserved) :
    (∀ root s' dst, s.vmmUserSpaceClone root = (s', .ok dst) →
      ∃ s'', s'.vmmUserSpaceDestroy dst = (s'', 0) ∧ s.pmm.Agrees s''.pmm) ∧
    ∀ root t, s.spaces.get? root = some t → Addressable s.pmm (tablesOf root t) →
      s.pmm.pool.Backed (s.uses.map Prod.fst) →
      ∃ (s' : Vmm) (l : List ℕ), s.vmmUserSpaceDestroy root = (s', 0) ∧
        (l : Multiset ℕ) = leafPages s.fbFrame 3 t + tablesOf root t ∧
        s'.pmm = l.foldl (fun p f ↦ p.pmmFreePage (f * pageSize)) s.pmm ∧
        (∀ f, s.pmm.Accounted f →
          s.pmm.pageRefs f = s'.pmm.pageRefs f + (leafPages s.fbFrame 3 t).count f +
          (tablesOf root t).count f ∧ (s'.pmm.pageState f = true ↔ 1 ≤ s'.pmm.pageRefs f)) ∧
        (∀ f, ¬ s.pmm.Accounted f → s'.pmm.pageRefs f = s.pmm.pageRefs f ∧
          s'.pmm.pageState f = s.pmm.pageState f) ∧
        ∀ f ∈ tablesOf root t, s.pmm.Accounted f → s.pmm.pageRefs f = 1 →
          s'.pmm.pageState f = false := by
  refine ⟨fun root s' dst h ↦ clone_destroy_agrees hok hfb h, fun root t ht hadd hback ↦ ?_⟩
  obtain ⟨l, hl, hdestroy⟩ := destroy_eq ht hadd
  have hdrops := Pmm.drops_foldl (l := l) hok.inv (fun f hf ↦ by
    rw [← Multiset.coe_count, hl]
    exact count_released_le hback hok ht hf)
  have hrefs : ∀ f, s.pmm.Accounted f → s.pmm.pageRefs f =
      (l.foldl (fun p f ↦ p.pmmFreePage (f * pageSize)) s.pmm).pageRefs f +
        (leafPages s.fbFrame 3 t).count f + (tablesOf root t).count f := by
    intro f hf
    have hr := hdrops.refs f hf
    rw [hl, released, Multiset.count_add, ← add_assoc] at hr
    exact hr
  refine ⟨_, l, hdestroy, hl, rfl, fun f hf ↦ ⟨hrefs f hf, hdrops.state hf⟩, hdrops.other,
    fun f hmem hf hone ↦ ?_⟩
  have hr := hrefs f hf
  have hpos := Multiset.count_pos.2 hmem
  have hst := hdrops.state hf
  dsimp only
  rw [← Bool.not_eq_true, hst]
  omega

def framebufferState : Vmm :=
  { forkState 1 4101 0xFD000 with fbPhys := 0xFD000000, fbSize := 0x1000 }

theorem framebufferState_fb : framebufferState.FbReserved := by
  intro f hf hfb
  have hf := (sixteenFrames_frames 1 f).1 hf
  have hle := (of_decide_eq_true hfb).2.1
  simp only [framebufferState, Pmm.pageOf, pageSize] at hle
  omega

theorem framebufferState_backed :
    framebufferState.pmm.pool.Backed (framebufferState.uses.map Prod.fst) := by
  have huses : framebufferState.uses.map Prod.fst = {4097, 4098, 4099, 4100, 4101, 0xFD000} := by
    decide +kernel
  intro f hf hne
  rw [huses] at hf
  rw [Pmm.live_iff, huses]
  simp only [Multiset.insert_eq_cons, Multiset.mem_cons, Multiset.mem_singleton] at hf
  obtain rfl | rfl | rfl | rfl | rfl | rfl := hf
  all_goals first
    | exact absurd ((Pmm.exempt_iff _ _).2 (fun _ ↦ by decide +kernel)) hne
    | exact ⟨⟨by decide, by decide +kernel⟩, by decide +kernel⟩

theorem clone_destroy_framebuffer :
    let s := framebufferState
    (∃ s'', (s.vmmUserSpaceClone 4097).1.vmmUserSpaceDestroy 4102 = (s'', 0) ∧
      s.pmm.Agrees s''.pmm) ∧
      ∃ s', s.vmmUserSpaceDestroy 4097 = (s', 0) ∧ s.pmm.pageRefs 4101 = s'.pmm.pageRefs 4101 + 1 ∧
        s'.pmm.pageState 4098 = false := by
  have hall :=
    clone_destroy (s := framebufferState) (sixteenFrames_ok (by decide) (by decide))
      framebufferState_fb
  have hr : (framebufferState.vmmUserSpaceClone 4097).2 = .ok 4102 := by decide +kernel
  have hadd : Addressable framebufferState.pmm (tablesOf 4097 (twoPages 4101 0xFD000)) := by
    intro f hf
    rw [tablesOf_twoPages] at hf
    simp only [Multiset.insert_eq_cons, Multiset.mem_cons, Multiset.mem_singleton] at hf
    obtain rfl | rfl | rfl | rfl := hf <;> decide
  have hin : ∀ f, 4096 ≤ f → f < 4112 → framebufferState.pmm.Accounted f := by
    intro f h₁ h₂
    refine ⟨(sixteenFrames_frames 1 f).2 ⟨h₁, h₂⟩, ?_⟩
    simp only [framebufferState, forkState, sixteenFrames, decide_eq_false_iff_not]
    omega
  obtain ⟨s', l, hs', -, -, hrefs, -, htabs⟩ :=
    hall.2 4097 _ (Slots.get?_set_self _ _ _) hadd framebufferState_backed
  refine ⟨hall.1 4097 _ 4102 (Prod.ext rfl hr), s', hs', ?_, ?_⟩
  · have hone := (hrefs 4101 (hin 4101 (by decide) (by decide))).1
    have hleaf : (leafPages framebufferState.fbFrame 3 (twoPages 4101 0xFD000)).count 4101 = 1 := by
      decide +kernel
    have htab : (tablesOf 4097 (twoPages 4101 0xFD000)).count 4101 = 0 := by
      rw [tablesOf_twoPages]
      decide
    rw [hleaf, htab] at hone
    exact hone
  · refine htabs 4098 ?_ (hin 4098 (by decide) (by decide)) (by decide +kernel)
    rw [tablesOf_twoPages]
    decide

end Vmm

end YabroOS.Memory
