import YabroOS.Memory.CloneExact

namespace YabroOS.Memory

open Lib Function

namespace Tab

variable {α : Type} {p p' p'' : Pmm} {n v : ℕ} {m sh : Multiset ℕ} {P : Pte → Prop} {rc : Int}

/-- What an entry asks of the pages of a table. -/
def Passes (p : Pmm) (e : Pte) : Prop :=
  e.ps = false ∧ e.frame ≠ 0 ∧
    (p.pmmPageIsReserved (e.frame * pageSize) = false → p.Taken e.frame ∧
      p.pageRefs e.frame ≠ 0xFFFF)

def shared (p : Pmm) (e : Pte) : Multiset ℕ :=
  if p.pmmPageIsReserved (e.frame * pageSize) then 0 else {e.frame}

def sharedFrames (p : Pmm) (n : ℕ) (t : Tab n) : Multiset ℕ := weigh (shared p) (fun _ ↦ 0) n t

def mark (p : Pmm) (e : Pte) : Pte :=
  if p.pmmPageIsReserved (e.frame * pageSize) = false ∧ e.w = true then
    { e with w := false, cow := true } else e

theorem Leaves.shift {t : Tab n} (h : Leaves (fun _ e ↦ P e) n v t) (v' : ℕ) :
    Leaves (fun _ e ↦ P e) n v' t := by
  induction n generalizing v v' with
  | zero => exact fun i e he ↦ h i e he
  | succ n ih =>
    intro i e he
    have hi := h i e he
    cases e with
    | huge fl f => exact hi
    | next fl f c => exact ih hi _

/-- The tables below a table are reached, and its pages satisfy `P`. -/
def Sits (p : Pmm) (P : Pte → Prop) (n : ℕ) (t : Tab n) : Prop :=
  Addressable p (tableFrames n t) ∧ Leaves (fun _ e ↦ P e) n 0 t

theorem sits_succ_iff {t : Tab (n + 1)} : Sits p P (n + 1) t ↔
    ∀ q ∈ Slots.list t, ∃ fl f c, q.2 = .next fl f c ∧ p.table f = true ∧ Sits p P n c := by
  constructor
  · rintro ⟨hadd, hleaf⟩ ⟨i, e⟩ hq
    have hi := hleaf i e (get?_of_mem _ hq)
    have hle := mem_total (w := fun _ e ↦ entryFrames n e) hq
    rw [← tableFrames_succ] at hle
    cases e with
    | huge fl f => exact hi.elim
    | next fl f c =>
      have hadd' := hadd.mono hle
      exact ⟨fl, f, c, rfl, hadd' f (Multiset.mem_cons_self _ _),
        hadd'.mono (Multiset.le_cons_self _ _), hi.shift 0⟩
  · intro h
    refine ⟨?_, fun i e he ↦ ?_⟩
    · rw [tableFrames_succ]
      refine addressable_sum (fun q hq ↦ ?_)
      obtain ⟨fl, f, c, he, hf, hadd, -⟩ := h q hq
      dsimp only
      rw [he]
      exact hadd.cons hf
    · obtain ⟨fl, f, c, he', -, -, hleaf⟩ := h (i, e) ((Slots.get?_eq_some_iff _ _ _).1 he)
      have he' : e = .next fl f c := he'
      subst he'
      exact hleaf.shift _

theorem sits_zero_iff {t : Tab 0} : Sits p P 0 t ↔ ∀ q ∈ Slots.list t, P q.2 := by
  constructor
  · exact fun h q hq ↦ h.2 q.1 q.2 (get?_of_mem q hq)
  · intro h
    refine ⟨?_, fun i e he ↦ h (i, e) ((Slots.get?_eq_some_iff _ _ _).1 he)⟩
    rw [tableFrames_zero]
    exact nofun

theorem preflightPages_spec (hp : p.Ok) (l : List (ℕ × Pte)) :
    (preflightPages p l).1 = p ∧ ((preflightPages p l).2 = 0 ↔ ∀ q ∈ l, Passes p q.2) := by
  induction l with
  | nil => exact ⟨rfl, iff_of_true rfl nofun⟩
  | cons q l ih =>
    obtain ⟨i, e⟩ := q
    rw [List.forall_mem_cons]
    simp only [preflightPages]
    by_cases h₁ : e.ps = true
    · rw [if_pos h₁]
      refine ⟨rfl, iff_of_false (by simp) (fun h ↦ ?_)⟩
      rw [h.1.1] at h₁
      cases h₁
    rw [if_neg h₁]
    by_cases h₂ : e.frame = 0
    · rw [if_pos h₂]
      exact ⟨rfl, iff_of_false (by simp) (fun h ↦ h.1.2.1 h₂)⟩
    rw [if_neg h₂]
    have h₁ : e.ps = false := by simpa using h₁
    by_cases h₃ : p.pmmPageIsReserved (e.frame * pageSize) = true
    · rw [if_pos h₃]
      refine ⟨ih.1, ih.2.trans ⟨fun h ↦ ⟨⟨h₁, h₂, fun hres ↦ ?_⟩, h⟩, fun h ↦ h.2⟩⟩
      rw [hres] at h₃
      cases h₃
    rw [if_neg h₃]
    have h₃ : p.pmmPageIsReserved (e.frame * pageSize) = false := by simpa using h₃
    cases hr : p.pmmRetainPage (e.frame * pageSize) with
    | none =>
      refine ⟨rfl, iff_of_false (by simp) (fun h ↦ ?_)⟩
      obtain ⟨htaken, hfull⟩ := h.1.2.2 h₃
      rw [Pmm.retain_some_iff.2 ⟨htaken, hfull, rfl⟩] at hr
      cases hr
    | some q =>
      obtain ⟨htaken, hfull, -⟩ := Pmm.retain_some_iff.1 hr
      simp only [hp.retain_free hr]
      exact ⟨ih.1, ih.2.trans ⟨fun h ↦ ⟨⟨h₁, h₂, fun _ ↦ ⟨htaken, hfull⟩⟩, h⟩, fun h ↦ h.2⟩⟩

theorem preflightLoop_spec {preflight : Pmm → ℕ → Tab n → Pmm × Int}
    (hpre : ∀ f c, (preflight p f c).1 = p ∧
      ((preflight p f c).2 = 0 ↔ p.table f = true ∧ Sits p (Passes p) n c))
    (l : List (ℕ × Entry (Tab n))) :
    (preflightLoop preflight p l).1 = p ∧ ((preflightLoop preflight p l).2 = 0 ↔
      ∀ q ∈ l, ∃ fl f c, q.2 = .next fl f c ∧ p.table f = true ∧ Sits p (Passes p) n c) := by
  induction l with
  | nil => exact ⟨rfl, iff_of_true rfl nofun⟩
  | cons q l ih =>
    obtain ⟨i, e⟩ := q
    rw [List.forall_mem_cons]
    cases e with
    | huge fl f =>
      refine ⟨rfl, iff_of_false (show ¬ (-2 : Int) = 0 by decide) ?_⟩
      rintro ⟨⟨fl', f', c', he, -⟩, -⟩
      cases he
    | next fl f c =>
      obtain ⟨h₁, h₂⟩ := hpre f c
      simp only [preflightLoop, h₁]
      split_ifs with hrc
      · refine ⟨rfl, iff_of_false (by simp) ?_⟩
        rintro ⟨⟨fl', f', c', he, hs⟩, -⟩
        cases he
        exact hrc (h₂.2 hs)
      · refine ⟨ih.1, ih.2.trans ⟨fun h ↦ ⟨⟨fl, f, c, rfl, h₂.1 (not_not.1 hrc)⟩, h⟩, fun h ↦ h.2⟩⟩

theorem preflightForkPages_spec (hp : p.Ok) (n : ℕ) (f : ℕ) (c : Tab n) :
    (preflightForkPages n p f c).1 = p ∧
    ((preflightForkPages n p f c).2 = 0 ↔ p.table f = true ∧ Sits p (Passes p) n c) := by
  induction n generalizing f with
  | zero =>
    simp only [preflightForkPages]
    split_ifs with htab
    · rw [sits_zero_iff]
      exact ⟨(preflightPages_spec hp _).1, (preflightPages_spec hp _).2.trans (by simp [htab])⟩
    · exact ⟨rfl, iff_of_false (by simp) (fun h ↦ htab h.1)⟩
  | succ n ih =>
    simp only [preflightForkPages]
    split_ifs with htab
    · rw [sits_succ_iff]
      exact ⟨(preflightLoop_spec ih _).1, (preflightLoop_spec ih _).2.trans (by simp [htab])⟩
    · exact ⟨rfl, iff_of_false (by simp) (fun h ↦ htab h.1)⟩

def Within (p : Pmm) (m : Multiset ℕ) : Prop := ∀ f, p.pageRefs f + m.count f ≤ 0xFFFF

/-- The references to `sh` are taken besides those to `m`, or some of them before a counter is full.
-/
def Marks (p : Pmm) (m sh : Multiset ℕ) (p' : Pmm) (rc : Int) : Prop :=
  (rc = 0 ∧ p' = p.retains (m + sh) ∧ Within p (m + sh)) ∨
    (rc ≠ 0 ∧ ∃ k f, f ::ₘ k ≤ sh ∧ p' = p.retains (m + k) ∧ p.pageRefs f + (m + k).count f = 0xFFFF)

theorem Marks.trans {sh' : Multiset ℕ} (h : Marks p m sh p' 0) (h' : Marks p (m + sh) sh' p'' rc) :
    Marks p m (sh + sh') p'' rc := by
  obtain ⟨-, hp, hw⟩ | ⟨hne, -⟩ := h
  · obtain ⟨hrc, hp', hw'⟩ | ⟨hrc, k, f, hle, hp', hfull⟩ := h'
    · rw [add_assoc] at hp' hw'
      exact .inl ⟨hrc, hp', hw'⟩
    · rw [add_assoc] at hp' hfull
      refine .inr ⟨hrc, sh + k, f, ?_, hp', hfull⟩
      rw [← Multiset.add_cons]
      exact add_le_add_right hle sh
  · exact absurd rfl hne

theorem Marks.fail {rc' : Int} (h : Marks p m sh p' rc) (hrc : rc ≠ 0) (hrc' : rc' ≠ 0)
    (sh' : Multiset ℕ) : Marks p m (sh + sh') p' rc' := by
  obtain ⟨hzero, -⟩ | ⟨-, k, f, hle, hp, hfull⟩ := h
  · exact absurd hzero hrc
  · exact .inr ⟨hrc', k, f, hle.trans (Multiset.le_add_right _ _), hp, hfull⟩

theorem Marks.within (h : Marks p m sh p' 0) : p' = p.retains (m + sh) ∧ Within p (m + sh) := by
  obtain ⟨-, hp, hw⟩ | ⟨hne, -⟩ := h
  · exact ⟨hp, hw⟩
  · exact absurd rfl hne

theorem applyPages_spec {src dst src' dst' : Slots Pte} {l : List (ℕ × Pte)}
    (hnd : (l.map Prod.fst).Nodup) (hsrc : ∀ q ∈ l, src.get? q.1 = some q.2)
    (hpass : ∀ q ∈ l, Passes p q.2) (hw : Within p m)
    (ha : applyPages (p.retains m) src dst l = (p', src', dst', rc)) :
    Marks p m (l.map (fun q ↦ shared p q.2)).sum p' rc ∧
      (rc = 0 → (∀ q ∈ l, src'.get? q.1 = some (mark p q.2) ∧ dst'.get? q.1 = some (mark p q.2)) ∧
        ∀ i, i ∉ l.map Prod.fst → src'.get? i = src.get? i ∧ dst'.get? i = dst.get? i) := by
  induction l generalizing m src dst with
  | nil =>
    cases ha
    refine ⟨.inl ⟨rfl, ?_, ?_⟩,
      fun _ ↦ ⟨fun q hq ↦ absurd hq List.not_mem_nil, fun i _ ↦ ⟨rfl, rfl⟩⟩⟩
    · simp
    · simpa using hw
  | cons q l ih =>
    obtain ⟨j, e⟩ := q
    obtain ⟨hj, hnd'⟩ := List.nodup_cons.1 hnd
    obtain ⟨hps, hframe, htake⟩ := hpass _ (.head _)
    have hge : src.get? j = some e := hsrc _ (.head _)
    have hne : ∀ q ∈ l, q.1 ≠ j := fun q hq hqj ↦ hj (List.mem_map.2 ⟨q, hq, hqj⟩)
    have hpass' : ∀ q ∈ l, Passes p q.2 := fun q hq ↦ hpass q (.tail _ hq)
    rw [List.map_cons, List.sum_cons]
    -- what the rest of the loop does, from whatever this entry has become in the two tables
    have hrest : ∀ (src₁ dst₁ : Slots Pte), (∀ i, i ≠ j → src₁.get? i = src.get? i) → (∀ i, i ≠ j →
        dst₁.get? i = dst.get? i) → src₁.get? j = some (mark p e) → dst₁.get? j = some (mark p e) →
        Within p (m + shared p e) →
          applyPages (p.retains (m + shared p e)) src₁ dst₁ l = (p', src', dst', rc) →
        Marks p m (shared p e + (l.map (fun q ↦ shared p q.2)).sum) p' rc ∧
          (rc = 0 → (∀ q ∈ (j, e) :: l, src'.get? q.1 = some (mark p q.2) ∧
            dst'.get? q.1 = some (mark p q.2)) ∧
            ∀ i, i ∉ ((j, e) :: l).map Prod.fst → src'.get? i = src.get? i ∧
              dst'.get? i = dst.get? i) := by
      intro src₁ dst₁ hs₁ hd₁ hsj hdj hw₁ ha₁
      obtain ⟨hmarks, hok⟩ :=
        ih hnd' (fun q hq ↦ (hs₁ q.1 (hne q hq)).trans (hsrc q (.tail _ hq))) hpass' hw₁ ha₁
      refine ⟨Marks.trans (.inl ⟨rfl, rfl, hw₁⟩) hmarks, fun hrc ↦ ?_⟩
      obtain ⟨hin, hout⟩ := hok hrc
      refine ⟨fun q hq ↦ ?_, fun i hi ↦ ?_⟩
      · obtain rfl | hq := List.mem_cons.1 hq
        · rw [(hout _ hj).1, (hout _ hj).2]
          exact ⟨hsj, hdj⟩
        · exact hin q hq
      · rw [List.map_cons, List.mem_cons, not_or] at hi
        rw [(hout i hi.2).1, (hout i hi.2).2, hs₁ i hi.1, hd₁ i hi.1]
        exact ⟨rfl, rfl⟩
    have hres : (p.retains m).pmmPageIsReserved (e.frame * pageSize) =
        p.pmmPageIsReserved (e.frame * pageSize) := rfl
    have hps : ¬ e.ps = true := by
      rw [show e.ps = false from hps]
      decide
    simp only [applyPages, if_neg hps, if_neg hframe, hres] at ha
    by_cases h₁ : p.pmmPageIsReserved (e.frame * pageSize) = true
    · rw [if_pos h₁] at ha
      have hsh : shared p e = 0 := if_pos h₁
      have hmark : mark p e = e := if_neg (by simp [h₁])
      rw [hsh, add_zero, hmark] at hrest
      rw [hsh]
      exact hrest src (dst.set j e) (fun _ _ ↦ rfl) (fun i hi ↦ Slots.get?_set_of_ne _ hi _) hge
        (Slots.get?_set_self _ _ _) hw ha
    rw [if_neg h₁] at ha
    have hsh : shared p e = {e.frame} := if_neg h₁
    have h₁ : p.pmmPageIsReserved (e.frame * pageSize) = false := by simpa using h₁
    obtain ⟨htaken, hfull⟩ := htake h₁
    by_cases hlast : p.pageRefs e.frame + m.count e.frame = 0xFFFF
    · -- the counter is full: an earlier entry took the reference that the test had seen
      have hnone : (p.retains m).pmmRetainPage (e.frame * pageSize) = none := by
        cases hr : (p.retains m).pmmRetainPage (e.frame * pageSize) with
        | none => rfl
        | some q => exact absurd hlast (Pmm.retain_some_iff.1 hr).2.1
      simp only [hnone] at ha
      cases ha
      refine ⟨.inr ⟨by decide, 0, e.frame, ?_, ?_, ?_⟩, fun h ↦ absurd h (by decide)⟩
      · rw [hsh]
        exact Multiset.le_add_right _ _
      · rw [add_zero]
      · rw [add_zero]
        exact hlast
    have hsome : (p.retains m).pmmRetainPage (e.frame * pageSize) =
        some (p.retains (m + {e.frame})) :=
      Pmm.retain_some_iff.2 ⟨htaken, hlast, by rw [Pmm.retains_retains]⟩
    simp only [hsome] at ha
    have hw₁ : Within p (m + shared p e) := by
      intro f
      have hf := hw f
      rw [hsh, Multiset.count_add, Multiset.count_singleton]
      split_ifs with hfe
      · subst hfe
        omega
      · omega
    rw [hsh] at hrest hw₁ ⊢
    by_cases hwr : e.w = true
    · rw [if_pos hwr] at ha
      have hmark : mark p e = { e with w := false, cow := true } := if_pos ⟨h₁, hwr⟩
      rw [hmark] at hrest
      exact hrest _ _ (fun i hi ↦ Slots.get?_set_of_ne _ hi _)
        (fun i hi ↦ Slots.get?_set_of_ne _ hi _)
        (Slots.get?_set_self _ _ _) (Slots.get?_set_self _ _ _) hw₁ ha
    · rw [if_neg hwr] at ha
      have hmark : mark p e = e := if_neg (by simp [hwr])
      rw [hmark] at hrest
      exact hrest _ _ (fun _ _ ↦ rfl) (fun i hi ↦ Slots.get?_set_of_ne _ hi _) hge
        (Slots.get?_set_self _ _ _) hw₁ ha

def entryShared (p : Pmm) (n : ℕ) (e : Entry (Tab n)) : Multiset ℕ :=
  entryWeight (shared p) (fun _ ↦ 0) n e

theorem sharedFrames_succ (t : Tab (n + 1)) :
    sharedFrames p (n + 1) t = ((Slots.list t).map (fun q ↦ entryShared p n q.2)).sum :=
  weigh_succ _ _ n t

theorem entryShared_next (fl : PteFlags) (f : ℕ) (c : Tab n) :
    entryShared p n (.next fl f c) = sharedFrames p n c :=
  zero_add _

def Applies (p : Pmm) (n : ℕ) (apply : Pmm → ℕ → Tab n → ℕ → Tab n → Pmm × Tab n × Tab n × Int) :
    Prop :=
  ∀ {m f np c d p' c' d' rc}, Within p m → Both p f np → Maps (Both p) id n c d →
    Sits p (Passes p) n c → apply (p.retains m) f c np d = (p', c', d', rc) →
    Marks p m (sharedFrames p n c) p' rc ∧ tableFrames n d' = tableFrames n d ∧
      (rc = 0 → Maps Eq (mark p) n c c' ∧ Maps (Both p) (mark p) n c d')

def Ready (p : Pmm) (src dst : Tab (n + 1)) (q : ℕ × Entry (Tab n)) : Prop :=
  ∃ fl f c np d, q.2 = .next fl f c ∧ Slots.get? src q.1 = some (.next fl f c) ∧
    Slots.get? dst q.1 = some (.next fl np d) ∧ Both p f np ∧ Maps (Both p) id n c d ∧
      Sits p (Passes p) n c

def Done (p : Pmm) (src' dst' : Tab (n + 1)) (q : ℕ × Entry (Tab n)) : Prop :=
  ∃ fl f c c' np d', q.2 = .next fl f c ∧ Slots.get? src' q.1 = some (.next fl f c') ∧
    Slots.get? dst' q.1 = some (.next fl np d') ∧ Both p f np ∧ Maps Eq (mark p) n c c' ∧
      Maps (Both p) (mark p) n c d'

theorem applyLoop_spec {apply : Pmm → ℕ → Tab n → ℕ → Tab n → Pmm × Tab n × Tab n × Int}
    (happly : Applies p n apply) {src dst src' dst' : Tab (n + 1)} {l : List (ℕ × Entry (Tab n))}
    (hnd : (l.map Prod.fst).Nodup) (hl : ∀ q ∈ l, Ready p src dst q) (hw : Within p m)
    (ha : applyLoop apply (p.retains m) src dst l = (p', src', dst', rc)) :
    Marks p m (l.map (fun q ↦ entryShared p n q.2)).sum p' rc ∧ tableFrames (n + 1) dst' =
      tableFrames (n + 1) dst ∧ (rc = 0 → (∀ q ∈ l, Done p src' dst' q) ∧ ∀ i, i ∉ l.map Prod.fst →
        Slots.get? src' i = Slots.get? src i ∧ Slots.get? dst' i = Slots.get? dst i) := by
  induction l generalizing m src dst with
  | nil =>
    cases ha
    refine ⟨.inl ⟨rfl, ?_, ?_⟩, rfl,
      fun _ ↦ ⟨fun q hq ↦ absurd hq List.not_mem_nil, fun i _ ↦ ⟨rfl, rfl⟩⟩⟩
    · simp
    · simpa using hw
  | cons q l ih =>
    obtain ⟨j, e⟩ := q
    obtain ⟨hj, hnd'⟩ := List.nodup_cons.1 hnd
    have hne : ∀ q ∈ l, q.1 ≠ j := fun q hq hqj ↦ hj (List.mem_map.2 ⟨q, hq, hqj⟩)
    obtain ⟨fl, f, c, np, d, he, hgs, hgd, hboth, hmaps, hsits⟩ := hl _ (.head _)
    have he : e = .next fl f c := he
    subst he
    dsimp only at hgs hgd
    have hnp : np ≠ 0 := by
      have htab := hboth.2
      simp only [Pmm.table, decide_eq_true_eq] at htab
      exact htab.1
    rw [List.map_cons, List.sum_cons, entryShared_next]
    simp only [applyLoop, hgd, if_neg hnp] at ha
    cases hap : apply (p.retains m) f c np d with
    | mk p₁ r =>
      obtain ⟨c', d', rc₁⟩ := r
      rw [hap] at ha
      dsimp only at ha
      obtain ⟨hmarks, htab, hok⟩ := happly hw hboth hmaps hsits hap
      have htab' : tableFrames (n + 1) (Slots.set dst j (.next fl np d')) =
          tableFrames (n + 1) dst := by
        rw [tableFrames_set, tableFrames_of_get? hgd, htab]
      by_cases hrc : rc₁ = 0
      · subst hrc
        rw [if_neg (by simp)] at ha
        obtain ⟨hp₁, hw₁⟩ := hmarks.within
        subst hp₁
        obtain ⟨hmc, hmd⟩ := hok rfl
        have hl' : ∀ q ∈ l, Ready p (Slots.set src j (.next fl f c'))
            (Slots.set dst j (.next fl np d')) q := by
          intro q hq
          obtain ⟨fl₁, f₁, c₁, np₁, d₁, h₁, h₂, h₃, h₄⟩ := hl q (.tail _ hq)
          exact ⟨fl₁, f₁, c₁, np₁, d₁, h₁, by rwa [Slots.get?_set_of_ne _ (hne q hq)],
            by rwa [Slots.get?_set_of_ne _ (hne q hq)], h₄⟩
        obtain ⟨hmarks', htab₁, hok'⟩ := ih hnd' hl' hw₁ ha
        refine ⟨hmarks.trans hmarks', htab₁.trans htab', fun hrc ↦ ?_⟩
        obtain ⟨hin, hout⟩ := hok' hrc
        refine ⟨fun q hq ↦ ?_, fun i hi ↦ ?_⟩
        · obtain rfl | hq := List.mem_cons.1 hq
          · refine ⟨fl, f, c, c', np, d', rfl, ?_, ?_, hboth, hmc, hmd⟩
            · rw [(hout _ hj).1, Slots.get?_set_self]
            · rw [(hout _ hj).2, Slots.get?_set_self]
          · exact hin q hq
        · rw [List.map_cons, List.mem_cons, not_or] at hi
          rw [(hout i hi.2).1, (hout i hi.2).2, Slots.get?_set_of_ne _ hi.1,
            Slots.get?_set_of_ne _ hi.1]
          exact ⟨rfl, rfl⟩
      · rw [if_pos hrc] at ha
        cases ha
        exact ⟨hmarks.fail hrc (by decide) _, htab', fun h ↦ absurd h (by decide)⟩

theorem applyTree_spec {apply : Pmm → ℕ → Tab n → ℕ → Tab n → Pmm × Tab n × Tab n × Int}
    (happly : Applies p n apply) {src dst src' dst' : Tab (n + 1)} (hw : Within p m)
    (hmaps : Maps (Both p) id (n + 1) src dst) (hsits : Sits p (Passes p) (n + 1) src)
    (ha : applyLoop apply (p.retains m) src dst (Slots.list src) = (p', src', dst', rc)) :
    Marks p m (sharedFrames p (n + 1) src) p' rc ∧
      tableFrames (n + 1) dst' = tableFrames (n + 1) dst ∧
      (rc = 0 → Maps Eq (mark p) (n + 1) src src' ∧ Maps (Both p) (mark p) (n + 1) src dst') := by
  rw [sits_succ_iff] at hsits
  have hl : ∀ q ∈ Slots.list src, Ready p src dst q := by
    intro q hq
    have hg : Slots.get? src q.1 = some q.2 := get?_of_mem q hq
    obtain ⟨fl, f, c, he, -, hs⟩ := hsits q hq
    obtain ⟨hnone, -⟩ | ⟨fl', f', c', np, d, h₁, h₂, hboth, hm⟩ := hmaps q.1
    · rw [hg] at hnone
      cases hnone
    · rw [he] at hg
      rw [hg] at h₁
      cases h₁
      exact ⟨fl, f, c, np, d, he, hg, h₂, hboth, hm, hs⟩
  obtain ⟨hmarks, htab, hok⟩ := applyLoop_spec happly (keys_nodup src) hl hw ha
  rw [← sharedFrames_succ] at hmarks
  refine ⟨hmarks, htab, fun hrc ↦ ?_⟩
  obtain ⟨hin, hout⟩ := hok hrc
  have hnone : ∀ i, Slots.get? src i = none → Slots.get? dst i = none := by
    intro i hi
    obtain ⟨-, h₂⟩ | ⟨fl, f, c, np, d, h₁, -⟩ := hmaps i
    · exact h₂
    · rw [hi] at h₁
      cases h₁
  refine ⟨fun i ↦ ?_, fun i ↦ ?_⟩
  · cases hg : Slots.get? src i with
    | none => exact .inl ⟨rfl, (hout i (notMem_keys hg)).1.trans hg⟩
    | some e =>
      obtain ⟨fl, f, c, c', np, d', he, h₁, -, -, hc, -⟩ :=
        hin (i, e) ((Slots.get?_eq_some_iff _ _ _).1 hg)
      exact .inr ⟨fl, f, c, f, c', congrArg some he, h₁, rfl, hc⟩
  · cases hg : Slots.get? src i with
    | none => exact .inl ⟨rfl, (hout i (notMem_keys hg)).2.trans (hnone i hg)⟩
    | some e =>
      obtain ⟨fl, f, c, c', np, d', he, -, h₂, hboth, -, hd⟩ :=
        hin (i, e) ((Slots.get?_eq_some_iff _ _ _).1 hg)
      exact .inr ⟨fl, f, c, np, d', congrArg some he, h₂, hboth, hd⟩

theorem applies_applyForkCow (p : Pmm) (n : ℕ) : Applies p n (applyForkCow n) := by
  induction n with
  | zero =>
    intro m f np c d p' c' d' rc hw hboth hmaps hsits ha
    have htabs : (p.retains m).table f = true ∧ (p.retains m).table np = true := hboth
    simp only [applyForkCow, if_pos htabs] at ha
    rw [sits_zero_iff] at hsits
    obtain ⟨hmarks, hok⟩ := applyPages_spec (keys_nodup c) get?_of_mem hsits hw ha
    refine ⟨hmarks, by rw [tableFrames_zero, tableFrames_zero], fun hrc ↦ ?_⟩
    obtain ⟨hin, hout⟩ := hok hrc
    refine ⟨fun i ↦ ?_, fun i ↦ ?_⟩
    · cases hg : Slots.get? c i with
      | none => exact (hout i (notMem_keys hg)).1.trans hg
      | some e => exact (hin (i, e) ((Slots.get?_eq_some_iff _ _ _).1 hg)).1
    · cases hg : Slots.get? c i with
      | none =>
        have hd := hmaps i
        rw [hg] at hd
        exact (hout i (notMem_keys hg)).2.trans hd
      | some e => exact (hin (i, e) ((Slots.get?_eq_some_iff _ _ _).1 hg)).2
  | succ n ih =>
    intro m f np c d p' c' d' rc hw hboth hmaps hsits ha
    have htabs : (p.retains m).table f = true ∧ (p.retains m).table np = true := hboth
    simp only [applyForkCow, if_pos htabs] at ha
    exact applyTree_spec ih hw hmaps hsits ha

end Tab

end YabroOS.Memory
