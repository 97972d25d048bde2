import YabroOS.Memory.Fork

namespace YabroOS.Memory.Tab

open Lib

variable {A : Account ℕ} {α : Type} {s s' : Pmm} {n : ℕ} {u : Multiset (ℕ × Mode)} {r : Option Int}

/-- A loop whose body gives up the claims of its item gives up the claims of the whole list. -/
theorem holds_foldl {g : Pmm → α → Pmm} {w : α → Multiset (ℕ × Mode)}
    (hg : ∀ s a u, A.Holds s.pool (w a + u) → A.Holds (g s a).pool u) {l : List α}
    (h : A.Holds s.pool ((l.map w).sum + u)) : A.Holds (l.foldl g s).pool u := by
  induction l generalizing s with
  | nil => simpa using h
  | cons a l ih =>
    rw [List.map_cons, List.sum_cons, add_assoc] at h
    exact ih (hg s a _ h)

theorem holds_destroyCloneLevel (t : Tab n) (frame : ℕ)
    (h : A.Holds s.pool ((frame, .pinned) ::ₘ tables n t + u)) :
    A.Holds (destroyCloneLevel n s frame t).pool u := by
  have hu : u ≤ (frame, .pinned) ::ₘ tables n t + u := Multiset.le_add_left _ _
  induction n generalizing s frame u with
  | zero =>
    simp only [destroyCloneLevel]
    split_ifs
    · exact Pmm.holds_free (h.mono (by
        rw [Multiset.cons_add]
        exact Multiset.cons_le_cons _ (Multiset.le_add_left _ _)))
    · exact h.mono hu
  | succ n ih =>
    simp only [destroyCloneLevel]
    split_ifs
    · refine Pmm.holds_free (k := .pinned) (holds_foldl (w := fun p ↦
        entryWeight (fun _ ↦ 0) (fun f ↦ {(f, Mode.pinned)}) n p.2) ?_ ?_)
      · rintro s ⟨i, e⟩ u he
        cases e with
        | huge fl f => exact he.mono (Multiset.le_add_left _ _)
        | next fl f c => exact ih c f he (Multiset.le_add_left _ _)
      · refine h.mono (le_of_eq ?_)
        rw [tables, weigh_succ, Slots.total, ← Multiset.singleton_add, ← Multiset.singleton_add]
        abel
    · exact h.mono hu

theorem holds_destroyUserLevel (fb : ℕ → Bool) (t : Tab n) (frame : ℕ)
    (h : A.Holds s.pool (uses n t + u)) : A.Holds (destroyUserLevel fb n s frame t).pool u := by
  have hu : u ≤ uses n t + u := Multiset.le_add_left _ _
  induction n generalizing s frame u with
  | zero =>
    simp only [destroyUserLevel]
    split_ifs
    · refine holds_foldl (w := fun p : ℕ × Pte ↦ {claim p.2}) ?_ h
      rintro s ⟨i, e⟩ u he
      simp only
      split_ifs
      · exact he.mono (Multiset.le_add_left _ _)
      · rw [Multiset.singleton_add] at he
        exact Pmm.holds_free he
    · exact h.mono hu
  | succ n ih =>
    simp only [destroyUserLevel]
    split_ifs
    · rw [uses, weigh_succ, Slots.total] at h
      refine holds_foldl ?_ h
      rintro s ⟨i, e⟩ u he
      cases e with
      | huge fl f => exact he.mono (Multiset.le_add_left _ _)
      | next fl f c =>
        refine Pmm.holds_free (k := .pinned)
          (ih c f (he.mono (le_of_eq ?_)) (Multiset.le_add_left _ _))
        simp only [entryWeight, uses, ← Multiset.singleton_add]
        abel
    · exact h.mono hu

def Covered : (n : ℕ) → Tab n → Tab n → Prop
  | 0, dst, src => ∀ i e, Slots.get? dst i = some e → ∃ e', Slots.get? src i = some e'
  | n + 1, dst, src => ∀ i e, Slots.get? dst i = some e →
      ∃ fl np d fl' f c, e = .next fl np d ∧ Slots.get? src i = some (.next fl' f c) ∧ Covered n d c

theorem holds_cloneTable_some {src f : ℕ} (h : A.Holds s.pool u)
    (hc : cloneTable s src = (s', some f)) : A.Holds s'.pool ((f, .pinned) ::ₘ u) := by
  simp only [cloneTable] at hc
  split at hc
  · cases hc
  · next s₁ f₁ hf =>
    split_ifs at hc
    · cases hc
      exact Pmm.holds_allocTable_some h hf
    · cases hc

theorem holds_cloneTable_none {src : ℕ} (h : A.Holds s.pool u)
    (hc : cloneTable s src = (s', none)) : A.Holds s'.pool u := by
  simp only [cloneTable] at hc
  split at hc
  · next s₁ hf =>
    cases hc
    exact Pmm.holds_allocTable_none h hf
  · next s₁ f₁ hf =>
    split_ifs at hc
    · cases hc
    · cases hc
      exact Pmm.holds_free (Pmm.holds_allocTable_some h hf)

theorem cloneLeaves_get? {dst dst' : Slots Pte} {l : List (ℕ × Pte)}
    (h : cloneLeaves dst l = (dst', r)) {i : ℕ} {e : Pte} (he : dst'.get? i = some e) :
    (∃ e', dst.get? i = some e') ∨ ∃ e', (i, e') ∈ l := by
  induction l generalizing dst with
  | nil =>
    cases h
    exact .inl ⟨e, he⟩
  | cons p l ih =>
    obtain ⟨j, a⟩ := p
    simp only [cloneLeaves] at h
    split_ifs at h
    · cases h
      exact .inl ⟨e, he⟩
    · rcases ih h with ⟨e', h'⟩ | ⟨e', h'⟩
      · by_cases hij : i = j
        · subst hij
          exact .inr ⟨a, List.mem_cons_self⟩
        · rw [Slots.get?_set_of_ne _ hij] at h'
          exact .inl ⟨e', h'⟩
      · exact .inr ⟨e', List.mem_cons_of_mem _ h'⟩

theorem tables_set_le (dst : Tab (n + 1)) (i : ℕ) (fl : PteFlags) (np : ℕ) (c : Tab n) :
    tables (n + 1) (Slots.set dst i (.next fl np c)) ≤
      (np, .pinned) ::ₘ tables n c + tables (n + 1) dst := by
  simp only [tables]
  rw [weigh_succ, weigh_succ, Slots.total_set, Slots.total_erase _ dst i]
  exact add_le_add_right (Multiset.le_add_left _ _) _

theorem holds_cloneLoop {clone : Pmm → ℕ → Tab n → Pmm × Except Int (ℕ × Tab n)}
    (hok : ∀ {s s' f c np d u}, A.Holds s.pool u → clone s f c = (s', .ok (np, d)) →
      A.Holds s'.pool ((np, .pinned) ::ₘ tables n d + u) ∧ Covered n d c)
    (herr : ∀ {s s' f c err u}, A.Holds s.pool u → clone s f c = (s', .error err) →
    A.Holds s'.pool u) {dst dst' : Tab (n + 1)} {l : List (ℕ × Entry (Tab n))}
    (h : A.Holds s.pool (tables (n + 1) dst + u)) (hc : cloneLoop clone s dst l = (s', dst', r)) :
    A.Holds s'.pool (tables (n + 1) dst' + u) ∧
      ∀ i e, Slots.get? dst' i = some e → Slots.get? dst i = some e ∨
        ∃ fl np d fl' f c, e = .next fl np d ∧ (i, .next fl' f c) ∈ l ∧ Covered n d c := by
  induction l generalizing s dst with
  | nil =>
    cases hc
    exact ⟨h, fun i e he ↦ .inl he⟩
  | cons p l ih =>
    obtain ⟨j, a⟩ := p
    cases a with
    | huge fl f =>
      cases hc
      exact ⟨h, fun i e he ↦ .inl he⟩
    | next fl f c =>
      simp only [cloneLoop] at hc
      split at hc
      · next s₁ err hs =>
        cases hc
        exact ⟨herr h hs, fun i e he ↦ .inl he⟩
      · next s₁ np d hs =>
        obtain ⟨h₁, hcov⟩ := hok h hs
        have hle := add_le_add_left (tables_set_le dst j fl np d) u
        rw [add_assoc] at hle
        obtain ⟨h₂, hget⟩ := ih (h₁.mono hle) hc
        refine ⟨h₂, fun i e he ↦ ?_⟩
        rcases hget i e he with h' | ⟨fl₁, np₁, d₁, fl₂, f₂, c₂, rfl, hm, hcov'⟩
        · by_cases hij : i = j
          · subst hij
            rw [Slots.get?_set_self] at h'
            cases h'
            exact .inr ⟨fl, np, d, fl, f, c, rfl, List.mem_cons_self, hcov⟩
          · rw [Slots.get?_set_of_ne _ hij] at h'
            exact .inl h'
        · exact .inr ⟨fl₁, np₁, d₁, fl₂, f₂, c₂, rfl, List.mem_cons_of_mem _ hm, hcov'⟩

theorem get?_slots_empty {i : ℕ} {a : α} (h : (Slots.empty : Slots α).get? i = some a) : False := by
  cases h

theorem holds_cloneLoop_empty {clone : Pmm → ℕ → Tab n → Pmm × Except Int (ℕ × Tab n)}
    (hok : ∀ {s s' f c np d u}, A.Holds s.pool u → clone s f c = (s', .ok (np, d)) →
      A.Holds s'.pool ((np, .pinned) ::ₘ tables n d + u) ∧ Covered n d c)
    (herr : ∀ {s s' f c err u}, A.Holds s.pool u → clone s f c = (s', .error err) →
    A.Holds s'.pool u) {src dst : Tab (n + 1)} (h : A.Holds s.pool u)
    (hc : cloneLoop clone s (empty (n + 1)) (Slots.list src) = (s', dst, r)) :
    A.Holds s'.pool (tables (n + 1) dst + u) ∧ Covered (n + 1) dst src := by
  have hempty : tables (n + 1) (empty (n + 1)) + u = u := by rw [tables, weigh_empty, zero_add]
  obtain ⟨h₁, hget⟩ := holds_cloneLoop hok herr (hempty.symm ▸ h) hc
  refine ⟨h₁, fun i e he ↦ ?_⟩
  rcases hget i e he with h' | ⟨fl, np, d, fl', f, c, rfl, hm, hcov⟩
  · exact absurd h' (fun h' ↦ get?_slots_empty h')
  · exact ⟨fl, np, d, fl', f, c, rfl, (Slots.get?_eq_some_iff _ _ _).2 hm, hcov⟩

theorem holds_cloneUserTables (n : ℕ) :
    (∀ {s s' f c np d u}, A.Holds s.pool u → cloneUserTables n s f c = (s', .ok (np, d)) →
      A.Holds s'.pool ((np, .pinned) ::ₘ tables n d + u) ∧ Covered n d c) ∧
    (∀ {s s' f c err u}, A.Holds s.pool u → cloneUserTables n s f c = (s', .error err) →
      A.Holds s'.pool u) := by
  induction n with
  | zero =>
    refine ⟨fun {s s' f c np d u} h hc ↦ ?_, fun {s s' f c err u} h hc ↦ ?_⟩ <;>
      simp only [cloneUserTables] at hc <;> split at hc
    · cases hc
    · next s₁ dstPhys hs =>
      split at hc
      · cases hc
      · next dst hl =>
        cases hc
        refine ⟨?_, fun i e he ↦ ?_⟩
        · have ht : tables 0 d = 0 := Slots.total_eq_zero (fun _ _ _ ↦ rfl)
          rw [ht, Multiset.cons_add, zero_add]
          exact holds_cloneTable_some h hs
        · rcases cloneLeaves_get? hl he with ⟨e', h'⟩ | ⟨e', h'⟩
          · exact absurd h' (fun h' ↦ get?_slots_empty h')
          · exact ⟨e', (Slots.get?_eq_some_iff _ _ _).2 h'⟩
    · next s₁ hs =>
      cases hc
      exact holds_cloneTable_none h hs
    · next s₁ dstPhys hs =>
      split at hc
      · next dst err hl =>
        cases hc
        refine holds_destroyCloneLevel _ _ ?_
        have ht : tables 0 dst = 0 := Slots.total_eq_zero (fun _ _ _ ↦ rfl)
        rw [ht, Multiset.cons_add, zero_add]
        exact holds_cloneTable_some h hs
      · cases hc
  | succ n ih =>
    refine ⟨fun {s s' f c np d u} h hc ↦ ?_, fun {s s' f c err u} h hc ↦ ?_⟩ <;>
      simp only [cloneUserTables] at hc <;> split at hc
    · cases hc
    · next s₁ dstPhys hs =>
      have h₁ := holds_cloneTable_some h hs
      split at hc
      · cases hc
      · next s₂ dst hl =>
        cases hc
        obtain ⟨h₂, hcov⟩ := holds_cloneLoop_empty ih.1 ih.2 h₁ hl
        refine ⟨?_, hcov⟩
        rwa [Multiset.cons_add, ← Multiset.add_cons]
    · next s₁ hs =>
      cases hc
      exact holds_cloneTable_none h hs
    · next s₁ dstPhys hs =>
      have h₁ := holds_cloneTable_some h hs
      split at hc
      · next s₂ dst err hl =>
        cases hc
        obtain ⟨h₂, -⟩ := holds_cloneLoop_empty ih.1 ih.2 h₁ hl
        refine holds_destroyCloneLevel _ _ ?_
        rwa [Multiset.cons_add, ← Multiset.add_cons]
      · cases hc

end YabroOS.Memory.Tab

namespace YabroOS.Memory.Tab

open Lib

variable {A : Account ℕ} {α : Type} {s s' : Pmm} {n i : ℕ} {u : Multiset (ℕ × Mode)} {rc : Int}
  {t : Slots α}

theorem exempt_of_reserved {f : ℕ} (h : s.pmmPageIsReserved (f * pageSize) = true) :
    s.pool.exempt f := by
  rw [Pmm.pmmPageIsReserved, Pmm.pageOf_mul] at h
  exact .inl h

theorem holds_retain_free {f : ℕ} {k : Mode} (h : A.Holds s.pool u) (hf : (f, k) ∈ u)
    (hr : s.pmmRetainPage (f * pageSize) = some s') :
    A.Holds (s'.pmmFreePage (f * pageSize)).pool u := by
  obtain ⟨-, hex, -, -, hret⟩ := Pmm.pmmRetainPage_some hr
  have hrefs := (h.backed f (Sound.mem_map hf) hex).2
  have hpos := Sound.count_pos hf
  exact h.of_le (hret.releases (Pmm.pool_free s' f) (by omega))

theorem holds_preflightPages {l : List (ℕ × Pte)} (h : A.Holds s.pool u)
    (hl : ∀ p ∈ l, claim p.2 ∈ u) (hp : preflightPages s l = (s', rc)) : A.Holds s'.pool u := by
  induction l generalizing s with
  | nil =>
    cases hp
    exact h
  | cons p l ih =>
    obtain ⟨i, e⟩ := p
    have hl' : ∀ p ∈ l, claim p.2 ∈ u := fun p hp ↦ hl p (List.mem_cons_of_mem _ hp)
    simp only [preflightPages] at hp
    split_ifs at hp
    · cases hp
      exact h
    · cases hp
      exact h
    · exact ih h hl' hp
    · split at hp
      · cases hp
        exact h
      · next s₁ hr => exact ih (holds_retain_free h (hl _ List.mem_cons_self) hr) hl' hp

theorem mem_total {M : Type} {w : ℕ → α → Multiset M} {p : ℕ × α} (hp : p ∈ t.list) :
    w p.1 p.2 ≤ t.total w := by
  rw [Slots.total_of_get? w ((Slots.get?_eq_some_iff t p.1 p.2).2 hp)]
  exact Multiset.le_add_right _ _

theorem holds_preflightLoop {preflight : Pmm → ℕ → Tab n → Pmm × Int}
    (hpre : ∀ {s s' f c rc}, A.Holds s.pool u → leaves n c ≤ u → preflight s f c = (s', rc) →
    A.Holds s'.pool u) {l : List (ℕ × Entry (Tab n))} (h : A.Holds s.pool u)
    (hl : ∀ p ∈ l, entryWeight (fun e ↦ {claim e}) (fun _ ↦ 0) n p.2 ≤ u)
    (hp : preflightLoop preflight s l = (s', rc)) : A.Holds s'.pool u := by
  induction l generalizing s with
  | nil =>
    cases hp
    exact h
  | cons p l ih =>
    obtain ⟨i, e⟩ := p
    cases e with
    | huge fl f =>
      cases hp
      exact h
    | next fl f c =>
      have hc : leaves n c ≤ u := by
        have hc := hl _ List.mem_cons_self
        simp only [entryWeight, zero_add] at hc
        exact hc
      simp only [preflightLoop] at hp
      cases hpc : preflight s f c with
      | mk s₁ rc₁ =>
        rw [hpc] at hp
        have h₁ := hpre h hc hpc
        simp only at hp
        split_ifs at hp
        · cases hp
          exact h₁
        · exact ih h₁ (fun p hp ↦ hl p (List.mem_cons_of_mem _ hp)) hp

theorem entry_leaves_le {t : Tab (n + 1)} (hle : leaves (n + 1) t ≤ u) :
    ∀ p ∈ Slots.list t, entryWeight (fun e ↦ {claim e}) (fun _ ↦ 0) n p.2 ≤ u := by
  intro p hp
  rw [leaves, weigh_succ] at hle
  exact (mem_total (w := fun _ e ↦ entryWeight (fun e ↦ {claim e}) (fun _ ↦ 0) n e) hp).trans hle

theorem holds_preflightForkPages {t : Tab n} {frame : ℕ} (h : A.Holds s.pool u)
    (hle : leaves n t ≤ u) (hp : preflightForkPages n s frame t = (s', rc)) :
    A.Holds s'.pool u := by
  induction n generalizing s s' frame rc with
  | zero =>
    simp only [preflightForkPages] at hp
    split_ifs at hp
    · refine holds_preflightPages h (fun p hp' ↦ Multiset.mem_of_le hle ?_) hp
      exact Multiset.singleton_le.1 (mem_total (w := fun _ e ↦ {claim e}) hp')
    · cases hp
      exact h
  | succ n ih =>
    simp only [preflightForkPages] at hp
    split_ifs at hp
    · exact holds_preflightLoop (fun h hc hp ↦ ih h hc hp) h (entry_leaves_le hle) hp
    · cases hp
      exact h

def leavesOff : (n : ℕ) → List ℕ → Tab n → Multiset (ℕ × Mode)
  | 0, l, t => Slots.totalOff (fun e ↦ {claim e}) l t
  | n + 1, l, t => Slots.totalOff (entryWeight (fun e ↦ {claim e}) (fun _ ↦ 0) n) l t

theorem leavesOff_nil (t : Tab n) : leavesOff n [] t = leaves n t := by
  cases n with
  | zero => exact Slots.totalOff_nil _ t
  | succ n =>
    rw [leaves, weigh_succ]
    exact Slots.totalOff_nil _ t

theorem leavesOff_set_zero {l : List ℕ} (hi : i ∉ l) (t : Tab 0) (e : Pte) :
    leavesOff 0 l (Slots.set t i e) = claim e ::ₘ leavesOff 0 (i :: l) t :=
  Slots.totalOff_set _ hi t e

theorem holds_failed {v w : Multiset (ℕ × Mode)} (h : A.Holds s.pool (v + w + u)) (hrc : rc ≠ 0)
    (x : Multiset (ℕ × Mode)) : A.Holds s.pool (v + (if rc = 0 then x else 0) + u) := by
  rw [if_neg hrc, add_zero]
  exact h.mono (add_le_add_left (Multiset.le_add_right _ _) u)

theorem holds_applyPages {src dst src' dst' : Tab 0} {l : List (ℕ × Pte)}
    (hnd : (l.map Prod.fst).Nodup) (hl : ∀ p ∈ l, Slots.get? src p.1 = some p.2)
    (h : A.Holds s.pool (leaves 0 src + leavesOff 0 (l.map Prod.fst) dst + u))
    (ha : applyPages s src dst l = (s', src', dst', rc)) :
    A.Holds s'.pool (leaves 0 src' + (if rc = 0 then leaves 0 dst' else 0) + u) := by
  induction l generalizing s src dst with
  | nil =>
    cases ha
    simpa only [if_true, List.map_nil, leavesOff_nil] using h
  | cons p l ih =>
    obtain ⟨i, e⟩ := p
    obtain ⟨hi, hnd'⟩ := List.nodup_cons.1 hnd
    have hge : Slots.get? src i = some e := hl _ List.mem_cons_self
    have hl' : ∀ p ∈ l, Slots.get? src p.1 = some p.2 := fun p hp ↦ hl p (List.mem_cons_of_mem _ hp)
    have hne : ∀ p ∈ l, p.1 ≠ i := fun p hp hpi ↦ hi (List.mem_map.2 ⟨p, hp, hpi⟩)
    simp only [applyPages] at ha
    by_cases h₁ : e.ps = true
    · rw [if_pos h₁] at ha
      cases ha
      exact holds_failed h (by decide) _
    rw [if_neg h₁] at ha
    by_cases h₂ : e.frame = 0
    · rw [if_pos h₂] at ha
      cases ha
      exact holds_failed h (by decide) _
    rw [if_neg h₂] at ha
    by_cases h₃ : s.pmmPageIsReserved (e.frame * pageSize) = true
    · rw [if_pos h₃] at ha
      refine ih hnd' hl' ?_ ha
      rw [leavesOff_set_zero hi, Multiset.add_cons, Multiset.cons_add]
      refine h.exempt_cons (exempt_of_reserved h₃) ?_
      split_ifs <;> simp
    rw [if_neg h₃] at ha
    cases hr : s.pmmRetainPage (e.frame * pageSize) with
    | none =>
      simp only [hr] at ha
      cases ha
      exact holds_failed h (by decide) _
    | some s₁ =>
      simp only [hr] at ha
      obtain ⟨-, -, -, -, hret⟩ := Pmm.pmmRetainPage_some hr
      have hsrc : leaves 0 src = claim e ::ₘ Slots.total (fun _ e ↦ {claim e}) (Slots.erase src i) :=
        Slots.total_of_get? (M := Multiset (ℕ × Mode)) (fun _ e ↦ {claim e}) hge
      rw [hsrc, Multiset.cons_add, Multiset.cons_add] at h
      have h₄ := h.share.retain hret
      split_ifs at ha with hw
      · refine ih hnd' (fun p hp ↦ ?_) ?_ ha
        · rw [Slots.get?_set_of_ne _ (hne p hp)]
          exact hl' p hp
        · have hset : leaves 0 (Slots.set src i { e with w := false, cow := true }) =
              (e.frame, .shared) ::ₘ Slots.total (fun _ e ↦ {claim e}) (Slots.erase src i) :=
            Slots.total_set (M := Multiset (ℕ × Mode)) (fun _ e ↦ {claim e}) src i _
          have hcow : claim { e with w := false, cow := true } = (e.frame, .shared) := rfl
          rw [hset, leavesOff_set_zero hi, hcow, Multiset.cons_add, Multiset.cons_add,
            Multiset.add_cons,
            Multiset.cons_add]
          exact h₄
      · have hcl : claim e = (e.frame, .shared) := by simp [claim, hw]
        refine ih hnd' hl' ?_ ha
        rw [hsrc, leavesOff_set_zero hi, hcl, Multiset.cons_add, Multiset.cons_add, Multiset.add_cons,
          Multiset.cons_add]
        exact h₄

theorem leavesOff_set {l : List ℕ} (hi : i ∉ l) (t : Tab (n + 1)) (fl : PteFlags) (f : ℕ)
    (c : Tab n) :
    leavesOff (n + 1) l (Slots.set t i (.next fl f c)) = leaves n c + leavesOff (n + 1)
    (i :: l) t := by
  refine (Slots.totalOff_set _ hi t _).trans ?_
  simp only [entryWeight, zero_add]
  rfl

theorem leaves_set (t : Tab (n + 1)) (i : ℕ) (fl : PteFlags) (f : ℕ) (c : Tab n) :
    ∃ r, leaves (n + 1) (Slots.set t i (.next fl f c)) = leaves n c + r ∧
      (∀ fl' f' c', Slots.get? t i = some (.next fl' f' c') →
        leaves (n + 1) t = leaves n c' + r) := by
  refine ⟨Slots.total (fun _ e ↦ entryWeight (fun e ↦ {claim e}) (fun _ ↦ 0) n e) (Slots.erase t i),
    ?_, fun fl' f' c' hg ↦ ?_⟩
  · simp only [leaves]
    rw [weigh_succ, Slots.total_set]
    simp only [entryWeight, zero_add]
  · simp only [leaves]
    rw [weigh_succ, Slots.total_of_get? _ hg]
    simp only [entryWeight, zero_add]

theorem tables_set (t : Tab (n + 1)) (i : ℕ) (fl : PteFlags) (f : ℕ) (c : Tab n) :
    ∃ r, tables (n + 1) (Slots.set t i (.next fl f c)) = (f, .pinned) ::ₘ tables n c + r ∧
      (∀ fl' f' c', Slots.get? t i = some (.next fl' f' c') →
        tables (n + 1) t = (f', .pinned) ::ₘ tables n c' + r) := by
  refine ⟨Slots.total (fun _ e ↦ entryWeight (fun _ ↦ 0) (fun f ↦ {(f, .pinned)}) n e)
    (Slots.erase t i),
    ?_, fun fl' f' c' hg ↦ ?_⟩
  · simp only [tables]
    rw [weigh_succ, Slots.total_set]
    rfl
  · simp only [tables]
    rw [weigh_succ, Slots.total_of_get? _ hg]
    rfl

/-- What the marking of a table does to the claims of the original and the copy: the pages of
a completed copy are backed, those of an abandoned one are not counted. -/
def MarksCow (A : Account ℕ) (n : ℕ)
    (apply : Pmm → ℕ → Tab n → ℕ → Tab n → Pmm × Tab n × Tab n × Int) : Prop :=
  ∀ {s s' : Pmm} {f np : ℕ} {src dst src' dst' : Tab n} {rc : Int} {u : Multiset (ℕ × Mode)},
    Covered n dst src → A.Holds s.pool (leaves n src + (tables n dst + u)) →
    apply s f src np dst = (s', src', dst', rc) →
    A.Holds s'.pool (leaves n src' + (if rc = 0 then leaves n dst' else 0) + (tables n dst' + u)) ∧
      tables n src' = tables n src

theorem holds_applyLoop {apply : Pmm → ℕ → Tab n → ℕ → Tab n → Pmm × Tab n × Tab n × Int}
    (happly : MarksCow A n apply) {src dst src' dst' : Tab (n + 1)} {l : List (ℕ × Entry (Tab n))}
    (hnd : (l.map Prod.fst).Nodup) (hl : ∀ p ∈ l, Slots.get? src p.1 = some p.2)
    (hcov : ∀ p ∈ l, ∀ fl np d, Slots.get? dst p.1 = some (.next fl np d) →
      ∃ fl' f c, p.2 = .next fl' f c ∧ Covered n d c)
    (h : A.Holds s.pool
      (leaves (n + 1) src + leavesOff (n + 1) (l.map Prod.fst) dst + (tables (n + 1) dst + u)))
    (ha : applyLoop apply s src dst l = (s', src', dst', rc)) :
    A.Holds s'.pool (leaves (n + 1) src' + (if rc = 0 then leaves (n + 1) dst' else 0) +
      (tables (n + 1) dst' + u)) ∧ tables (n + 1) src' = tables (n + 1) src := by
  induction l generalizing s src dst with
  | nil =>
    cases ha
    simpa only [if_true, List.map_nil, leavesOff_nil, and_true] using h
  | cons p l ih =>
    obtain ⟨i, e⟩ := p
    obtain ⟨hi, hnd'⟩ := List.nodup_cons.1 hnd
    have hge : Slots.get? src i = some e := hl _ List.mem_cons_self
    have hne : ∀ p ∈ l, p.1 ≠ i := fun p hp hpi ↦ hi (List.mem_map.2 ⟨p, hp, hpi⟩)
    cases e with
    | huge fl f =>
      cases ha
      exact ⟨holds_failed h (by decide) _, rfl⟩
    | next fl f c =>
      simp only [applyLoop] at ha
      split at ha
      · next fl' np d hd =>
        by_cases hnp : np = 0
        · rw [if_pos hnp] at ha
          cases ha
          exact ⟨holds_failed h (by decide) _, rfl⟩
        rw [if_neg hnp] at ha
        obtain ⟨fl₁, f₁, c₁, hc₁, hcovd⟩ := hcov _ List.mem_cons_self fl' np d hd
        cases hc₁
        cases hap : apply s f c np d with
        | mk s₁ r =>
          obtain ⟨c', d', rc₁⟩ := r
          rw [hap] at ha
          simp only at ha
          obtain ⟨R, hR', hR⟩ := leaves_set src i fl f c'
          obtain ⟨T, hT', hT⟩ := tables_set dst i fl' np d'
          obtain ⟨S, hS', hS⟩ := tables_set src i fl f c'
          have hsrc := hR fl f c hge
          have hdst := hT fl' np d hd
          have h₁ : A.Holds s.pool (leaves n c + (tables n d + (R +
              leavesOff (n + 1) (i :: l.map Prod.fst) dst + ((np, .pinned) ::ₘ (T + u))))) := by
            refine h.mono (le_of_eq ?_)
            simp only [List.map_cons, hsrc, hdst, ← Multiset.singleton_add]
            abel
          obtain ⟨h₂, htab⟩ := happly hcovd h₁ hap
          have hsame : tables (n + 1) (Slots.set src i (.next fl f c')) = tables (n + 1) src := by
            rw [hS', hS fl f c hge, htab]
          split_ifs at ha with hrc
          · rw [if_neg hrc, add_zero] at h₂
            cases ha
            refine ⟨holds_failed (w := leavesOff (n + 1) (i :: l.map Prod.fst) dst)
              (h₂.mono (le_of_eq ?_))
              (by decide) _, hsame⟩
            simp only [hR', hT', ← Multiset.singleton_add]
            abel
          · have hrc0 : rc₁ = 0 := not_not.1 hrc
            rw [if_pos hrc0] at h₂
            refine (ih hnd' (fun p hp ↦ ?_) (fun p hp fl₂ np₂ d₂ hg ↦ ?_) (h₂.mono (le_of_eq ?_))
              ha).imp id
              (fun h₃ ↦ h₃.trans hsame)
            · rw [Slots.get?_set_of_ne _ (hne p hp)]
              exact hl p (List.mem_cons_of_mem _ hp)
            · rw [Slots.get?_set_of_ne _ (hne p hp)] at hg
              exact hcov p (List.mem_cons_of_mem _ hp) fl₂ np₂ d₂ hg
            · rw [leavesOff_set hi, hR', hT']
              simp only [← Multiset.singleton_add]
              abel
      · cases ha
        exact ⟨holds_failed h (by decide) _, rfl⟩

theorem keys_nodup (t : Slots α) : (t.list.map Prod.fst).Nodup := by
  rw [List.nodup_iff_pairwise_ne, List.pairwise_map]
  exact t.sorted.imp (fun h ↦ ne_of_lt h)

theorem mem_keys {a : α} (h : t.get? i = some a) : i ∈ t.list.map Prod.fst :=
  List.mem_map.2 ⟨(i, a), (Slots.get?_eq_some_iff t i a).1 h, rfl⟩

theorem get?_of_mem : ∀ p ∈ t.list, t.get? p.1 = some p.2 :=
  fun p hp ↦ (Slots.get?_eq_some_iff t p.1 p.2).2 hp

theorem holds_applyTable {apply : Pmm → ℕ → Tab n → ℕ → Tab n → Pmm × Tab n × Tab n × Int}
    (happly : MarksCow A n apply) {src dst src' dst' : Tab (n + 1)} (hcov : Covered (n + 1) dst src)
    (h : A.Holds s.pool (leaves (n + 1) src + (tables (n + 1) dst + u)))
    (ha : applyLoop apply s src dst (Slots.list src) = (s', src', dst', rc)) :
    A.Holds s'.pool (leaves (n + 1) src' + (if rc = 0 then leaves (n + 1) dst' else 0) +
      (tables (n + 1) dst' + u)) ∧ tables (n + 1) src' = tables (n + 1) src := by
  have hoff : leavesOff (n + 1) ((Slots.list src).map Prod.fst) dst = 0 := by
    refine Slots.totalOff_eq_zero _ (fun i e he ↦ ?_)
    obtain ⟨-, -, -, fl', f, c, -, hg, -⟩ := hcov i e he
    exact mem_keys hg
  refine holds_applyLoop happly (keys_nodup _) get?_of_mem (fun p hp fl np d hd ↦ ?_) ?_ ha
  · obtain ⟨fl₁, np₁, d₁, fl', f, c, he, hg, hcovd⟩ := hcov p.1 _ hd
    cases he
    rw [get?_of_mem p hp] at hg
    exact ⟨fl', f, c, Option.some.inj hg, hcovd⟩
  · rwa [hoff, add_zero]

theorem applyForkCow_marks (n : ℕ) : MarksCow A n (applyForkCow n) := by
  induction n with
  | zero =>
    intro s s' f np src dst src' dst' rc u hcov h ha
    have ht : ∀ t : Tab 0, tables 0 t = 0 := fun t ↦ Slots.total_eq_zero (fun _ _ _ ↦ rfl)
    simp only [ht, zero_add, and_true] at h ⊢
    simp only [applyForkCow] at ha
    split_ifs at ha
    · have hoff : leavesOff 0 ((Slots.list src).map Prod.fst) dst = 0 := by
        refine Slots.totalOff_eq_zero _ (fun i e he ↦ ?_)
        obtain ⟨e', hg⟩ := hcov i e he
        exact mem_keys hg
      refine holds_applyPages (keys_nodup _) get?_of_mem ?_ ha
      rwa [hoff, add_zero]
    · cases ha
      simpa using h
  | succ n ih =>
    intro s s' f np src dst src' dst' rc u hcov h ha
    simp only [applyForkCow] at ha
    split_ifs at ha
    · exact holds_applyTable ih hcov h ha
    · cases ha
      simpa using h

end YabroOS.Memory.Tab
