import Mathlib.Data.List.Induction

namespace YabroOS.Levels

variable {α : Type} (succ : ℕ → α → List α)

/-- The descents from a node at a level. -/
inductive Descends (root : α) (top : ℕ) : α → ℕ → Prop
  | root : Descends root top root top
  | step {a b : α} {level : ℕ} (h : Descends root top a (level + 1)) (hb : b ∈ succ (level + 1) a) :
    Descends root top b level

def Recorded (met : List (α × ℕ)) (a : α) (level : ℕ) : Prop := ∃ k, level ≤ k ∧ (a, k) ∈ met

def Closed (met : List (α × ℕ)) (a : α) (k : ℕ) : Prop :=
  ∀ level, k = level + 1 → ∀ b ∈ succ k a, 1 ≤ level → Recorded met b level

variable {succ} {met met' : List (α × ℕ)} {a b : α} {level k top : ℕ}

theorem Recorded.mono (h : Recorded met a level) (hsub : met ⊆ met') : Recorded met' a level := by
  obtain ⟨k, hk, hmem⟩ := h
  exact ⟨k, hk, hsub hmem⟩

theorem Closed.mono (h : Closed succ met a k) (hsub : met ⊆ met') : Closed succ met' a k :=
  fun level hk b hb hlevel ↦ (h level hk b hb hlevel).mono hsub

variable [DecidableEq α]

section Meet

variable (succ)

/-- The nodes that are met on the way down from one node, with the levels at which they are met
first. A node that was met before is passed over. -/
def meet : ℕ → α → List (α × ℕ) → List (α × ℕ)
  | 0, _, met => met
  | level + 1, a, met =>
    if a ∈ met.map Prod.fst then met
    else (succ (level + 1) a).foldl (fun met b ↦ meet level b met) (met ++ [(a, level + 1)])

/-- No node is met again at a higher level than the first time. -/
def Ordered : ℕ → α → List (α × ℕ) → Prop
  | 0, _, _ => True
  | level + 1, a, met =>
    if a ∈ met.map Prod.fst then ∃ k, level + 1 ≤ k ∧ (a, k) ∈ met
    else ∀ pre b post, succ (level + 1) a = pre ++ b :: post →
      Ordered level b (pre.foldl (fun met b ↦ meet succ level b met) (met ++ [(a, level + 1)]))

end Meet

theorem subset_meet (level : ℕ) (a : α) (met : List (α × ℕ)) : met ⊆ meet succ level a met := by
  induction level generalizing a met with
  | zero => exact List.Subset.refl met
  | succ level ih =>
    rw [meet]
    split_ifs
    · exact List.Subset.refl met
    · refine List.Subset.trans (List.subset_append_left met [(a, level + 1)]) ?_
      generalize met ++ [(a, level + 1)] = met
      induction succ (level + 1) a generalizing met with
      | nil => exact List.Subset.refl met
      | cons b l hl => exact List.Subset.trans (ih b met) (hl _)

theorem meet_closed (h : Ordered succ level a met) :
    (1 ≤ level → Recorded (meet succ level a met) a level) ∧
      ∀ b k, (b, k) ∈ meet succ level a met → (b, k) ∈ met ∨
        Closed succ (meet succ level a met) b k := by
  induction level generalizing a met with
  | zero => exact ⟨fun h ↦ absurd h (by omega), fun b k hb ↦ .inl hb⟩
  | succ level ih =>
    rw [Ordered] at h
    by_cases ha : a ∈ met.map Prod.fst
    · rw [if_pos ha] at h
      rw [meet, if_pos ha]
      exact ⟨fun _ ↦ h, fun b k hb ↦ .inl hb⟩
    · rw [if_neg ha] at h
      -- The successors that are done are recorded, and all new nodes but the current one are
      -- closed.
      have hfold : ∀ pre post, succ (level + 1) a = pre ++ post →
          let done := pre.foldl (fun met b ↦ meet succ level b met) (met ++ [(a, level + 1)])
          met ++ [(a, level + 1)] ⊆ done ∧ (1 ≤ level → ∀ b ∈ pre, Recorded done b level) ∧
            ∀ b k, (b, k) ∈ done → (b, k) ∈ met ++ [(a, level + 1)] ∨ Closed succ done b k := by
        intro pre
        induction pre using List.reverseRecOn with
        | nil =>
          exact fun post _ ↦ ⟨List.Subset.refl _, fun _ b hb ↦ (by cases hb), fun b k hb ↦ .inl hb⟩
        | append_singleton pre c hpre =>
          intro post hpost
          rw [List.append_assoc] at hpost
          obtain ⟨h₁, h₂, h₃⟩ := hpre _ hpost
          have hstep := ih (h pre c post hpost)
          rw [List.foldl_append]
          simp only [List.foldl_cons, List.foldl_nil]
          have hsub := @subset_meet _ succ _ level c
            (pre.foldl (fun met b ↦ meet succ level b met) (met ++ [(a, level + 1)]))
          refine ⟨List.Subset.trans h₁ hsub, fun hlevel b hb ↦ ?_, fun b k hb ↦ ?_⟩
          · rcases List.mem_append.1 hb with hb | hb
            · exact (h₂ hlevel b hb).mono hsub
            · rw [List.mem_singleton.1 hb]
              exact hstep.1 hlevel
          · rcases hstep.2 b k hb with hb | hb
            · exact (h₃ b k hb).imp_right fun hc ↦ hc.mono hsub
            · exact .inr hb
      obtain ⟨h₁, h₂, h₃⟩ := hfold (succ (level + 1) a) [] (List.append_nil _).symm
      rw [meet, if_neg ha]
      refine ⟨fun _ ↦ ⟨level + 1, Nat.le_refl _, h₁ (by simp)⟩, fun b k hb ↦ ?_⟩
      rcases h₃ b k hb with hmem | hc
      · rcases List.mem_append.1 hmem with hmem | hmem
        · exact .inl hmem
        · obtain ⟨rfl, rfl⟩ := Prod.mk.inj (List.mem_singleton.1 hmem)
          refine .inr fun level' hk c hc hlevel ↦ ?_
          obtain rfl := Nat.succ.inj hk
          exact h₂ hlevel c hc
      · exact .inr hc

/-- Where the successors grow with the level, an ordered descent meets whatever can be reached at a
level from one on. -/
theorem meet_complete (hmono : ∀ a level k, 1 ≤ level → level ≤ k → succ level a ⊆ succ k a)
    (h : Ordered succ top a []) (hd : Descends succ a top b level) (hlevel : 1 ≤ level) :
    Recorded (meet succ top a []) b level := by
  obtain ⟨hroot, hclosed⟩ := meet_closed h
  induction hd with
  | root => exact hroot hlevel
  | @step c d level hd hb ih =>
    obtain ⟨k, hk, hmem⟩ := ih (by omega)
    have hc := (hclosed c k hmem).resolve_left (by simp)
    have hsucc := hmono c (level + 1) k (Nat.succ_pos level) hk hb
    obtain ⟨k', hk', hmem'⟩ := hc (k - 1) (by omega) d hsucc (by omega)
    exact ⟨k', by omega, hmem'⟩

end YabroOS.Levels
