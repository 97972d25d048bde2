import Mathlib.Algebra.BigOperators.Group.Finset.Piecewise
import Mathlib.Algebra.Order.BigOperators.Group.Finset

namespace YabroOS.Lib

open Function

variable {ι κ : Type} [DecidableEq κ] {S : Finset ι} {links : ι → Option κ} {q : ι} {i : κ}

def pointers (S : Finset ι) (links : ι → Option κ) (i : κ) : ℕ :=
  ∑ q ∈ S, if links q = some i then 1 else 0

theorem pointers_update [DecidableEq ι] (links : ι → Option κ) (hq : q ∈ S) (a : Option κ) (i : κ) :
    pointers S (update links q a) i + (if links q = some i then 1 else 0) =
      pointers S links i + if a = some i then 1 else 0 := by
  have h₁ := Finset.add_sum_erase S (fun q' ↦ if update links q a q' = some i then 1 else 0) hq
  have h₂ := Finset.add_sum_erase S (fun q' ↦ if links q' = some i then 1 else 0) hq
  have hrest : ∑ q' ∈ S.erase q, (if update links q a q' = some i then 1 else 0) =
      ∑ q' ∈ S.erase q, if links q' = some i then 1 else 0 := by
    refine Finset.sum_congr rfl fun q' hq' ↦ ?_
    rw [update_of_ne (Finset.ne_of_mem_erase hq')]
  simp only [update_self] at h₁
  simp only [pointers]
  omega

theorem pointers_pos (hq : q ∈ S) (h : links q = some i) : pointers S links i ≠ 0 := by
  classical
  have := pointers_update links hq none i
  rw [if_pos h, if_neg (by simp)] at this
  omega

theorem pointers_eq_zero (h : ∀ q ∈ S, links q ≠ some i) : pointers S links i = 0 :=
  Finset.sum_eq_zero fun q hq ↦ if_neg (h q hq)

theorem pointers_le (S : Finset ι) (links : ι → Option κ) (i : κ) :
    pointers S links i ≤ S.card := by
  rw [pointers, Finset.card_eq_sum_ones]
  refine Finset.sum_le_sum fun q _ ↦ ?_
  split_ifs <;> omega

/-- Things that are counted: each has as many references as places point to it, and is in use while
it has any. -/
structure Counted (S : Finset ι) (links : ι → Option κ) (refs : κ → ℕ) (used : κ → Bool) :
    Prop where
  eq : ∀ i, refs i = pointers S links i
  used_iff : ∀ i, used i = true ↔ refs i ≠ 0

namespace Counted

variable {refs : κ → ℕ} {used : κ → Bool}

theorem used_of_link (h : Counted S links refs used) (hq : q ∈ S) (hl : links q = some i) :
    used i = true := by
  rw [h.used_iff, h.eq]
  exact pointers_pos hq hl

theorem refs_le (h : Counted S links refs used) (i : κ) : refs i ≤ S.card := by
  rw [h.eq]
  exact pointers_le S links i

variable [DecidableEq ι]

theorem skip (h : Counted S links refs used) (hn : links q = none) :
    Counted S (update links q none) refs used := by
  rw [← hn, update_eq_self]
  exact h

theorem pointers_link (h : Counted S links refs used) (hq : q ∈ S) (hn : links q = none) (j : κ) :
    pointers S (update links q (some i)) j = update refs i (refs i + 1) j := by
  have hc := pointers_update links hq (some i) j
  rw [hn, if_neg (nofun : ¬ none = some j), add_zero, ← h.eq] at hc
  rw [hc]
  by_cases hj : j = i
  · rw [hj, update_self, if_pos rfl]
  · rw [update_of_ne hj, if_neg fun he ↦ hj (Option.some.inj he).symm, add_zero]

theorem link (h : Counted S links refs used) (hq : q ∈ S) (hn : links q = none)
    (hi : used i = true) :
    Counted S (update links q (some i)) (update refs i (refs i + 1)) used := by
  refine ⟨fun j ↦ (h.pointers_link hq hn j).symm, fun j ↦ ?_⟩
  by_cases hj : j = i
  · rw [hj, update_self, hi]
    exact ⟨fun _ ↦ Nat.succ_ne_zero _, fun _ ↦ rfl⟩
  · rw [update_of_ne hj]
    exact h.used_iff j

theorem fresh (h : Counted S links refs used) (hq : q ∈ S) (hn : links q = none)
    (hi : used i = false) :
    Counted S (update links q (some i)) (update refs i 1) (update used i true) := by
  have hzero : refs i = 0 := by
    by_contra hc
    rw [(h.used_iff i).2 hc] at hi
    cases hi
  refine ⟨fun j ↦ ?_, fun j ↦ ?_⟩
  · rw [h.pointers_link hq hn, hzero]
  · by_cases hj : j = i
    · rw [hj, update_self, update_self]
      exact ⟨fun _ ↦ one_ne_zero, fun _ ↦ rfl⟩
    · rw [update_of_ne hj, update_of_ne hj]
      exact h.used_iff j

theorem pointers_unlink (h : Counted S links refs used) (hq : q ∈ S) (hl : links q = some i)
    (j : κ) : pointers S (update links q none) j = update refs i (refs i - 1) j := by
  have hc := pointers_update links hq none j
  rw [hl, if_neg (nofun : ¬ none = some j), add_zero, ← h.eq] at hc
  by_cases hj : j = i
  · rw [hj, if_pos rfl] at hc
    rw [hj, update_self]
    omega
  · rw [if_neg fun he ↦ hj (Option.some.inj he).symm, add_zero] at hc
    rw [update_of_ne hj, hc]

theorem unlink (h : Counted S links refs used) (hq : q ∈ S) (hl : links q = some i)
    (hmany : 1 < refs i) : Counted S (update links q none) (update refs i (refs i - 1)) used := by
  refine ⟨fun j ↦ (h.pointers_unlink hq hl j).symm, fun j ↦ ?_⟩
  by_cases hj : j = i
  · rw [hj, update_self, h.used_of_link hq hl]
    exact ⟨fun _ ↦ by omega, fun _ ↦ rfl⟩
  · rw [update_of_ne hj]
    exact h.used_iff j

theorem unlink_last (h : Counted S links refs used) (hq : q ∈ S) (hl : links q = some i)
    (hone : ¬ 1 < refs i) :
    Counted S (update links q none) (update refs i 0) (update used i false) := by
  have hz : refs i - 1 = 0 := by omega
  refine ⟨fun j ↦ ?_, fun j ↦ ?_⟩
  · rw [h.pointers_unlink hq hl j, hz]
  · by_cases hj : j = i
    · rw [hj, update_self, update_self]
      exact ⟨nofun, fun hc ↦ absurd rfl hc⟩
    · rw [update_of_ne hj, update_of_ne hj]
      exact h.used_iff j

end Counted

/-- Things that have at least as many references as places point to them, and are in use while they
have any. -/
structure Covered (S : Finset ι) (links : ι → Option κ) (refs : κ → ℕ) (used : κ → Bool) :
    Prop where
  le : ∀ i, pointers S links i ≤ refs i
  used : ∀ i, refs i ≠ 0 → used i = true

namespace Covered

variable {refs : κ → ℕ} {used : κ → Bool}

theorem used_of_link (h : Covered S links refs used) (hq : q ∈ S) (hl : links q = some i) :
    used i = true :=
  h.used i (Nat.ne_of_gt ((Nat.pos_of_ne_zero (pointers_pos hq hl)).trans_le (h.le i)))

variable [DecidableEq ι]

theorem drop (h : Covered S links refs used) (hq : q ∈ S) :
    Covered S (update links q none) refs used := by
  refine ⟨fun j ↦ ?_, h.used⟩
  have hc := pointers_update links hq none j
  have hle := h.le j
  rw [if_neg (nofun : ¬ none = some j)] at hc
  omega

theorem link (h : Covered S links refs used) (hq : q ∈ S) (hi : used i = true) :
    Covered S (update links q (some i)) (update refs i (refs i + 1)) used := by
  refine ⟨fun j ↦ ?_, fun j hj ↦ ?_⟩
  · have hc := pointers_update links hq (some i) j
    have hle := h.le j
    by_cases hj : j = i
    · rw [hj, if_pos rfl] at hc
      rw [hj] at hle ⊢
      rw [update_self]
      omega
    · rw [if_neg fun he ↦ hj (Option.some.inj he).symm] at hc
      rw [update_of_ne hj]
      omega
  · by_cases hji : j = i
    · rw [hji]
      exact hi
    · rw [update_of_ne hji] at hj
      exact h.used j hj

theorem fresh (h : Covered S links refs used) (hq : q ∈ S) (hi : used i = false) :
    Covered S (update links q (some i)) (update refs i 1) (update used i true) := by
  have hzero : refs i = 0 := by
    by_contra hc
    rw [h.used i hc] at hi
    cases hi
  have hused : Covered S links refs (update used i true) := by
    refine ⟨h.le, fun j hj ↦ ?_⟩
    by_cases hji : j = i
    · rw [hji, update_self]
    · rw [update_of_ne hji]
      exact h.used j hj
  have hlink := hused.link hq (update_self i true used)
  rw [hzero] at hlink
  exact hlink

theorem unlink (h : Covered S links refs used) (hq : q ∈ S) (hl : links q = some i) :
    Covered S (update links q none) (update refs i (refs i - 1))
    (update used i (if refs i = 1 then false else used i)) := by
  refine ⟨fun j ↦ ?_, fun j hj ↦ ?_⟩
  · have hc := pointers_update links hq none j
    have hle := h.le j
    rw [if_neg (nofun : ¬ none = some j)] at hc
    by_cases hji : j = i
    · rw [hji, if_pos hl] at hc
      rw [hji] at hle ⊢
      rw [update_self]
      omega
    · rw [update_of_ne hji]
      omega
  · by_cases hji : j = i
    · rw [hji, update_self] at hj
      rw [hji, update_self, if_neg (by omega)]
      exact h.used i (by omega)
    · rw [update_of_ne hji] at hj ⊢
      exact h.used j hj

end Covered

end YabroOS.Lib
