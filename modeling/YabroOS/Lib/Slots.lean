import Mathlib.Algebra.BigOperators.Group.List.Lemmas
import Mathlib.Algebra.Order.Group.Nat
import Mathlib.Tactic.Abel

namespace YabroOS.Lib

variable {α β M : Type} {i j : ℕ} {l : List (ℕ × α)} {w : ℕ → α → M}

/-- A sparse array: the occupied indices in increasing order, each with its contents. -/
structure Slots (α : Type) where
  list : List (ℕ × α)
  sorted : list.Pairwise (fun a b ↦ a.1 < b.1)

namespace Slots

def empty : Slots α := ⟨[], .nil⟩

def get? (s : Slots α) (i : ℕ) : Option α := s.list.lookup i

def insertAt (i : ℕ) (a : α) : List (ℕ × α) → List (ℕ × α)
  | [] => [(i, a)]
  | (j, b) :: l =>
    if i < j then (i, a) :: (j, b) :: l
    else if i = j then (i, a) :: l
    else (j, b) :: insertAt i a l

theorem mem_insertAt {a : α} {p : ℕ × α} (h : p ∈ insertAt i a l) : p = (i, a) ∨ p ∈ l := by
  induction l with
  | nil => simpa [insertAt] using h
  | cons q l ih =>
    obtain ⟨j, b⟩ := q
    simp only [insertAt] at h
    split_ifs at h with h₁ h₂
    · simpa using h
    · rcases List.mem_cons.1 h with h | h
      · exact .inl h
      · exact .inr (List.mem_cons_of_mem _ h)
    · rcases List.mem_cons.1 h with h | h
      · exact .inr (by simp [h])
      · exact (ih h).imp_right (List.mem_cons_of_mem _)

theorem insertAt_sorted (i : ℕ) (a : α) (h : l.Pairwise (fun a b ↦ a.1 < b.1)) :
    (insertAt i a l).Pairwise (fun a b ↦ a.1 < b.1) := by
  induction l with
  | nil => simp [insertAt]
  | cons q l ih =>
    obtain ⟨j, b⟩ := q
    have hj : ∀ p ∈ l, j < p.1 := (List.pairwise_cons.1 h).1
    have hl := (List.pairwise_cons.1 h).2
    simp only [insertAt]
    split_ifs with h₁ h₂
    · refine List.pairwise_cons.2 ⟨fun p hp ↦ ?_, h⟩
      rcases List.mem_cons.1 hp with rfl | hp
      · exact h₁
      · exact h₁.trans (hj p hp)
    · subst h₂
      exact List.pairwise_cons.2 ⟨hj, hl⟩
    · refine List.pairwise_cons.2 ⟨fun p hp ↦ ?_, ih hl⟩
      rcases mem_insertAt hp with rfl | hp
      · show j < i
        omega
      · exact hj p hp

def set (s : Slots α) (i : ℕ) (a : α) : Slots α :=
  ⟨insertAt i a s.list, insertAt_sorted i a s.sorted⟩

def erase (s : Slots α) (i : ℕ) : Slots α :=
  ⟨s.list.filter (fun p ↦ p.1 ≠ i), s.sorted.sublist List.filter_sublist⟩

def total [AddCommMonoid M] (w : ℕ → α → M) (s : Slots α) : M :=
  (s.list.map (fun p ↦ w p.1 p.2)).sum

theorem erase_eq_self (h : ∀ p ∈ l, i < p.1) : l.filter (fun p ↦ p.1 ≠ i) = l := by
  rw [List.filter_eq_self]
  intro p hp
  have := h p hp
  simp only [decide_eq_true_eq]
  omega

theorem total_erase_list [AddCommMonoid M] (w : ℕ → α → M) (i : ℕ)
    (h : l.Pairwise (fun a b ↦ a.1 < b.1)) :
    (l.map (fun p ↦ w p.1 p.2)).sum =
      (l.lookup i).elim 0 (w i) + ((l.filter (fun p ↦ p.1 ≠ i)).map (fun p ↦ w p.1 p.2)).sum := by
  induction l with
  | nil => simp
  | cons q l ih =>
    obtain ⟨j, b⟩ := q
    have hj : ∀ p ∈ l, j < p.1 := (List.pairwise_cons.1 h).1
    by_cases hij : i = j
    · subst hij
      rw [List.filter_cons_of_neg (by simp), erase_eq_self hj]
      simp
    · have hne : (i == j) = false := by simpa using hij
      rw [List.filter_cons_of_pos (by simpa using fun h ↦ hij h.symm)]
      simp only [List.map_cons, List.sum_cons, List.lookup_cons, hne, ih (List.pairwise_cons.1 h).2]
      abel

theorem total_insertAt [AddCommMonoid M] (w : ℕ → α → M) (i : ℕ) (a : α)
    (h : l.Pairwise (fun a b ↦ a.1 < b.1)) :
    ((insertAt i a l).map (fun p ↦ w p.1 p.2)).sum =
      w i a + ((l.filter (fun p ↦ p.1 ≠ i)).map (fun p ↦ w p.1 p.2)).sum := by
  induction l with
  | nil => simp [insertAt]
  | cons q l ih =>
    obtain ⟨j, b⟩ := q
    have hj : ∀ p ∈ l, j < p.1 := (List.pairwise_cons.1 h).1
    simp only [insertAt]
    split_ifs with h₁ h₂
    · rw [erase_eq_self (l := (j, b) :: l)]
      · simp
      · intro p hp
        rcases List.mem_cons.1 hp with rfl | hp
        · exact h₁
        · exact h₁.trans (hj p hp)
    · subst h₂
      rw [List.filter_cons_of_neg (by simp), erase_eq_self hj]
      simp
    · rw [List.filter_cons_of_pos (by simpa using fun h ↦ h₂ h.symm)]
      simp only [List.map_cons, List.sum_cons, ih (List.pairwise_cons.1 h).2]
      abel

theorem total_erase [AddCommMonoid M] (w : ℕ → α → M) (s : Slots α) (i : ℕ) :
    s.total w = (s.get? i).elim 0 (w i) + (s.erase i).total w :=
  total_erase_list w i s.sorted

theorem total_set [AddCommMonoid M] (w : ℕ → α → M) (s : Slots α) (i : ℕ) (a : α) :
    (s.set i a).total w = w i a + (s.erase i).total w :=
  total_insertAt w i a s.sorted

theorem total_of_get? [AddCommMonoid M] (w : ℕ → α → M) {s : Slots α} {a : α}
    (h : s.get? i = some a) : s.total w = w i a + (s.erase i).total w := by
  rw [total_erase w s i, h]; rfl

theorem total_of_get?_none [AddCommMonoid M] (w : ℕ → α → M) {s : Slots α} (h : s.get? i = none) :
    s.total w = (s.erase i).total w := by
  rw [total_erase w s i, h]; simp

theorem lookup_insertAt_self (i : ℕ) (a : α) (l : List (ℕ × α)) :
    (insertAt i a l).lookup i = some a := by
  induction l with
  | nil => simp [insertAt]
  | cons q l ih =>
    obtain ⟨k, b⟩ := q
    simp only [insertAt]
    split_ifs with h₁ h₂
    · simp
    · simp
    · have hk : (i == k) = false := by simpa using h₂
      simpa only [List.lookup_cons, hk] using ih

theorem lookup_insertAt_of_ne (h : j ≠ i) (a : α) (l : List (ℕ × α)) :
    (insertAt i a l).lookup j = l.lookup j := by
  have hj : (j == i) = false := by simpa using h
  induction l with
  | nil => simp [insertAt, List.lookup_cons, hj]
  | cons q l ih =>
    obtain ⟨k, b⟩ := q
    simp only [insertAt]
    split_ifs with h₁ h₂
    · simp only [List.lookup_cons, hj]
    · subst h₂
      simp only [List.lookup_cons, hj]
    · simp only [List.lookup_cons, ih]

@[simp] theorem get?_set_self (s : Slots α) (i : ℕ) (a : α) : (s.set i a).get? i = some a :=
  lookup_insertAt_self i a s.list

theorem get?_set_of_ne (s : Slots α) (h : j ≠ i) (a : α) : (s.set i a).get? j = s.get? j :=
  lookup_insertAt_of_ne h a s.list

theorem get?_erase_self (s : Slots α) (i : ℕ) : (s.erase i).get? i = none := by
  simp only [get?, erase, List.lookup_eq_none_iff, List.mem_filter]
  intro p hp
  simpa using fun h ↦ (of_decide_eq_true hp.2) h.symm

theorem get?_erase_of_ne (s : Slots α) (h : j ≠ i) : (s.erase i).get? j = s.get? j := by
  obtain ⟨l, hl⟩ := s
  simp only [get?, erase]
  clear hl
  induction l with
  | nil => rfl
  | cons q l ih =>
    obtain ⟨k, b⟩ := q
    by_cases hk : k = i
    · subst hk
      have : (j == k) = false := by simpa using h
      rw [List.filter_cons_of_neg (by simp)]
      simp only [List.lookup_cons, this, ih]
    · rw [List.filter_cons_of_pos (by simpa using hk)]
      simp only [List.lookup_cons, ih]

theorem filter_insertAt (i : ℕ) (a : α) (l : List (ℕ × α)) :
    (insertAt i a l).filter (fun p ↦ p.1 ≠ i) = l.filter (fun p ↦ p.1 ≠ i) := by
  induction l with
  | nil => simp [insertAt]
  | cons q l ih =>
    obtain ⟨k, b⟩ := q
    simp only [insertAt]
    split_ifs with h₁ h₂
    · simp
    · simp [h₂]
    · simp only [List.filter_cons, ih]

@[simp] theorem erase_set (s : Slots α) (i : ℕ) (a : α) : (s.set i a).erase i = s.erase i := by
  simp only [erase, set, filter_insertAt]

theorem get?_eq_some_iff (s : Slots α) (i : ℕ) (a : α) : s.get? i = some a ↔ (i, a) ∈ s.list := by
  obtain ⟨l, hl⟩ := s
  simp only [get?]
  induction l with
  | nil => simp
  | cons q l ih =>
    obtain ⟨k, b⟩ := q
    have hk : ∀ p ∈ l, k < p.1 := (List.pairwise_cons.1 hl).1
    by_cases hik : i = k
    · subst hik
      have hnm : (i, a) ∉ l := fun h ↦ lt_irrefl _ (hk _ h)
      simp [hnm, eq_comm]
    · have hne : (i == k) = false := by simpa using hik
      simp only [List.lookup_cons, hne, List.mem_cons, Prod.mk.injEq, hik, false_and, false_or]
      exact ih (List.pairwise_cons.1 hl).2

theorem total_congr [AddCommMonoid M] {w' : ℕ → α → M} {s : Slots α}
    (h : ∀ i a, s.get? i = some a → w i a = w' i a) : s.total w = s.total w' := by
  have hmap : s.list.map (fun p ↦ w p.1 p.2) = s.list.map (fun p ↦ w' p.1 p.2) :=
    List.map_congr_left (fun p hp ↦ h p.1 p.2 ((get?_eq_some_iff s p.1 p.2).2 hp))
  simp only [total, hmap]

theorem total_add [AddCommMonoid M] (w w' : ℕ → α → M) (s : Slots α) :
    s.total (fun i a ↦ w i a + w' i a) = s.total w + s.total w' := by
  obtain ⟨l, hl⟩ := s
  simp only [total]
  clear hl
  induction l with
  | nil => simp
  | cons q l ih =>
    simp only [List.map_cons, List.sum_cons, ih]
    abel

theorem map_total {N : Type} [AddCommMonoid M] [AddCommMonoid N] (φ : M →+ N) (w : ℕ → α → M)
    (s : Slots α) : φ (s.total w) = s.total (fun i a ↦ φ (w i a)) := by
  simp only [total, map_list_sum, List.map_map]
  rfl

theorem total_eq_zero [AddCommMonoid M] {s : Slots α} (h : ∀ i a, s.get? i = some a → w i a = 0) :
    s.total w = 0 := by
  rw [total_congr h]
  simp [total]

theorem total_eq_total [AddCommMonoid M] {w' : ℕ → β → M} {s : Slots α} {s' : Slots β}
    (h : ∀ i, (s.get? i).elim 0 (w i) = (s'.get? i).elim 0 (w' i)) : s.total w = s'.total w' := by
  obtain ⟨l, hl⟩ := s
  induction l generalizing s' with
  | nil =>
    refine (total_eq_zero (fun i b hi ↦ ?_)).symm
    have hzero := h i
    rw [hi] at hzero
    exact hzero.symm
  | cons q l ih =>
    obtain ⟨j, a⟩ := q
    obtain ⟨hj, hl'⟩ := List.pairwise_cons.1 hl
    have hrest : total w ⟨l, hl'⟩ = (s'.erase j).total w' := by
      refine ih hl' (fun i ↦ ?_)
      by_cases hij : i = j
      · subst hij
        have hnone : get? ⟨l, hl'⟩ i = none := by
          refine List.lookup_eq_none_iff.2 (fun p hp ↦ ?_)
          simpa using (hj p hp).ne
        rw [hnone, get?_erase_self]
        rfl
      · have hne : (i == j) = false := by simpa using hij
        have hi := h i
        simp only [get?, List.lookup_cons, hne] at hi
        rw [get?_erase_of_ne _ hij]
        exact hi
    have hself := h j
    simp only [get?, List.lookup_cons, beq_self_eq_true] at hself
    rw [total_erase w' s' j, ← hrest]
    refine congrArg (· + total w ⟨l, hl'⟩) ?_
    exact hself

def totalOff [AddCommMonoid M] (w : α → M) (l : List ℕ) (s : Slots α) : M :=
  s.total (fun i a ↦ if i ∈ l then 0 else w a)

theorem totalOff_nil [AddCommMonoid M] (w : α → M) (s : Slots α) :
    s.totalOff w [] = s.total (fun _ a ↦ w a) := by
  simp [totalOff]

theorem totalOff_set [AddCommMonoid M] (w : α → M) {l : List ℕ} (hi : i ∉ l) (s : Slots α) (a : α) :
    (s.set i a).totalOff w l = w a + s.totalOff w (i :: l) := by
  have herase : (s.erase i).total (fun j a ↦ if j ∈ l then 0 else w a) =
      (s.erase i).total (fun j a ↦ if j ∈ i :: l then 0 else w a) := by
    refine total_congr (fun j b hj ↦ ?_)
    have hji : j ≠ i := by
      rintro rfl
      rw [get?_erase_self] at hj
      cases hj
    simp [hji]
  rw [totalOff, total_set, if_neg hi, totalOff, total_erase _ s i, herase]
  cases hg : s.get? i with
  | none => simp
  | some b => simp

theorem totalOff_eq_zero [AddCommMonoid M] (w : α → M) {l : List ℕ} {s : Slots α}
    (h : ∀ i a, s.get? i = some a → i ∈ l) : s.totalOff w l = 0 :=
  total_eq_zero (fun i a ha ↦ if_pos (h i a ha))

end Slots

end YabroOS.Lib
