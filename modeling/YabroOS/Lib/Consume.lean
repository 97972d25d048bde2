import Mathlib.Data.List.Basic

namespace YabroOS.Lib

variable {σ α : Type} {step : σ → α → σ × Bool} {s : σ} {l m : List α} {P : σ → Prop}

def consume (step : σ → α → σ × Bool) : σ → List α → σ × ℕ
  | s, [] => (s, 0)
  | s, a :: l =>
    if (step s a).2 then ((consume step (step s a).1 l).1, (consume step (step s a).1 l).2 + 1)
    else ((step s a).1, 0)

theorem consume_taken {a : α} (h : (step s a).2 = true) :
    consume step s (a :: l) =
      ((consume step (step s a).1 l).1, (consume step (step s a).1 l).2 + 1) := if_pos h

theorem consume_refused {a : α} (h : ¬ (step s a).2 = true) :
    consume step s (a :: l) = ((step s a).1, 0) := if_neg h

theorem consume_le (step : σ → α → σ × Bool) (s : σ) (l : List α) :
    (consume step s l).2 ≤ l.length := by
  induction l generalizing s with
  | nil => exact Nat.le_refl 0
  | cons a l ih =>
    by_cases h : (step s a).2 = true
    · rw [consume_taken h]
      exact Nat.succ_le_succ (ih _)
    · rw [consume_refused h]
      exact Nat.zero_le _

theorem consume_append (h : (consume step s l).2 = l.length) :
    consume step s (l ++ m) =
      ((consume step (consume step s l).1 m).1,
        l.length + (consume step (consume step s l).1 m).2) := by
  induction l generalizing s with
  | nil => exact Prod.ext rfl (Nat.zero_add _).symm
  | cons a l ih =>
    by_cases hs : (step s a).2 = true
    · rw [consume_taken hs] at h ⊢
      rw [List.cons_append, consume_taken hs, ih (Nat.succ_inj.1 h), List.length_cons]
      exact Prod.ext rfl (Nat.add_right_comm ..)
    · rw [consume_refused hs] at h
      cases h

theorem consume_append_of_lt (m : List α) (h : (consume step s l).2 < l.length) :
    consume step s (l ++ m) = consume step s l := by
  induction l generalizing s with
  | nil => exact absurd h (Nat.not_lt_zero _)
  | cons a l ih =>
    by_cases hs : (step s a).2 = true
    · rw [consume_taken hs] at h ⊢
      rw [List.cons_append, consume_taken hs, ih (Nat.lt_of_succ_lt_succ h)]
    · rw [List.cons_append, consume_refused hs, consume_refused hs]

theorem consume_invariant (hstep : ∀ s, ∀ a ∈ l, P s → P (step s a).1) (hs : P s) :
    P (consume step s l).1 := by
  induction l generalizing s with
  | nil => exact hs
  | cons a l ih =>
    have h₁ := hstep s a (.head _) hs
    by_cases h : (step s a).2 = true
    · rw [consume_taken h]
      exact ih (fun s b hb ↦ hstep s b (.tail _ hb)) h₁
    · rw [consume_refused h]
      exact h₁

/-- A loop that hands over chunks of the given size, each if it can be fetched, and ends at a short
count. It gives the state, the number of the elements that were taken, and whether a fetch has
failed. -/
def chunkLoop (put : σ → List α → σ × ℕ) (size : ℕ) (fault : ℕ → Bool) :
    ℕ → ℕ → σ → List α → σ × ℕ × Bool
  | 0, done, s, _ => (s, done, false)
  | fuel + 1, done, s, l =>
    if l = [] then (s, done, false)
    else if fault done then (s, done, true)
    else if (put s (l.take size)).2 < (l.take size).length then
      ((put s (l.take size)).1, done + (put s (l.take size)).2, false)
    else chunkLoop put size fault fuel (done + (put s (l.take size)).2) (put s (l.take size)).1
      (l.drop size)

def fetched (size : ℕ) (fault : ℕ → Bool) : ℕ → ℕ → List α → List α
  | 0, _, _ => []
  | fuel + 1, done, l =>
    if l = [] then [] else if fault done then []
    else l.take size ++ fetched size fault fuel (done + (l.take size).length) (l.drop size)

theorem fetched_all {size fuel : ℕ} {fault : ℕ → Bool} (hsize : 0 < size)
    (hfault : ∀ i, fault i = false) (done : ℕ) (hfuel : l.length ≤ fuel) :
    fetched size fault fuel done l = l := by
  induction fuel generalizing done l with
  | zero => exact (List.eq_nil_of_length_eq_zero (Nat.le_zero.1 hfuel)).symm
  | succ fuel ih =>
    unfold fetched
    by_cases hnil : l = []
    · rw [if_pos hnil, hnil]
    have hrest : (l.drop size).length ≤ fuel := by
      rw [List.length_drop]
      omega
    rw [if_neg hnil, if_neg (by rw [hfault]; exact Bool.false_ne_true), ih _ hrest,
      List.take_append_drop]

theorem chunkLoop_consume (step : σ → α → σ × Bool) {size fuel : ℕ} (fault : ℕ → Bool)
    (hsize : 0 < size) (done : ℕ) (s : σ) {l : List α} (hfuel : l.length ≤ fuel) :
    ∃ failed, chunkLoop (consume step) size fault fuel done s l =
      ((consume step s (fetched size fault fuel done l)).1,
        done + (consume step s (fetched size fault fuel done l)).2, failed) := by
  induction fuel generalizing done s l with
  | zero => exact ⟨false, rfl⟩
  | succ fuel ih =>
    unfold chunkLoop fetched
    by_cases hnil : l = []
    · rw [if_pos hnil, if_pos hnil]
      exact ⟨false, rfl⟩
    rw [if_neg hnil, if_neg hnil]
    by_cases hf : fault done = true
    · rw [if_pos hf, if_pos hf]
      exact ⟨true, rfl⟩
    rw [if_neg hf, if_neg hf]
    by_cases hshort : (consume step s (l.take size)).2 < (l.take size).length
    · rw [if_pos hshort, consume_append_of_lt _ hshort]
      exact ⟨false, rfl⟩
    · have hfull : (consume step s (l.take size)).2 = (l.take size).length :=
        Nat.le_antisymm (consume_le _ _ _) (Nat.not_lt.1 hshort)
      have hrest : (l.drop size).length ≤ fuel := by
        rw [List.length_drop]
        omega
      obtain ⟨failed, hloop⟩ :=
        ih (done + (consume step s (l.take size)).2) (consume step s (l.take size)).1 hrest
      rw [if_neg hshort, hloop, hfull, consume_append hfull, Nat.add_assoc]
      exact ⟨failed, rfl⟩

end YabroOS.Lib
