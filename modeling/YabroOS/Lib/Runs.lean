import Mathlib.Data.List.Basic

namespace YabroOS.Lib

variable {σ ι : Type} {step : σ → ι → σ} {ok : σ → ι → Prop} {I : σ → Prop} {s : σ} {l : List ι}

/-- Each step of the run is taken in a state that admits it. -/
def Along (step : σ → ι → σ) (ok : σ → ι → Prop) : σ → List ι → Prop
  | _, [] => True
  | s, i :: l => ok s i ∧ Along step ok (step s i) l

theorem Along.invariant (hstep : ∀ s i, I s → ok s i → I (step s i)) (hs : I s)
    (h : Along step ok s l) : I (l.foldl step s) := by
  induction l generalizing s with
  | nil => exact hs
  | cons i l ih => exact ih (hstep s i hs h.1) h.2

section

variable {step : σ → ι → Option σ} {s' : σ}

/-- A run of a partial step from one state to another, each step taken in a state that admits it. -/
def Steps (step : σ → ι → Option σ) (ok : σ → ι → Prop) : σ → List ι → σ → Prop
  | s, [], s' => s' = s
  | s, i :: l, s' => ok s i ∧ ∃ s₁, step s i = some s₁ ∧ Steps step ok s₁ l s'

theorem Steps.invariant (hstep : ∀ s i s', I s → ok s i → step s i = some s' → I s') (hs : I s)
    (h : Steps step ok s l s') : I s' := by
  induction l generalizing s with
  | nil =>
    obtain rfl := h
    exact hs
  | cons i l ih =>
    obtain ⟨hok, s₁, h₁, h⟩ := h
    exact ih (hstep s i s₁ hs hok h₁) h

end

end YabroOS.Lib
