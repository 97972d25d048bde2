import Mathlib.Data.List.Basic
import Mathlib.Data.Option.Basic

namespace YabroOS.Lib

variable {α σ : Type}

def sub? (a b : ℕ) : Option ℕ := if b ≤ a then some (a - b) else none

theorem sub?_of_le {a b : ℕ} (h : b ≤ a) : sub? a b = some (a - b) := if_pos h

def forRange (lo hi : ℕ) (body : ℕ → σ → Option σ) (s : σ) : Option σ :=
  (List.range' lo (hi - lo)).foldlM (fun s i ↦ body i s) s

def forRangeRev (lo hi : ℕ) (body : ℕ → σ → Option σ) (s : σ) : Option σ :=
  (List.range' lo (hi - lo)).reverse.foldlM (fun s i ↦ body i s) s

/-- The computation does not fail, and what it returns has the property. -/
def Yields (x : Option α) (P : α → Prop) : Prop := ∃ a, x = some a ∧ P a

namespace Yields

variable {β : Type} {x : Option α} {P Q : α → Prop}

theorem ret {a : α} (h : P a) : Yields (some a) P := ⟨a, rfl, h⟩

theorem mono (hx : Yields x P) (h : ∀ a, P a → Q a) : Yields x Q := by
  obtain ⟨a, ha, hP⟩ := hx
  exact ⟨a, ha, h a hP⟩

theorem bind {f : α → Option β} {R : β → Prop} (hx : Yields x P) (hf : ∀ a, P a → Yields (f a) R) :
    Yields (x >>= f) R := by
  obtain ⟨a, rfl, hP⟩ := hx
  exact hf a hP

theorem foldlM {ι : Type} {P : σ → Prop} {f : σ → ι → Option σ} {l : List ι}
    (hf : ∀ i ∈ l, ∀ s, P s → Yields (f s i) P) {s : σ} (hs : P s) : Yields (l.foldlM f s) P := by
  induction l generalizing s with
  | nil => exact ret hs
  | cons i l ih =>
    rw [List.foldlM_cons]
    refine (hf i List.mem_cons_self s hs).bind fun s' hs' ↦ ?_
    exact ih (fun j hj ↦ hf j (List.mem_cons_of_mem i hj)) hs'

section Loops

variable {P : σ → Prop} {body : ℕ → σ → Option σ} {lo hi : ℕ} {s : σ}

private theorem bounds_of_mem_range {i : ℕ} (h : i ∈ List.range' lo (hi - lo)) :
    lo ≤ i ∧ i < hi := by
  rw [List.mem_range'_1] at h
  omega

theorem forRange (hbody : ∀ i, lo ≤ i → i < hi → ∀ s, P s → Yields (body i s) P) (hs : P s) :
    Yields (Lib.forRange lo hi body s) P := by
  refine foldlM (fun i hi s hs ↦ ?_) hs
  obtain ⟨h₁, h₂⟩ := bounds_of_mem_range hi
  exact hbody i h₁ h₂ s hs

theorem forRangeRev (hbody : ∀ i, lo ≤ i → i < hi → ∀ s, P s → Yields (body i s) P) (hs : P s) :
    Yields (Lib.forRangeRev lo hi body s) P := by
  refine foldlM (fun i hi s hs ↦ ?_) hs
  obtain ⟨h₁, h₂⟩ := bounds_of_mem_range (List.mem_reverse.1 hi)
  exact hbody i h₁ h₂ s hs

theorem forRange_index {P : ℕ → σ → Prop} (hle : lo ≤ hi)
    (hbody : ∀ i, lo ≤ i → i < hi → ∀ s, P i s → Yields (body i s) (P (i + 1))) (hs : P lo s) :
    Yields (Lib.forRange lo hi body s) (P hi) := by
  obtain ⟨n, rfl⟩ := Nat.exists_eq_add_of_le hle
  rw [Lib.forRange, Nat.add_sub_cancel_left]
  clear hle
  induction n generalizing lo s with
  | zero => exact ret hs
  | succ n ih =>
    rw [List.range'_succ, List.foldlM_cons]
    refine (hbody lo (Nat.le_refl lo) (by omega) s hs).bind fun s' hs' ↦ ?_
    have hrest := @ih (lo + 1) s' hs' fun i h₁ h₂ ↦ hbody i (by omega) (by omega)
    rwa [Nat.add_assoc, Nat.add_comm 1] at hrest

theorem of_forRange_eq {P : ℕ → σ → Prop} {s' : σ} (hle : lo ≤ hi)
    (hbody : ∀ i, lo ≤ i → i < hi → ∀ s s', P i s → body i s = some s' → P (i + 1) s') (hs : P lo s)
    (h : Lib.forRange lo hi body s = some s') : P hi s' := by
  obtain ⟨n, rfl⟩ := Nat.exists_eq_add_of_le hle
  rw [Lib.forRange, Nat.add_sub_cancel_left] at h
  clear hle
  induction n generalizing lo s with
  | zero =>
    obtain rfl := Option.some.inj h
    exact hs
  | succ n ih =>
    rw [List.range'_succ, List.foldlM_cons] at h
    obtain ⟨s₁, h₁, h₂⟩ := Option.bind_eq_some_iff.1 h
    have hs₁ := hbody lo (Nat.le_refl lo) (by omega) s s₁ hs h₁
    have hrest := @ih (lo + 1) s₁ hs₁ (fun i h₁ h₂ ↦ hbody i (by omega) (by omega)) h₂
    rwa [Nat.add_assoc, Nat.add_comm 1] at hrest

end Loops

end Yields

def Unfailing (f : σ → Option σ) : Prop := ∀ s, Yields (f s) fun _ ↦ True

namespace Unfailing

variable {body : ℕ → σ → Option σ} {lo hi : ℕ}

theorem forRange (h : ∀ i, lo ≤ i → i < hi → Unfailing (body i)) :
    Unfailing (Lib.forRange lo hi body) :=
  fun _ ↦ Yields.forRange (fun i h₁ h₂ s _ ↦ h i h₁ h₂ s) trivial

theorem forRangeRev (h : ∀ i, lo ≤ i → i < hi → Unfailing (body i)) :
    Unfailing (Lib.forRangeRev lo hi body) :=
  fun _ ↦ Yields.forRangeRev (fun i h₁ h₂ s _ ↦ h i h₁ h₂ s) trivial

end Unfailing

end YabroOS.Lib
