import Mathlib.Data.List.Basic
import Mathlib.Logic.Function.Iterate

namespace YabroOS.Lib

/-- What becomes of a computation that reads a memory of its own: it returns, it reads outside, or
the fuel that it was given is not enough. -/
inductive Out (α : Type)
  | ret (a : α)
  | outside
  | spin
  deriving DecidableEq

namespace Out

variable {α β σ : Type}

def bind (x : Out α) (f : α → Out β) : Out β :=
  match x with
  | ret a => f a
  | outside => outside
  | spin => spin

instance : Monad Out where
  pure := ret
  bind := bind

@[simp] theorem ret_bind (a : α) (f : α → Out β) : (ret a >>= f) = f a := rfl

theorem bind_eq_ret {x : Out α} {f : α → Out β} {b : β} :
    (x >>= f) = ret b ↔ ∃ a, x = ret a ∧ f a = ret b := by
  cases x with
  | ret a =>
    constructor
    · exact fun h ↦ ⟨a, rfl, h⟩
    · rintro ⟨a', ha, h⟩
      cases ha
      exact h
  | outside =>
    constructor
    · exact fun h ↦ by cases h
    · rintro ⟨a, ha, -⟩
      cases ha
  | spin =>
    constructor
    · exact fun h ↦ by cases h
    · rintro ⟨a, ha, -⟩
      cases ha

theorem exists_bind_ret {ι : Type} {x : ι → Out α} {f : α → β} :
    (∃ i b, (x i >>= fun a ↦ ret (f a)) = ret b) ↔ ∃ i a, x i = ret a := by
  constructor
  · rintro ⟨i, b, h⟩
    obtain ⟨a, ha, -⟩ := bind_eq_ret.1 h
    exact ⟨i, a, ha⟩
  · rintro ⟨i, a, ha⟩
    exact ⟨i, f a, bind_eq_ret.2 ⟨a, ha, rfl⟩⟩

def Le (x y : Out α) : Prop := ∀ a, x = ret a → y = ret a

theorem Le.refl (x : Out α) : Le x x := fun _ h ↦ h

theorem Le.bind {x y : Out α} {f g : α → Out β} (h : Le x y) (hfg : ∀ a, Le (f a) (g a)) :
    Le (x >>= f) (y >>= g) := by
  intro b hb
  obtain ⟨a, ha, hb⟩ := bind_eq_ret.1 hb
  exact bind_eq_ret.2 ⟨a, h a ha, hfg a b hb⟩

@[grind =]
def loop (body : σ → Out (σ ⊕ α)) : ℕ → σ → Out α
  | 0, _ => spin
  | n + 1, s =>
    body s >>= fun r ↦
      match r with
      | .inl s => loop body n s
      | .inr a => ret a

/-- The loop is in the second state after so many rounds from the first. -/
def Rounds (body : σ → Out (σ ⊕ α)) : ℕ → σ → σ → Prop
  | 0, s, s' => s = s'
  | n + 1, s, s' => ∃ s₁, body s = ret (.inl s₁) ∧ Rounds body n s₁ s'

variable {body body' : σ → Out (σ ⊕ α)} {s s' : σ} {a : α} {n m : ℕ}

theorem loop_eq_ret :
    loop body n s = ret a ↔ ∃ k < n, ∃ s', Rounds body k s s' ∧ body s' = ret (.inr a) := by
  induction n generalizing s with
  | zero =>
    constructor
    · exact fun h ↦ by cases h
    · rintro ⟨k, hk, -⟩
      exact absurd hk (Nat.not_lt_zero k)
  | succ n ih =>
    rw [loop, bind_eq_ret]
    constructor
    · rintro ⟨r, hr, h⟩
      cases r with
      | inl s₁ =>
        obtain ⟨k, hk, s', hs', ha⟩ := ih.1 h
        exact ⟨k + 1, Nat.succ_lt_succ hk, s', ⟨s₁, hr, hs'⟩, ha⟩
      | inr a' =>
        cases h
        exact ⟨0, Nat.succ_pos n, s, rfl, hr⟩
    · rintro ⟨k, hk, s', hs', ha⟩
      cases k with
      | zero =>
        obtain rfl : s = s' := hs'
        exact ⟨.inr a, ha, rfl⟩
      | succ k =>
        obtain ⟨s₁, hr, hs'⟩ := hs'
        exact ⟨.inl s₁, hr, ih.2 ⟨k, Nat.lt_of_succ_lt_succ hk, s', hs', ha⟩⟩

theorem loop_of_inl (h : body s = ret (.inl s')) : loop body (n + 1) s = loop body n s' := by
  rw [loop, h]
  rfl

theorem loop_of_inr (h : body s = ret (.inr a)) : loop body (n + 1) s = ret a := by
  rw [loop, h]
  rfl

theorem loop_mono (hbody : ∀ s, Le (body s) (body' s)) (hn : n ≤ m) (s : σ) :
    Le (loop body n s) (loop body' m s) := by
  induction n generalizing m s with
  | zero => exact fun a h ↦ by cases h
  | succ n ih =>
    obtain ⟨m, rfl⟩ : ∃ k, m = k + 1 := ⟨m - 1, by omega⟩
    rw [loop, loop]
    refine (hbody s).bind (fun r ↦ ?_)
    cases r with
    | inl s₁ => exact ih (Nat.le_of_succ_le_succ hn) s₁
    | inr a => exact .refl _

@[grind =]
def each {ι : Type} (step : σ → ι → Out (σ ⊕ α)) : List ι → σ → Out (σ ⊕ α)
  | [], s => ret (.inl s)
  | i :: l, s =>
    step s i >>= fun r ↦
      match r with
      | .inl s => each step l s
      | .inr a => ret (.inr a)

variable {ι : Type} {step step' : σ → ι → Out (σ ⊕ α)} {l l' : List ι}

theorem each_append_of_inl (h : each step l s = ret (.inl s')) :
    each step (l ++ l') s = each step l' s' := by
  induction l generalizing s with
  | nil =>
    cases h
    rfl
  | cons i l ih =>
    obtain ⟨r, hr, h⟩ := bind_eq_ret.1 h
    rw [List.cons_append, each, hr, ret_bind]
    cases r with
    | inl s₁ => exact ih h
    | inr a => cases h

theorem each_append_inl (h : each step (l ++ l') s = ret (.inl s')) :
    ∃ s₁, each step l s = ret (.inl s₁) ∧ each step l' s₁ = ret (.inl s') := by
  induction l generalizing s with
  | nil => exact ⟨s, rfl, h⟩
  | cons i l ih =>
    obtain ⟨r, hr, h⟩ := bind_eq_ret.1 h
    rw [each, hr, ret_bind]
    cases r with
    | inl s₁ => exact ih h
    | inr a => cases h

theorem each_mono (hstep : ∀ s i, Le (step s i) (step' s i)) (l : List ι) (s : σ) :
    Le (each step l s) (each step' l s) := by
  induction l generalizing s with
  | nil => exact .refl _
  | cons i l ih =>
    rw [each, each]
    refine (hstep s i).bind (fun r ↦ ?_)
    cases r with
    | inl s₁ => exact ih s₁
    | inr a => exact .refl _

@[grind =]
def scan (st : σ → ι → σ ⊕ α) : List ι → σ → σ ⊕ α
  | [], s => .inl s
  | i :: l, s =>
    match st s i with
    | .inl s => scan st l s
    | .inr a => .inr a

variable {st : σ → ι → σ ⊕ α}

theorem each_pure (st : σ → ι → σ ⊕ α) (l : List ι) (s : σ) :
    each (fun s i ↦ ret (st s i)) l s = ret (scan st l s) := by
  induction l generalizing s with
  | nil => rfl
  | cons i l ih =>
    rw [each, scan, ret_bind]
    cases st s i with
    | inl s₁ => exact ih s₁
    | inr a => rfl

theorem scan_append_of_inl (h : scan st l s = .inl s') : scan st (l ++ l') s = scan st l' s' := by
  induction l generalizing s with
  | nil =>
    cases h
    rfl
  | cons i l ih =>
    rw [List.cons_append, scan]
    rw [scan] at h
    cases hst : st s i with
    | inl s₁ =>
      rw [hst] at h
      exact ih h
    | inr a =>
      rw [hst] at h
      cases h

theorem scan_append_of_inr (h : scan st l s = .inr a) : scan st (l ++ l') s = .inr a := by
  induction l generalizing s with
  | nil => cases h
  | cons i l ih =>
    rw [List.cons_append, scan]
    rw [scan] at h
    cases hst : st s i with
    | inl s₁ =>
      rw [hst] at h
      exact ih h
    | inr a' =>
      rw [hst] at h
      exact h

end Out

end YabroOS.Lib
