import Mathlib.Data.List.DropRight
import Mathlib.Logic.Function.Basic

namespace YabroOS.Lib

variable {α : Type} {size n src dst i : ℕ} {b b' : ℕ → α} {l m : List α}

/-- A store into a buffer of `size` elements, none where the index is outside. -/
def store (size : ℕ) (b : ℕ → α) (i : ℕ) (c : α) : Option (ℕ → α) :=
  if i < size then some (Function.update b i c) else none

/-- The loop `for (i = 0; i < n; i++) b[dst + i] = b[src + i]`. -/
def copyUp (size : ℕ) : ℕ → ℕ → ℕ → (ℕ → α) → Option (ℕ → α)
  | 0, _, _, b => some b
  | n + 1, src, dst, b =>
    if src < size then (store size b dst (b src)).bind (copyUp size n (src + 1) (dst + 1)) else none

/-- The loop `for (i = n - 1; i >= 0; i--) b[dst + i] = b[src + i]`. -/
def copyDown (size : ℕ) : ℕ → ℕ → ℕ → (ℕ → α) → Option (ℕ → α)
  | 0, _, _, b => some b
  | n + 1, src, dst, b =>
    if src + n < size then (store size b (dst + n) (b (src + n))).bind (copyDown size n src dst)
    else none

def writeList (size : ℕ) : List α → ℕ → (ℕ → α) → Option (ℕ → α)
  | [], _, b => some b
  | c :: l, dst, b => (store size b dst c).bind (writeList size l (dst + 1))

def readList (size : ℕ) : ℕ → ℕ → (ℕ → α) → Option (List α)
  | 0, _, _ => some []
  | n + 1, src, b => if src < size then (readList size n (src + 1) b).map (b src :: ·) else none

def Holds (b : ℕ → α) (src : ℕ) (l : List α) : Prop := ∀ i (h : i < l.length), b (src + i) = l[i]

def Keeps (b b' : ℕ → α) (dst n : ℕ) : Prop := ∀ j, j < dst ∨ dst + n ≤ j → b' j = b j

theorem store_of_lt (h : i < size) (c : α) : store size b i c = some (Function.update b i c) :=
  if_pos h

theorem copyUp_spec (hle : dst ≤ src) (hfit : src + n ≤ size) :
    ∃ b', copyUp size n src dst b = some b' ∧ (∀ i < n, b' (dst + i) = b (src + i)) ∧
      Keeps b b' dst n := by
  induction n generalizing src dst b with
  | zero => exact ⟨b, rfl, fun _ h ↦ absurd h (Nat.not_lt_zero _), fun _ _ ↦ rfl⟩
  | succ n ih =>
    obtain ⟨b', hb, hcopied, hkeeps⟩ :=
      @ih (src + 1) (dst + 1) (Function.update b dst (b src)) (by omega) (by omega)
    refine ⟨b', ?_, fun i hi ↦ ?_, fun j hj ↦ ?_⟩
    · rw [copyUp, if_pos (by omega), store_of_lt (by omega)]
      exact hb
    · cases i with
      | zero =>
        rw [hkeeps (dst + 0) (.inl (by omega))]
        exact Function.update_self _ _ _
      | succ i =>
        have := hcopied i (by omega)
        rw [Function.update_of_ne (by omega)] at this
        rw [show dst + (i + 1) = dst + 1 + i by omega, this,
          show src + 1 + i = src + (i + 1) by omega]
    · rw [hkeeps j (by omega), Function.update_of_ne (by omega)]

theorem copyDown_spec (hle : src ≤ dst) (hfit : dst + n ≤ size) :
    ∃ b', copyDown size n src dst b = some b' ∧ (∀ i < n, b' (dst + i) = b (src + i)) ∧
      Keeps b b' dst n := by
  induction n generalizing b with
  | zero => exact ⟨b, rfl, fun _ h ↦ absurd h (Nat.not_lt_zero _), fun _ _ ↦ rfl⟩
  | succ n ih =>
    obtain ⟨b', hb, hcopied, hkeeps⟩ := @ih (Function.update b (dst + n) (b (src + n))) (by omega)
    refine ⟨b', ?_, fun i hi ↦ ?_, fun j hj ↦ ?_⟩
    · rw [copyDown, if_pos (by omega), store_of_lt (by omega)]
      exact hb
    · rcases Nat.lt_succ_iff_lt_or_eq.1 hi with hi | rfl
      · rw [hcopied i hi, Function.update_of_ne (by omega)]
      · rw [hkeeps _ (.inr (Nat.le_refl _)), Function.update_self]
    · rw [hkeeps j (by omega), Function.update_of_ne (by omega)]

theorem writeList_spec (size : ℕ) (b : ℕ → α) (hfit : dst + l.length ≤ size) :
    ∃ b', writeList size l dst b = some b' ∧ Holds b' dst l ∧ Keeps b b' dst l.length := by
  induction l generalizing dst b with
  | nil => exact ⟨b, rfl, fun _ h ↦ absurd h (Nat.not_lt_zero _), fun _ _ ↦ rfl⟩
  | cons c l ih =>
    rw [List.length_cons] at hfit
    obtain ⟨b', hb, hheld, hkeeps⟩ := @ih (dst + 1) (Function.update b dst c) (by omega)
    refine ⟨b', ?_, fun i hi ↦ ?_, fun j hj ↦ ?_⟩
    · rw [writeList, store_of_lt (by omega)]
      exact hb
    · cases i with
      | zero =>
        rw [hkeeps (dst + 0) (.inl (by omega))]
        exact Function.update_self _ _ _
      | succ i =>
        rw [List.length_cons] at hi
        have := hheld i (by omega)
        rw [show dst + (i + 1) = dst + 1 + i by omega, this]
        rfl
    · rw [List.length_cons] at hj
      rw [hkeeps j (by omega), Function.update_of_ne (by omega)]

theorem Holds.tail {c : α} (h : Holds b src (c :: l)) : Holds b (src + 1) l := fun i hi ↦ by
  rw [show src + 1 + i = src + (i + 1) by omega]
  exact h (i + 1) (Nat.succ_lt_succ hi)

theorem readList_spec (size : ℕ) (h : Holds b src l) (hfit : src + l.length ≤ size) :
    readList size l.length src b = some l := by
  induction l generalizing src with
  | nil => rfl
  | cons c l ih =>
    rw [List.length_cons] at hfit ⊢
    have hc : b src = c := h 0 (Nat.succ_pos _)
    rw [readList, if_pos (by omega), ih h.tail (by omega), hc]
    rfl

theorem holds_nil : Holds b src [] := fun _ hi ↦ absurd hi (Nat.not_lt_zero _)

theorem holds_append : Holds b src (l ++ m) ↔ Holds b src l ∧ Holds b (src + l.length) m := by
  constructor
  · intro h
    refine ⟨fun i hi ↦ ?_, fun i hi ↦ ?_⟩
    · rw [h i (by rw [List.length_append]; omega), List.getElem_append_left hi]
    · rw [Nat.add_assoc, h (l.length + i) (by rw [List.length_append]; omega),
        List.getElem_append_right (Nat.le_add_right _ _)]
      simp only [Nat.add_sub_cancel_left]
  · rintro ⟨h₁, h₂⟩ i hi
    rw [List.length_append] at hi
    rcases Nat.lt_or_ge i l.length with hl | hl
    · rw [List.getElem_append_left hl, h₁ i hl]
    · rw [List.getElem_append_right hl, ← h₂ (i - l.length) (by omega),
        show src + l.length + (i - l.length) = src + i by omega]

theorem holds_singleton {c : α} : Holds b src [c] ↔ b src = c := by
  constructor
  · exact fun h ↦ h 0 Nat.one_pos
  · intro h i hi
    obtain rfl : i = 0 := Nat.lt_one_iff.1 hi
    exact h

theorem Holds.moved (h : Holds b src l) (hc : ∀ i < l.length, b' (dst + i) = b (src + i)) :
    Holds b' dst l :=
  fun i hi ↦ (hc i hi).trans (h i hi)

theorem Holds.kept (h : Holds b src l) (hk : Keeps b b' dst n)
    (hout : src + l.length ≤ dst ∨ dst + n ≤ src) : Holds b' src l :=
  fun i hi ↦ (hk _ (by omega)).trans (h i hi)

theorem copyUp_holds (size : ℕ) (hl : Holds b 0 l) (hm : Holds b src m) (hle : l.length ≤ dst)
    (h : dst ≤ src) (hfit : src + m.length ≤ size) :
    ∃ b', copyUp size m.length src dst b = some b' ∧ Holds b' 0 l ∧ Holds b' dst m := by
  obtain ⟨b', hb, hmoved, hkeeps⟩ := copyUp_spec (b := b) h hfit
  exact ⟨b', hb, hl.kept hkeeps (by omega), hm.moved hmoved⟩

theorem copyDown_holds (size : ℕ) (hl : Holds b 0 l) (hm : Holds b src m) (hle : l.length ≤ src)
    (h : src ≤ dst) (hfit : dst + m.length ≤ size) :
    ∃ b', copyDown size m.length src dst b = some b' ∧ Holds b' 0 l ∧ Holds b' dst m := by
  obtain ⟨b', hb, hmoved, hkeeps⟩ := copyDown_spec (b := b) h hfit
  exact ⟨b', hb, hl.kept hkeeps (by omega), hm.moved hmoved⟩

end YabroOS.Lib
