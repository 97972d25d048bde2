import Mathlib.Data.List.Basic
import Mathlib.Logic.Function.Basic

namespace YabroOS.Lib

open Function

inductive MapOp (κ ν : Type)
  | set (k : κ) (v : ν) (overwrite : Bool)
  | unset (k : κ)

section Map

variable {κ ν : Type} [DecidableEq κ]

def mapAfter (f : κ → Option ν) : MapOp κ ν → κ → Option ν
  | .set k v overwrite => if overwrite ∨ f k = none then update f k (some v) else f
  | .unset k => update f k none

/-- The lookups go from `f` to `f'` as a map's do: by what is asked where the operation succeeds,
else not at all. -/
def FollowsMap (f f' : κ → Option ν) (asked : Option (MapOp κ ν)) (ok : Bool) : Prop :=
  if ok then ∃ op, asked = some op ∧ f' = mapAfter f op else f' = f

end Map

variable {α κ : Type} [DecidableEq κ] (key : α → κ)

def entriesOf (l : List α) (k : κ) : List α := l.filter (key · = k)

def putEntry (l : List α) (k : κ) (a : α) : List α :=
  match l.findIdx? (key · = k) with
  | some i => l.set i a
  | none => l ++ [a]

def dropEntry (l : List α) (k : κ) : List α :=
  match l.findIdx? (key · = k) with
  | some i => l.eraseIdx i
  | none => l

variable {l : List α} {k k' : κ} {a b : α}

theorem findIdx?_cases (l : List α) (k : κ) :
    l.findIdx? (key · = k) = none ∧ entriesOf key l k = [] ∨
      ∃ l₁ a l₂, l = l₁ ++ a :: l₂ ∧ key a = k ∧ entriesOf key l₁ k = [] ∧
        l.findIdx? (key · = k) = some l₁.length := by
  induction l with
  | nil => exact .inl ⟨rfl, rfl⟩
  | cons b l ih =>
    by_cases hb : key b = k
    · exact .inr ⟨[], b, l, rfl, hb, rfl,
        by rw [List.findIdx?_cons, if_pos (decide_eq_true hb)]; rfl⟩
    · have hfind : (b :: l).findIdx? (key · = k) = (l.findIdx? (key · = k)).map (· + 1) := by
        rw [List.findIdx?_cons, if_neg (by rwa [decide_eq_true_eq])]
      have hfilter (l : List α) : entriesOf key (b :: l) k = entriesOf key l k :=
        List.filter_cons_of_neg (by rwa [decide_eq_true_eq])
      rcases ih with ⟨hnone, hempty⟩ | ⟨l₁, a, l₂, rfl, ha, hl₁, hsome⟩
      · exact .inl ⟨by rw [hfind, hnone]; rfl, by rw [hfilter, hempty]⟩
      · exact .inr ⟨b :: l₁, a, l₂, rfl, ha, by rw [hfilter, hl₁], by rw [hfind, hsome]; rfl⟩

theorem entriesOf_append (l₁ l₂ : List α) :
    entriesOf key (l₁ ++ l₂) k = entriesOf key l₁ k ++ entriesOf key l₂ k :=
  List.filter_append _ _

theorem entriesOf_cons_self (ha : key a = k) : entriesOf key (a :: l) k = a :: entriesOf key l k :=
  List.filter_cons_of_pos (decide_eq_true ha)

theorem entriesOf_cons_ne (ha : key a ≠ k) : entriesOf key (a :: l) k = entriesOf key l k :=
  List.filter_cons_of_neg (by rwa [decide_eq_true_eq])

theorem entriesOf_put_self (ha : key a = k) :
    entriesOf key (putEntry key l k a) k = a :: (entriesOf key l k).tail := by
  rcases findIdx?_cases key l k with ⟨hnone, hempty⟩ | ⟨l₁, b, l₂, rfl, hb, hl₁, hsome⟩
  · rw [putEntry, hnone, entriesOf_append, hempty, entriesOf_cons_self key ha]
    rfl
  · rw [putEntry, hsome]
    dsimp only
    rw [List.set_append_right _ _ (Nat.le_refl _), Nat.sub_self, List.set_cons_zero,
      entriesOf_append, entriesOf_append, hl₁,
      entriesOf_cons_self key ha, entriesOf_cons_self key hb]
    rfl

theorem entriesOf_put_ne (ha : key a = k) (hk : k' ≠ k) :
    entriesOf key (putEntry key l k a) k' = entriesOf key l k' := by
  have ha' : key a ≠ k' := fun h ↦ hk (h.symm.trans ha)
  rcases findIdx?_cases key l k with ⟨hnone, hempty⟩ | ⟨l₁, b, l₂, rfl, hb, hl₁, hsome⟩
  · rw [putEntry, hnone, entriesOf_append, entriesOf_cons_ne key ha']
    exact List.append_nil _
  · have hb' : key b ≠ k' := fun h ↦ hk (h.symm.trans hb)
    rw [putEntry, hsome]
    dsimp only
    rw [List.set_append_right _ _ (Nat.le_refl _), Nat.sub_self, List.set_cons_zero,
      entriesOf_append, entriesOf_append,
      entriesOf_cons_ne key ha', entriesOf_cons_ne key hb']

theorem entriesOf_drop_self : entriesOf key (dropEntry key l k) k = (entriesOf key l k).tail := by
  rcases findIdx?_cases key l k with ⟨hnone, hempty⟩ | ⟨l₁, b, l₂, rfl, hb, hl₁, hsome⟩
  · rw [dropEntry, hnone]
    dsimp only
    rw [hempty]
    rfl
  · rw [dropEntry, hsome]
    dsimp only
    rw [List.eraseIdx_append_of_length_le (Nat.le_refl _), Nat.sub_self, List.eraseIdx_cons_zero,
      entriesOf_append, entriesOf_append,
      hl₁, entriesOf_cons_self key hb]
    rfl

theorem entriesOf_drop_ne (hk : k' ≠ k) :
    entriesOf key (dropEntry key l k) k' = entriesOf key l k' := by
  rcases findIdx?_cases key l k with ⟨hnone, hempty⟩ | ⟨l₁, b, l₂, rfl, hb, hl₁, hsome⟩
  · rw [dropEntry, hnone]
  · have hb' : key b ≠ k' := fun h ↦ hk (h.symm.trans hb)
    rw [dropEntry, hsome]
    dsimp only
    rw [List.eraseIdx_append_of_length_le (Nat.le_refl _), Nat.sub_self, List.eraseIdx_cons_zero,
      entriesOf_append, entriesOf_append,
      entriesOf_cons_ne key hb']

theorem mem_entriesOf : a ∈ entriesOf key l k ↔ a ∈ l ∧ key a = k := by
  rw [entriesOf, List.mem_filter, decide_eq_true_eq]

theorem mem_putEntry (h : b ∈ putEntry key l k a) : b ∈ l ∨ b = a := by
  unfold putEntry at h
  split at h
  · exact List.mem_or_eq_of_mem_set h
  · rcases List.mem_append.1 h with h | h
    · exact .inl h
    · exact .inr (List.mem_singleton.1 h)

theorem mem_dropEntry (h : b ∈ dropEntry key l k) : b ∈ l := by
  unfold dropEntry at h
  split at h
  · exact List.mem_of_mem_eraseIdx h
  · exact h

theorem entriesOf_le_one_put (ha : key a = k) (h : ∀ k', (entriesOf key l k').length ≤ 1) (k' : κ) :
    (entriesOf key (putEntry key l k a) k').length ≤ 1 := by
  by_cases hk : k' = k
  · rw [hk, entriesOf_put_self key ha, List.length_cons, List.length_tail]
    have := h k
    omega
  · rw [entriesOf_put_ne key ha hk]
    exact h k'

end YabroOS.Lib
