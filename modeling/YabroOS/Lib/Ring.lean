import Mathlib.Data.List.Basic
import Mathlib.Data.Nat.ModEq
import Mathlib.Logic.Function.Basic

namespace YabroOS.Lib

open Function

variable {α : Type}

/-- A circular buffer: the elements lie from `rpos` on, modulo the capacity. -/
structure RingBuffer (α : Type) where
  data : ℕ → α
  rpos : ℕ
  wpos : ℕ
  count : ℕ

namespace RingBuffer

def push (cap : ℕ) (r : RingBuffer α) (x : α) : RingBuffer α :=
  { r with data := update r.data r.wpos x, wpos := (r.wpos + 1) % cap, count := r.count + 1 }

def pop (cap : ℕ) (r : RingBuffer α) : α × RingBuffer α :=
  (r.data r.rpos, { r with rpos := (r.rpos + 1) % cap, count := r.count - 1 })

def pushAll (cap : ℕ) (r : RingBuffer α) (l : List α) : RingBuffer α := l.foldl (push cap) r

def popN (cap : ℕ) : ℕ → RingBuffer α → List α × RingBuffer α
  | 0, r => ([], r)
  | n + 1, r => ((r.pop cap).1 :: (popN cap n (r.pop cap).2).1, (popN cap n (r.pop cap).2).2)

def toList (cap : ℕ) (r : RingBuffer α) : List α :=
  (List.range r.count).map (fun i ↦ r.data ((r.rpos + i) % cap))

/-- The ring holds exactly the list. -/
structure Holds (cap : ℕ) (r : RingBuffer α) (l : List α) : Prop where
  count : r.count = l.length
  count_le : r.count ≤ cap
  rpos : r.rpos < cap
  wpos : r.wpos = (r.rpos + r.count) % cap
  data : ∀ i, (h : i < l.length) → r.data ((r.rpos + i) % cap) = l[i]

variable {cap : ℕ} {r : RingBuffer α} {l m : List α} {x : α}

theorem Holds.toList (h : Holds cap r l) : r.toList cap = l := by
  refine List.ext_getElem ?_ (fun i hi hl ↦ ?_)
  · simp [RingBuffer.toList, h.count]
  · simp only [RingBuffer.toList, List.getElem_map, List.getElem_range]
    exact h.data i hl

theorem holds_empty (hcap : 0 < cap) (data : ℕ → α) : Holds cap ⟨data, 0, 0, 0⟩ [] where
  count := rfl
  count_le := Nat.zero_le cap
  rpos := hcap
  wpos := by simp
  data i hi := absurd hi (Nat.not_lt_zero i)

theorem add_mod_ne {p i j : ℕ} (hi : i < cap) (hj : j < cap) (hne : i ≠ j) :
    (p + i) % cap ≠ (p + j) % cap := by
  intro h
  have hmod : i % cap = j % cap := Nat.ModEq.add_left_cancel' p h
  rw [Nat.mod_eq_of_lt hi, Nat.mod_eq_of_lt hj] at hmod
  exact hne hmod

theorem Holds.push (h : Holds cap r l) (hlt : l.length < cap) (x : α) :
    Holds cap (r.push cap x) (l ++ [x]) where
  count := by simp [RingBuffer.push, h.count]
  count_le := by
    have := h.count
    simp only [RingBuffer.push]
    omega
  rpos := h.rpos
  wpos := by
    simp only [RingBuffer.push, h.wpos]
    rw [Nat.mod_add_mod, Nat.add_assoc]
  data i hi := by
    simp only [RingBuffer.push, h.wpos, h.count]
    rw [List.length_append, List.length_singleton] at hi
    by_cases hil : i = l.length
    · subst hil
      rw [update_self, List.getElem_append_right (Nat.le_refl _)]
      simp
    · have hlt' : i < l.length := by omega
      rw [update_of_ne (add_mod_ne (by omega) hlt hil), List.getElem_append_left hlt']
      exact h.data i hlt'

theorem Holds.pop (h : Holds cap r (x :: l)) : (r.pop cap).1 = x ∧ Holds cap (r.pop cap).2 l := by
  have hcount := h.count
  rw [List.length_cons] at hcount
  refine ⟨?_, ?_, ?_, ?_, ?_, ?_⟩
  · have h₀ := h.data 0 (by simp)
    rw [Nat.add_zero, Nat.mod_eq_of_lt h.rpos] at h₀
    exact h₀
  · simp only [RingBuffer.pop]
    omega
  · have := h.count_le
    simp only [RingBuffer.pop]
    omega
  · exact Nat.mod_lt _ (Nat.zero_lt_of_lt h.rpos)
  · simp only [RingBuffer.pop, h.wpos]
    rw [Nat.mod_add_mod]
    congr 1
    omega
  · intro i hi
    have hd := h.data (i + 1) (by simpa using hi)
    rw [List.getElem_cons_succ] at hd
    simp only [RingBuffer.pop]
    rw [Nat.mod_add_mod, ← hd]
    congr 2
    omega

theorem Holds.pushAll (h : Holds cap r l) (hle : l.length + m.length ≤ cap) :
    Holds cap (r.pushAll cap m) (l ++ m) := by
  induction m generalizing r l with
  | nil =>
    rw [List.append_nil]
    exact h
  | cons x m ih =>
    rw [List.length_cons] at hle
    have h₁ := h.push (by omega) x
    have h₂ := ih h₁ (by rw [List.length_append, List.length_singleton]; omega)
    rwa [List.append_assoc, List.singleton_append] at h₂

theorem Holds.popN (h : Holds cap r (m ++ l)) :
    (popN cap m.length r).1 = m ∧ Holds cap (popN cap m.length r).2 l := by
  induction m generalizing r with
  | nil => exact ⟨rfl, h⟩
  | cons x m ih =>
    obtain ⟨hx, hr⟩ := Holds.pop h
    obtain ⟨hm, hl⟩ := ih hr
    refine ⟨?_, hl⟩
    simp only [List.length_cons, RingBuffer.popN]
    rw [hx, hm]

theorem Holds.popN_take (h : Holds cap r l) {n : ℕ} (hn : n ≤ l.length) :
    (RingBuffer.popN cap n r).1 = l.take n ∧ Holds cap (RingBuffer.popN cap n r).2 (l.drop n) := by
  have hlen : (l.take n).length = n := List.length_take_of_le hn
  have h' := Holds.popN (m := l.take n) (l := l.drop n) (by rwa [List.take_append_drop])
  rwa [hlen] at h'

end RingBuffer

end YabroOS.Lib
