import Mathlib.Data.List.Basic
import Mathlib.Data.List.Count
import Mathlib.Data.List.Nodup

namespace YabroOS.Lib

variable {α : Type} {l : List α} {x : α} {k : ℕ}

structure Cursor (α : Type) where
  list : List α
  pos : ℕ
  passed : List α

namespace Cursor

variable [DecidableEq α] {c : Cursor α}

def turn (c : Cursor α) (l : List α) : Cursor α := { c with list := l }

def go (c : Cursor α) (k : ℕ) : Cursor α :=
  { c with pos := k, passed := c.passed ++ (c.list.take k).drop c.pos }

def Once (c : Cursor α) (x : α) : Prop := c.passed.count x = if x ∈ c.list.take c.pos then 1 else 0

theorem Once.turn (h : c.Once x) (hiff : x ∈ c.list.take c.pos ↔ x ∈ l.take c.pos) :
    (c.turn l).Once x := by
  rw [Once, Cursor.turn]
  dsimp only
  rw [← if_congr hiff rfl rfl]
  exact h

theorem Once.go (h : c.Once x) (hl : c.list.Nodup) (hk : c.pos ≤ k) : (c.go k).Once x := by
  have htake : (c.list.take k).take c.pos = c.list.take c.pos := by
    rw [List.take_take, Nat.min_eq_left hk]
  have hsplit := congrArg (List.count x) (List.take_append_drop c.pos (c.list.take k))
  rw [List.count_append, htake] at hsplit
  have hcount : ∀ k, (c.list.take k).count x = if x ∈ c.list.take k then 1 else 0 :=
    fun k ↦ (hl.sublist (List.take_sublist k c.list)).count
  rw [Once] at h ⊢
  show (c.passed ++ (c.list.take k).drop c.pos).count x = if x ∈ c.list.take k then 1 else 0
  rw [List.count_append, h, ← hcount, ← hcount, hsplit]

end Cursor

end YabroOS.Lib
