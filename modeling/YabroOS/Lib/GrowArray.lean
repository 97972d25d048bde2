import Mathlib.Algebra.Order.Group.Nat
import Mathlib.Data.List.Basic

namespace YabroOS.Lib

variable {α : Type} {z : α} {m : ℕ → α} {n n' off k cap : ℕ} {l src : List α}

def fill (z : α) (l : List α) (len : ℕ) : List α := l.take len ++ List.replicate (len - l.length) z

def splice (z : α) (l : List α) (off : ℕ) (src : List α) : List α :=
  fill z l off ++ src ++ l.drop (off + src.length)

theorem length_fill : (fill z l n).length = n := by
  simp only [fill, List.length_append, List.length_take, List.length_replicate]
  omega

theorem length_splice : (splice z l off src).length = max l.length (off + src.length) := by
  simp only [splice, List.length_append, length_fill, List.length_drop]
  omega

theorem getElem?_fill : (fill z l n)[k]? = if k < n then some (l[k]?.getD z) else none := by
  unfold fill
  rw [List.getElem?_append, List.length_take, List.getElem?_replicate]
  by_cases hkl : k < l.length
  · rw [List.getElem?_eq_getElem hkl, Option.getD_some]
    by_cases hk : k < n
    · rw [if_pos (lt_min hk hkl), if_pos hk, List.getElem?_take_of_lt hk,
        List.getElem?_eq_getElem hkl]
    · rw [if_neg (by omega), if_neg (by omega), if_neg hk]
  · rw [List.getElem?_eq_none (not_lt.1 hkl), Option.getD_none, if_neg (by omega)]
    exact if_congr (by omega) rfl rfl

theorem getElem?_splice : (splice z l off src)[k]? =
    if k < off then some (l[k]?.getD z) else if k < off + src.length then src[k - off]?
      else l[k]? := by
  unfold splice
  rw [List.getElem?_append, List.getElem?_append, List.length_append, length_fill, getElem?_fill,
    List.getElem?_drop]
  by_cases hk : k < off
  · rw [if_pos (by omega), if_pos hk, if_pos hk, if_pos hk]
  · rw [if_neg hk, if_neg hk]
    refine if_ctx_congr Iff.rfl (fun _ ↦ rfl) (fun hin ↦ congrArg _ ?_)
    omega

def window (m : ℕ → α) (n : ℕ) : List α := (List.range n).map m

def put (m : ℕ → α) (off : ℕ) (src : List α) : ℕ → α :=
  fun k ↦ if k < off then m k else (src[k - off]?).getD (m k)

theorem length_window : (window m n).length = n := by
  rw [window, List.length_map, List.length_range]

theorem getElem?_window : (window m n)[k]? = if k < n then some (m k) else none := by
  unfold window
  rw [List.getElem?_map]
  split_ifs with hk
  · rw [List.getElem?_range hk, Option.map_some]
  · rw [List.getElem?_eq_none (by simpa using hk), Option.map_none]

theorem getElem?_window_put : (window (put m off src) (max n (off + src.length)))[k]? =
    if k < off then if k < max n (off + src.length) then some (m k) else none
    else if k < off + src.length then src[k - off]? else (window m n)[k]? := by
  rw [getElem?_window, getElem?_window]
  unfold put
  by_cases hk : k < off
  · rw [if_pos hk, if_pos hk]
  rw [if_neg hk, if_neg hk]
  by_cases hin : k < off + src.length
  · rw [if_pos (lt_max_of_lt_right hin), if_pos hin, List.getElem?_eq_getElem (by omega),
      Option.getD_some]
  · rw [if_neg hin, List.getElem?_eq_none (by omega), Option.getD_none]
    exact if_congr (by omega) rfl rfl

theorem window_put_end (h : src.length ≤ k) :
    window (put m n src)
    (n + k) = window m n ++ (src ++ (window m (n + k)).drop (n + src.length)) := by
  refine List.ext_getElem? (fun i ↦ ?_)
  rw [getElem?_window, List.getElem?_append, length_window, List.getElem?_append,
    List.getElem?_drop, getElem?_window, getElem?_window]
  unfold put
  by_cases hi : i < n
  · rw [if_pos (by omega), if_pos hi, if_pos hi, if_pos hi]
  rw [if_neg hi, if_neg hi]
  by_cases hsrc : i - n < src.length
  · rw [if_pos (by omega), if_pos hsrc, List.getElem?_eq_getElem hsrc, Option.getD_some]
  · have hindex : n + src.length + (i - n - src.length) = i := by omega
    rw [if_neg hsrc, List.getElem?_eq_none (not_lt.1 hsrc), Option.getD_none, hindex]

theorem window_put :
    window (put m off src) (max n (off + src.length)) = splice z (window m n) off src ↔
    ∀ k, n ≤ k → k < off → m k = z := by
  constructor
  · intro h k hnk hk
    have hget := congrArg (·[k]?) h
    rw [getElem?_window_put, getElem?_splice, if_pos hk, if_pos hk, if_pos (by omega),
      getElem?_window, if_neg (by omega)] at hget
    exact Option.some.inj hget
  · intro h
    refine List.ext_getElem? (fun k ↦ ?_)
    rw [getElem?_window_put, getElem?_splice]
    refine if_ctx_congr Iff.rfl (fun hk ↦ ?_) (fun _ ↦ rfl)
    rw [if_pos (by omega), getElem?_window]
    by_cases hkn : k < n
    · rw [if_pos hkn, Option.getD_some]
    · rw [if_neg hkn, Option.getD_none, h k (not_lt.1 hkn) hk]

theorem window_fill : window (put m n (List.replicate (n' - n) z)) n' = fill z (window m n) n' := by
  refine List.ext_getElem? (fun k ↦ ?_)
  rw [getElem?_fill, getElem?_window, getElem?_window]
  refine if_ctx_congr Iff.rfl (fun hk ↦ congrArg _ ?_) (fun _ ↦ rfl)
  unfold put
  by_cases hkn : k < n
  · rw [if_pos hkn, if_pos hkn, Option.getD_some]
  · rw [if_neg hkn, if_neg hkn, List.getElem?_replicate, if_pos (by omega), Option.getD_some,
      Option.getD_none]

theorem window_put_zero : window (put m 0 src) src.length = src := by
  refine List.ext_getElem? (fun k ↦ ?_)
  rw [getElem?_window]
  split_ifs with hk
  · rw [put, if_neg (Nat.not_lt_zero k), Nat.sub_zero, List.getElem?_eq_getElem hk, Option.getD_some]
  · exact (List.getElem?_eq_none (not_lt.1 hk)).symm

/-- A list that grows up to a capacity. -/
structure GrowArray (α : Type) (cap : ℕ) where
  list : List α
  short : list.length ≤ cap

inductive GrowOp (α : Type)
  | write (off : ℕ) (src : List α)
  | resize (len : ℕ)
  | replace (src : List α)
  | clear

namespace GrowArray

/-- An operation, with the number of elements written or `none` for an error. -/
def step (z : α) (a : GrowArray α cap) : GrowOp α → GrowArray α cap × Option ℕ
  | .write off src =>
    if h : off < cap then
      (⟨splice z a.list off (src.take (cap - off)), by
        have := a.short
        rw [length_splice, List.length_take]
        omega⟩, some (min (cap - off) src.length))
    else (a, none)
  | .resize len =>
    if h : len ≤ cap then (⟨fill z a.list len, length_fill.trans_le h⟩, some 0) else (a, none)
  | .replace src => if h : src.length ≤ cap then (⟨src, h⟩, some 0) else (a, none)
  | .clear => (⟨[], Nat.zero_le cap⟩, some 0)

def run (z : α) (a : GrowArray α cap) : List (GrowOp α) → GrowArray α cap × List (Option ℕ)
  | [] => (a, [])
  | op :: ops => (((a.step z op).1.run z ops).1, (a.step z op).2 :: ((a.step z op).1.run z ops).2)

end GrowArray

end YabroOS.Lib
