import YabroOS.Lib.GrowArray
import Mathlib.Data.List.DropRight
import Mathlib.Data.List.Sort

namespace YabroOS.Lib

open Function

variable {α β : Type} {gt : α → α → Bool} {v x : α} {a : ℕ → α} {l l' : List α} {i j n : ℕ}

/-- The inner loop of an insertion sort: the elements that are greater move up, and `v` takes the
place that is left. -/
def sink (gt : α → α → Bool) (v : α) (a : ℕ → α) : ℕ → ℕ → α
  | 0 => update a 0 v
  | j + 1 => if gt (a j) v then sink gt v (update a (j + 1) (a j)) j else update a (j + 1) v

def insertSort (gt : α → α → Bool) (a : ℕ → α) : ℕ → ℕ → α
  | 0 => a
  | 1 => a
  | n + 2 => sink gt (insertSort gt a (n + 1) (n + 1)) (insertSort gt a (n + 1)) (n + 1)

def insertEnd (gt : α → α → Bool) (v : α) (l : List α) : List α :=
  l.rdropWhile (gt · v) ++ v :: l.rtakeWhile (gt · v)

theorem window_succ (a : ℕ → α) (n : ℕ) : window a (n + 1) = window a n ++ [a n] := by
  rw [window, List.range_succ, List.map_append]
  rfl

theorem window_congr {a b : ℕ → α} (h : ∀ i < n, a i = b i) : window a n = window b n :=
  List.map_congr_left (fun i hi ↦ h i (List.mem_range.1 hi))

theorem sink_of_lt (h : j < i) : sink gt v a j i = a i := by
  induction j generalizing a with
  | zero => exact update_of_ne (by omega) ..
  | succ j ih =>
    unfold sink
    split
    · rw [ih (by omega), update_of_ne (by omega)]
    · exact update_of_ne (by omega) ..

theorem window_sink (gt : α → α → Bool) (v : α) (a : ℕ → α) (j : ℕ) :
    window (sink gt v a j) (j + 1) = insertEnd gt v (window a j) := by
  induction j generalizing a with
  | zero => rfl
  | succ j ih =>
    rw [insertEnd, window_succ a j, List.rdropWhile_concat, List.rtakeWhile_concat, sink]
    split
    · have hsame : window (update a (j + 1) (a j)) j = window a j :=
        window_congr (fun i hi ↦ update_of_ne (by omega) ..)
      rw [window_succ _ (j + 1), ih, hsame, sink_of_lt (Nat.lt_succ_self j), update_self, insertEnd,
        List.append_assoc]
      rfl
    · have hsame : window (update a (j + 1) v) (j + 1) = window a (j + 1) :=
        window_congr (fun i hi ↦ update_of_ne (by omega) ..)
      rw [window_succ _ (j + 1), hsame, update_self, window_succ a j]

variable [LinearOrder β] {key : α → β}

/-- The elements of a list in the order of their keys, those with the same key in the order of the
list. -/
structure StableSort (key : α → β) (l l' : List α) : Prop where
  sorted : l'.Pairwise (fun x y ↦ key x ≤ key y)
  stable : ∀ k, l'.filter (fun x ↦ key x = k) = l.filter (fun x ↦ key x = k)

def Compares (gt : α → α → Bool) (key : α → β) : Prop := ∀ x y, gt x y = true ↔ key y < key x

namespace StableSort

theorem perm [DecidableEq α] (h : StableSort key l l') : l'.Perm l := by
  refine List.perm_iff_count.2 (fun x ↦ ?_)
  have hcount : ∀ l : List α, (l.filter (fun y ↦ key y = key x)).count x = l.count x :=
    fun l ↦ List.count_filter (decide_eq_true rfl)
  rw [← hcount l', h.stable, hcount]

/-- In a sorted list the elements that are not greater than `v` are those before the last such one.
-/
theorem le_of_mem_rdropWhile (hgt : Compares gt key) (hl : l.Pairwise (fun x y ↦ key x ≤ key y))
    (hx : x ∈ l.rdropWhile (gt · v)) : key x ≤ key v := by
  have hne : l.rdropWhile (gt · v) ≠ [] := List.ne_nil_of_mem hx
  have hlast : key ((l.rdropWhile (gt · v)).getLast hne) ≤ key v :=
    not_lt.1 (mt (hgt _ _).2 (List.rdropWhile_last_not _ _ hne))
  have hsorted := hl.sublist (List.rdropWhile_prefix (gt · v) l).sublist
  rw [← List.dropLast_append_getLast hne] at hsorted hx
  rcases List.mem_append.1 hx with hx | hx
  · exact ((List.pairwise_append.1 hsorted).2.2 x hx _ (List.mem_singleton_self _)).trans hlast
  · rw [List.mem_singleton.1 hx]
    exact hlast

theorem insertEnd (hgt : Compares gt key) (h : StableSort key l l') (v : α) :
    StableSort key (l ++ [v]) (insertEnd gt v l') := by
  have hgreater : ∀ x ∈ l'.rtakeWhile (gt · v), key v < key x := by
    intro x hx
    have hv : gt x v = true := List.mem_rtakeWhile_imp (p := (gt · v)) hx
    exact (hgt x v).1 hv
  have hsplit : l'.rdropWhile (gt · v) ++ l'.rtakeWhile (gt · v) = l' :=
    List.rdropWhile_append_rtakeWhile
  have hsorted := h.sorted
  rw [← hsplit] at hsorted
  obtain ⟨hbefore, hafter, hcross⟩ := List.pairwise_append.1 hsorted
  refine ⟨?_, fun k ↦ ?_⟩
  · refine List.pairwise_append.2
      ⟨hbefore, List.pairwise_cons.2 ⟨fun x hx ↦ (hgreater x hx).le, hafter⟩, ?_⟩
    intro x hx y hy
    rcases List.mem_cons.1 hy with rfl | hy
    · exact le_of_mem_rdropWhile hgt h.sorted hx
    · exact hcross x hx y hy
  · have hstable := h.stable k
    rw [← hsplit, List.filter_append] at hstable
    rw [Lib.insertEnd, List.filter_append, List.filter_cons, List.filter_append, ← hstable,
      List.filter_cons]
    by_cases hk : key v = k
    · -- the elements after `v` have other keys
      have hnone : (l'.rtakeWhile (gt · v)).filter (fun x ↦ key x = k) = [] := by
        refine List.filter_eq_nil_iff.2 (fun x hx ↦ ?_)
        rw [decide_eq_true_eq]
        exact fun he ↦ (hgreater x hx).ne (hk.trans he.symm)
      rw [hnone, List.append_nil]
      rfl
    · rw [if_neg (by rwa [decide_eq_true_eq]), if_neg (by rwa [decide_eq_true_eq]), List.filter_nil,
        List.append_nil]

end StableSort

theorem insertSort_of_le (h : n ≤ i) : insertSort gt a n i = a i := by
  induction n using Nat.strong_induction_on with
  | _ n ih =>
    match n with
    | 0 => rfl
    | 1 => rfl
    | n + 2 => rw [insertSort, sink_of_lt (by omega), ih (n + 1) (by omega) (by omega)]

theorem stableSort_insertSort (hgt : Compares gt key) (a : ℕ → α) :
    ∀ n, StableSort key (window a n) (window (insertSort gt a n) n)
  | 0 => ⟨.nil, fun _ ↦ rfl⟩
  | 1 => ⟨List.pairwise_singleton _ _, fun _ ↦ rfl⟩
  | n + 2 => by
    rw [insertSort, window_sink, insertSort_of_le le_rfl, window_succ a (n + 1)]
    exact (stableSort_insertSort hgt a (n + 1)).insertEnd hgt _

end YabroOS.Lib
