import Mathlib.Data.List.Nodup
import Mathlib.Logic.Function.Basic

namespace YabroOS.Lib

open Function

variable {α ι : Type}

/-- Settings that lines can be about, each with the line that is to stand for it. -/
structure Settings (α ι : Type) where
  about : α → Option ι
  line : ι → α
  all : List ι

namespace Settings

variable [DecidableEq ι] (S : Settings α ι)

/-- Lines with the line of each setting put in the place of the first that is about it, unless it is
done, or at the end; `true` is with what was there before. -/
@[grind =]
def settle (done : ι → Bool) : List α → List (α × Bool)
  | [] => (S.all.filter (!done ·)).map fun i ↦ (S.line i, false)
  | a :: l =>
    match S.about a with
    | none => (a, true) :: settle done l
    | some i => (if done i then [] else [(S.line i, false)]) ++ settle (update done i true) l

def settled (done : ι → Bool) (l : List α) : List α := (S.settle done l).map Prod.fst

structure Lawful : Prop where
  about_line : ∀ i, S.about (S.line i) = some i
  mem_all : ∀ i, i ∈ S.all
  nodup : S.all.Nodup

variable {S} {done : ι → Bool} {a : α} {l : List α} {i : ι}

theorem settled_nil (done : ι → Bool) :
    S.settled done [] = (S.all.filter (!done ·)).map S.line := by
  rw [settled, settle, List.map_map]
  rfl

theorem settled_cons_none (h : S.about a = none) :
    S.settled done (a :: l) = a :: S.settled done l := by
  rw [settled, settle, h]
  rfl

theorem settled_cons_some (h : S.about a = some i) :
    S.settled done
    (a :: l) = (if done i then [] else [S.line i]) ++ S.settled (update done i true) l := by
  rw [settled, settle, h]
  dsimp only
  rw [List.map_append]
  split_ifs <;> rfl

theorem settle_kept (done : ι → Bool) (l : List α) :
    ((S.settle done l).filter Prod.snd).map Prod.fst = l.filter fun a ↦ (S.about a).isNone := by
  induction l generalizing done with
  | nil =>
    have hnone : ((S.all.filter (!done ·)).map fun i ↦ (S.line i, false)).filter Prod.snd = [] := by
      refine List.filter_eq_nil_iff.2 fun p hp ↦ ?_
      obtain ⟨i, -, rfl⟩ := List.mem_map.1 hp
      exact Bool.false_ne_true
    rw [settle, hnone]
    rfl
  | cons a l ih =>
    rw [settle]
    cases ha : S.about a with
    | none =>
      have hkeep : (S.about a).isNone = true := by rw [ha]; rfl
      rw [List.filter_cons_of_pos (p := fun a ↦ (S.about a).isNone) hkeep,
        List.filter_cons_of_pos (p := Prod.snd) rfl, List.map_cons, ih]
    | some i =>
      have hnone : (if done i then [] else [(S.line i, false)]).filter Prod.snd = [] := by
        split_ifs <;> rfl
      dsimp only
      rw [List.filter_append, hnone, List.nil_append, ih,
        List.filter_cons_of_neg (by rw [ha]; exact Bool.false_ne_true)]

theorem settle_added {p : α × Bool} (hp : p ∈ S.settle done l) (h : p.2 = false) :
    ∃ i, p.1 = S.line i := by
  induction l generalizing done with
  | nil =>
    obtain ⟨i, -, rfl⟩ := List.mem_map.1 hp
    exact ⟨i, rfl⟩
  | cons a l ih =>
    rw [settle] at hp
    cases ha : S.about a with
    | none =>
      rw [ha] at hp
      rcases List.mem_cons.1 hp with rfl | hp
      · cases h
      · exact ih hp
    | some i =>
      rw [ha] at hp
      rcases List.mem_append.1 hp with hp | hp
      · split_ifs at hp
        · exact absurd hp List.not_mem_nil
        · exact ⟨i, by rw [List.mem_singleton.1 hp]⟩
      · exact ih hp

theorem mem_settled (h : a ∈ S.settled done l) : a ∈ l ∨ ∃ i, a = S.line i := by
  obtain ⟨p, hp, rfl⟩ := List.mem_map.1 h
  cases hmark : p.2 with
  | false => exact .inr (settle_added hp hmark)
  | true =>
    have hkept : p.1 ∈ ((S.settle done l).filter Prod.snd).map Prod.fst :=
      List.mem_map_of_mem (List.mem_filter.2 ⟨hp, hmark⟩)
    rw [settle_kept] at hkept
    exact .inl (List.mem_filter.1 hkept).1

theorem filter_settled (h : S.Lawful) (done : ι → Bool) (l : List α) (i : ι) :
    (S.settled done l).filter (fun a ↦ S.about a = some i) = if done i then [] else [S.line i] := by
  unfold settled
  induction l generalizing done with
  | nil =>
    have hmap : ((S.all.filter (!done ·)).map fun i ↦ (S.line i, false)).map Prod.fst =
        (S.all.filter (!done ·)).map S.line := by
      rw [List.map_map]
      rfl
    rw [settle, hmap, List.filter_map]
    have hcomp : ((fun a ↦ decide (S.about a = some i)) ∘ S.line) = fun j ↦ decide (j = i) := by
      funext j
      refine decide_eq_decide.2 ?_
      rw [h.about_line j]
      exact Option.some_inj
    rw [hcomp, List.filter_filter]
    split_ifs with hdone
    · have hnone : S.all.filter (fun j ↦ decide (j = i) && !done j) = [] := by
        refine List.filter_eq_nil_iff.2 fun j _ hj ↦ ?_
        rw [Bool.and_eq_true, decide_eq_true_eq] at hj
        rw [hj.1, hdone] at hj
        exact Bool.noConfusion hj.2
      rw [hnone]
      rfl
    · have hone : S.all.filter (fun j ↦ decide (j = i) && !done j) =
          S.all.filter (fun j ↦ decide (j = i)) := by
        refine List.filter_congr fun j _ ↦ ?_
        by_cases hj : j = i
        · rw [hj, Bool.eq_false_iff.2 hdone, Bool.not_false, Bool.and_true]
        · rw [decide_eq_false hj, Bool.false_and]
      rw [hone, List.filter_eq, List.count_eq_one_of_mem h.nodup (h.mem_all i)]
      rfl
  | cons a l ih =>
    rw [settle]
    cases ha : S.about a with
    | none =>
      dsimp only
      rw [List.map_cons, List.filter_cons_of_neg (by rw [decide_eq_true_eq, ha]; exact nofun), ih]
    | some j =>
      dsimp only
      rw [List.map_append, List.filter_append, ih]
      by_cases hj : j = i
      · rw [hj, update_self, if_pos rfl, List.append_nil]
        split_ifs
        · rfl
        · exact List.filter_cons_of_pos (decide_eq_true (h.about_line i))
      · have hother : ((if done j then [] else [(S.line j, false)]).map Prod.fst).filter
            (fun a ↦ S.about a = some i) = [] := by
          split_ifs
          · rfl
          · refine List.filter_cons_of_neg ?_
            rw [decide_eq_true_eq, h.about_line j]
            exact fun hji ↦ hj (Option.some.inj hji)
        rw [update_of_ne (Ne.symm hj), hother, List.nil_append]

theorem settled_of_filter
    (h : ∀ i, l.filter (fun a ↦ S.about a = some i) = if done i then [] else [S.line i]) :
    S.settled done l = l := by
  unfold settled
  induction l generalizing done with
  | nil =>
    have hdone : ∀ i, done i = true := by
      intro i
      by_contra hi
      have hline := h i
      rw [if_neg hi] at hline
      cases hline
    have hnone : S.all.filter (!done ·) = [] := List.filter_eq_nil_iff.2 fun i _ ↦ by
      rw [hdone]; exact Bool.false_ne_true
    rw [settle, hnone]
    rfl
  | cons a l ih =>
    rw [settle]
    cases ha : S.about a with
    | none =>
      dsimp only
      rw [List.map_cons, ih fun i ↦ ?_]
      have hl := h i
      rwa [List.filter_cons_of_neg (by rw [decide_eq_true_eq, ha]; exact nofun)] at hl
    | some i =>
      have hi := h i
      rw [List.filter_cons_of_pos (p := fun a ↦ decide (S.about a = some i)) (decide_eq_true ha)]
        at hi
      have hdone : ¬done i = true := by
        intro hdone
        rw [if_pos hdone] at hi
        cases hi
      rw [if_neg hdone] at hi
      obtain ⟨hline, hrest⟩ := List.cons.inj hi
      dsimp only
      rw [if_neg hdone, List.map_append, ih fun j ↦ ?_, ← hline]
      · rfl
      · by_cases hj : j = i
        · rw [hj, hrest, update_self]
          rfl
        · have hl := h j
          rw [List.filter_cons_of_neg
            (by rw [decide_eq_true_eq, ha]; exact fun hij ↦ hj (Option.some.inj hij).symm)] at hl
          rw [hl, update_of_ne hj]

theorem settled_settled (h : S.Lawful) (done : ι → Bool) (l : List α) :
    S.settled done (S.settled done l) = S.settled done l :=
  settled_of_filter fun i ↦ filter_settled h done l i

end Settings

end YabroOS.Lib
