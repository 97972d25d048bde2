import Mathlib.Data.List.Basic

namespace YabroOS.Lib

section Lines

variable {α : Type} [DecidableEq α] {sep : α} {s a : List α}

@[grind =]
def lines (sep : α) : List α → List (List α)
  | [] => []
  | c :: s =>
    if c = sep then [c] :: lines sep s
    else
      match lines sep s with
      | [] => [[c]]
      | l :: ls => (c :: l) :: ls

def dropLines (sep : α) : ℕ → List α → List α
  | 0, s => s
  | _ + 1, [] => []
  | n + 1, c :: s => if c = sep then dropLines sep n s else dropLines sep (n + 1) s

theorem lines_flatten (sep : α) (s : List α) : (lines sep s).flatten = s := by
  induction s with
  | nil => rfl
  | cons c s ih =>
    rw [lines]
    split_ifs
    · rw [List.flatten_cons, ih]
      rfl
    · cases hl : lines sep s with
      | nil =>
        rw [hl] at ih
        rw [← ih]
        rfl
      | cons l ls =>
        rw [hl] at ih
        rw [← ih]
        rfl

theorem lines_dropLines (sep : α) (n : ℕ) (s : List α) :
    lines sep (dropLines sep n s) = (lines sep s).drop n := by
  induction s generalizing n with
  | nil =>
    cases n with
    | zero => rfl
    | succ n => rfl
  | cons c s ih =>
    cases n with
    | zero => rfl
    | succ n =>
      rw [dropLines, lines]
      split_ifs
      · exact ih n
      · rw [ih (n + 1)]
        cases lines sep s with
        | nil =>
          show [] = List.drop n []
          rw [List.drop_nil]
        | cons l ls => rfl

theorem dropLines_eq (sep : α) (n : ℕ) (s : List α) :
    dropLines sep n s = ((lines sep s).drop n).flatten := by
  rw [← lines_dropLines, lines_flatten]

theorem dropLines_append (ha : a = [] ∨ a.getLast? = some sep) (b : List α) :
    dropLines sep (a.count sep) (a ++ b) = b := by
  induction a with
  | nil => rw [List.count_nil, dropLines, List.nil_append]
  | cons c a ih =>
    have hrest : a = [] ∨ a.getLast? = some sep := by
      rcases a with _ | ⟨d, a⟩
      · exact .inl rfl
      · rw [or_iff_right (List.cons_ne_nil _ _), List.getLast?_cons_cons] at ha
        exact .inr ha
    rw [List.count_cons, List.cons_append]
    by_cases hc : c = sep
    · rw [if_pos (beq_iff_eq.2 hc), dropLines, if_pos hc, ih hrest]
    · have hpos : 0 < a.count sep := by
        refine List.count_pos_iff.2 (List.mem_of_getLast? (hrest.resolve_left fun h ↦ ?_))
        rw [h] at ha
        exact hc (Option.some.inj (ha.resolve_left (List.cons_ne_nil _ _)))
      obtain ⟨n, hn⟩ := Nat.exists_eq_add_of_lt hpos
      have hdrop := ih hrest
      rw [if_neg (by simpa using hc), Nat.add_zero]
      rw [hn] at hdrop ⊢
      rw [dropLines, if_neg hc, hdrop]

theorem exists_dropLines {n : ℕ} (h : n ≤ s.count sep) :
    ∃ a, s = a ++ dropLines sep n s ∧ a.count sep = n ∧ (a = [] ∨ a.getLast? = some sep) := by
  induction s generalizing n with
  | nil =>
    obtain rfl := Nat.le_zero.1 h
    exact ⟨[], rfl, rfl, .inl rfl⟩
  | cons c s ih =>
    rcases n with _ | n
    · exact ⟨[], rfl, rfl, .inl rfl⟩
    · rw [dropLines]
      by_cases hc : c = sep
      · rw [hc, List.count_cons_self] at h
        obtain ⟨a, hs, ha, hlast⟩ := ih (Nat.le_of_succ_le_succ h)
        rw [if_pos hc]
        refine ⟨c :: a, congrArg _ hs, by rw [hc, List.count_cons_self, ha], .inr ?_⟩
        rcases hlast with rfl | hlast
        · rw [hc, List.getLast?_singleton]
        · rw [List.getLast?_cons, hlast, Option.getD_some]
      · rw [List.count_cons_of_ne hc] at h
        obtain ⟨a, hs, ha, hlast⟩ := ih h
        rw [if_neg hc]
        refine ⟨c :: a, congrArg _ hs, by rw [List.count_cons_of_ne hc, ha], .inr ?_⟩
        rcases hlast with rfl | hlast
        · cases ha
        · rw [List.getLast?_cons, hlast, Option.getD_some]

theorem lines_append_sep (ha : sep ∉ a) (b : List α) :
    lines sep (a ++ sep :: b) = (a ++ [sep]) :: lines sep b := by
  induction a with
  | nil => rw [List.nil_append, lines, if_pos rfl, List.nil_append]
  | cons c a ih =>
    rw [List.mem_cons, not_or] at ha
    rw [List.cons_append, lines, if_neg (Ne.symm ha.1), ih ha.2]
    rfl

theorem lines_eq_singleton (hs : sep ∉ s) (hne : s ≠ []) : lines sep s = [s] := by
  induction s with
  | nil => exact absurd rfl hne
  | cons c s ih =>
    rw [List.mem_cons, not_or] at hs
    rw [lines, if_neg (Ne.symm hs.1)]
    rcases eq_or_ne s [] with rfl | h
    · rfl
    · rw [ih hs.2 h]

theorem lines_cons_ne_nil (c : α) (s : List α) : lines sep (c :: s) ≠ [] := fun h ↦ by
  have hflat := lines_flatten sep (c :: s)
  rw [h] at hflat
  cases hflat

theorem lines_append (ha : a = [] ∨ a.getLast? = some sep) (b : List α) :
    lines sep (a ++ b) = lines sep a ++ lines sep b := by
  induction a with
  | nil => rfl
  | cons c a ih =>
    rcases a with _ | ⟨d, a⟩
    · have hc : c = sep := Option.some.inj (ha.resolve_left (List.cons_ne_nil _ _))
      rw [List.singleton_append, lines, if_pos hc, lines, if_pos hc]
      rfl
    · rw [or_iff_right (List.cons_ne_nil _ _), List.getLast?_cons_cons] at ha
      rw [List.cons_append, lines, lines, ih (.inr ha)]
      split_ifs
      · rfl
      · obtain ⟨l, ls, hl⟩ := List.exists_cons_of_ne_nil (@lines_cons_ne_nil α _ sep d a)
        rw [hl]
        rfl

theorem lines_append_open (ha : sep ∉ a) (c : α) (b : List α) :
    ∃ l ls, lines sep (c :: b) = (c :: l) :: ls ∧ lines sep (a ++ c :: b) = (a ++ c :: l) :: ls := by
  induction a with
  | nil =>
    rw [lines, List.nil_append, lines]
    split_ifs
    · exact ⟨[], lines sep b, rfl, rfl⟩
    · rcases lines sep b with _ | ⟨l, ls⟩
      · exact ⟨[], [], rfl, rfl⟩
      · exact ⟨l, ls, rfl, rfl⟩
  | cons d a ih =>
    rw [List.mem_cons, not_or] at ha
    obtain ⟨l, ls, h₁, h₂⟩ := ih ha.2
    refine ⟨l, ls, h₁, ?_⟩
    rw [List.cons_append, lines, if_neg (Ne.symm ha.1), h₂]
    rfl

theorem lines_ne_nil_of_mem {l : List α} (h : l ∈ lines sep s) : l ≠ [] := by
  induction s generalizing l with
  | nil => cases h
  | cons c s ih =>
    rw [lines] at h
    split_ifs at h
    · rcases List.mem_cons.1 h with rfl | h
      · exact List.cons_ne_nil _ _
      · exact ih h
    · cases hl : lines sep s with
      | nil =>
        rw [hl] at h
        rw [List.mem_singleton.1 h]
        exact List.cons_ne_nil _ _
      | cons m ms =>
        rw [hl] at h
        rcases List.mem_cons.1 h with rfl | h
        · exact List.cons_ne_nil _ _
        · exact ih (hl ▸ List.mem_cons_of_mem _ h)

theorem length_lines (sep : α) (s : List α) :
    (lines sep s).length = s.count sep + if s.getLast? ∈ [none, some sep] then 0 else 1 := by
  induction hn : s.length using Nat.strongRecOn generalizing s with
  | _ n ih =>
    by_cases hs : sep ∈ s
    · obtain ⟨a, b, rfl, ha⟩ := List.eq_append_cons_of_mem hs
      rw [List.length_append, List.length_cons] at hn
      rw [lines_append_sep ha, List.length_cons, ih b.length (by omega) b rfl, List.count_append,
        List.count_cons_self,
        List.count_eq_zero.2 ha, List.getLast?_append_of_ne_nil _ (List.cons_ne_nil _ _)]
      cases b with
      | nil => simp
      | cons c b =>
        rw [List.getLast?_cons_cons]
        omega
    · rcases eq_or_ne s [] with rfl | hne
      · rfl
      · rw [lines_eq_singleton hs hne, List.count_eq_zero.2 hs, List.length_singleton, if_neg]
        intro h
        rw [List.mem_cons, List.mem_singleton, List.getLast?_eq_none_iff] at h
        exact h.elim hne fun h ↦ hs (List.mem_of_getLast? h)

end Lines

section Feed

variable {α σ : Type} {step : σ → α → σ} {stop : σ → Bool} {t : σ} {a b : List α}

def feed (step : σ → α → σ) (stop : σ → Bool) : σ → List α → σ
  | t, [] => t
  | t, c :: s => if stop (step t c) then step t c else feed step stop (step t c) s

/-- A run over a list that comes in pieces; `split` says how much is taken at a position, an element
at least. -/
def feedPieces (step : σ → α → σ) (stop : σ → Bool) (size : ℕ) (split : ℕ → ℕ) (pos : ℕ) (t : σ)
    (s : List α) : σ :=
  let b := s.take (max 1 (min (split pos) size))
  if _h : b = [] then t
  else
    let t := feed step stop t b
    if stop t then t else feedPieces step stop size split (pos + b.length) t (s.drop b.length)
termination_by s.length
decreasing_by
  have := List.length_pos_iff.2 _h
  have hle : b.length ≤ s.length := (List.take_sublist _ _).length_le
  rw [List.length_drop]
  exact Nat.sub_lt (Nat.lt_of_lt_of_le this hle) this

theorem feed_append (ht : stop t = false) :
    feed step stop t (a ++ b) =
      if stop (feed step stop t a) then feed step stop t a else feed step stop
        (feed step stop t a) b := by
  induction a generalizing t with
  | nil => rw [List.nil_append, feed, ht, if_neg Bool.false_ne_true]
  | cons c a ih =>
    rw [List.cons_append, feed, feed]
    cases hc : stop (step t c) with
    | true => rw [if_pos rfl, if_pos rfl, hc, if_pos rfl]
    | false => rw [if_neg Bool.false_ne_true, if_neg Bool.false_ne_true, ih hc]

theorem feedPieces_eq (size : ℕ) (split : ℕ → ℕ) (pos : ℕ) (ht : stop t = false) (s : List α) :
    feedPieces step stop size split pos t s = feed step stop t s := by
  induction hn : s.length using Nat.strongRecOn generalizing s pos t with
  | _ n ih =>
    rw [feedPieces]
    generalize hk : max 1 (min (split pos) size) = k
    dsimp only
    split_ifs with hb hstop
    · rcases List.take_eq_nil_iff.1 hb with h | rfl
      · omega
      · rfl
    · conv_rhs => rw [← List.take_append_drop k s, feed_append ht, if_pos hstop]
    · have hpos := List.length_pos_iff.2 hb
      have hdrop : s.drop (s.take k).length = s.drop k := by
        rw [List.length_take]
        rcases Nat.le_total k s.length with h | h
        · rw [Nat.min_eq_left h]
        · rw [Nat.min_eq_right h, List.drop_length, List.drop_eq_nil_of_le h]
      rw [ih _ (by rw [List.length_drop]; rw [List.length_take] at hpos ⊢; omega) _
        (by simpa using hstop) _ rfl, hdrop]
      conv_rhs => rw [← List.take_append_drop k s, feed_append ht, if_neg hstop]

end Feed

end YabroOS.Lib
