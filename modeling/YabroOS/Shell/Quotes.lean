import YabroOS.Shell.Lists

namespace YabroOS.Shell

section Classes

/-- The characters that are neither quoted nor escaped nor a quote mark, as `parse_word` takes them.
-/
def unquoted : Bool → Bool → Word → List Bool
  | _, _, [] => []
  | single, dbl, c :: s =>
    if c = '\'' ∧ dbl = false then false :: unquoted (!single) dbl s
    else if c = '"' ∧ single = false then false :: unquoted single (!dbl) s
    else if c = '\\' ∧ single = false then
      match s with
      | [] => [false]
      | _ :: s => false :: false :: unquoted single dbl s
    else (!single && !dbl) :: unquoted single dbl s

@[grind =]
def shown : Quoting → Word → List Bool
  | _, [] => []
  | q, c :: s => (q.next c).2 :: shown (q.next c).1 s

variable {q : Quoting} {single dbl : Bool} {i p : ℕ} {c : Char} {s t line pre : Word}

theorem shown_length : (shown q s).length = s.length := by
  induction s generalizing q with
  | nil => rfl
  | cons c s ih => rw [shown, List.length_cons, List.length_cons, ih]

theorem shown_append : shown q (s ++ t) = shown q s ++ shown (q.after s) t := by
  induction s generalizing q with
  | nil => rfl
  | cons c s ih =>
    rw [List.cons_append, shown, ih, shown]
    rfl

theorem unquoted_eq_shown (single dbl : Bool) (s : Word) :
    unquoted single dbl s = shown ⟨single, dbl, false⟩ s := by
  fun_induction unquoted single dbl s with
  | case1 => rfl
  | case2 single dbl c s h ih =>
    obtain ⟨rfl, rfl⟩ := h
    rw [shown, ih]
    rfl
  | case3 single dbl c s _ h ih =>
    obtain ⟨rfl, rfl⟩ := h
    rw [shown, ih]
    rfl
  | case4 single dbl c _ _ h =>
    obtain ⟨rfl, rfl⟩ := h
    rfl
  | case5 single dbl c _ _ h d s ih =>
    obtain ⟨rfl, rfl⟩ := h
    rw [shown, shown, ih]
    rfl
  | case6 single dbl c s h₁ h₂ h₃ ih =>
    have hnext : Quoting.next ⟨single, dbl, false⟩ c = (⟨single, dbl, false⟩, !(single || dbl)) := by
      rw [Quoting.next, if_neg Bool.false_ne_true, if_neg h₃, if_neg h₂, if_neg h₁]
    rw [shown, hnext, ih, Bool.not_or]

theorem next_shown (h : (q.next c).2 = true) : q = .bare ∧ (q.next c).1 = .bare := by
  obtain ⟨single, dbl, esc⟩ := q
  rw [Quoting.next] at h ⊢
  split_ifs at h ⊢ with hesc
  obtain ⟨hs, hd⟩ : single = false ∧ dbl = false := by simpa using h
  have he : esc = false := by simpa using hesc
  subst hs hd he
  exact ⟨rfl, rfl⟩

theorem shown_at (h : (shown q (s ++ c :: t))[s.length]? = some true) :
    q.after s = .bare ∧ Quoting.bare.next c = (.bare, true) := by
  rw [shown_append, List.getElem?_append_right (by rw [shown_length]), shown_length, Nat.sub_self,
    shown] at h
  have hc : ((q.after s).next c).2 = true := Option.some.inj h
  obtain ⟨h₁, h₂⟩ := next_shown hc
  rw [h₁] at hc h₂
  exact ⟨h₁, Prod.ext h₂ hc⟩

theorem shown_blanks {b : Word} (hb : ∀ c ∈ b, c ∈ [' ', '\t', '\n', '\r']) :
    shown .bare b = List.replicate b.length true ∧ visible .bare b = false := by
  induction b with
  | nil => exact ⟨rfl, rfl⟩
  | cons c b ih =>
    obtain ⟨h₁, h₂⟩ := ih fun c hc ↦ hb c (List.mem_cons_of_mem _ hc)
    have hc := hb c List.mem_cons_self
    have hnext : Quoting.bare.next c = (.bare, true) := by
      simp only [List.mem_cons, List.not_mem_nil, or_false] at hc
      rcases hc with rfl | rfl | rfl | rfl <;> rfl
    rw [shown, visible, hnext, h₁, h₂, List.length_cons, List.replicate_succ]
    simp only [hc, not_true_eq_false, decide_false, Bool.and_false, Bool.or_self, and_self]

theorem lastNonspace_split {last : Option ℕ} {j : ℕ} (h : lastNonspace q i s last = some j) :
    last = some j ∧ visible q s = false ∨
      ∃ a c b, s = a ++ c :: b ∧ j = i + a.length ∧ (shown q s)[a.length]? = some true ∧
        c ∉ [' ', '\t', '\n', '\r'] ∧ visible .bare b = false := by
  induction s generalizing q i last with
  | nil => exact .inl ⟨h, rfl⟩
  | cons d s ih =>
    rw [lastNonspace] at h
    rcases ih h with ⟨hlast, hv⟩ | ⟨a, c, b, rfl, hj, hs, hc, hb⟩
    · split_ifs at hlast with hd
      · obtain rfl := Option.some.inj hlast
        obtain ⟨-, hq⟩ := next_shown hd.1
        rw [hq] at hv
        exact .inr ⟨[], d, s, rfl, rfl, congrArg some hd.1, hd.2, hv⟩
      · refine .inl ⟨hlast, ?_⟩
        rw [visible, hv, Bool.or_false]
        simpa using hd
    · refine .inr ⟨d :: a, c, b, rfl, ?_, hs, hc, hb⟩
      rw [hj, List.length_cons]
      omega

end Classes

section Scans

variable {q : Quoting} {i p : ℕ} {s t line pre : Word} {op : Control} {c : Char}

def EndsInBackground (line pre : Word) : Prop :=
  ∃ b, line = pre ++ '&' :: b ∧ (∀ c ∈ b, c ∈ [' ', '\t', '\n', '\r']) ∧
    ∀ j, pre.length ≤ j → j < line.length → (unquoted false false line)[j]? = some true

/-- `strip_background` removes the operator at the end of the line and the blanks, and nothing else.
-/
structure Strips (line : Word) : Prop where
  removes : ∀ pre, stripBackground line = (pre, true) ↔ EndsInBackground line pre
  keeps : (∀ pre, ¬EndsInBackground line pre) → stripBackground line = (line, false)

/-- After an unquoted `&` there is text, and all of it but blanks is quoted. -/
def HidesText (line : Word) : Prop :=
  ∃ s t, line = s ++ '&' :: t ∧ (unquoted false false line)[s.length]? = some true ∧
    visible .bare t = false ∧ ∃ c ∈ t, c ∉ [' ', '\t', '\n', '\r']

theorem stripBackground_of_shown (hs : Quoting.bare.after s = .bare)
    (ht : visible .bare t = false) : stripBackground (s ++ '&' :: t) = (s, true) := by
  rw [stripBackground_hidden hs ht (by decide) (by decide), if_pos rfl]

theorem stripBackground_true (h : stripBackground line = (pre, true)) :
    ∃ t, line = pre ++ '&' :: t ∧ (shown .bare line)[pre.length]? = some true ∧
      visible .bare t = false := by
  rw [stripBackground] at h
  split at h
  · rename_i j hj
    split_ifs at h with hc
    · obtain ⟨hlast, -⟩ | ⟨a, c, b, rfl, rfl, hs, -, hb⟩ := lastNonspace_split hj
      · cases hlast
      rw [Nat.zero_add] at hc h
      rw [List.getElem?_append_right (Nat.le_refl _), Nat.sub_self] at hc
      obtain rfl := Option.some.inj hc
      rw [List.take_left] at h
      obtain ⟨rfl, -⟩ := Prod.mk.inj h
      exact ⟨b, rfl, hs, hb⟩
    · cases h
  · cases h

theorem stripBackground_false (h : (stripBackground line).2 = false) :
    stripBackground line = (line, false) := by
  rw [stripBackground] at h ⊢
  split at h
  · split_ifs at h with hc
    rw [if_neg hc]
  · rfl

theorem endsInBackground_iff : EndsInBackground line pre ↔
    ∃ b, line = pre ++ '&' :: b ∧ (∀ c ∈ b, c ∈ [' ', '\t', '\n', '\r']) ∧
      Quoting.bare.after pre = .bare := by
  refine exists_congr fun b ↦ and_congr_right fun hline ↦ and_congr_right fun hb ↦ ?_
  rw [unquoted_eq_shown]
  subst hline
  constructor
  · intro h
    exact (shown_at (h _ (Nat.le_refl _) (by simp))).1
  · intro h j hle hlt
    have hnext : Quoting.bare.next '&' = (.bare, true) := by decide
    have hbare : (⟨false, false, false⟩ : Quoting) = .bare := rfl
    rw [hbare, shown_append, List.getElem?_append_right (by rw [shown_length]; exact hle),
      shown_length, h, shown, hnext,
      (shown_blanks hb).1, ← List.replicate_succ, List.getElem?_replicate, if_pos]
    simp only [List.length_append, List.length_cons] at hlt
    omega

theorem strips_iff : Strips line ↔ ¬HidesText line := by
  constructor
  · rintro h ⟨s, t, rfl, hs, ht, c, hc, hno⟩
    rw [unquoted_eq_shown] at hs
    obtain ⟨b, hb, hblank, -⟩ := (h.removes s).1 (stripBackground_of_shown (shown_at hs).1 ht)
    obtain rfl := (List.cons.inj (List.append_cancel_left hb)).2
    exact hno (hblank c hc)
  · intro h
    have hremoves : ∀ pre, stripBackground line = (pre, true) ↔ EndsInBackground line pre := by
      intro pre
      rw [endsInBackground_iff]
      constructor
      · intro hstrip
        obtain ⟨t, rfl, hs, ht⟩ := stripBackground_true hstrip
        refine ⟨t, rfl, fun c hc ↦ ?_, (shown_at hs).1⟩
        by_contra hno
        exact h ⟨pre, t, rfl, by rw [unquoted_eq_shown]; exact hs, ht, c, hc, hno⟩
      · rintro ⟨b, rfl, hb, hpre⟩
        exact stripBackground_of_shown hpre (shown_blanks hb).2
    refine ⟨hremoves, fun hno ↦ stripBackground_false ?_⟩
    by_contra htrue
    refine hno (stripBackground line).1 ((hremoves _).1 ?_)
    exact Prod.ext rfl (by simpa using htrue)

def SplitsAt (q : Quoting) (i p : ℕ) (s : Word) (op : Control) : Prop :=
  ∃ a b, s = a ++ op.text ++ b ∧ p = i + a.length ∧
    ∀ j < op.text.length, (shown q s)[a.length + j]? = some true

theorem SplitsAt.cons (h : SplitsAt (q.next c).1 (i + 1) p s op) : SplitsAt q i p (c :: s) op := by
  obtain ⟨a, b, rfl, rfl, hj⟩ := h
  refine ⟨c :: a, b, rfl, ?_, fun j hlt ↦ ?_⟩
  · rw [List.length_cons]
    omega
  · rw [List.length_cons, Nat.add_right_comm, shown, List.getElem?_cons_succ]
    exact hj j hlt

theorem SplitsAt.cons₂ (h : SplitsAt (q.next c).1 (i + 2) p s op) (hc : (q.next c).2 = true)
    (hbare : Quoting.bare.next c = (.bare, true)) : SplitsAt q i p (c :: c :: s) op := by
  refine SplitsAt.cons (SplitsAt.cons ?_)
  rw [(next_shown hc).2] at h ⊢
  rw [hbare]
  exact h

theorem splitsAt_logic {op : Logic} (htext : op.text = [c, c]) (hc : (q.next c).2 = true)
    (hbare : Quoting.bare.next c = (.bare, true)) : SplitsAt q i i (c :: c :: s) (.logic op) := by
  have hcontrol : (Control.logic op).text = [c, c] := htext
  refine ⟨[], s, by rw [hcontrol]; rfl, rfl, fun j hj ↦ ?_⟩
  rw [hcontrol] at hj
  rw [shown, shown, hc, (next_shown hc).2, hbare]
  match j, hj with
  | 0, _ => rfl
  | 1, _ => rfl

theorem findControl_shown {logic : Option (ℕ × Logic)}
    (h : findControl q i s logic = some (p, op)) :
    (∃ x ∈ logic, p = x.1 ∧ op = .logic x.2) ∨ SplitsAt q i p s op := by
  fun_induction findControl q i s logic with
  | case1 q i logic =>
    obtain ⟨x, hx, he⟩ := Option.map_eq_some_iff.1 h
    obtain ⟨rfl, rfl⟩ := Prod.mk.inj he
    exact .inl ⟨x, hx, rfl, rfl⟩
  | case2 q i c s logic hq ih => exact (ih h).imp_right SplitsAt.cons
  | case3 q i s logic hq =>
    obtain ⟨rfl, rfl⟩ := Prod.mk.inj (Option.some.inj h)
    refine .inr ⟨[], s, rfl, rfl, fun j hj ↦ ?_⟩
    obtain rfl : j = 0 := Nat.lt_one_iff.1 hj
    have hshown : (q.next ';').2 = true := by simpa using hq
    rw [shown, hshown]
    rfl
  | case4 q i s hq hc ih =>
    have hshown : (q.next '&').2 = true := by simpa using hq
    rcases ih h with ⟨x, hx, rfl, rfl⟩ | hsplit
    · obtain rfl := Option.some.inj hx
      exact .inr (splitsAt_logic rfl hshown (by decide))
    · exact .inr (hsplit.cons₂ hshown (by decide))
  | case5 q i s hq hc ih =>
    have hshown : (q.next '|').2 = true := by simpa using hq
    rcases ih h with ⟨x, hx, rfl, rfl⟩ | hsplit
    · obtain rfl := Option.some.inj hx
      exact .inr (splitsAt_logic rfl hshown (by decide))
    · exact .inr (hsplit.cons₂ hshown (by decide))
  | case6 q i c s logic hq hc _ _ ih => exact (ih h).imp_right SplitsAt.cons

/-- The two scans agree with `parse_word` on what is quoted in a line. -/
structure SeesQuotes (line : Word) : Prop where
  splits : ∀ p op, findControl .bare 0 line none = some (p, op) → (∃ b, line.drop p = op.text ++ b) ∧
    ∀ j < op.text.length, (unquoted false false line)[p + j]? = some true
  strips : Strips line

theorem findControl_splits (h : findControl .bare 0 line none = some (p, op)) :
    (∃ b, line.drop p = op.text ++ b) ∧ ∀ j < op.text.length, (unquoted false false line)[p + j]? =
      some true := by
  obtain ⟨x, hx, -⟩ | ⟨a, b, rfl, rfl, hj⟩ := findControl_shown h
  · cases hx
  · rw [unquoted_eq_shown, Nat.zero_add]
    refine ⟨⟨b, ?_⟩, hj⟩
    rw [List.append_assoc, List.drop_left]

end Scans

section Words

def quoteChar (c : Char) : Word := if c = '\'' then ['\'', '\\', '\'', '\''] else [c]

def quote (word : Word) : Word := '\'' :: (word.flatMap quoteChar ++ ['\''])

def quoteLine : List Word → Word
  | [] => []
  | [word] => quote word
  | word :: words => quote word ++ ' ' :: quoteLine words

theorem quoteLine_cons_cons (word next : Word) (words : List Word) :
    quoteLine (word :: next :: words) = quote word ++ ' ' :: quoteLine (next :: words) := rfl

variable {value : Word → Word} {room wpos rounds : ℕ} {word rest out s t : Word} {words : List Word}
    {stage : Pipe} {q : Quoting}

theorem quote_length : word.length + 2 ≤ (quote word).length := by
  have hchar : word.length ≤ (word.flatMap quoteChar).length := by
    induction word with
    | nil => exact Nat.le_refl 0
    | cons c word ih =>
      have hc : 1 ≤ (quoteChar c).length := by
        rw [quoteChar]
        split_ifs
        · decide
        · exact Nat.le_refl 1
      rw [List.flatMap_cons, List.length_append, List.length_cons]
      omega
  rw [quote, List.length_cons, List.length_append, List.length_singleton]
  omega

theorem parseWord_body (hroom : out.length + word.length ≤ room) :
    parseWord value room (word.flatMap quoteChar ++ '\'' :: rest) 0 true false true out =
      parseWord value room rest 0 false false true (out ++ word) := by
  induction word generalizing out with
  | nil =>
    rw [List.append_nil, List.flatMap_nil, List.nil_append, parseWord.eq_def]
    rfl
  | cons c word ih =>
    rw [List.length_cons] at hroom
    have hout : ¬room ≤ out.length := by omega
    have hnext := @ih (out ++ [c]) (by rw [List.length_append, List.length_singleton]; omega)
    rw [List.append_assoc, List.singleton_append] at hnext
    rw [← hnext, List.flatMap_cons, List.append_assoc, quoteChar]
    by_cases hc : c = '\''
    · subst hc
      rw [if_pos rfl]
      have hclosed : parseWord value room ('\'' :: (word.flatMap quoteChar ++ '\'' :: rest)) 0 false
          false true (out ++ ['\'']) =
          parseWord value room (word.flatMap quoteChar ++ '\'' :: rest) 0 true false true
            (out ++ ['\'']) := by
        rw [parseWord.eq_def]
        rfl
      rw [← hclosed]
      simp [parseWord, hout]
    · rw [if_neg hc, List.singleton_append, parseWord.eq_def]
      simp [hc, hout]

theorem parseWord_quote (hroom : word.length ≤ room) :
    parseWord value room (quote word ++ rest) 0 false false false [] =
      parseWord value room rest 0 false false true word := by
  have hbody := @parseWord_body value room word rest [] (by rw [List.length_nil]; omega)
  rw [List.nil_append] at hbody
  rw [← hbody, quote, List.cons_append, List.append_assoc, parseWord.eq_def]
  rfl

theorem parseLoop_quote (hcount : stage.words.length < 31) (hlen : word.length ≤ 127)
    (hroom : word.length ≤ 2047 - wpos) (hrest : rest = [] ∨ ∃ s, rest = ' ' :: s) :
    parseLoop value (rounds + 1) (quote word ++ rest) [] stage wpos =
      parseLoop value rounds rest [] { stage with words := stage.words ++ [word] }
    (wpos + word.length + 1) := by
  have hend : parseWord value (2047 - wpos) rest 0 false false true word =
      some (true, word, rest) := by
    rcases hrest with rfl | ⟨s, rfl⟩
    · rfl
    · rw [parseWord.eq_def]
      rfl
  have hword := (@parseWord_quote value _ _ rest hroom).trans hend
  rw [quote, List.cons_append, List.append_assoc, List.singleton_append] at hword ⊢
  rw [parseLoop.eq_def]
  simp [hword, Nat.not_le.2 hcount, Nat.not_le.2 (Nat.lt_succ_of_le hlen)]

theorem parseLoop_quoteLine (hne : stage.words ++ words ≠ [])
    (hcount : stage.words.length + words.length ≤ 31) (hlen : ∀ word ∈ words, word.length ≤ 127)
    (hroom : wpos + (quoteLine words).length ≤ 2047) (hrounds : (quoteLine words).length ≤ rounds) :
    parseLoop value rounds (quoteLine words)
    [] stage wpos = some [{ stage with words := stage.words ++ words }] := by
  induction words generalizing rounds stage wpos with
  | nil =>
    rw [List.append_nil] at hne
    rw [quoteLine, parseLoop.eq_def]
    cases rounds <;> simp [hne]
  | cons word words ih =>
    have hword := hlen word List.mem_cons_self
    rw [List.length_cons] at hcount
    have hquote := @quote_length word
    have hnext : (stage.words ++ [word]) ++ words ≠ [] := by simp
    cases words with
    | nil =>
      rw [quoteLine] at hroom hrounds ⊢
      obtain ⟨n, rfl⟩ : ∃ n, rounds = n + 1 := ⟨rounds - 1, by omega⟩
      have hstep :=
        @parseLoop_quote value wpos n word [] stage (by omega) hword (by omega) (.inl rfl)
      rw [List.append_nil] at hstep
      rw [hstep, parseLoop.eq_def]
      cases n <;> simp
    | cons next words =>
      rw [quoteLine_cons_cons, List.length_append, List.length_cons] at hroom hrounds
      rw [quoteLine_cons_cons]
      obtain ⟨n, rfl⟩ : ∃ n, rounds = n + 1 + 1 := ⟨rounds - 2, by omega⟩
      have hblank : ∀ stage wpos, parseLoop value (n + 1) (' ' :: quoteLine (next :: words)) []
          stage wpos = parseLoop value n (quoteLine (next :: words)) [] stage wpos := by
        intro stage wpos
        rw [parseLoop.eq_def]
        rfl
      rw [parseLoop_quote (by omega) hword (by omega) (.inr ⟨_, rfl⟩), hblank,
        ih hnext (by rw [List.length_append, List.length_singleton]; omega)
          (fun w hw ↦ hlen w (List.mem_cons_of_mem _ hw))
          (by omega) (by omega)]
      simp

theorem scan_hidden (h : ∀ b ∈ shown q s, b = false) :
    visible q s = false ∧ ∀ t, free q (s ++ t) = free (q.after s) t := by
  induction s generalizing q with
  | nil => exact ⟨rfl, fun t ↦ rfl⟩
  | cons c s ih =>
    rw [shown] at h
    obtain ⟨h₁, h₂⟩ := ih fun b hb ↦ h b (List.mem_cons_of_mem _ hb)
    have hc := h _ List.mem_cons_self
    refine ⟨?_, fun t ↦ ?_⟩
    · rw [visible, hc, h₁]
      rfl
    · rw [List.cons_append, free, hc, h₂]
      rfl

theorem quote_hidden :
    Quoting.bare.after (quote word) = .bare ∧ ∀ b ∈ shown .bare (quote word), b = false := by
  have hbody : ∀ word : Word, Quoting.after ⟨true, false, false⟩ (word.flatMap quoteChar) =
      ⟨true, false, false⟩ ∧
      ∀ b ∈ shown ⟨true, false, false⟩ (word.flatMap quoteChar), b = false := by
    intro word
    induction word with
    | nil => exact ⟨rfl, fun b hb ↦ by cases hb⟩
    | cons c word ih =>
      have hchar : Quoting.after ⟨true, false, false⟩ (quoteChar c) = ⟨true, false, false⟩ ∧
          ∀ b ∈ shown ⟨true, false, false⟩ (quoteChar c), b = false := by
        rw [quoteChar]
        split_ifs with hc
        · exact ⟨rfl, by decide⟩
        · simp [Quoting.after, shown, Quoting.next, hc]
      rw [List.flatMap_cons, after_append, shown_append, hchar.1]
      refine ⟨ih.1, fun b hb ↦ ?_⟩
      exact (List.mem_append.1 hb).elim (hchar.2 b) (ih.2 b)
  obtain ⟨h₁, h₂⟩ := hbody word
  have hopen : Quoting.bare.next '\'' = (⟨true, false, false⟩, false) := by decide
  constructor
  · have hafter : Quoting.bare.after (quote word) = Quoting.after ⟨true, false, false⟩
        (word.flatMap quoteChar ++ ['\'']) := rfl
    rw [hafter, after_append, h₁]
    rfl
  · intro b hb
    rw [quote, shown, hopen, shown_append, h₁] at hb
    rcases List.mem_cons.1 hb with rfl | hb
    · rfl
    · exact (List.mem_append.1 hb).elim (h₂ b) fun hb ↦ List.mem_singleton.1 hb

theorem quoteLine_hidden (words : List Word) :
    visible .bare (quoteLine words) = false ∧ free .bare (quoteLine words) = true := by
  induction words with
  | nil => exact ⟨rfl, rfl⟩
  | cons word words ih =>
    obtain ⟨hafter, hhidden⟩ := @quote_hidden word
    obtain ⟨h₁, h₂⟩ := scan_hidden hhidden
    cases words with
    | nil =>
      have hfree := h₂ []
      rw [List.append_nil] at hfree
      exact ⟨h₁, hfree⟩
    | cons next words =>
      have hblank : Quoting.bare.next ' ' = (.bare, true) := by decide
      rw [quoteLine_cons_cons, visible_append, h₁, hafter, h₂, hafter, visible, free, hblank,
        ih.1, ih.2]
      exact ⟨by decide, by simp⟩

end Words

/-- Quotes are seen alike in a line that hides no text behind an `&`, and quoted words come back as
they were. -/
theorem quoting_iff (line : Word) : (SeesQuotes line ↔ ¬HidesText line) ∧
    ∀ (w : Commands) (place : ℕ) (status : ℤ) (words : List Word), words ≠ [] → words.length ≤ 31 →
      (∀ word ∈ words, word.length ≤ 127) → (quoteLine words).length ≤ 511 →
      (runLine w place (quoteLine words) status).1 =
        [⟨place, false, some [⟨words, [], [], []⟩]⟩] := by
  refine ⟨⟨fun h ↦ strips_iff.1 h.strips,
    fun h ↦ ⟨fun _ _ hf ↦ findControl_splits hf, strips_iff.2 h⟩⟩, ?_⟩
  intro w place status words hne hcount hlen hline
  obtain ⟨hvisible, hfree⟩ := quoteLine_hidden words
  have hstrip : stripBackground (quoteLine words) = (quoteLine words, false) := by
    rw [stripBackground, lastNonspace_of_not_visible hvisible]
  have hparse : parse (w.value place) (quoteLine words) = some [⟨words, [], [], []⟩] :=
    parseLoop_quoteLine (by simpa using hne) (by simpa using hcount) hlen (by omega) (Nat.le_refl _)
  rw [runLine_single hstrip (findControl_none hfree), runSimple, hparse]

/-- The line `a & "b"`: the text behind the `&` is dropped. -/
theorem not_seesQuotes : ¬ ∀ line : Word, line.length ≤ 511 → SeesQuotes line := by
  intro h
  have hstrips := (h ['a', ' ', '&', ' ', '"', 'b', '"'] (by decide)).strips
  exact strips_iff.1 hstrips ⟨['a', ' '], [' ', '"', 'b', '"'], rfl, by decide, by decide, 'b',
    by decide, by decide⟩

end YabroOS.Shell
