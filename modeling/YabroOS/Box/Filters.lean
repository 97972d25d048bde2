import YabroOS.Lib.Lines
import Mathlib.Data.List.DropRight
import Mathlib.Data.List.Infix

namespace YabroOS.Box

open Lib

def newline : UInt8 := 10

def isBlank (c : UInt8) : Bool := c ∈ [32, 9, 10, 13]

structure Head where
  out : List UInt8
  lines : ℕ

def Head.step (h : Head) (c : UInt8) : Head :=
  ⟨h.out ++ [c], if c = newline then h.lines + 1 else h.lines⟩

def Head.stop (h : Head) : Bool := 10 ≤ h.lines

/-- What `cmd_head` puts; `split` says how much each read gives at a position. -/
def cmdHead (split : ℕ → ℕ) (content : List UInt8) : List UInt8 :=
  (feedPieces Head.step Head.stop 512 split 0 ⟨[], 0⟩ content).out

structure Count where
  lines : ℕ
  words : ℕ
  bytes : ℕ
  inword : Bool

def Count.step (n : Count) (c : UInt8) : Count where
  lines := if c = newline then n.lines + 1 else n.lines
  words := if !isBlank c && !n.inword then n.words + 1 else n.words
  bytes := n.bytes + 1
  inword := !isBlank c

def cmdWc (split : ℕ → ℕ) (content : List UInt8) : ℕ × ℕ × ℕ :=
  let n := feedPieces Count.step (fun _ ↦ false) 512 split 0 ⟨0, 0, 0, false⟩ content
  (n.lines, n.words, n.bytes)

def fillBuffer (size : ℕ) (split : ℕ → ℕ) (buf rest : List UInt8) : List UInt8 :=
  if size ≤ buf.length then buf
  else
    let b := rest.take (max 1 (min (split buf.length) (size - buf.length)))
    if _h : b = [] then buf else fillBuffer size split (buf ++ b) (rest.drop b.length)
termination_by rest.length
decreasing_by
  have := List.length_pos_iff.2 _h
  have hle : b.length ≤ rest.length := (List.take_sublist _ _).length_le
  rw [List.length_drop]
  exact Nat.sub_lt (Nat.lt_of_lt_of_le this hle) this

def cmdTail (split : ℕ → ℕ) (content : List UInt8) : List UInt8 :=
  let b := fillBuffer 16384 split [] content
  let lines := b.count newline
  let skip := if 10 < lines then lines - 10 else 0
  dropLines newline skip b

def lineMatch (pattern line : List UInt8) : Bool :=
  (List.range (line.length + 1)).any fun j ↦ j + pattern.length ≤ line.length ∧
    (line.drop j).take pattern.length = pattern

def grepLoop (pattern : List UInt8) : List UInt8 → List UInt8 → List UInt8 × Bool
  | line, [] => if lineMatch pattern line then (line ++ [newline], true) else ([], false)
  | line, c :: s =>
    if c = newline then
      let (out, found) := grepLoop pattern [] s
      if lineMatch pattern line then (line ++ newline :: out, true) else (out, found)
    else grepLoop pattern (line ++ [c]) s

def cmdGrep (split : ℕ → ℕ) (pattern content : List UInt8) : List UInt8 × ℕ :=
  let (out, found) := grepLoop pattern [] (fillBuffer 4095 split [] content)
  (out, if found then 0 else 1)

def firstLines (n : ℕ) (content : List UInt8) : List UInt8 :=
  ((lines newline content).take n).flatten

def lastLines (n : ℕ) (content : List UInt8) : List UInt8 :=
  ((lines newline content).drop ((lines newline content).length - n)).flatten

def words (content : List UInt8) : List (List UInt8) := (content.splitOnP isBlank).filter (· ≠ [])

def linesWith (pattern content : List UInt8) : List (List UInt8) :=
  (lines newline content).filter fun line ↦ pattern <:+: line

variable {split : ℕ → ℕ} {size : ℕ} {pattern line content s : List UInt8}

theorem fillBuffer_eq (size : ℕ) (split : ℕ → ℕ) {buf : List UInt8} (hbuf : buf.length ≤ size)
    (rest : List UInt8) : fillBuffer size split buf rest = (buf ++ rest).take size := by
  induction hn : rest.length using Nat.strongRecOn generalizing buf rest with
  | _ n ih =>
    rw [fillBuffer]
    split_ifs with hfull
    · rw [List.take_left' (Nat.le_antisymm hbuf hfull)]
    generalize hk : max 1 (min (split buf.length) (size - buf.length)) = k
    dsimp only
    split_ifs with hb
    · rcases List.take_eq_nil_iff.1 hb with h | rfl
      · omega
      · rw [List.append_nil, List.take_of_length_le hbuf]
    · have hpos := List.length_pos_iff.2 hb
      rw [List.length_take] at hpos
      rw [ih _ (by rw [List.length_drop, List.length_take]; omega)
        (by rw [List.length_append, List.length_take]; omega) _ rfl,
        List.append_assoc]
      have hdrop : rest.drop (rest.take k).length = rest.drop k := by
        rw [List.length_take]
        rcases Nat.le_total k rest.length with h | h
        · rw [Nat.min_eq_left h]
        · rw [Nat.min_eq_right h, List.drop_length, List.drop_eq_nil_of_le h]
      rw [hdrop, List.take_append_drop]

theorem feed_head {n : ℕ} {out : List UInt8} (hn : n < 10) (s : List UInt8) :
    (feed Head.step Head.stop ⟨out, n⟩ s).out = out ++ firstLines (10 - n) s := by
  induction s generalizing n out with
  | nil =>
    rw [firstLines, lines, List.take_nil, List.flatten_nil, List.append_nil]
    rfl
  | cons c s ih =>
    obtain ⟨k, hk⟩ : ∃ k, 10 - n = k + 1 := ⟨9 - n, by omega⟩
    rw [feed, Head.step, hk, firstLines, lines]
    by_cases hc : c = newline
    · rw [if_pos hc, if_pos hc, List.take_succ_cons, List.flatten_cons, ← List.append_assoc]
      dsimp only
      by_cases hlast : n = 9
      · obtain rfl : k = 0 := by omega
        rw [if_pos (by rw [hlast]; rfl), List.take_zero, List.flatten_nil, List.append_nil]
      · rw [if_neg (by simp only [Head.stop, decide_eq_true_eq]; omega), ih (by omega),
          show 10 - (n + 1) = k by omega]
        rfl
    · rw [if_neg hc, if_neg hc, if_neg (by simp only [Head.stop, decide_eq_true_eq]; omega), ih hn,
        hk, firstLines]
      cases lines newline s with
      | nil =>
        rw [List.take_nil, List.flatten_nil, List.append_nil, List.take_succ_cons, List.take_nil]
        rfl
      | cons l ls =>
        rw [List.take_succ_cons, List.take_succ_cons, List.flatten_cons, List.flatten_cons,
          List.append_assoc]
        rfl

theorem cmdHead_eq (split : ℕ → ℕ) (content : List UInt8) :
    cmdHead split content = firstLines 10 content := by
  rw [cmdHead, feedPieces_eq 512 split 0 rfl, feed_head (by omega), List.nil_append]

/-- The words that begin in a list of bytes: the first does not where the list begins inside of a
word. -/
def newWords (inword : Bool) (s : List UInt8) : ℕ :=
  ((if inword then (s.splitOnP isBlank).tail else s.splitOnP isBlank).filter (· ≠ [])).length

theorem newWords_cons (inword : Bool) (c : UInt8) (s : List UInt8) :
    newWords inword
    (c :: s) = (if !isBlank c && !inword then 1 else 0) + newWords (!isBlank c) s := by
  obtain ⟨l, ls, hl⟩ := List.exists_cons_of_ne_nil (List.splitOnP_ne_nil isBlank s)
  cases hc : isBlank c with
  | true =>
    rw [newWords, List.splitOnP_cons_eq_if_modifyHead, if_pos hc, newWords]
    cases inword with
    | true => simp
    | false => simp
  | false =>
    rw [newWords, List.splitOnP_cons_eq_if_modifyHead,
      if_neg (show ¬isBlank c = true by rw [hc]; exact Bool.false_ne_true), newWords, hl]
    cases inword with
    | true => simp
    | false =>
      simp
      omega

theorem feed_count (n : Count) (s : List UInt8) :
    (feed Count.step (fun _ ↦ false) n s).lines = n.lines + s.count newline ∧
      (feed Count.step (fun _ ↦ false) n s).words = n.words + newWords n.inword s ∧
        (feed Count.step (fun _ ↦ false) n s).bytes = n.bytes + s.length := by
  induction s generalizing n with
  | nil =>
    refine ⟨rfl, ?_, rfl⟩
    cases hn : n.inword with
    | true => rfl
    | false => rfl
  | cons c s ih =>
    obtain ⟨h₁, h₂, h₃⟩ := ih (n.step c)
    rw [feed, if_neg Bool.false_ne_true, h₁, h₂, h₃, newWords_cons, List.length_cons,
      List.count_cons]
    simp only [Count.step, beq_iff_eq]
    refine ⟨?_, ?_, ?_⟩
    · split_ifs
      · omega
      · rfl
    · split_ifs
      · omega
      · omega
    · omega

theorem cmdWc_eq (split : ℕ → ℕ) (content : List UInt8) :
    cmdWc split content = (content.count newline, (words content).length, content.length) := by
  obtain ⟨h₁, h₂, h₃⟩ := feed_count ⟨0, 0, 0, false⟩ content
  rw [cmdWc, feedPieces_eq 512 split 0 rfl, h₁, h₂, h₃, Nat.zero_add, Nat.zero_add, Nat.zero_add]
  rfl

theorem cmdTail_eq (split : ℕ → ℕ) (content : List UInt8) : cmdTail split content =
    ((lines newline (content.take 16384)).drop
      ((content.take 16384).count newline - 10)).flatten := by
  have hskip : ∀ n : ℕ, (if 10 < n then n - 10 else 0) = n - 10 := by
    intro n
    split_ifs
    · rfl
    · omega
  rw [cmdTail, fillBuffer_eq _ _ (Nat.zero_le _), List.nil_append, hskip, dropLines_eq]

theorem lines_lastLines (n : ℕ) (content : List UInt8) :
    lines newline (lastLines n content) =
      (lines newline content).drop ((lines newline content).length - n) := by
  rw [lastLines, ← dropLines_eq, lines_dropLines]

theorem length_lastLines (n : ℕ) (content : List UInt8) :
    (lines newline (lastLines n content)).length = min n (lines newline content).length := by
  rw [lines_lastLines, List.length_drop]
  omega

theorem lastLines_of_le {n : ℕ} (h : (lines newline content).length ≤ n) :
    lastLines n content = content := by
  rw [lastLines, Nat.sub_eq_zero_of_le h, List.drop_zero, lines_flatten]

theorem getLast?_lastLines {n : ℕ} (hn : 0 < n) (content : List UInt8) :
    (lastLines n content).getLast? = content.getLast? := by
  have hsplit : content =
      ((lines newline content).take ((lines newline content).length - n)).flatten ++
        lastLines n content := by
    rw [lastLines, ← List.flatten_append, List.take_append_drop, lines_flatten]
  have hlen := length_lastLines n content
  rcases eq_or_ne (lastLines n content) [] with h | h
  · rw [h, lines, List.length_nil] at hlen
    have hnil : lines newline content = [] := List.length_eq_zero_iff.1 (by omega)
    rw [h, ← lines_flatten newline content, hnil, List.flatten_nil]
  · conv_rhs => rw [hsplit, List.getLast?_append_of_ne_nil _ h]

/-- The file fits in the buffer, and its last line is complete or it has ten lines at most; or it
does not fit, and its last ten lines also stand at the end of the buffer: from its beginning, or
behind a newline and complete. -/
def TailFits (content : List UInt8) : Prop :=
  if content.length ≤ 16384 then content.getLast? = some newline ∨
    (lines newline content).length ≤ 10
  else
    ∃ before, content.take 16384 = before ++ lastLines 10 content ∧
      (before = [] ∨ before.getLast? = some newline ∧ content.getLast? = some newline)

theorem cmdTail_short (split : ℕ → ℕ) (h : content.length ≤ 16384) :
    cmdTail split content = lastLines 10 content ↔
      content.getLast? = some newline ∨ (lines newline content).length ≤ 10 := by
  rw [cmdTail_eq, List.take_of_length_le h]
  have hlen := length_lines newline content
  constructor
  · intro htail
    by_contra hno
    rw [not_or] at hno
    obtain ⟨hlast, hmany⟩ := hno
    have hne : content.getLast? ∉ [none, some newline] := by
      rw [List.mem_cons, List.mem_singleton, not_or, List.getLast?_eq_none_iff]
      refine ⟨?_, hlast⟩
      rintro rfl
      exact hmany (Nat.zero_le _)
    rw [if_neg hne] at hlen
    -- eleven lines are put
    have hlines := congrArg (lines newline) htail
    rw [← dropLines_eq, lines_lastLines, lines_dropLines] at hlines
    have hcount := congrArg List.length hlines
    rw [List.length_drop, List.length_drop] at hcount
    omega
  · intro hfew
    have hskip : content.count newline - 10 = (lines newline content).length - 10 := by
      rcases hfew with h | h
      · rw [if_pos (by rw [h]; simp)] at hlen
        omega
      · split_ifs at hlen
        · omega
        · omega
    rw [hskip, lastLines]

theorem cmdTail_long (split : ℕ → ℕ) (h : 16384 < content.length) :
    cmdTail split content = lastLines 10 content ↔
      ∃ before, content.take 16384 = before ++ lastLines 10 content ∧
        (before = [] ∨ before.getLast? = some newline ∧ content.getLast? = some newline) := by
  have hlast := getLast?_lastLines (n := 10) (by decide) content
  have hlen := length_lines newline (lastLines 10 content)
  have hmin := length_lastLines 10 content
  rw [hlast] at hlen
  rw [cmdTail_eq, ← dropLines_eq]
  constructor
  · intro htail
    obtain ⟨before, hb, hcount, hbefore⟩ := exists_dropLines
      (Nat.sub_le ((content.take 16384).count newline) 10)
    rw [htail] at hb
    refine ⟨before, hb, ?_⟩
    rcases hbefore with rfl | hbefore
    · exact .inl rfl
    -- something is left out, so ten newlines are put
    · refine .inr ⟨hbefore, ?_⟩
      have hpos : 0 < before.count newline := List.count_pos_iff.2 (List.mem_of_getLast? hbefore)
      have hsum := congrArg (List.count newline) hb
      rw [List.count_append] at hsum
      by_contra hopen
      rw [if_neg] at hlen
      · omega
      · rw [List.mem_cons, List.mem_singleton, not_or, List.getLast?_eq_none_iff]
        refine ⟨?_, hopen⟩
        rintro rfl
        cases h
  · rintro ⟨before, hb, rfl | ⟨hbefore, hcomplete⟩⟩
    · rw [List.nil_append] at hb
      rw [hb, Nat.sub_eq_zero_of_le (by split_ifs at hlen <;> omega), dropLines]
    · rw [hcomplete, if_pos (by simp)] at hlen
      have hten : (lastLines 10 content).count newline = 10 := by
        by_contra hfew
        have hall := @lastLines_of_le content 10 (by omega)
        have hshort := congrArg List.length hb
        rw [hall, List.length_append, List.length_take] at hshort
        omega
      rw [hb, List.count_append, hten, Nat.add_sub_cancel, dropLines_append (.inr hbefore)]

theorem cmdTail_iff (split : ℕ → ℕ) (content : List UInt8) :
    cmdTail split content = lastLines 10 content ↔ TailFits content := by
  rw [TailFits]
  split_ifs with h
  · exact cmdTail_short split h
  · exact cmdTail_long split (Nat.lt_of_not_le h)

theorem lineMatch_iff : lineMatch pattern line = true ↔ pattern <:+: line := by
  rw [lineMatch, List.any_eq_true]
  constructor
  · rintro ⟨j, -, hj⟩
    obtain ⟨-, htake⟩ := of_decide_eq_true hj
    rw [← htake]
    exact (List.take_prefix _ _).isInfix.trans (List.drop_suffix _ _).isInfix
  · rintro ⟨a, b, rfl⟩
    refine ⟨a.length, List.mem_range.2 ?_, decide_eq_true ⟨?_, ?_⟩⟩
    · simp only [List.length_append]
      omega
    · simp only [List.length_append]
      omega
    · rw [List.append_assoc, List.drop_left, List.take_left]

theorem infix_newline (hp : newline ∉ pattern) :
    pattern <:+: line ++ [newline] ↔ pattern <:+: line := by
  refine ⟨fun ⟨a, b, h⟩ ↦ ?_, fun h ↦ h.trans (List.prefix_append _ _).isInfix⟩
  rcases List.eq_nil_or_concat b with rfl | ⟨b, c, rfl⟩
  · rcases List.eq_nil_or_concat pattern with rfl | ⟨q, d, rfl⟩
    · exact List.nil_infix
    · rw [List.append_nil, List.concat_eq_append, ← List.append_assoc] at h
      obtain ⟨-, hd⟩ := List.append_inj' h rfl
      obtain rfl := List.singleton_inj.1 hd
      exact absurd (by simp) hp
  · rw [List.concat_eq_append, ← List.append_assoc] at h
    exact ⟨a, b, (List.append_inj' h rfl).1⟩

theorem linesWith_cons (hp : newline ∉ pattern) (hline : newline ∉ line) (s : List UInt8) :
    linesWith pattern (line ++ newline :: s) =
      if lineMatch pattern line then (line ++ [newline]) ::
        linesWith pattern s else linesWith pattern s := by
  rw [linesWith, lines_append_sep hline, List.filter_cons]
  simp only [decide_eq_true_eq, infix_newline hp, lineMatch_iff]
  rfl

theorem grepLoop_eq (hp : newline ∉ pattern) (hline : newline ∉ line) (s : List UInt8) :
    grepLoop pattern line s =
      ((linesWith pattern (line ++ s ++ [newline])).flatten,
        decide (linesWith pattern (line ++ s ++ [newline]) ≠ [])) := by
  induction s generalizing line with
  | nil =>
    rw [List.append_nil, linesWith_cons hp hline, grepLoop]
    split_ifs
    · simp [linesWith, lines]
    · rfl
  | cons c s ih =>
    rw [grepLoop]
    by_cases hc : c = newline
    · subst hc
      rw [if_pos rfl, ih List.not_mem_nil, List.append_assoc line, List.cons_append,
        linesWith_cons hp hline, List.nil_append]
      dsimp only
      split_ifs
      · simp
      · rfl
    · rw [if_neg hc, ih (by simp [hline, Ne.symm hc])]
      simp

theorem grepLoop_newline (hp : newline ∈ pattern) (hline : newline ∉ line) (s : List UInt8) :
    grepLoop pattern line s = ([], false) := by
  have hno : ∀ line : List UInt8, newline ∉ line → ¬lineMatch pattern line = true := by
    intro line hline h
    exact hline ((lineMatch_iff.1 h).subset hp)
  induction s generalizing line with
  | nil => rw [grepLoop, if_neg (hno line hline)]
  | cons c s ih =>
    rw [grepLoop]
    by_cases hc : c = newline
    · rw [if_pos hc, ih List.not_mem_nil]
      exact if_neg (hno line hline)
    · rw [if_neg hc, ih (by simp [hline, Ne.symm hc])]

def Greps (split : ℕ → ℕ) (pattern content : List UInt8) : Prop :=
  (cmdGrep split pattern content).1 = (linesWith pattern content).flatten ∧
    ((cmdGrep split pattern content).2 = 0 ↔ linesWith pattern content ≠ [])

theorem linesWith_eq_nil :
    linesWith pattern s = [] ↔ ∀ line ∈ lines newline s, ¬pattern <:+: line := by
  rw [linesWith, List.filter_eq_nil_iff]
  simp only [decide_eq_true_eq]

theorem linesWith_flatten_eq_nil :
    (linesWith pattern s).flatten = [] ↔ linesWith pattern s = [] := by
  refine ⟨fun h ↦ List.eq_nil_iff_forall_not_mem.2 fun line hmem ↦ ?_,
    fun h ↦ by rw [h, List.flatten_nil]⟩
  exact lines_ne_nil_of_mem (List.mem_of_mem_filter hmem) (List.flatten_eq_nil_iff.1 h line hmem)

def openLine (s : List UInt8) : List UInt8 := s.rtakeWhile (· ≠ newline)

theorem newline_not_mem_openLine (s : List UInt8) : newline ∉ openLine s := fun h ↦ by
  simpa using List.mem_rtakeWhile_imp h

theorem lines_openLine (pattern s t : List UInt8) :
    linesWith pattern (s ++ t) =
      linesWith pattern (s.rdropWhile (· ≠ newline)) ++ linesWith pattern (openLine s ++ t) := by
  have hlast : s.rdropWhile (· ≠ newline) = [] ∨
      (s.rdropWhile (· ≠ newline)).getLast? = some newline := by
    rcases eq_or_ne (s.rdropWhile (· ≠ newline)) [] with h | h
    · exact .inl h
    · rw [List.getLast?_eq_some_getLast h]
      exact .inr (congrArg some (by simpa using List.rdropWhile_last_not (· ≠ newline) s h))
  conv_lhs =>
    rw [← List.rdropWhile_append_rtakeWhile (l := s) (p := (· ≠ newline)), List.append_assoc]
  rw [linesWith, lines_append hlast, List.filter_append]
  rfl

/-- Where the pattern may be for `cmd_grep` to be right: with a newline in it, in no line; in a file
that fits in the buffer, not behind the last newline; in a longer file, in no line from the one on
that the end of the buffer is in, which the pattern may be in if the byte behind the buffer is its
newline. -/
def GrepFits (pattern content : List UInt8) : Prop :=
  if newline ∈ pattern then ∀ line ∈ lines newline content, ¬pattern <:+: line
  else if content.length ≤ 4095 then ¬pattern <:+: openLine content
  else
    (content[4095]? = some newline ∧
      ∀ line ∈ lines newline (content.drop 4096), ¬pattern <:+: line) ∨
      ∀ line ∈ lines newline (openLine (content.take 4095) ++ content.drop 4095), ¬pattern <:+: line

theorem linesWith_closed (hp : newline ∉ pattern) (hline : newline ∉ line) :
    linesWith pattern
    (line ++ [newline]) = if lineMatch pattern line then [line ++ [newline]] else [] :=
  linesWith_cons hp hline []

theorem grep_short (hp : newline ∉ pattern) (hline : newline ∉ line) :
    (linesWith pattern (line ++ [newline])).flatten = (linesWith pattern line).flatten ↔
      ¬pattern <:+: line := by
  rw [linesWith_closed hp hline, ← lineMatch_iff]
  rcases eq_or_ne line [] with rfl | hne
  · split_ifs with hm
    · simp [hm, linesWith, lines]
    · simp [hm, linesWith, lines]
  · have hsingle : linesWith pattern line = if lineMatch pattern line then [line] else [] := by
      rw [linesWith, lines_eq_singleton hline hne, List.filter_singleton]
      simp only [lineMatch_iff, Bool.cond_decide]
    rw [hsingle]
    split_ifs with hm
    · simp [hm]
    · simp [hm]

theorem grep_long (hp : newline ∉ pattern) (hline : newline ∉ line) (c : UInt8) (s : List UInt8) :
    (linesWith pattern (line ++ [newline])).flatten = (linesWith pattern (line ++ c :: s)).flatten ↔
      (c = newline ∧ linesWith pattern s = []) ∨ linesWith pattern (line ++ c :: s) = [] := by
  rw [linesWith_closed hp hline]
  by_cases hm : lineMatch pattern line = true
  · rw [if_pos hm, List.flatten_singleton]
    by_cases hc : c = newline
    · subst hc
      rw [linesWith_cons hp hline, if_pos hm, List.flatten_cons, List.self_eq_append_right,
        linesWith_flatten_eq_nil]
      simp
    · obtain ⟨l, ls, -, hlines⟩ := lines_append_open hline c s
      have hin : pattern <:+: line ++ c :: l :=
        (lineMatch_iff.1 hm).trans (List.prefix_append _ _).isInfix
      rw [linesWith, hlines, List.filter_cons, if_pos (decide_eq_true hin), List.flatten_cons,
        List.append_assoc, List.append_cancel_left_eq, List.cons_append, List.cons.injEq]
      simp [hc, Ne.symm hc]
  · rw [if_neg hm, List.flatten_nil, eq_comm, linesWith_flatten_eq_nil]
    refine ⟨.inr, fun h ↦ h.elim (fun ⟨hc, hs⟩ ↦ ?_) id⟩
    rw [hc, linesWith_cons hp hline, if_neg hm, hs]

theorem cmdGrep_iff (split : ℕ → ℕ) (pattern content : List UInt8) :
    Greps split pattern content ↔ GrepFits pattern content := by
  rw [Greps, GrepFits, cmdGrep, fillBuffer_eq _ _ (Nat.zero_le _), List.nil_append]
  by_cases hp : newline ∈ pattern
  · rw [grepLoop_newline hp List.not_mem_nil, if_pos hp, ← linesWith_eq_nil]
    constructor
    · exact fun h ↦ linesWith_flatten_eq_nil.1 h.1.symm
    · intro h
      rw [h]
      exact ⟨rfl, by simp⟩
  · rw [grepLoop_eq hp List.not_mem_nil, if_neg hp, List.nil_append]
    have hput : ((linesWith pattern (content.take 4095 ++ [newline])).flatten =
          (linesWith pattern content).flatten ∧
        ((if decide (linesWith pattern (content.take 4095 ++ [newline]) ≠ []) = true then 0
          else 1) = 0 ↔
          linesWith pattern content ≠ [])) ↔
        (linesWith pattern (content.take 4095 ++ [newline])).flatten =
          (linesWith pattern content).flatten := by
      refine and_iff_left_of_imp fun h ↦ ?_
      have hnil := (@linesWith_flatten_eq_nil pattern (content.take 4095 ++ [newline])).symm.trans
        ((Eq.congr_left h).trans linesWith_flatten_eq_nil)
      simp [hnil]
    dsimp only
    rw [hput]
    split_ifs with hlen
    · rw [List.take_of_length_le hlen, lines_openLine, ← List.append_nil content,
        lines_openLine pattern content [],
        List.append_nil, List.append_nil, List.flatten_append, List.flatten_append,
        List.append_cancel_left_eq,
        grep_short hp (newline_not_mem_openLine _)]
    · obtain ⟨c, s, hs⟩ : ∃ c s, content.drop 4095 = c :: s := by
        refine List.exists_cons_of_ne_nil fun h ↦ hlen ?_
        exact List.drop_eq_nil_iff.1 h
      have hc : content[4095]? = some c := by rw [← List.head?_drop, hs, List.head?_cons]
      have hrest : content.drop 4096 = s := by
        rw [show 4096 = 4095 + 1 from rfl, ← List.drop_drop, hs, List.drop_one, List.tail_cons]
      rw [lines_openLine]
      conv_lhs => rhs; rw [← List.take_append_drop 4095 content, lines_openLine]
      rw [List.flatten_append, List.flatten_append, List.append_cancel_left_eq, hs,
        grep_long hp (newline_not_mem_openLine _), hc, hrest, linesWith_eq_nil, linesWith_eq_nil,
        Option.some_inj]

/-- What the four filters should put for a file. -/
structure Filters (split : ℕ → ℕ) (pattern content : List UInt8) : Prop where
  head : cmdHead split content = firstLines 10 content
  tail : cmdTail split content = lastLines 10 content
  wc : cmdWc split content = (content.count newline, (words content).length, content.length)
  grep : Greps split pattern content

/-- `head` and `wc` are right for every file; `tail` and `grep` are under the two conditions on the
file. -/
theorem filters_iff (split : ℕ → ℕ) (pattern content : List UInt8) :
    Filters split pattern content ↔ TailFits content ∧ GrepFits pattern content := by
  constructor
  · intro h
    exact ⟨(cmdTail_iff split content).1 h.tail, (cmdGrep_iff split pattern content).1 h.grep⟩
  · rintro ⟨htail, hgrep⟩
    exact ⟨cmdHead_eq split content, (cmdTail_iff split content).2 htail, cmdWc_eq split content,
      (cmdGrep_iff split pattern content).2 hgrep⟩

/-- Ten empty lines and a last line without a newline: `tail` puts eleven lines. -/
theorem not_filters :
    ¬ ∀ (split : ℕ → ℕ) (pattern content : List UInt8), Filters split pattern content := by
  intro h
  have htail := (h (fun _ ↦ 512) [121] (List.replicate 10 newline ++ [120])).tail
  rw [cmdTail_iff, TailFits, if_pos (by decide)] at htail
  exact absurd htail (by decide)

end YabroOS.Box
