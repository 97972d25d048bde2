import YabroOS.Shell.LineEditor
import Mathlib.Data.List.Destutter

namespace YabroOS.Shell

open Lib LineEditor

variable {first : Char} {e : LineEditor} {t : TwoLists} {r : Recall} {line : ℕ → Char}
  {before after l m x y entry : Word} {p : Char → Bool} {n pos src dst : ℕ}

/-- The buffer has the text of the two lists, with the cursor between them and a zero after the
text. Until the line has been changed at the prompt, its first character is what the line before
left there. -/
structure Shows (first : Char) (e : LineEditor) (t : TwoLists) : Prop where
  pos : e.pos = t.before.length
  len : e.len = t.before.length + t.after.length
  fits : e.len ≤ 511
  held : Holds e.line 0 (t.before ++ t.after)
  ends : e.line e.len = '\x00' ∨ e.len = 0 ∧ e.line 0 = first
  past : e.past = t.past

/-- `history_pos` is an index of the history, and an active draft is a line with a cursor. -/
structure Recall.Fits (history : List Word) (r : Recall) : Prop where
  pos : ∀ h ∈ r.pos, h < history.length
  draft : r.active = true → r.draft.length ≤ 511 ∧ r.draftPos ≤ r.draft.length

theorem skipBack_spec (h : Holds line 0 (l ++ m)) (hfit : l.length ≤ 512) :
    skipBack p line l.length = some (l.rdropWhile p).length := by
  induction l using List.reverseRecOn generalizing m with
  | nil => rfl
  | append_singleton l c ih =>
    rw [List.length_append, List.length_singleton] at hfit ⊢
    rw [List.append_assoc] at h
    have hc : line l.length = c := by
      have := holds_singleton.1 (holds_append.1 (holds_append.1 h).2).1
      rwa [Nat.zero_add] at this
    rw [skipBack, if_neg (by omega), hc, List.rdropWhile_concat]
    cases p c with
    | true => exact ih h (by omega)
    | false =>
      rw [if_neg Bool.false_ne_true, if_neg Bool.false_ne_true, List.length_append,
        List.length_singleton]

theorem skipForward_spec (h : Holds line pos l) (hfit : pos + l.length ≤ 512) :
    skipForward p line l.length pos = some (pos + (l.takeWhile p).length) := by
  induction l generalizing pos with
  | nil => rfl
  | cons c l ih =>
    rw [List.length_cons] at hfit ⊢
    have hc : line pos = c := h 0 (Nat.succ_pos _)
    rw [skipForward, if_neg (by omega), hc, List.takeWhile_cons]
    cases p c with
    | true =>
      rw [if_pos rfl, if_pos rfl, ih h.tail (by omega), List.length_cons]
      congr 1
      omega
    | false => rfl

theorem eraseBack_spec (h : Holds line 0 (l ++ m)) (hfit : l.length + m.length ≤ 512) :
    ∃ line', eraseBack p l.length (l.length + m.length) line =
        some (line', (l.rdropWhile p).length + m.length, (l.rdropWhile p).length) ∧
      Holds line' 0 (l.rdropWhile p ++ m) := by
  induction l using List.reverseRecOn generalizing line with
  | nil => exact ⟨line, rfl, h⟩
  | append_singleton l c ih =>
    rw [List.length_append, List.length_singleton] at hfit ⊢
    have hl := (holds_append.1 h).1
    have hm := (holds_append.1 h).2
    rw [List.length_append, List.length_singleton, Nat.zero_add] at hm
    have hc : line l.length = c := by
      have := holds_singleton.1 (holds_append.1 hl).2
      rwa [Nat.zero_add] at this
    rw [eraseBack, if_neg (by omega), hc, List.rdropWhile_concat]
    cases p c with
    | true =>
      obtain ⟨line₁, hcopy, hl', hm'⟩ := copyUp_holds 512 (holds_append.1 hl).1 hm (Nat.le_refl _)
        (Nat.le_succ _) (by omega)
      have h' : Holds line₁ 0 (l ++ m) := holds_append.2 ⟨hl', by rwa [Nat.zero_add]⟩
      obtain ⟨line', hloop, hheld⟩ := ih h' (by omega)
      refine ⟨line', ?_, hheld⟩
      rw [if_pos rfl, show l.length + 1 + m.length - (l.length + 1) = m.length by omega, hcopy,
        Option.bind_some,
        show l.length + 1 + m.length - 1 = l.length + m.length by omega]
      exact hloop
    | false =>
      refine ⟨line, ?_, h⟩
      rw [if_neg Bool.false_ne_true, if_neg Bool.false_ne_true, List.length_append,
        List.length_singleton]

theorem close_shows (first : Char) (e : LineEditor) (h : Holds line 0 (before ++ after))
    (hn : n = before.length + after.length) (hp : pos = before.length) (hfit : n ≤ 511) :
    ∃ e', e.close line n pos = some e' ∧ Shows first e' ⟨before, after, e.past⟩ := by
  refine ⟨{ e with line := Function.update line n '\x00', len := n, pos := pos }, ?_, ?_⟩
  · rw [LineEditor.close, store_of_lt (by omega)]
    rfl
  · refine ⟨hp, hn, hfit, fun i hi ↦ ?_, .inl (Function.update_self _ _ _), rfl⟩
    have hlt : i < (before ++ after).length := hi
    have hne : 0 + i ≠ n := by
      rw [List.length_append] at hlt
      omega
    exact (Function.update_of_ne hne _ _).trans (h i hi)

theorem load_shows (first : Char) (e : LineEditor) (hfit : entry.length ≤ 511)
    (hp : pos ≤ entry.length) :
    ∃ e', e.load entry pos = some e' ∧ Shows first e' ⟨entry.take pos, entry.drop pos, e.past⟩ := by
  obtain ⟨line, hwrite, hheld, -⟩ := @writeList_spec _ 0 entry 512 e.line (by omega)
  rw [← List.take_append_drop pos entry] at hheld
  have hlen : entry.length = (entry.take pos).length + (entry.drop pos).length := by
    rw [List.length_take, List.length_drop]
    omega
  obtain ⟨e', hclose, hshows⟩ := close_shows first e hheld hlen (List.length_take_of_le hp).symm hfit
  refine ⟨e', ?_, hshows⟩
  rw [LineEditor.load, hwrite]
  exact hclose

theorem Shows.move (h : Shows first e t) (htext : before ++ after = t.before ++ t.after)
    (hp : pos = before.length) :
    Shows first { e with pos := pos } { t with before := before, after := after } := by
  refine ⟨hp, ?_, h.fits, ?_, h.ends, h.past⟩
  · rw [← List.length_append, htext, List.length_append]
    exact h.len
  · change Holds e.line 0 (before ++ after)
    rw [htext]
    exact h.held

theorem Shows.held_before (h : Shows first e t) : Holds e.line 0 t.before :=
  (holds_append.1 h.held).1

theorem Shows.held_after (h : Shows first e t) : Holds e.line e.pos t.after := by
  rw [h.pos, ← Nat.zero_add t.before.length]
  exact (holds_append.1 h.held).2

theorem Shows.rest (h : Shows first e t) : e.len - e.pos = t.after.length := by
  rw [h.len, h.pos]
  omega

theorem Shows.text (h : Shows first e t) : e.text = t.before ++ t.after := by
  refine List.ext_getElem ?_ fun i hi hi' ↦ ?_
  · rw [LineEditor.text, List.length_map, List.length_range, h.len, List.length_append]
  · have := h.held i hi'
    rw [Nat.zero_add] at this
    simpa [LineEditor.text] using this

theorem Shows.replace (h : Shows first e t) (htext : t.before ++ t.after = l ++ (x ++ m))
    (hsrc : src = l.length + x.length) (hdst : dst = l.length + y.length) (hn : n = dst + m.length)
    (hfit : n ≤ 511) :
    ∃ e', ((if src < dst then copyDown 512 m.length src dst e.line else copyUp 512 m.length src dst
      e.line).bind fun line ↦
        (writeList 512 y l.length line).bind fun line ↦ e.close line n dst) = some e' ∧
      Shows first e' ⟨l ++ y, m, t.past⟩ := by
  have hheld := h.held
  have hfits := h.fits
  have hlen := h.len
  rw [← List.length_append, htext, List.length_append, List.length_append] at hlen
  rw [htext, ← List.append_assoc] at hheld
  have hm := (holds_append.1 hheld).2
  rw [Nat.zero_add, List.length_append, ← hsrc] at hm
  have hl := (holds_append.1 (holds_append.1 hheld).1).1
  have hcopied : ∃ line, (if src < dst then copyDown 512 m.length src dst e.line
      else copyUp 512 m.length src dst e.line) = some line ∧ Holds line 0 l ∧ Holds line dst m := by
    split
    · exact copyDown_holds 512 hl hm (by omega) (by omega) (by omega)
    · exact copyUp_holds 512 hl hm (by omega) (by omega) (by omega)
  obtain ⟨line, hcopy, hl', hm'⟩ := hcopied
  obtain ⟨line', hwrite, hy, hkeeps⟩ := @writeList_spec _ l.length y 512 line (by omega)
  have hfront : Holds line' 0 (l ++ y) :=
    holds_append.2 ⟨hl'.kept hkeeps (.inl (by omega)), by rwa [Nat.zero_add]⟩
  have htail : Holds line' (0 + (l ++ y).length) m := by
    rw [Nat.zero_add, List.length_append, ← hdst]
    exact hm'.kept hkeeps (.inr (by omega))
  have hlength : dst = (l ++ y).length := by
    rw [List.length_append]
    exact hdst
  obtain ⟨e', hclose, hshows⟩ :=
    close_shows first e (holds_append.2 ⟨hfront, htail⟩) (by rw [← hlength]; exact hn) hlength hfit
  rw [h.past] at hshows
  exact ⟨e', by rw [hcopy, Option.bind_some, hwrite, Option.bind_some, hclose], hshows⟩

theorem Shows.cut (h : Shows first e t) (htext : t.before ++ t.after = l ++ (x ++ m))
    (hsrc : src = l.length + x.length) (hn : n = l.length + m.length) :
    ∃ e', ((copyUp 512 m.length src l.length e.line).bind fun line ↦ e.close line n l.length) =
      some e' ∧ Shows first e' ⟨l, m, t.past⟩ := by
  have hfits := h.fits
  have hlen := h.len
  rw [← List.length_append, htext, List.length_append, List.length_append] at hlen
  have hdst : l.length = l.length + ([] : Word).length := rfl
  obtain ⟨e', hrun, hshows⟩ := h.replace htext hsrc hdst hn (by omega)
  rw [if_neg (by omega)] at hrun
  rw [List.append_nil] at hshows
  exact ⟨e', hrun, hshows⟩

section Keys

variable {history : List Word} {offers : Word → Word → List (Word × Bool)}

theorem key_left (h : Shows first e t) :
    ∃ e', e.key history offers .left = some e' ∧ Shows first e' (t.key history offers .left) := by
  refine ⟨_, rfl, h.move ?_ ?_⟩
  · cases hc : t.before.getLast? with
    | none =>
      rw [List.getLast?_eq_none_iff.1 hc]
      rfl
    | some c =>
      rw [← List.append_assoc]
      exact congrArg (· ++ t.after) (List.dropLast_append_getLast? c hc)
  · rw [h.pos, List.length_dropLast]

theorem key_right (h : Shows first e t) :
    ∃ e', e.key history offers .right = some e' ∧ Shows first e' (t.key history offers .right) := by
  obtain ⟨before, after, r⟩ := t
  have hrest := h.rest
  refine ⟨_, rfl, ?_⟩
  cases after with
  | nil =>
    rw [if_neg (by rw [List.length_nil] at hrest; omega)]
    simpa only [TwoLists.key, List.head?_nil, Option.toList_none, List.append_nil, List.tail_nil]
      using h
  | cons c after =>
    rw [if_pos (by rw [List.length_cons] at hrest; omega)]
    have hp : e.pos + 1 = (before ++ [c]).length := by
      rw [List.length_append, h.pos]
      rfl
    exact h.move (List.append_assoc _ _ _) hp

theorem key_home (h : Shows first e t) :
    ∃ e', e.key history offers .home = some e' ∧ Shows first e' (t.key history offers .home) :=
  ⟨_, rfl, h.move rfl rfl⟩

theorem key_stop (h : Shows first e t) :
    ∃ e', e.key history offers .stop = some e' ∧ Shows first e' (t.key history offers .stop) :=
  ⟨_, rfl, h.move (List.append_nil _) (by rw [h.len, List.length_append])⟩

theorem key_wordLeft (h : Shows first e t) :
    ∃ e', e.key history offers .wordLeft = some e' ∧
      Shows first e' (t.key history offers .wordLeft) := by
  have hbefore := h.fits
  rw [h.len] at hbefore
  have hspaces := List.rdropWhile_prefix lineWordSpace t.before
  have hword := List.rdropWhile_prefix (!lineWordSpace ·) (t.before.rdropWhile lineWordSpace)
  have h₁ : skipBack lineWordSpace e.line e.pos =
      some (t.before.rdropWhile lineWordSpace).length := by
    rw [h.pos]
    exact skipBack_spec h.held (by omega)
  have hheld := h.held_before
  rw [List.prefix_iff_eq_append.1 hspaces |>.symm] at hheld
  have h₂ := skipBack_spec (p := (!lineWordSpace ·)) hheld (hspaces.length_le.trans (by omega))
  refine ⟨_, by rw [LineEditor.key, h₁, Option.bind_some, h₂, Option.map_some], h.move ?_ rfl⟩
  rw [← List.append_assoc, List.prefix_iff_eq_append.1 (hword.trans hspaces)]

theorem key_wordRight (h : Shows first e t) :
    ∃ e', e.key history offers .wordRight = some e' ∧
      Shows first e' (t.key history offers .wordRight) := by
  obtain ⟨before, after, r⟩ := t
  have hfits := h.fits
  have hrest : e.len - e.pos = after.length := h.rest
  have hlen := h.len
  have hpos : e.pos = before.length := h.pos
  have hsplit := List.takeWhile_append_dropWhile (p := (!lineWordSpace ·)) (l := after)
  have hsplit' := congrArg List.length hsplit
  rw [List.length_append] at hsplit'
  have h₁ := skipForward_spec (p := (!lineWordSpace ·)) h.held_after (by dsimp only at hlen ⊢; omega)
  have hafter : Holds e.line e.pos after := h.held_after
  rw [← hsplit] at hafter
  have h₂ := skipForward_spec (p := lineWordSpace) (holds_append.1 hafter).2
    (by dsimp only at hlen; omega)
  dsimp only at hlen h₁
  refine ⟨{ e with pos := e.pos + (after.takeWhile (!lineWordSpace ·)).length +
    ((after.dropWhile (!lineWordSpace ·)).takeWhile lineWordSpace).length }, ?_, h.move ?_ ?_⟩
  · rw [LineEditor.key, hrest, h₁, Option.bind_some,
      show e.len - (e.pos + (after.takeWhile (!lineWordSpace ·)).length) =
        (after.dropWhile (!lineWordSpace ·)).length by omega, h₂]
    rfl
  · dsimp only
    rw [List.append_assoc, List.append_assoc, List.takeWhile_append_dropWhile, hsplit]
  · dsimp only
    rw [List.length_append, List.length_append, hpos, Nat.add_assoc]

theorem key_backspace (h : Shows first e t) :
    ∃ e', e.key history offers .backspace = some e' ∧
      Shows first e' (t.key history offers .backspace) := by
  have hpos := h.pos
  have hlen := h.len
  cases hb : t.before using List.reverseRecOn with
  | nil =>
    rw [hb] at hpos
    refine ⟨e, if_neg (by rw [hpos]; exact lt_irrefl 0), ?_⟩
    rw [TwoLists.key, hb, List.dropLast_nil, ← hb]
    exact h
  | append_singleton before c =>
    rw [hb, List.length_append, List.length_singleton] at hpos hlen
    rw [LineEditor.key, if_pos (by omega), h.rest, show e.pos - 1 = before.length by omega,
      TwoLists.key, hb, List.dropLast_concat]
    exact h.cut (x := [c]) (by rw [hb, List.append_assoc]) hpos (by omega)

theorem key_delete (h : Shows first e t) :
    ∃ e', e.key history offers .delete = some e' ∧
      Shows first e' (t.key history offers .delete) := by
  have hpos := h.pos
  have hlen := h.len
  have hrest := h.rest
  cases ha : t.after with
  | nil =>
    rw [ha, List.length_nil] at hrest
    refine ⟨e, if_neg (by omega), ?_⟩
    rw [TwoLists.key, ha, List.tail_nil, ← ha]
    exact h
  | cons c after =>
    rw [ha, List.length_cons] at hlen hrest
    rw [LineEditor.key, if_pos (by omega), show e.len - (e.pos + 1) = after.length by omega, hpos,
      TwoLists.key, ha, List.tail_cons]
    exact h.cut (x := [c]) (by rw [ha]; rfl) rfl (by omega)

theorem key_killStart (h : Shows first e t) :
    ∃ e', e.key history offers .killStart = some e' ∧
      Shows first e' (t.key history offers .killStart) := by
  have hrest := h.rest
  rw [LineEditor.key, hrest]
  exact h.cut (l := []) rfl (by rw [h.pos, List.length_nil, Nat.zero_add])
    (by rw [List.length_nil, Nat.zero_add])

theorem key_killEnd (h : Shows first e t) :
    ∃ e', e.key history offers .killEnd = some e' ∧
      Shows first e' (t.key history offers .killEnd) := by
  have hfits := h.fits
  have hlen := h.len
  have hpos := h.pos
  have hheld : Holds e.line 0 (t.before ++ []) := by
    rw [List.append_nil]
    exact h.held_before
  obtain ⟨e', hclose, hshows⟩ := close_shows first e hheld h.pos h.pos (by omega)
  rw [h.past] at hshows
  exact ⟨e', hclose, hshows⟩

theorem key_char (h : Shows first e t) (c : Char) :
    ∃ e', e.key history offers (.char c) = some e' ∧
      Shows first e' (t.key history offers (.char c)) := by
  have hlen := h.len
  have hpos := h.pos
  rw [LineEditor.key, TwoLists.key, ← hlen]
  by_cases hroom : e.len < 511
  · have hdst : e.pos + 1 = t.before.length + [c].length := by
      rw [hpos]
      rfl
    obtain ⟨e', hreplace, hshows⟩ :=
      h.replace (x := []) (m := t.after) (n := e.len + 1) rfl hpos hdst (by omega) (by omega)
    rw [if_pos hroom, if_pos hroom]
    refine ⟨e', ?_, hshows⟩
    rw [← hreplace, if_pos (Nat.lt_succ_self _), h.rest]
    congr 1
    funext line
    rw [writeList, hpos]
    cases store 512 line t.before.length c <;> rfl
  · exact ⟨e, if_neg hroom, by rwa [if_neg hroom]⟩

theorem key_eraseWord (h : Shows first e t) :
    ∃ e', e.key history offers .eraseWord = some e' ∧
      Shows first e' (t.key history offers .eraseWord) := by
  have hfits := h.fits
  rw [h.len] at hfits
  obtain ⟨line₁, hloop₁, hheld₁⟩ := eraseBack_spec (p := lineWordSpace) h.held (by omega)
  have hspaces := (List.rdropWhile_prefix lineWordSpace t.before).length_le
  obtain ⟨line₂, hloop₂, hheld₂⟩ := eraseBack_spec (p := (!lineWordSpace ·)) hheld₁ (by omega)
  have hword :=
    (List.rdropWhile_prefix (!lineWordSpace ·) (t.before.rdropWhile lineWordSpace)).length_le
  obtain ⟨e', hclose, hshows⟩ := close_shows first e hheld₂ rfl rfl (by omega)
  rw [h.past] at hshows
  refine ⟨e', ?_, hshows⟩
  rw [LineEditor.key, h.pos, h.len, hloop₁, Option.bind_some]
  dsimp only
  rw [hloop₂]
  exact hclose

theorem loadEntry_shows (first : Char) (e : LineEditor) {h : ℕ} (hh : h < history.length) :
    ∃ e', e.loadEntry history h = some e' ∧
      Shows first e' ⟨(history.getD h []).take 511, [], e.past⟩ := by
  have hentry : history.getD h [] = history[h] := by
    rw [List.getD_eq_getElem?_getD, List.getElem?_eq_getElem hh, Option.getD_some]
  obtain ⟨e', hload, hshows⟩ :=
    load_shows first e (List.length_take_le 511 history[h]) (Nat.le_refl _)
  rw [List.take_length, List.drop_length] at hshows
  refine ⟨e', ?_, by rwa [hentry]⟩
  rw [LineEditor.loadEntry, List.getElem?_eq_getElem hh]
  exact hload

theorem key_up (h : Shows first e t) (hr : t.past.Fits history) :
    ∃ e', e.key history offers .up = some e' ∧ Shows first e' (t.key history offers .up) ∧
      (t.key history offers .up).past.Fits history := by
  change ∃ e', e.historyUp history = some e' ∧ Shows first e' (t.up history) ∧
    (t.up history).past.Fits history
  rw [LineEditor.historyUp, TwoLists.up]
  by_cases hempty : history = []
  · rw [if_pos hempty, if_pos hempty]
    exact ⟨e, rfl, h, hr⟩
  have hlength := List.length_pos_iff.2 hempty
  rw [if_neg hempty, if_neg hempty, h.past]
  cases hp : t.past.pos with
  | none =>
    have hfits := h.fits
    have hread := readList_spec 512 h.held (by rw [List.length_append, ← h.len]; omega)
    rw [List.length_append, ← h.len] at hread
    dsimp only
    rw [hread, Option.bind_some, if_neg (by omega), h.pos]
    obtain ⟨e', hload, hshows⟩ := loadEntry_shows first
      { e with past := ⟨some (history.length - 1), t.before ++ t.after, t.before.length, true⟩ }
      (show history.length - 1 < history.length by omega)
    refine ⟨e', hload, hshows, ?_, ?_⟩
    · rintro h' ⟨⟩
      omega
    · intro _
      change (t.before ++ t.after).length ≤ 511 ∧ t.before.length ≤ (t.before ++ t.after).length
      rw [List.length_append, ← h.len]
      exact ⟨h.fits, by rw [h.len]; omega⟩
  | some h' =>
    have hlt := hr.pos h' hp
    cases h' with
    | zero => exact ⟨e, rfl, h, hr⟩
    | succ h' =>
      obtain ⟨e', hload, hshows⟩ :=
        loadEntry_shows first { e with past := { t.past with pos := some h' } }
        (Nat.lt_of_succ_lt hlt)
      refine ⟨e', hload, hshows, ?_, hr.draft⟩
      rintro _ ⟨⟩
      exact Nat.lt_of_succ_lt hlt

theorem key_down (h : Shows first e t) (hr : t.past.Fits history) :
    ∃ e', e.key history offers .down = some e' ∧ Shows first e' (t.key history offers .down) ∧
      (t.key history offers .down).past.Fits history := by
  change ∃ e', e.historyDown history = some e' ∧ Shows first e' (t.down history) ∧
    (t.down history).past.Fits history
  rw [LineEditor.historyDown, TwoLists.down, h.past]
  cases hp : t.past.pos with
  | none => exact ⟨e, rfl, h, hr⟩
  | some h' =>
    dsimp only
    by_cases hnext : h' + 1 < history.length
    · obtain ⟨e', hload, hshows⟩ :=
        loadEntry_shows first { e with past := { t.past with pos := some (h' + 1) } } hnext
      rw [if_pos hnext, if_pos hnext]
      refine ⟨e', hload, hshows, ?_, hr.draft⟩
      rintro _ ⟨⟩
      exact hnext
    rw [if_neg hnext, if_neg hnext]
    cases hactive : t.past.active with
    | true =>
      obtain ⟨hdraft, hpos⟩ := hr.draft hactive
      obtain ⟨e', hload, hshows⟩ :=
        load_shows first { e with past := { t.past with pos := none, active := false } } hdraft hpos
      rw [if_pos rfl, if_pos rfl]
      exact ⟨e', hload, hshows, ⟨nofun, nofun⟩⟩
    | false =>
      obtain ⟨e', hclose, hshows⟩ :=
        close_shows first { e with past := { t.past with pos := none, active := false } }
        (show Holds e.line 0 ([] ++ []) from holds_nil) rfl rfl (by decide)
      rw [if_neg Bool.false_ne_true, if_neg Bool.false_ne_true]
      exact ⟨e', hclose, hshows, ⟨nofun, nofun⟩⟩

theorem token_text (t : TwoLists) :
    t.before ++ t.after = t.token.1 ++ (t.token.2.1 ++ t.token.2.2) := by
  conv_lhs => rw [← List.rdropWhile_append_rtakeWhile (p := (!tokenEnd ·)) (l := t.before),
    ← List.takeWhile_append_dropWhile (p := (!tokenEnd ·)) (l := t.after)]
  simp only [TwoLists.token, List.append_assoc]

theorem Shows.scans (h : Shows first e t) :
    skipBack (!tokenEnd ·) e.line e.pos = some t.token.1.length ∧
      skipForward (!tokenEnd ·) e.line (e.len - e.pos) e.pos =
        some (t.token.1.length + t.token.2.1.length) := by
  have hfits := h.fits
  have hlen := h.len
  have hbefore :=
    congrArg List.length (List.rdropWhile_append_rtakeWhile (p := (!tokenEnd ·)) (l := t.before))
  rw [List.length_append] at hbefore
  constructor
  · rw [h.pos]
    exact skipBack_spec h.held (by omega)
  · rw [h.rest, skipForward_spec h.held_after (by rw [h.pos]; omega), h.pos]
    simp only [TwoLists.token, List.length_append]
    congr 1
    omega

theorem key_tab (h : Shows first e t) :
    ∃ e', e.key history offers .tab = some e' ∧ Shows first e' (t.key history offers .tab) := by
  change ∃ e', e.tabComplete offers = some e' ∧ Shows first e' (t.complete offers)
  obtain ⟨hstart, hstop⟩ := h.scans
  have htext := token_text t
  have hlen := h.len
  have hfits := h.fits
  have hheld := h.held
  rw [LineEditor.tabComplete, hstart, Option.bind_some, hstop, Option.bind_some, TwoLists.complete]
  rcases hsplit : t.token with ⟨front, token, tail⟩
  rw [hsplit] at htext
  dsimp only at htext ⊢
  rw [← List.length_append, htext, List.length_append, List.length_append] at hlen
  rw [htext] at hheld
  have htoken : Holds e.line front.length token := by
    rw [← Nat.zero_add front.length]
    exact (holds_append.1 (holds_append.1 hheld).2).1
  have hend : decide (front.length + token.length = e.len) = decide (tail = []) := by
    rw [decide_eq_decide, hlen, ← List.length_eq_zero_iff]
    omega
  rw [Nat.add_sub_cancel_left, readList_spec 512 (holds_append.1 hheld).1 (by omega),
    Option.bind_some,
    readList_spec 512 htoken (by omega), Option.bind_some, hend,
    show e.len - (front.length + token.length) = tail.length by omega]
  split
  · exact ⟨e, rfl, h⟩
  cases replacement token.length (tail = []) ((offers front token).foldl completionAdd []) with
  | none => exact ⟨e, rfl, h⟩
  | some rs =>
    obtain ⟨rep, space⟩ := rs
    dsimp only
    generalize (rep ++ if space then [' '] else []) = word
    rw [List.length_append]
    by_cases hroom : 511 < front.length + word.length + tail.length
    · rw [if_pos hroom, if_pos hroom]
      exact ⟨e, rfl, h⟩
    · rw [if_neg hroom, if_neg hroom]
      exact h.replace htext rfl rfl rfl (by omega)

theorem key_shows (h : Shows first e t) (hr : t.past.Fits history) (k : Key) :
    ∃ e', e.key history offers k = some e' ∧ Shows first e' (t.key history offers k) ∧
      (t.key history offers k).past.Fits history := by
  have keep : (∃ e', e.key history offers k = some e' ∧ Shows first e' (t.key history offers k)) →
      (t.key history offers k).past = t.past →
      ∃ e', e.key history offers k = some e' ∧ Shows first e' (t.key history offers k) ∧
        (t.key history offers k).past.Fits history := by
    rintro ⟨e', hkey, hshows⟩ hrecall
    exact ⟨e', hkey, hshows, by rwa [hrecall]⟩
  cases k with
  | up => exact key_up h hr
  | down => exact key_down h hr
  | left => exact keep (key_left h) rfl
  | right => exact keep (key_right h) rfl
  | home => exact keep (key_home h) rfl
  | stop => exact keep (key_stop h) rfl
  | wordLeft => exact keep (key_wordLeft h) rfl
  | wordRight => exact keep (key_wordRight h) rfl
  | tab =>
    refine keep (key_tab h) ?_
    simp only [TwoLists.key, TwoLists.complete]
    split_ifs
    · rfl
    · split
      · rfl
      · split_ifs <;> rfl
  | backspace => exact keep (key_backspace h) rfl
  | delete => exact keep (key_delete h) rfl
  | eraseWord => exact keep (key_eraseWord h) rfl
  | killStart => exact keep (key_killStart h) rfl
  | killEnd => exact keep (key_killEnd h) rfl
  | clear => exact ⟨e, rfl, h, hr⟩
  | char c =>
    refine keep (key_char h c) ?_
    rw [TwoLists.key]
    split_ifs <;> rfl
  | other => exact ⟨e, rfl, h, hr⟩

theorem run_shows (codes : List ℕ) (h : Shows first e t) (hr : t.past.Fits history) :
    ∃ e', e.run history offers codes = some e' ∧ Shows first e' (t.run history offers codes) ∧
      (t.run history offers codes).past.Fits history := by
  induction codes generalizing e t with
  | nil => exact ⟨e, rfl, h, hr⟩
  | cons code codes ih =>
    obtain ⟨e₁, hkey, h₁, hr₁⟩ := @key_shows _ _ _ _ offers h hr (.ofCode code)
    obtain ⟨e', hrun, hshows⟩ := ih h₁ hr₁
    refine ⟨e', ?_, hshows⟩
    rw [LineEditor.run, List.foldlM_cons, hkey]
    exact hrun

end Keys

theorem destutter_concat (l : List Word) (x : Word) : (l ++ [x]).destutter (· ≠ ·) =
    if (l.destutter (· ≠ ·)).getLast? = some x then l.destutter (· ≠ ·) else l.destutter (· ≠ ·) ++
      [x] := by
  cases l with
  | nil => rfl
  | cons a l =>
    rw [List.cons_append, List.destutter_cons', List.destutter_cons']
    induction l generalizing a with
    | nil => by_cases h : a = x <;> simp [h]
    | cons b l ih =>
      rw [List.cons_append, List.destutter'_cons, List.destutter'_cons]
      by_cases h : a ≠ b
      · rw [if_pos h, if_pos h, ih b, List.getLast?_cons_of_ne_nil (List.destutter'_ne_nil l _),
          apply_ite (List.cons a), List.cons_append]
      · rw [if_neg h, if_neg h, ih a]

def newest (l : List Word) : List Word := l.drop (l.length - historyMax)

theorem historySave_newest (l : List Word) (x : Word) :
    historySave (newest l) x = newest (if x = [] ∨ l.getLast? = some x then l else l ++ [x]) := by
  have hmax : historyMax = 64 := rfl
  have hlast : (newest l).getLast? = l.getLast? := by
    rw [newest, List.getLast?_drop]
    split_ifs with hl
    · rw [List.eq_nil_of_length_eq_zero (show l.length = 0 by omega), List.getLast?_nil]
    · rfl
  rw [historySave, hlast, newest, List.length_drop]
  split_ifs with hkeep hroom
  · rfl
  · rw [newest, List.length_append, List.length_singleton, Nat.sub_eq_zero_of_le (by omega),
      Nat.sub_eq_zero_of_le (by omega)]
    rfl
  · rw [newest, List.length_append, List.length_singleton,
      List.drop_append_of_le_length (by omega), List.drop_drop]
    congr 2
    omega

/-- The history holds the newest lines. -/
theorem history_newest (lines : List Word) :
    lines.foldl historySave [] = newest ((lines.filter (· ≠ [])).destutter (· ≠ ·)) := by
  induction lines using List.reverseRecOn with
  | nil => rfl
  | append_singleton lines x ih =>
    rw [List.foldl_concat, ih, historySave_newest, List.filter_append]
    by_cases h : x = []
    · simp [h]
    · rw [List.filter_cons_of_pos (by simpa using h), List.filter_nil, destutter_concat]
      simp only [h, false_or]

end YabroOS.Shell
