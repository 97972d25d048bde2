import YabroOS.Shell.RunLine

namespace YabroOS.Shell

/-- What a word is made of: characters that are stored, and variables, with whether the name is read
to its end. -/
inductive Part
  | literal (c : Char)
  | named (name : Word) (whole : Bool)

/-- A word or a redirection target of a line. -/
structure Item where
  target : Bool
  parts : List Part

def fullName : Word → Word
  | '?' :: _ => ['?']
  | s => s.takeWhile isNameChar

def withPart (p : Part) (r : Bool × List Part × Word) : Bool × List Part × Word :=
  (r.1, p :: r.2.1, r.2.2)

/-- The parts of a word with what comes after it, as `parse_word` finds them, whatever the variables
stand for. -/
def wordParts : Word → ℕ → Bool → Bool → Bool → Option (Bool × List Part × Word)
  | [], _, single, dbl, had => if single || dbl then none else some (had, [], [])
  | _ :: s, skip + 1, single, dbl, had => wordParts s skip single dbl had
  | c :: s, 0, single, dbl, had =>
    if !single && !dbl && c ∈ [' ', '\t', '\n', '|', '>', '<'] then some (had, [], c :: s)
    else if c = '\'' ∧ dbl = false then wordParts s 0 (!single) dbl true
    else if c = '"' ∧ single = false then wordParts s 0 single (!dbl) true
    else if c = '\\' ∧ single = false then
      match s with
      | [] => none
      | c :: s => (wordParts s 0 single dbl true).map (withPart (.literal c))
    else if c = '$' ∧ single = false ∧ varName s ≠ [] then
      (wordParts s (varName s).length single dbl true).map
        (withPart (.named (varName s) ((fullName s).length ≤ 63)))
    else (wordParts s 0 single dbl true).map (withPart (.literal c))

/-- The words and targets of a line up to the first error that does not depend on the variables;
`sc` and `n` are the numbers of the stage and of its words. -/
def items : ℕ → Word → ℕ → ℕ → List Item
  | 0, _, _, _ | _, [], _, _ => []
  | rounds + 1, c :: s, sc, n =>
    if c ∈ [' ', '\t', '\n'] then items rounds s sc n
    else if c = '|' then if n = 0 ∨ 3 ≤ sc then [] else items rounds s (sc + 1) 0
    else if c = '>' ∨ c = '<' then
      let app := c = '>' ∧ s.head? = some '>'
      let s := (if app then s.tail else s).dropWhile (· ∈ [' ', '\t'])
      if s.head? ∈ [none, some '|', some '>', some '<'] then []
      else
        match wordParts s 0 false false false with
        | none => []
        | some (had, parts, rest) =>
          if had = false ∨ rest.head? ∈ [some '|', some '>', some '<'] then []
          else ⟨true, parts⟩ :: items rounds rest sc n
    else if 31 ≤ n then []
    else
      match wordParts (c :: s) 0 false false false with
      | none => []
      | some (had, parts, rest) =>
        if had = false then [] else ⟨false, parts⟩ :: items rounds rest sc (n + 1)

def lineItems (line : Word) : List Item := items line.length line 0 0

section Expansion

variable (value : Word → Word)

def expandWord : Word → ℕ → Bool → Bool → Bool → Word → Option (Bool × Word × Word)
  | [], _, single, dbl, had, out => if single || dbl then none else some (had, out, [])
  | _ :: s, skip + 1, single, dbl, had, out => expandWord s skip single dbl had out
  | c :: s, 0, single, dbl, had, out =>
    if !single && !dbl && c ∈ [' ', '\t', '\n', '|', '>', '<'] then some (had, out, c :: s)
    else if c = '\'' ∧ dbl = false then expandWord s 0 (!single) dbl true out
    else if c = '"' ∧ single = false then expandWord s 0 single (!dbl) true out
    else if c = '\\' ∧ single = false then
      match s with
      | [] => none
      | c :: s => expandWord s 0 single dbl true (out ++ [c])
    else if c = '$' ∧ single = false ∧ fullName s ≠ [] then
      expandWord s (fullName s).length single dbl true (out ++ value (fullName s))
    else expandWord s 0 single dbl true (out ++ [c])

def expandLoop : ℕ → Word → List Pipe → Pipe → Option (List Pipe)
  | 0, _, stages, stage | _, [], stages, stage =>
    if stage.words = [] then if stages ≠ [] then none else some [] else some (stages ++ [stage])
  | rounds + 1, c :: s, stages, stage =>
    if c ∈ [' ', '\t', '\n'] then expandLoop rounds s stages stage
    else if c = '|' then
      if stage.words = [] then none else expandLoop rounds s (stages ++ [stage]) ⟨[], [], [], []⟩
    else if c = '>' ∨ c = '<' then
      let app := c = '>' ∧ s.head? = some '>'
      let s := (if app then s.tail else s).dropWhile (· ∈ [' ', '\t'])
      if s.head? ∈ [none, some '|', some '>', some '<'] then none
      else
        match expandWord value s 0 false false false [] with
        | none => none
        | some (had, target, rest) =>
          if had = false ∨ rest.head? ∈ [some '|', some '>', some '<'] then none
          else
            let stage :=
              if c = '<' then { stage with input := target }
              else if app then { stage with append := target }
              else { stage with output := target }
            expandLoop rounds rest stages stage
    else
      match expandWord value (c :: s) 0 false false false [] with
      | none => none
      | some (had, word, rest) =>
        if had = false then none
        else expandLoop rounds rest stages { stage with words := stage.words ++ [word] }

def expand (line : Word) : Option (List Pipe) :=
  expandLoop value line.length line [] ⟨[], [], [], []⟩

def Part.text : Part → Word
  | .literal c => [c]
  | .named name _ => value name

def expansion (parts : List Part) : Word := parts.flatMap (Part.text value)

/-- Every literal character has fewer than `room` characters before it; `n` are before the parts. -/
def LiteralsFit (room : ℕ) : List Part → ℕ → Prop
  | [], _ => True
  | .literal _ :: l, n => n < room ∧ LiteralsFit room l (n + 1)
  | .named name _ :: l, n => LiteralsFit room l (n + (value name).length)

/-- Every name is read to its end, and every value ends after `room` characters at most. -/
def ValuesFit (room : ℕ) : List Part → ℕ → Prop
  | [], _ => True
  | .literal _ :: l, n => ValuesFit room l (n + 1)
  | .named name whole :: l, n =>
    (whole = true ∧ n + (value name).length ≤ room) ∧ ValuesFit room l (n + (value name).length)

namespace Item

variable (it : Item) (level : ℕ)

def room : ℕ := if it.target then 127 else 2047 - level

def size : ℕ := if it.target then 0 else (expansion value it.parts).length + 1

def Accepted : Prop :=
  LiteralsFit value (it.room level) it.parts 0 ∧
    (it.target = false → min (expansion value it.parts).length (it.room level) < 128)

end Item

/-- Up to the first refusal, no word made of quotes and variables alone comes where the expansions
before it, with a terminator each, take 2048 bytes or more. -/
def Bounded : List Item → ℕ → Prop
  | [], _ => True
  | it :: l, level =>
    (it.target = false → level ≤ 2047 ∨ ∃ c, .literal c ∈ it.parts) ∧
      (it.Accepted value level → Bounded l (level + it.size value))

/-- Up to the first refusal, every value has space for the whole of it. -/
def Complete : List Item → ℕ → Prop
  | [], _ => True
  | it :: l, level =>
    it.Accepted value level →
      ValuesFit value (it.room level) it.parts 0 ∧ Complete l (level + it.size value)

end Expansion

/-- A write of `parse`: to `parse_storage`, to `target`, to the buffers and the table of a stage. -/
inductive Write
  | storage (i : ℕ)
  | target (i : ℕ)
  | redirection (sc i : ℕ)
  | argument (sc n : ℕ)
  | count (sc : ℕ)
  deriving DecidableEq

def Write.Inside : Write → Prop
  | .storage i => i < 2048
  | .target i => i < 128
  | .redirection sc i => sc < 4 ∧ i < 128
  | .argument sc n => sc < 4 ∧ n < 32
  | .count sc => sc < 4

section Writes

variable (value : Word → Word)

def written (room : ℕ) : Word → ℕ → Bool → Bool → Word → Word
  | [], _, _, _, out => out
  | _ :: s, skip + 1, single, dbl, out => written room s skip single dbl out
  | c :: s, 0, single, dbl, out =>
    if !single && !dbl && c ∈ [' ', '\t', '\n', '|', '>', '<'] then out
    else if c = '\'' ∧ dbl = false then written room s 0 (!single) dbl out
    else if c = '"' ∧ single = false then written room s 0 single (!dbl) out
    else if c = '\\' ∧ single = false then
      match s with
      | [] => out
      | c :: s => if room ≤ out.length then out else written room s 0 single dbl (out ++ [c])
    else if c = '$' ∧ single = false ∧ varName s ≠ [] then
      written room s (varName s).length single dbl
        (out ++ (value (varName s)).take (room - out.length))
    else if room ≤ out.length then out
    else written room s 0 single dbl (out ++ [c])

def wordWrites (room : ℕ) (place : ℕ → Write) (s : Word) : List Write :=
  (List.range (written value room s 0 false false []).length).map place

def loopWrites : ℕ → Word → ℕ → ℕ → ℕ → List Write
  | 0, _, sc, n, _ | _, [], sc, n, _ => if n = 0 then [] else [.argument sc n, .count sc]
  | rounds + 1, c :: s, sc, n, wpos =>
    if c ∈ [' ', '\t', '\n'] then loopWrites rounds s sc n wpos
    else if c = '|' then
      if n = 0 ∨ 3 ≤ sc then []
      else .argument sc n :: .count sc :: loopWrites rounds s (sc + 1) 0 wpos
    else if c = '>' ∨ c = '<' then
      let app := c = '>' ∧ s.head? = some '>'
      let s := (if app then s.tail else s).dropWhile (· ∈ [' ', '\t'])
      if s.head? ∈ [none, some '|', some '>', some '<'] then []
      else
        wordWrites value 127 .target s ++
          match parseWord value 127 s 0 false false false [] with
          | none => []
          | some (had, target, rest) =>
            if had = false ∨ rest.head? ∈ [some '|', some '>', some '<'] then []
            else
              .target target.length :: (List.range (target.length + 1)).map (.redirection sc) ++
                loopWrites rounds rest sc n wpos
    else if 31 ≤ n then []
    else
      wordWrites value (2047 - wpos) (fun i ↦ .storage (wpos + i)) (c :: s) ++
        match parseWord value (2047 - wpos) (c :: s) 0 false false false [] with
        | none => []
        | some (had, word, rest) =>
          if had = false ∨ 128 ≤ word.length then []
          else
            .storage (wpos + word.length) :: .argument sc n ::
              loopWrites rounds rest sc (n + 1) (wpos + word.length + 1)

def writes (line : Word) : List Write :=
  ((List.range 4).flatMap fun sc ↦ .count sc :: List.replicate 3 (.redirection sc 0)) ++
    loopWrites value line.length line 0 0 0

end Writes

section Words

variable {value : Word → Word} {room skip n : ℕ} {s t out word rest : Word}
  {single dbl had had' : Bool} {parts : List Part}

theorem varName_eq_take (s : Word) : varName s = (fullName s).take 63 := by
  by_cases hs : ∃ t, s = '?' :: t
  · obtain ⟨t, rfl⟩ := hs
    rfl
  · rw [varName, fullName]
    · exact fun t h ↦ hs ⟨t, h⟩
    · exact fun t h ↦ hs ⟨t, h⟩

theorem varName_eq (h : (fullName s).length ≤ 63) : varName s = fullName s := by
  rw [varName_eq_take, List.take_of_length_le h]

theorem varName_eq_nil : varName s = [] ↔ fullName s = [] := by
  rw [varName_eq_take, List.take_eq_nil_iff]
  exact or_iff_right (by omega)

def store (value : Word → Word) (room : ℕ) : List Part → Word → Option Word
  | [], out => some out
  | .literal c :: l, out => if room ≤ out.length then none else store value room l (out ++ [c])
  | .named name _ :: l, out =>
    store value room l (out ++ (value name).take (room - out.length))

theorem parseWord_eq (value : Word → Word) (room : ℕ) (s : Word) (skip : ℕ)
    (single dbl had : Bool) (out : Word) :
    parseWord value room s skip single dbl had out =
      (wordParts s skip single dbl had).bind fun r ↦
        (store value room r.2.1 out).map fun w ↦ (r.1, w, r.2.2) := by
  fun_induction parseWord value room s skip single dbl had out with
  | case1 _ _ _ _ _ hopen => rw [wordParts, if_pos hopen, Option.bind_none]
  | case2 _ _ _ _ _ hopen => rw [wordParts, if_neg hopen, Option.bind_some, store, Option.map_some]
  | case3 _ _ _ _ _ _ _ ih => rw [wordParts, ih]
  | case4 _ _ _ _ _ _ hsep =>
    rw [wordParts.eq_def]
    dsimp only
    rw [if_pos hsep, Option.bind_some, store, Option.map_some]
  | case5 _ _ _ _ _ _ hsep hq ih =>
    rw [wordParts.eq_def]
    dsimp only
    rw [if_neg hsep, if_pos hq, ih]
  | case6 _ _ _ _ _ _ hsep hq hd ih =>
    rw [wordParts.eq_def]
    dsimp only
    rw [if_neg hsep, if_neg hq, if_pos hd, ih]
  | case7 _ _ _ _ _ hsep hq hd he =>
    rw [wordParts.eq_def]
    dsimp only
    rw [if_neg hsep, if_neg hq, if_neg hd, if_pos he, Option.bind_none]
  | case8 _ _ _ _ _ hsep hq hd he c s hroom =>
    rw [wordParts.eq_def]
    dsimp only
    rw [if_neg hsep, if_neg hq, if_neg hd, if_pos he]
    cases wordParts s 0 _ _ true with
    | none => rfl
    | some r =>
      rw [Option.map_some, Option.bind_some, withPart, store, if_pos hroom, Option.map_none]
  | case9 _ _ _ _ _ hsep hq hd he c s hroom ih =>
    rw [wordParts.eq_def]
    dsimp only
    rw [if_neg hsep, if_neg hq, if_neg hd, if_pos he, ih]
    cases wordParts s 0 _ _ true with
    | none => rfl
    | some r =>
      rw [Option.map_some, Option.bind_some, Option.bind_some, withPart, store, if_neg hroom]
  | case10 _ s _ _ _ _ hsep hq hd he hv ih =>
    rw [wordParts.eq_def]
    dsimp only
    rw [if_neg hsep, if_neg hq, if_neg hd, if_neg he, if_pos hv, ih]
    cases wordParts s (varName s).length _ _ true with
    | none => rfl
    | some r => rw [Option.map_some, Option.bind_some, Option.bind_some, withPart, store]
  | case11 _ s _ _ _ _ hsep hq hd he hv hroom =>
    rw [wordParts.eq_def]
    dsimp only
    rw [if_neg hsep, if_neg hq, if_neg hd, if_neg he, if_neg hv]
    cases wordParts s 0 _ _ true with
    | none => rfl
    | some r =>
      rw [Option.map_some, Option.bind_some, withPart, store, if_pos hroom, Option.map_none]
  | case12 _ s _ _ _ _ hsep hq hd he hv hroom ih =>
    rw [wordParts.eq_def]
    dsimp only
    rw [if_neg hsep, if_neg hq, if_neg hd, if_neg he, if_neg hv, ih]
    cases wordParts s 0 _ _ true with
    | none => rfl
    | some r =>
      rw [Option.map_some, Option.bind_some, Option.bind_some, withPart, store, if_neg hroom]

theorem store_eq_some (value : Word → Word) (room : ℕ) (parts : List Part) (t : Word) :
    store value room parts (t.take room) = some word ↔
      LiteralsFit value room parts t.length ∧ word = (t ++ expansion value parts).take room := by
  induction parts generalizing t with
  | nil => simp [store, LiteralsFit, expansion, eq_comm]
  | cons p l ih =>
    cases p with
    | literal c =>
      have hroom : room ≤ (t.take room).length ↔ room ≤ t.length := by
        rw [List.length_take]
        omega
      rw [store, LiteralsFit]
      by_cases hlt : t.length < room
      · have hstep : t.take room ++ [c] = (t ++ [c]).take room := by
          rw [List.take_of_length_le hlt.le, List.take_of_length_le]
          rw [List.length_append, List.length_singleton]
          omega
        rw [if_neg (by omega), hstep, ih, and_iff_right hlt, List.length_append,
          List.length_singleton, List.append_assoc]
        rfl
      · rw [if_pos (by omega)]
        simp [hlt]
    | named name whole =>
      have hstep : t.take room ++ (value name).take (room - (t.take room).length) =
          (t ++ value name).take room := by
        rw [List.take_append, List.length_take]
        congr 2
        omega
      rw [store, LiteralsFit, hstep, ih, List.length_append, List.append_assoc]
      rfl

theorem parseWord_none (h : wordParts s 0 false false false = none) :
    parseWord value room s 0 false false false [] = none := by
  rw [parseWord_eq, h, Option.bind_none]

theorem parseWord_fits (h : wordParts s 0 false false false = some (had', parts, rest))
    (hfit : LiteralsFit value room parts 0) :
    parseWord value room s 0 false false false [] =
      some (had', (expansion value parts).take room, rest) := by
  have hstore := (store_eq_some value room parts []).2 ⟨hfit, rfl⟩
  rw [List.take_nil, List.nil_append] at hstore
  rw [parseWord_eq, h, Option.bind_some, hstore, Option.map_some]

theorem parseWord_refuses (h : wordParts s 0 false false false = some (had', parts, rest))
    (hfit : ¬LiteralsFit value room parts 0) :
    parseWord value room s 0 false false false [] = none := by
  have hstore : store value room parts [] = none := by
    refine Option.eq_none_iff_forall_ne_some.2 fun w hw ↦ hfit ?_
    rw [← List.take_nil (i := room)] at hw
    exact ((store_eq_some value room parts []).1 hw).1
  rw [parseWord_eq, h, Option.bind_some, hstore, Option.map_none]

theorem expandWord_eq (h : wordParts s skip single dbl had = some (had', parts, rest))
    (hfits : ValuesFit value room parts n) :
    expandWord value s skip single dbl had out =
      some (had', out ++ expansion value parts, rest) := by
  fun_induction wordParts s skip single dbl had generalizing out n parts with
  | case1 => cases h
  | case2 _ _ _ _ hopen =>
    obtain ⟨rfl, rfl, rfl⟩ := Option.some.inj h
    rw [expandWord, if_neg hopen]
    simp [expansion]
  | case3 _ _ _ _ _ _ ih =>
    rw [expandWord]
    exact ih h hfits
  | case4 _ _ _ _ _ hsep =>
    obtain ⟨rfl, rfl, rfl⟩ := Option.some.inj h
    rw [expandWord.eq_def]
    dsimp only
    rw [if_pos hsep]
    simp [expansion]
  | case5 _ _ _ _ _ hsep hq ih =>
    rw [expandWord.eq_def]
    dsimp only
    rw [if_neg hsep, if_pos hq]
    exact ih h hfits
  | case6 _ _ _ _ _ hsep hq hd ih =>
    rw [expandWord.eq_def]
    dsimp only
    rw [if_neg hsep, if_neg hq, if_pos hd]
    exact ih h hfits
  | case7 => cases h
  | case8 _ _ _ _ hsep hq hd he c s ih =>
    obtain ⟨r, hr, hw⟩ := Option.map_eq_some_iff.1 h
    obtain ⟨rfl, rfl, rfl⟩ := hw
    rw [expandWord.eq_def]
    dsimp only
    rw [if_neg hsep, if_neg hq, if_neg hd, if_pos he, ih hr hfits, List.append_assoc]
    rfl
  | case9 _ s _ _ _ hsep hq hd he hv ih =>
    obtain ⟨r, hr, hw⟩ := Option.map_eq_some_iff.1 h
    obtain ⟨rfl, rfl, rfl⟩ := hw
    obtain ⟨⟨hwhole, -⟩, hrest⟩ := hfits
    have hname := varName_eq (of_decide_eq_true hwhole)
    rw [expandWord.eq_def]
    dsimp only
    rw [if_neg hsep, if_neg hq, if_neg hd, if_neg he,
      if_pos ⟨hv.1, hv.2.1, fun h ↦ hv.2.2 (varName_eq_nil.2 h)⟩, ← hname, ih hr hrest,
        List.append_assoc]
    rfl
  | case10 _ s _ _ _ hsep hq hd he hv ih =>
    obtain ⟨r, hr, hw⟩ := Option.map_eq_some_iff.1 h
    obtain ⟨rfl, rfl, rfl⟩ := hw
    rw [expandWord.eq_def]
    dsimp only
    rw [if_neg hsep, if_neg hq, if_neg hd, if_neg he,
      if_neg fun h ↦ hv ⟨h.1, h.2.1, fun hn ↦ h.2.2 (varName_eq_nil.1 hn)⟩, ih hr hfits,
        List.append_assoc]
    rfl

theorem expansion_le (hn : n ≤ room) (hliterals : LiteralsFit value room parts n)
    (hvalues : ValuesFit value room parts n) : n + (expansion value parts).length ≤ room := by
  induction parts generalizing n with
  | nil => exact hn
  | cons p l ih =>
    cases p with
    | literal c =>
      have := ih hliterals.1 hliterals.2 hvalues
      rw [expansion, List.flatMap_cons, List.length_append]
      rw [expansion] at this
      simp only [Part.text, List.length_singleton]
      omega
    | named name whole =>
      have := ih hvalues.1.2 hliterals hvalues.2
      rw [expansion, List.flatMap_cons, List.length_append]
      rw [expansion] at this
      simp only [Part.text]
      omega

theorem not_literal_of_fit {c : Char} (h : LiteralsFit value 0 parts n) : .literal c ∉ parts := by
  induction parts generalizing n with
  | nil => exact List.not_mem_nil
  | cons p l ih =>
    cases p with
    | literal d => exact absurd h.1 (Nat.not_lt_zero n)
    | named name whole =>
      rw [List.mem_cons, not_or]
      exact ⟨nofun, ih h⟩

theorem exists_literal (h : ¬LiteralsFit value room parts n) : ∃ c, .literal c ∈ parts := by
  induction parts generalizing n with
  | nil => exact absurd trivial h
  | cons p l ih =>
    cases p with
    | literal c => exact ⟨c, List.mem_cons_self⟩
    | named name whole =>
      obtain ⟨c, hc⟩ := ih h
      exact ⟨c, List.mem_cons_of_mem _ hc⟩

theorem length_written (hout : out.length ≤ room) :
    (written value room s skip single dbl out).length ≤ room := by
  fun_induction written value room s skip single dbl out with
  | case1 => exact hout
  | case2 _ _ _ _ _ _ ih => exact ih hout
  | case3 => exact hout
  | case4 _ _ _ _ _ _ _ ih => exact ih hout
  | case5 _ _ _ _ _ _ _ _ ih => exact ih hout
  | case6 => exact hout
  | case7 => exact hout
  | case8 _ _ _ _ _ _ _ _ _ _ hroom ih =>
    refine ih ?_
    rw [List.length_append, List.length_singleton]
    omega
  | case9 _ _ _ _ _ _ _ _ _ _ ih =>
    refine ih ?_
    rw [List.length_append, List.length_take]
    omega
  | case10 => exact hout
  | case11 _ _ _ _ _ _ _ _ _ _ hroom ih =>
    refine ih ?_
    rw [List.length_append, List.length_singleton]
    omega

theorem wordWrites_inside {place : ℕ → Write} (h : ∀ i < room, (place i).Inside) (s : Word) :
    ∀ w ∈ wordWrites value room place s, w.Inside := by
  intro w hw
  obtain ⟨i, hi, rfl⟩ := List.mem_map.1 hw
  exact h i ((List.mem_range.1 hi).trans_le (length_written (Nat.zero_le room)))

end Words

section Items

variable {value : Word → Word} {parts : List Part} {l : List Item} {level : ℕ}

theorem Item.accepted_target :
    Item.Accepted value ⟨true, parts⟩ level ↔ LiteralsFit value 127 parts 0 :=
  and_iff_left nofun

theorem Item.accepted_word : Item.Accepted value ⟨false, parts⟩ level ↔
    LiteralsFit value (2047 - level) parts 0 ∧
      min (expansion value parts).length (2047 - level) < 128 :=
  and_congr Iff.rfl (forall_prop_of_true rfl)

theorem bounded_target : Bounded value (⟨true, parts⟩ :: l) level ↔
    (LiteralsFit value 127 parts 0 → Bounded value l level) := by
  rw [Bounded, Item.accepted_target, and_iff_right nofun]
  rfl

theorem bounded_word : Bounded value (⟨false, parts⟩ :: l) level ↔
    (level ≤ 2047 ∨ ∃ c, .literal c ∈ parts) ∧
      (LiteralsFit value (2047 - level) parts 0 →
        min (expansion value parts).length (2047 - level) < 128 →
        Bounded value l (level + ((expansion value parts).length + 1))) := by
  rw [Bounded, Item.accepted_word, forall_prop_of_true rfl, and_imp]
  rfl

theorem complete_target : Complete value (⟨true, parts⟩ :: l) level ↔
    (LiteralsFit value 127 parts 0 → ValuesFit value 127 parts 0 ∧ Complete value l level) := by
  rw [Complete, Item.accepted_target]
  rfl

theorem complete_word : Complete value (⟨false, parts⟩ :: l) level ↔
    (LiteralsFit value (2047 - level) parts 0 →
      min (expansion value parts).length (2047 - level) < 128 →
      ValuesFit value (2047 - level) parts 0 ∧
        Complete value l (level + ((expansion value parts).length + 1))) := by
  rw [Complete, Item.accepted_word, and_imp]
  rfl

end Items

section Loop

variable {value : Word → Word} {rounds sc n wpos level : ℕ} {s : Word}

theorem Write.argument_inside (hsc : sc ≤ 3) (hn : n ≤ 31) : (Write.argument sc n).Inside :=
  ⟨Nat.lt_succ_of_le hsc, Nat.lt_succ_of_le hn⟩

theorem Write.count_inside (hsc : sc ≤ 3) : (Write.count sc).Inside := Nat.lt_succ_of_le hsc

theorem endWrites_inside (hsc : sc ≤ 3) (hn : n ≤ 31) :
    ∀ w ∈ (if n = 0 then [] else [Write.argument sc n, Write.count sc]), w.Inside := by
  split_ifs
  · exact List.forall_mem_nil _
  · exact List.forall_mem_cons.2 ⟨Write.argument_inside hsc hn,
      List.forall_mem_singleton.2 (Write.count_inside hsc)⟩

theorem targetWrites_inside {target : Word} (hsc : sc ≤ 3) (h : target.length ≤ 127) :
    ∀ w ∈ Write.target target.length :: (List.range (target.length + 1)).map (.redirection sc),
      w.Inside := by
  refine List.forall_mem_cons.2 ⟨Nat.lt_succ_of_le h, fun w hw ↦ ?_⟩
  obtain ⟨i, hi, rfl⟩ := List.mem_map.1 hw
  exact ⟨Nat.lt_succ_of_le hsc, (List.mem_range.1 hi).trans_le (Nat.succ_le_succ h)⟩

/-- The writes stay inside exactly where no word is accepted behind the end of `parse_storage`. From
the byte there on neither the position of `parse` nor the sum of the expansions leaves any room. -/
theorem loopWrites_inside_iff (hsc : sc ≤ 3) (hn : n ≤ 31)
    (hlevel : min wpos 2048 = min level 2048) :
    (∀ w ∈ loopWrites value rounds s sc n wpos, w.Inside) ↔
      Bounded value (items rounds s sc n) level := by
  induction rounds generalizing s sc n wpos level with
  | zero => exact iff_of_true (endWrites_inside hsc hn) trivial
  | succ rounds ih =>
    cases s with
    | nil => exact iff_of_true (endWrites_inside hsc hn) trivial
    | cons c s =>
      have hstop : (∀ w ∈ ([] : List Write), w.Inside) ↔ Bounded value [] level :=
        iff_of_true (List.forall_mem_nil _) trivial
      rw [loopWrites.eq_def, items.eq_def]
      dsimp only
      by_cases hblank : c ∈ [' ', '\t', '\n']
      · rw [if_pos hblank, if_pos hblank]
        exact ih hsc hn hlevel
      rw [if_neg hblank, if_neg hblank]
      by_cases hpipe : c = '|'
      · rw [if_pos hpipe, if_pos hpipe]
        by_cases hstage : n = 0 ∨ 3 ≤ sc
        · rw [if_pos hstage, if_pos hstage]
          exact hstop
        · rw [if_neg hstage, if_neg hstage, List.forall_mem_cons, List.forall_mem_cons,
            and_iff_right (Write.argument_inside hsc hn), and_iff_right (Write.count_inside hsc)]
          exact ih (by omega) (by omega) hlevel
      rw [if_neg hpipe, if_neg hpipe]
      by_cases hredir : c = '>' ∨ c = '<'
      · rw [if_pos hredir, if_pos hredir]
        generalize (if c = '>' ∧ s.head? = some '>' then s.tail else s).dropWhile
          (· ∈ [' ', '\t']) = text
        by_cases hhead : text.head? ∈ [none, some '|', some '>', some '<']
        · rw [if_pos hhead, if_pos hhead]
          exact hstop
        have hchars : ∀ w ∈ wordWrites value 127 .target text, w.Inside := by
          refine wordWrites_inside (fun i hi ↦ ?_) text
          rw [Write.Inside]
          omega
        rw [if_neg hhead, if_neg hhead, List.forall_mem_append, and_iff_right hchars]
        cases hparts : wordParts text 0 false false false with
        | none =>
          rw [parseWord_none hparts]
          exact hstop
        | some r =>
          obtain ⟨had, parts, rest⟩ := r
          by_cases hfit : LiteralsFit value 127 parts 0
          · have hlen : ((expansion value parts).take 127).length ≤ 127 := List.length_take_le _ _
            rw [parseWord_fits hparts hfit]
            dsimp only
            by_cases hrest : had = false ∨ rest.head? ∈ [some '|', some '>', some '<']
            · rw [if_pos hrest, if_pos hrest]
              exact hstop
            · rw [if_neg hrest, if_neg hrest, List.forall_mem_append,
                and_iff_right (targetWrites_inside hsc hlen), ih hsc hn hlevel, bounded_target,
                forall_prop_of_true hfit]
          · rw [parseWord_refuses hparts hfit]
            dsimp only
            split_ifs
            · exact hstop
            · exact iff_of_true (List.forall_mem_nil _) (bounded_target.2 fun h ↦ absurd h hfit)
      · rw [if_neg hredir, if_neg hredir]
        by_cases hcount : 31 ≤ n
        · rw [if_pos hcount, if_pos hcount]
          exact hstop
        have hchars : ∀ w ∈ wordWrites value (2047 - wpos) (fun i ↦ .storage (wpos + i)) (c :: s),
            w.Inside := by
          refine wordWrites_inside (fun i hi ↦ ?_) (c :: s)
          rw [Write.Inside]
          omega
        rw [if_neg hcount, if_neg hcount, List.forall_mem_append, and_iff_right hchars,
          show 2047 - wpos = 2047 - level by omega]
        cases hparts : wordParts (c :: s) 0 false false false with
        | none =>
          rw [parseWord_none hparts]
          exact hstop
        | some r =>
          obtain ⟨had, parts, rest⟩ := r
          by_cases hfit : LiteralsFit value (2047 - level) parts 0
          · rw [parseWord_fits hparts hfit]
            dsimp only
            rw [List.length_take, Nat.min_comm]
            by_cases hhad : had = false
            · rw [if_pos (.inl hhad), if_pos hhad]
              exact hstop
            rw [if_neg hhad, bounded_word, forall_prop_of_true hfit]
            by_cases hlong : 128 ≤ min (expansion value parts).length (2047 - level)
            · rw [if_pos (.inr hlong)]
              exact iff_of_true (List.forall_mem_nil _) ⟨.inl (by omega), fun h ↦ absurd h (by omega)⟩
            rw [if_neg (not_or.2 ⟨hhad, hlong⟩), List.forall_mem_cons, List.forall_mem_cons,
              and_iff_right (Write.argument_inside hsc hn), forall_prop_of_true (by omega)]
            refine and_congr ?_ (ih hsc (by omega) (by omega))
            -- the terminator
            rw [Write.Inside]
            constructor
            · exact fun h ↦ .inl (by omega)
            · rintro (h | ⟨d, hd⟩)
              · omega
              · by_contra hout
                rw [show 2047 - level = 0 by omega] at hfit
                exact not_literal_of_fit hfit hd
          · rw [parseWord_refuses hparts hfit]
            dsimp only
            split_ifs
            · exact hstop
            · exact iff_of_true (List.forall_mem_nil _)
                (bounded_word.2 ⟨.inr (exists_literal hfit), fun h ↦ absurd h hfit⟩)

theorem parseLoop_expands {stages result : List Pipe} {stage : Pipe}
    (hlevel : min wpos 2048 = min level 2048)
    (hf : Complete value (items rounds s stages.length stage.words.length) level)
    (h : parseLoop value rounds s stages stage wpos = some result) :
    expandLoop value rounds s stages stage = some result := by
  induction rounds generalizing s stages stage wpos level with
  | zero =>
    rw [parseLoop.eq_def] at h
    rw [expandLoop.eq_def]
    exact h
  | succ rounds ih =>
    rw [parseLoop.eq_def] at h
    rw [items.eq_def] at hf
    rw [expandLoop.eq_def]
    cases s with
    | nil => exact h
    | cons c s =>
      dsimp only at h hf ⊢
      by_cases hblank : c ∈ [' ', '\t', '\n']
      · rw [if_pos hblank] at h hf ⊢
        exact ih hlevel hf h
      rw [if_neg hblank] at h hf ⊢
      by_cases hpipe : c = '|'
      · rw [if_pos hpipe] at h hf ⊢
        by_cases hstage : stage.words = [] ∨ 3 ≤ stages.length
        · rw [if_pos hstage] at h
          cases h
        · rw [if_neg hstage] at h
          rw [if_neg (by rwa [List.length_eq_zero_iff])] at hf
          rw [if_neg fun he ↦ hstage (.inl he)]
          refine ih hlevel ?_ h
          rwa [List.length_append, List.length_singleton]
      rw [if_neg hpipe] at h hf ⊢
      by_cases hredir : c = '>' ∨ c = '<'
      · rw [if_pos hredir] at h hf ⊢
        generalize (if c = '>' ∧ s.head? = some '>' then s.tail else s).dropWhile
          (· ∈ [' ', '\t']) = text at h hf ⊢
        by_cases hhead : text.head? ∈ [none, some '|', some '>', some '<']
        · rw [if_pos hhead] at h
          cases h
        rw [if_neg hhead] at h hf ⊢
        cases hparts : wordParts text 0 false false false with
        | none =>
          rw [parseWord_none hparts] at h
          cases h
        | some r =>
          obtain ⟨had, parts, rest⟩ := r
          by_cases hfit : LiteralsFit value 127 parts 0
          · rw [parseWord_fits hparts hfit] at h
            rw [hparts] at hf
            dsimp only at h hf
            by_cases hend : had = false ∨ rest.head? ∈ [some '|', some '>', some '<']
            · rw [if_pos hend] at h
              cases h
            rw [if_neg hend] at h hf
            obtain ⟨hvalues, hrest⟩ := complete_target.1 hf hfit
            have hlen := expansion_le (Nat.zero_le _) hfit hvalues
            rw [List.take_of_length_le (by omega)] at h
            rw [expandWord_eq hparts hvalues, List.nil_append]
            dsimp only
            rw [if_neg hend]
            refine ih hlevel ?_ h
            split_ifs <;> exact hrest
          · rw [parseWord_refuses hparts hfit] at h
            cases h
      · rw [if_neg hredir] at h hf ⊢
        by_cases hcount : 31 ≤ stage.words.length
        · rw [if_pos hcount] at h
          cases h
        rw [if_neg hcount] at h hf
        rw [show 2047 - wpos = 2047 - level by omega] at h
        cases hparts : wordParts (c :: s) 0 false false false with
        | none =>
          rw [parseWord_none hparts] at h
          cases h
        | some r =>
          obtain ⟨had, parts, rest⟩ := r
          by_cases hfit : LiteralsFit value (2047 - level) parts 0
          · rw [parseWord_fits hparts hfit] at h
            rw [hparts] at hf
            dsimp only at h hf
            by_cases hend : had = false ∨ 128 ≤ ((expansion value parts).take (2047 - level)).length
            · rw [if_pos hend] at h
              cases h
            rw [if_neg hend] at h
            rw [not_or, List.length_take] at hend
            rw [if_neg hend.1] at hf
            obtain ⟨hvalues, hrest⟩ := complete_word.1 hf hfit (by omega)
            have hlen := expansion_le (Nat.zero_le _) hfit hvalues
            rw [List.take_of_length_le (by omega)] at h
            rw [expandWord_eq hparts hvalues, List.nil_append]
            dsimp only
            rw [if_neg hend.1]
            refine @ih _ (level + ((expansion value parts).length + 1)) _ _ _ (by omega) ?_ h
            rwa [List.length_append, List.length_singleton]
          · rw [parseWord_refuses hparts hfit] at h
            cases h

end Loop

/-- The writes of `parse` are inside of its buffers exactly where no word without a literal
character is accepted behind 2048 bytes of expansions, and what it delivers is complete where every
value has space. -/
theorem parse_expands (value : Word → Word) (line : Word) :
    ((∀ w ∈ writes value line, w.Inside) ↔ Bounded value (lineItems line) 0) ∧
      (Complete value (lineItems line) 0 → ∀ stages, parse value line = some stages →
        expand value line = some stages) := by
  have hempty : ∀ w ∈ (List.range 4).flatMap fun sc ↦
      .count sc :: List.replicate 3 (.redirection sc 0),
      Write.Inside w := by
    intro w hw
    obtain ⟨sc, hsc, hw⟩ := List.mem_flatMap.1 hw
    rcases List.mem_cons.1 hw with rfl | hw
    · exact List.mem_range.1 hsc
    · obtain rfl := List.eq_of_mem_replicate hw
      exact ⟨List.mem_range.1 hsc, by omega⟩
  rw [writes, List.forall_mem_append, and_iff_right hempty]
  exact ⟨loopWrites_inside_iff (by omega) (by omega) rfl, fun hf _ h ↦ parseLoop_expands rfl hf h⟩

def envVariable (env : Env) (name : Word) : Word :=
  if name = ['?'] then ['0'] else (envValue env name).getD []

/-- Sixteen times a value of 125 bytes and a word of 31 fill the storage, and the terminator of an
empty word is written behind it. A target that is twice a value of a hundred bytes is cut. -/
theorem not_parse_expands :
    (¬ ∀ (env : Env) (line : Word), env.Stored → line.length ≤ 511 →
      ∀ w ∈ writes (envVariable env) line, w.Inside) ∧
    ¬ ∀ (env : Env) (line : Word), env.Stored → line.length ≤ 511 → ∀ stages,
      parse (envVariable env) line = some stages → expand (envVariable env) line = some stages := by
  constructor
  · intro h
    have hwrite : .storage 2048 ∈ writes (envVariable ['X' :: '=' :: List.replicate 125 'x'])
        ((List.replicate 16 ['$', 'X', ' ']).flatten ++ List.replicate 31 'a' ++
          [' ', '"', '"']) := by
      decide +kernel
    exact Nat.lt_irrefl 2048 (h _ _ ⟨by decide, by decide +kernel⟩ (by decide) _ hwrite)
  · intro h
    have hparse : parse (envVariable ['X' :: '=' :: List.replicate 100 'x'])
        ['a', '>', '$', 'X', '$', 'X'] = some [⟨[['a']], [], List.replicate 127 'x', []⟩] := by
      decide +kernel
    have hexpand := h ['X' :: '=' :: List.replicate 100 'x'] ['a', '>', '$', 'X', '$', 'X']
      ⟨by decide, by decide⟩ (by decide) _ hparse
    exact absurd hexpand (by decide +kernel)

end YabroOS.Shell
