import YabroOS.Shell.Environment
import Mathlib.Data.Int.Notation
import Mathlib.Data.List.DropRight
import Mathlib.Order.Basic

namespace YabroOS.Shell

section Parse

/-- A stage of a pipeline: its words and the targets of `<`, `>` and `>>`, which are empty where
there is none. -/
structure Pipe where
  words : List Word
  input : Word
  output : Word
  append : Word
  deriving DecidableEq

variable (value : Word → Word)

def isNameChar (c : Char) : Bool :=
  'A' ≤ c ∧ c ≤ 'Z' ∨ 'a' ≤ c ∧ c ≤ 'z' ∨ '0' ≤ c ∧ c ≤ '9' ∨ c = '_'

def varName : Word → Word
  | '?' :: _ => ['?']
  | s => (s.takeWhile isNameChar).take 63

/-- One word: whether there is one, its text and what comes after it. `value` is what the variables
stand for, `room` is the space in the buffer, `skip` are the characters of a name that is already
replaced. -/
def parseWord (room : ℕ) : Word → ℕ → Bool → Bool → Bool → Word → Option (Bool × Word × Word)
  | [], _, single, dbl, had, out => if single || dbl then none else some (had, out, [])
  | _ :: s, skip + 1, single, dbl, had, out => parseWord room s skip single dbl had out
  | c :: s, 0, single, dbl, had, out =>
    if !single && !dbl && c ∈ [' ', '\t', '\n', '|', '>', '<'] then some (had, out, c :: s)
    else if c = '\'' ∧ dbl = false then parseWord room s 0 (!single) dbl true out
    else if c = '"' ∧ single = false then parseWord room s 0 single (!dbl) true out
    else if c = '\\' ∧ single = false then
      match s with
      | [] => none
      | c :: s => if room ≤ out.length then none else parseWord room s 0 single dbl true (out ++ [c])
    else if c = '$' ∧ single = false ∧ varName s ≠ [] then
      parseWord room s (varName s).length single dbl true
        (out ++ (value (varName s)).take (room - out.length))
    else if room ≤ out.length then none
    else parseWord room s 0 single dbl true (out ++ [c])

def parseLoop : ℕ → Word → List Pipe → Pipe → ℕ → Option (List Pipe)
  | 0, _, stages, stage, _ | _, [], stages, stage, _ =>
    if stage.words = [] then if stages ≠ [] then none else some [] else some (stages ++ [stage])
  | rounds + 1, c :: s, stages, stage, wpos =>
    if c ∈ [' ', '\t', '\n'] then parseLoop rounds s stages stage wpos
    else if c = '|' then
      if stage.words = [] ∨ 3 ≤ stages.length then none
      else parseLoop rounds s (stages ++ [stage]) ⟨[], [], [], []⟩ wpos
    else if c = '>' ∨ c = '<' then
      let app := c = '>' ∧ s.head? = some '>'
      let s := (if app then s.tail else s).dropWhile (· ∈ [' ', '\t'])
      if s.head? ∈ [none, some '|', some '>', some '<'] then none
      else
        match parseWord value 127 s 0 false false false [] with
        | none => none
        | some (had, target, rest) =>
          if had = false ∨ rest.head? ∈ [some '|', some '>', some '<'] then none
          else
            let stage :=
              if c = '<' then { stage with input := target }
              else if app then { stage with append := target }
              else { stage with output := target }
            parseLoop rounds rest stages stage wpos
    else if 31 ≤ stage.words.length then none
    else
      match parseWord value (2047 - wpos) (c :: s) 0 false false false [] with
      | none => none
      | some (had, word, rest) =>
        if had = false ∨ 128 ≤ word.length then none
        else parseLoop rounds rest stages { stage with words := stage.words ++ [word] }
          (wpos + word.length + 1)

/-- The stages of a simple command, none for a syntax error and no stages where there is no word. -/
def parse (line : Word) : Option (List Pipe) :=
  parseLoop value line.length line [] ⟨[], [], [], []⟩ 0

end Parse

section Scan

structure Quoting where
  single : Bool
  dbl : Bool
  esc : Bool
  deriving DecidableEq

namespace Quoting

def bare : Quoting := ⟨false, false, false⟩

def next (q : Quoting) (c : Char) : Quoting × Bool :=
  if q.esc then ({ q with esc := false }, false)
  else if c = '\\' ∧ q.single = false then ({ q with esc := true }, false)
  else if c = '"' ∧ q.single = false then ({ q with dbl := !q.dbl }, false)
  else if c = '\'' ∧ q.dbl = false then ({ q with single := !q.single }, false)
  else (q, !(q.single || q.dbl))

end Quoting

def lastNonspace : Quoting → ℕ → Word → Option ℕ → Option ℕ
  | _, _, [], last => last
  | q, i, c :: s, last =>
    lastNonspace (q.next c).1 (i + 1) s (if (q.next c).2 ∧ c ∉ [' ', '\t', '\n', '\r'] then some i
      else last)

def stripBackground (input : Word) : Word × Bool :=
  match lastNonspace .bare 0 input none with
  | some i => if input[i]? = some '&' then (input.take i, true) else (input, false)
  | none => (input, false)

inductive Logic
  | and
  | or
  deriving DecidableEq

inductive Control
  | seq
  | logic (op : Logic)
  deriving DecidableEq

def Logic.text : Logic → Word
  | and => ['&', '&']
  | or => ['|', '|']

def Control.text : Control → Word
  | seq => [';']
  | logic op => op.text

def findControl : Quoting → ℕ → Word → Option (ℕ × Logic) → Option (ℕ × Control)
  | _, _, [], logic => logic.map fun (i, op) ↦ (i, .logic op)
  | q, i, c :: s, logic =>
    if (q.next c).2 = false then findControl (q.next c).1 (i + 1) s logic
    else if c = ';' then some (i, .seq)
    else
      match logic, c, s with
      | none, '&', '&' :: s => findControl (q.next c).1 (i + 2) s (some (i, .and))
      | none, '|', '|' :: s => findControl (q.next c).1 (i + 2) s (some (i, .or))
      | logic, _, s => findControl (q.next c).1 (i + 1) s logic

theorem findControl_lt {q : Quoting} {i p : ℕ} {s : Word} {logic : Option (ℕ × Logic)}
    {op : Control} (h : findControl q i s logic = some (p, op))
    (hl : ∀ x ∈ logic, x.1 < i + s.length) : p < i + s.length := by
  fun_induction findControl q i s logic with
  | case1 q i logic =>
    obtain ⟨x, hx, he⟩ := Option.map_eq_some_iff.1 h
    obtain ⟨rfl, -⟩ := Prod.mk.inj he
    exact hl x hx
  | case2 q i logic c s hq ih =>
    have := ih h (fun x hx ↦ by have := hl x hx; rw [List.length_cons] at this; omega)
    rw [List.length_cons]
    omega
  | case3 q i logic s hq =>
    obtain ⟨rfl, -⟩ := Prod.mk.inj (Option.some.inj h)
    rw [List.length_cons]
    omega
  | case4 q i s hq hc ih =>
    have := ih h (fun x hx ↦ by obtain rfl := Option.some.inj hx; simp only; omega)
    rw [List.length_cons, List.length_cons]
    omega
  | case5 q i s hq hc ih =>
    have := ih h (fun x hx ↦ by obtain rfl := Option.some.inj hx; simp only; omega)
    rw [List.length_cons, List.length_cons]
    omega
  | case6 q i logic c s hq hc _ _ ih =>
    have := ih h (fun x hx ↦ by have := hl x hx; rw [List.length_cons] at this; omega)
    rw [List.length_cons]
    omega

end Scan

/-- What the commands meet, by the place in the line where they start: what a variable stands for,
and the exit status of a pipeline. There is none where `last_status` stays, since a pipe or a
redirection failed, or in the foreground the fork; in the background a failed fork is as good as any
status. -/
structure Commands where
  value : ℕ → Word → Word
  exits : ℕ → List Pipe → Option ℤ

/-- A call of `run_simple`: where its text starts, whether it is in the background, and what it is
read as. -/
structure Ran where
  place : ℕ
  background : Bool
  stages : Option (List Pipe)
  deriving DecidableEq

variable (w : Commands)

def runSimple (place : ℕ) (background : Bool) (line : Word) (status : ℤ) : List Ran × ℤ :=
  let stages := parse (w.value place) line
  ([⟨place, background, stages⟩],
    match stages with
    | none | some [] => status
    | some stages =>
      match w.exits place stages with
      | none => status
      | some exit => if background then 0 else exit)

def isBlank (c : Char) : Bool := c = ' ' ∨ c = '\t'

def trimEnd (s : Word) : Word := s.rdropWhile isBlank

theorem trimEnd_length (s : Word) : (trimEnd s).length ≤ s.length :=
  (List.rdropWhile_prefix isBlank s).length_le

theorem stripBackground_length (line : Word) : (stripBackground line).1.length ≤ line.length := by
  rw [stripBackground]
  split
  · split_ifs
    · rw [List.length_take]
      exact min_le_right _ _
    · exact le_rfl
  · exact le_rfl

/-- The calls of `run_simple` for a line that starts at `place`, and `last_status` after them. -/
def runLine (place : ℕ) (line : Word) (status : ℤ) : List Ran × ℤ :=
  let text := (stripBackground line).1
  let background := (stripBackground line).2
  match _h : findControl .bare 0 text none with
  | none => runSimple w place background text status
  | some (pos, op) =>
    if background then ([], 2)
    else
      let left := trimEnd ((text.take pos).take 511)
      let after := (text.drop (pos + op.text.length)).take 511
      let right := after.dropWhile isBlank
      if left = [] ∨ right = [] then ([], 2)
      else
        let (ran, status) := runLine place left status
        if op = .seq ∨ op = .logic .and ∧ status = 0 ∨ op = .logic .or ∧ status ≠ 0 then
          let (more, status) :=
            runLine (place + pos + op.text.length + (after.takeWhile isBlank).length) right status
          (ran ++ more, status)
        else (ran, status)
  termination_by line.length
  decreasing_by
  · have hpos := findControl_lt _h (fun _ hx ↦ by cases hx)
    have htext : text.length ≤ line.length := stripBackground_length line
    have hleft : left.length ≤ ((text.take pos).take 511).length := trimEnd_length _
    rw [List.length_take, List.length_take] at hleft
    show left.length < line.length
    omega
  · have hpos := findControl_lt _h (fun _ hx ↦ by cases hx)
    have htext : text.length ≤ line.length := stripBackground_length line
    have hop : 0 < op.text.length := by
      rcases op with _ | _ | _ <;> decide
    have hright : right.length ≤ after.length := (List.dropWhile_sublist isBlank).length_le
    have hafter : after.length ≤ text.length - (pos + op.text.length) := by
      rw [List.length_take, List.length_drop]
      exact min_le_right _ _
    show right.length < line.length
    omega

end YabroOS.Shell
