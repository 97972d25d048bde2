import YabroOS.Lib.EditBuffer
import YabroOS.Shell.Environment

namespace YabroOS.Shell

open Lib

inductive Key
  | up
  | down
  | left
  | right
  | home
  | stop
  | wordLeft
  | wordRight
  | tab
  | backspace
  | delete
  | eraseWord
  | killStart
  | killEnd
  | clear
  | char (c : Char)
  | other
  deriving DecidableEq

def Key.ofCode (k : ℕ) : Key :=
  if k = 0x80 ∨ k = 16 then up
  else if k = 0x81 ∨ k = 14 then down
  else if k = 0x82 ∨ k = 2 then left
  else if k = 0x83 ∨ k = 6 then right
  else if k = 0x100 ∨ k = 1 then home
  else if k = 0x101 ∨ k = 5 then stop
  else if k = 0x103 then wordLeft
  else if k = 0x104 then wordRight
  else if k = 9 then tab
  else if k = 8 ∨ k = 127 then backspace
  else if k = 0x102 ∨ k = 4 then delete
  else if k = 23 then eraseWord
  else if k = 21 then killStart
  else if k = 11 then killEnd
  else if k = 12 then clear
  else if 32 ≤ k ∧ k < 127 then char (Char.ofNat k)
  else other

/-- `history_pos` (none for -1) and the draft that the first key up saves. -/
structure Recall where
  pos : Option ℕ
  draft : Word
  draftPos : ℕ
  active : Bool
  deriving DecidableEq

structure LineEditor where
  line : ℕ → Char
  len : ℕ
  pos : ℕ
  past : Recall

def lineWordSpace (c : Char) : Bool := c = ' ' ∨ c = '\t'

def tokenEnd (c : Char) : Bool := c ∈ [' ', '\t', '|', '&', ';', '<', '>']

def completionAdd (set : List (Word × Bool)) (c : Word × Bool) : List (Word × Bool) :=
  if c.1 = [] ∨ 64 ≤ set.length then set
  else if c.1 ∈ set.map Prod.fst then set
  else if 128 ≤ c.1.length then set
  else set ++ [c]

def prefixLength : Word → Word → ℕ
  | a :: s, b :: t => if a = b then prefixLength s t + 1 else 0
  | _, _ => 0

def replacement (typed : ℕ) (atEnd : Bool) : List (Word × Bool) → Option (Word × Bool)
  | [] => none
  | [c] => some (c.1, !c.2 && atEnd)
  | c :: cs =>
    let common := cs.foldl (fun n d ↦ prefixLength (c.1.take n) d.1) c.1.length
    if typed < common ∧ common ≤ 127 then some (c.1.take common, false) else none

def historyMax : ℕ := 64

def historySave (history : List Word) (line : Word) : List Word :=
  if line = [] ∨ history.getLast? = some line then history
  else if history.length < historyMax then history ++ [line]
  else history.drop 1 ++ [line]

namespace LineEditor

def text (e : LineEditor) : Word := (List.range e.len).map e.line

def skipBack (p : Char → Bool) (line : ℕ → Char) : ℕ → Option ℕ
  | 0 => some 0
  | pos + 1 =>
    if 512 ≤ pos then none else if p (line pos) then skipBack p line pos else some (pos + 1)

def skipForward (p : Char → Bool) (line : ℕ → Char) : ℕ → ℕ → Option ℕ
  | 0, pos => some pos
  | n + 1, pos =>
    if 512 ≤ pos then none else if p (line pos) then skipForward p line n (pos + 1) else some pos

def eraseBack (p : Char → Bool) : ℕ → ℕ → (ℕ → Char) → Option ((ℕ → Char) × ℕ × ℕ)
  | 0, len, line => some (line, len, 0)
  | pos + 1, len, line =>
    if 512 ≤ pos then none
    else if p (line pos) then
      (copyUp 512 (len - (pos + 1)) (pos + 1) pos line).bind (eraseBack p pos (len - 1))
    else some (line, len, pos + 1)

def close (e : LineEditor) (line : ℕ → Char) (len pos : ℕ) : Option LineEditor :=
  (store 512 line len '\x00').map fun line ↦ { e with line := line, len := len, pos := pos }

def load (e : LineEditor) (entry : Word) (pos : ℕ) : Option LineEditor :=
  (writeList 512 entry 0 e.line).bind fun line ↦ e.close line entry.length pos

def loadEntry (history : List Word) (e : LineEditor) (h : ℕ) : Option LineEditor :=
  (history[h]?).bind fun entry ↦ e.load (entry.take 511) (entry.take 511).length

def historyUp (history : List Word) (e : LineEditor) : Option LineEditor :=
  if history = [] then some e
  else
    match e.past.pos with
    | none =>
      (readList 512 e.len 0 e.line).bind fun draft ↦
        if 512 ≤ e.len then none
        else
          let h := history.length - 1
          { e with past :=
            { pos := some h, draft := draft, draftPos := e.pos, active := true } }.loadEntry
              history h
    | some 0 => some e
    | some (h + 1) => { e with past := { e.past with pos := some h } }.loadEntry history h

def historyDown (history : List Word) (e : LineEditor) : Option LineEditor :=
  match e.past.pos with
  | none => some e
  | some h =>
    if h + 1 < history.length then
      { e with past := { e.past with pos := some (h + 1) } }.loadEntry history (h + 1)
    else if e.past.active then
      { e with past := { e.past with pos := none, active := false } }.load e.past.draft
        e.past.draftPos
    else { e with past := { e.past with pos := none, active := false } }.close e.line 0 0

/-- `line_tab_complete`. `offers` are the calls of `completion_add` for the text before the token
and the token, from the builtins and the directories. -/
def tabComplete (offers : Word → Word → List (Word × Bool)) (e : LineEditor) : Option LineEditor :=
  (skipBack (!tokenEnd ·) e.line e.pos).bind fun start ↦
    (skipForward (!tokenEnd ·) e.line (e.len - e.pos) e.pos).bind fun stop ↦
      if 128 ≤ stop - start then some e
      else
        (readList 512 start 0 e.line).bind fun front ↦
          (readList 512 (stop - start) start e.line).bind fun token ↦
            match replacement (stop - start) (stop = e.len)
              ((offers front token).foldl completionAdd []) with
            | none => some e
            | some (rep, space) =>
              let tail := e.len - stop
              let blank := if space then [' '] else []
              let pos := start + (rep ++ blank).length
              if 511 < pos + tail then some e
              else
                (if stop < pos then copyDown 512 tail stop pos e.line
                  else copyUp 512 tail stop pos e.line).bind fun line ↦
                  (writeList 512 (rep ++ blank) start line).bind fun line ↦
                    e.close line (pos + tail) pos

def key (history : List Word) (offers : Word → Word → List (Word × Bool)) (e : LineEditor) :
    Key → Option LineEditor
  | .up => e.historyUp history
  | .down => e.historyDown history
  | .left => some { e with pos := e.pos - 1 }
  | .right => some (if e.pos < e.len then { e with pos := e.pos + 1 } else e)
  | .home => some { e with pos := 0 }
  | .stop => some { e with pos := e.len }
  | .wordLeft =>
    (skipBack lineWordSpace e.line e.pos).bind fun pos ↦
      (skipBack (!lineWordSpace ·) e.line pos).map fun pos ↦ { e with pos := pos }
  | .wordRight =>
    (skipForward (!lineWordSpace ·) e.line (e.len - e.pos) e.pos).bind fun pos ↦
      (skipForward lineWordSpace e.line (e.len - pos) pos).map fun pos ↦ { e with pos := pos }
  | .tab => e.tabComplete offers
  | .backspace =>
    if 0 < e.pos then
      (copyUp 512 (e.len - e.pos) e.pos (e.pos - 1) e.line).bind fun line ↦
        e.close line (e.len - 1) (e.pos - 1)
    else some e
  | .delete =>
    if e.pos < e.len then
      (copyUp 512 (e.len - (e.pos + 1)) (e.pos + 1) e.pos e.line).bind fun line ↦
        e.close line (e.len - 1) e.pos
    else some e
  | .eraseWord =>
    (eraseBack lineWordSpace e.pos e.len e.line).bind fun (line, len, pos) ↦
      (eraseBack (!lineWordSpace ·) pos len line).bind fun (line, len, pos) ↦ e.close line len pos
  | .killStart =>
    (copyUp 512 (e.len - e.pos) e.pos 0 e.line).bind fun line ↦ e.close line (e.len - e.pos) 0
  | .killEnd => e.close e.line e.pos e.pos
  | .char c =>
    if e.len < 511 then
      (copyDown 512 (e.len - e.pos) e.pos (e.pos + 1) e.line).bind fun line ↦
        (store 512 line e.pos c).bind fun line ↦ e.close line (e.len + 1) (e.pos + 1)
    else some e
  | .clear | .other => some e

def run (history : List Word) (offers : Word → Word → List (Word × Bool)) (e : LineEditor)
    (codes : List ℕ) : Option LineEditor :=
  codes.foldlM (fun e code ↦ e.key history offers (.ofCode code)) e

/-- The editor at a new prompt, where `len` and `pos` are 0 and the buffer is as the line before
left it. -/
def atPrompt (line : ℕ → Char) (draft : Word) (draftPos : ℕ) : LineEditor :=
  { line := line, len := 0, pos := 0,
    past := { pos := none, draft := draft, draftPos := draftPos, active := false } }

end LineEditor

/-- The editor as the text before and after the cursor. -/
structure TwoLists where
  before : Word
  after : Word
  past : Recall

namespace TwoLists

def loadEntry (history : List Word) (t : TwoLists) (h : ℕ) : TwoLists :=
  { t with before := (history.getD h []).take 511, after := [] }

def up (history : List Word) (t : TwoLists) : TwoLists :=
  if history = [] then t
  else
    match t.past.pos with
    | none =>
      let h := history.length - 1
      { t with past :=
        { pos := some h, draft := t.before ++ t.after, draftPos := t.before.length
          active := true } }.loadEntry
        history h
    | some 0 => t
    | some (h + 1) => { t with past := { t.past with pos := some h } }.loadEntry history h

def down (history : List Word) (t : TwoLists) : TwoLists :=
  match t.past.pos with
  | none => t
  | some h =>
    if h + 1 < history.length then
      { t with past := { t.past with pos := some (h + 1) } }.loadEntry history (h + 1)
    else if t.past.active then
      { before := t.past.draft.take t.past.draftPos, after := t.past.draft.drop t.past.draftPos,
        past := { t.past with pos := none, active := false } }
    else { before := [], after := [], past := { t.past with pos := none, active := false } }

def token (t : TwoLists) : Word × Word × Word :=
  (t.before.rdropWhile (!tokenEnd ·),
    t.before.rtakeWhile (!tokenEnd ·) ++ t.after.takeWhile (!tokenEnd ·),
    t.after.dropWhile (!tokenEnd ·))

def complete (offers : Word → Word → List (Word × Bool)) (t : TwoLists) : TwoLists :=
  let (front, token, tail) := t.token
  if 128 ≤ token.length then t
  else
    match replacement token.length (tail = []) ((offers front token).foldl completionAdd []) with
    | none => t
    | some (rep, space) =>
      let before := front ++ (rep ++ if space then [' '] else [])
      if 511 < before.length + tail.length then t else { t with before := before, after := tail }

def key (history : List Word) (offers : Word → Word → List (Word × Bool)) (t : TwoLists) :
    Key → TwoLists
  | .up => t.up history
  | .down => t.down history
  | .left => { t with before := t.before.dropLast, after := t.before.getLast?.toList ++ t.after }
  | .right => { t with before := t.before ++ t.after.head?.toList, after := t.after.tail }
  | .home => { t with before := [], after := t.before ++ t.after }
  | .stop => { t with before := t.before ++ t.after, after := [] }
  | .wordLeft =>
    let word := (t.before.rdropWhile lineWordSpace).rdropWhile (!lineWordSpace ·)
    { t with before := word, after := t.before.drop word.length ++ t.after }
  | .wordRight =>
    let skipped :=
      t.after.takeWhile (!lineWordSpace ·) ++ (t.after.dropWhile (!lineWordSpace ·)).takeWhile
        lineWordSpace
    { t with
      before := t.before ++ skipped
      after := (t.after.dropWhile (!lineWordSpace ·)).dropWhile lineWordSpace }
  | .tab => t.complete offers
  | .backspace => { t with before := t.before.dropLast }
  | .delete => { t with after := t.after.tail }
  | .eraseWord =>
    { t with before := (t.before.rdropWhile lineWordSpace).rdropWhile (!lineWordSpace ·) }
  | .killStart => { t with before := [] }
  | .killEnd => { t with after := [] }
  | .char c =>
    if t.before.length + t.after.length < 511 then { t with before := t.before ++ [c] } else t
  | .clear | .other => t

def run (history : List Word) (offers : Word → Word → List (Word × Bool)) (t : TwoLists)
    (codes : List ℕ) : TwoLists :=
  codes.foldl (fun t code ↦ t.key history offers (.ofCode code)) t

end TwoLists

end YabroOS.Shell
