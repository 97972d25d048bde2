import YabroOS.Lib.Settings
import YabroOS.Lib.Instances

namespace YabroOS.Ports.Xorg

open Lib Function

abbrev Line := List Char

def isSpace (c : Char) : Bool :=
  c.toNat ∈ [9, 10, 11, 12, 13, 28, 29, 30, 31, 32, 133, 160, 5760, 8192, 8193, 8194, 8195, 8196,
    8197, 8198, 8199, 8200, 8201, 8202, 8232,
    8233, 8239, 8287, 12288]

/-- The letter that a character is compared as under `re.IGNORECASE`: four letters outside of ASCII
are `i`, `k` and `s` too. -/
def foldCase (c : Char) : Char :=
  if c.toNat = 0x130 ∨ c.toNat = 0x131 then 'i'
  else if c.toNat = 0x17f then 's'
  else if c.toNat = 0x212a then 'k'
  else c.toLower

def matchText : List Char → Line → Option Line
  | [], l => some l
  | _ :: _, [] => none
  | p :: ps, c :: l => if foldCase c = foldCase p then matchText ps l else none

def word (w : List Char) (l : Line) : Option Line := matchText w (l.dropWhile isSpace)

def spaces : Line → Option Line
  | [] => none
  | c :: l => if isSpace c then some (l.dropWhile isSpace) else none

def matchesWord (w : String) (l : Line) : Bool := (word w.toList l).isSome

def matchesKey (w : String) (l : Line) : Bool := ((word w.toList l).bind spaces).isSome

def matchesName (w name : String) (l : Line) : Bool :=
  (((word w.toList l).bind spaces).bind (matchText ('"' :: name.toList ++ ['"']))).isSome

inductive FlagsOption
  | autoAddDevices
  | autoEnableDevices
  | allowEmptyInput
  | xkbDisable
deriving DecidableEq

def FlagsOption.name : FlagsOption → String
  | autoAddDevices => "AutoAddDevices"
  | autoEnableDevices => "AutoEnableDevices"
  | allowEmptyInput => "AllowEmptyInput"
  | xkbDisable => "XkbDisable"

def FlagsOption.replacement : FlagsOption → Line
  | autoAddDevices => "    Option \"AutoAddDevices\" \"false\"".toList
  | autoEnableDevices => "    Option \"AutoEnableDevices\" \"true\"".toList
  | allowEmptyInput => "    Option \"AllowEmptyInput\" \"false\"".toList
  | xkbDisable => "    Option \"XkbDisable\" \"false\"".toList

def options : List FlagsOption :=
  [.autoAddDevices, .autoEnableDevices, .allowEmptyInput, .xkbDisable]

def modulePath : Line := "    ModulePath \"/usr/lib/xorg/modules\"".toList

def loadEvdev : Line := "    Load \"evdev\"".toList

def identifierLine : Line := "    Identifier \"YabroLayout\"".toList

def screenLine (chosen : Line) : Line := "    Screen 0 \"".toList ++ (chosen ++ ['"'])

def keyboardLine : Line := "    InputDevice \"YabroKeyboard\" \"CoreKeyboard\"".toList

def mouseLine : Line := "    InputDevice \"YabroMouse\" \"CorePointer\"".toList

def optionOf (line : Line) : Option FlagsOption :=
  options.find? fun o ↦ matchesName "Option" o.name line

structure State where
  out : List Line
  inFiles : Bool
  inModule : Bool
  inFlags : Bool
  inLayout : Bool
  skipLayout : Bool
  sawFiles : Bool
  sawModule : Bool
  sawFlags : Bool
  sawLayout : Bool
  modulepathWritten : Bool
  evdevLoadWritten : Bool
  flags : FlagsOption → Bool
  screenSeen : Bool

def State.init : State :=
  ⟨[], false, false, false, false, false, false, false, false, false, false, false,
    fun _ ↦ false, false⟩

def State.put (s : State) (lines : List Line) : State := { s with out := s.out ++ lines }

def step (chosen : Line) (s : State) (line : Line) : State :=
  if s.inFiles then
    if matchesKey "ModulePath" line then
      { s.put (if s.modulepathWritten then [] else [modulePath]) with modulepathWritten := true }
    else if matchesWord "EndSection" line then
      { s.put ((if s.modulepathWritten then [] else [modulePath]) ++ [line]) with
        modulepathWritten := true, inFiles := false }
    else s.put [line]
  else if s.inModule then
    if matchesName "Load" "Evdev" line then
      { s.put (if s.evdevLoadWritten then [] else [loadEvdev]) with evdevLoadWritten := true }
    else if matchesWord "EndSection" line then
      { s.put ((if s.evdevLoadWritten then [] else [loadEvdev]) ++ [line]) with
        evdevLoadWritten := true, inModule := false }
    else s.put [line]
  else if s.skipLayout then
    if matchesWord "EndSection" line then { s with skipLayout := false } else s
  else if s.inFlags then
    match optionOf line with
    | some o =>
      { s.put (if s.flags o then [] else [o.replacement]) with flags := update s.flags o true }
    | none =>
      if matchesWord "EndSection" line then
        { s.put ((options.filter (!s.flags ·)).map FlagsOption.replacement ++ [line]) with
          inFlags := false }
      else s.put [line]
  else if s.inLayout then
    if matchesWord "EndSection" line then
      { s.put ((if s.screenSeen then [] else [screenLine chosen]) ++ [keyboardLine, mouseLine, [],
        line]) with inLayout := false }
    else if matchesKey "Identifier" line || matchesKey "InputDevice" line then s
    else { s.put [line] with screenSeen := s.screenSeen || matchesKey "Screen" line }
  else if matchesName "Section" "Files" line then
    { s.put [line] with inFiles := true, sawFiles := true }
  else if matchesName "Section" "Module" line then
    { s.put [line] with inModule := true, sawModule := true }
  else if matchesName "Section" "ServerFlags" line then
    { s.put [line] with inFlags := true, sawFlags := true, flags := fun _ ↦ false }
  else if matchesName "Section" "ServerLayout" line then
    if !s.sawLayout then
      { s.put [line, identifierLine] with sawLayout := true, inLayout := true, screenSeen := false }
    else { s with skipLayout := true }
  else s.put [line]

def endSection : Line := "EndSection".toList

def appended (chosen : Line) (sawFiles sawModule sawFlags sawLayout : Bool) : List Line :=
  (if sawFiles then [] else [[], "Section \"Files\"".toList, modulePath, endSection]) ++
    (if sawModule then [] else [[], "Section \"Module\"".toList, loadEvdev, endSection]) ++
    (if sawFlags then []
      else [[], "Section \"ServerFlags\"".toList] ++ options.map FlagsOption.replacement ++
        [endSection]) ++
    (if sawLayout then []
      else [[], "Section \"ServerLayout\"".toList, identifierLine, screenLine chosen, keyboardLine,
        mouseLine, endSection])

def State.finish (chosen : Line) (s : State) : List Line :=
  s.out ++ appended chosen s.sawFiles s.sawModule s.sawFlags s.sawLayout

def transformLayout (lines : List Line) (chosen : Line) : List Line :=
  (lines.foldl (step chosen) State.init).finish chosen

variable {l : Line} {c d : Char} {v w : List Char}

theorem word_eq_none (hne : foldCase c ≠ foldCase d) (h : (word (c :: w) l).isSome) :
    word (d :: v) l = none := by
  unfold word at h ⊢
  cases hl : l.dropWhile isSpace with
  | nil => rfl
  | cons a l' =>
    rw [hl, matchText] at h
    split_ifs at h with hc
    · rw [matchText, if_neg fun hd ↦ hne (hc.symm.trans hd)]
    · exact absurd h Bool.false_ne_true

theorem not_matchesKey_of_end (hne : foldCase 'E' ≠ foldCase d) {k : String}
    (hk : k.toList = d :: v) (h : matchesWord "EndSection" l) : matchesKey k l = false := by
  rw [matchesKey, hk, word_eq_none (c := 'E') (w := "ndSection".toList) hne h]
  rfl

theorem not_matchesName_of_end (hne : foldCase 'E' ≠ foldCase d) {k name : String}
    (hk : k.toList = d :: v) (h : matchesWord "EndSection" l) : matchesName k name l = false := by
  rw [matchesName, hk, word_eq_none (c := 'E') (w := "ndSection".toList) hne h]
  rfl

end YabroOS.Ports.Xorg

namespace YabroOS.Ports.Xorg

open Lib Function

/-- Lines outside of sections and sections, of lines or of lines with a mark. -/
inductive Block (α : Type)
  | line (a : α)
  | sect (head : α) (body : List α) (foot : α)

def Block.lines {α : Type} : Block α → List α
  | .line a => [a]
  | .sect head body foot => head :: (body ++ [foot])

def Block.map {α β : Type} (f : α → β) : Block α → Block β
  | .line a => .line (f a)
  | .sect head body foot => .sect (f head) (body.map f) (f foot)

def isSection (l : Line) : Bool :=
  (((word "Section".toList l).bind spaces).bind (matchText ['"'])).isSome

def isEnd (l : Line) : Bool := matchesWord "EndSection" l

/-- A section is closed and none is nested in it. -/
def Block.WellFormed : Block Line → Prop
  | .line l => isSection l = false
  | .sect head body foot =>
    isSection head ∧ (∀ l ∈ body, isSection l = false ∧ isEnd l = false) ∧ isEnd foot

def Block.isNamed (name : String) : Block Line → Bool
  | .line _ => false
  | .sect head _ _ => matchesName "Section" name head

def Block.body {α : Type} : Block α → List α
  | .line _ => []
  | .sect _ body _ => body

def pathSettings : Settings Line Unit :=
  ⟨fun l ↦ if matchesKey "ModulePath" l then some () else none, fun _ ↦ modulePath, [()]⟩

def evdevSettings : Settings Line Unit :=
  ⟨fun l ↦ if matchesName "Load" "Evdev" l then some () else none, fun _ ↦ loadEvdev, [()]⟩

def flagSettings : Settings Line FlagsOption := ⟨optionOf, FlagsOption.replacement, options⟩

theorem pathSettings_lawful : pathSettings.Lawful := by
  have hpath : pathSettings.about modulePath = some () := by decide
  exact ⟨fun _ ↦ hpath, fun _ ↦ .head _, by decide⟩

theorem evdevSettings_lawful : evdevSettings.Lawful := by
  have hload : evdevSettings.about loadEvdev = some () := by decide
  exact ⟨fun _ ↦ hload, fun _ ↦ .head _, by decide⟩

theorem flagSettings_lawful : flagSettings.Lawful :=
  ⟨fun o ↦ by cases o <;> decide, fun o ↦ by cases o <;> decide, by decide⟩

def layoutKept (body : List Line) : List Line :=
  body.filter fun l ↦ !(matchesKey "Identifier" l || matchesKey "InputDevice" l)

def layoutBody (chosen : Line) (body : List Line) : List (Line × Bool) :=
  (identifierLine, false) :: (layoutKept body).map (·, true) ++
    (if (layoutKept body).any (matchesKey "Screen") then [] else [(screenLine chosen, false)]) ++
    [(keyboardLine, false), (mouseLine, false), ([], false)]

inductive Kind
  | files
  | modules
  | flags
  | layout
  | other
deriving DecidableEq

def kindOf (head : Line) : Kind :=
  if matchesName "Section" "Files" head then .files
  else if matchesName "Section" "Module" head then .modules
  else if matchesName "Section" "ServerFlags" head then .flags
  else if matchesName "Section" "ServerLayout" head then .layout
  else .other

abbrev Seen := Kind → Bool

def Seen.after (seen : Seen) : Block Line → Seen
  | .line _ => seen
  | .sect head _ _ => update seen (kindOf head) true

def emit (chosen : Line) (seen : Seen) : Block Line → List (Block (Line × Bool))
  | .line l => [.line (l, true)]
  | .sect head body foot =>
    match kindOf head with
    | .files => [.sect (head, true) (pathSettings.settle (fun _ ↦ seen .files) body) (foot, true)]
    | .modules =>
      [.sect (head, true) (evdevSettings.settle (fun _ ↦ seen .modules) body) (foot, true)]
    | .flags => [.sect (head, true) (flagSettings.settle (fun _ ↦ false) body) (foot, true)]
    | .layout =>
      if seen .layout then [] else [.sect (head, true) (layoutBody chosen body) (foot, true)]
    | .other => [.sect (head, true) (body.map (·, true)) (foot, true)]

def kinds : List Kind := [.files, .modules, .flags, .layout]

def Kind.head : Kind → Line
  | files => "Section \"Files\"".toList
  | modules => "Section \"Module\"".toList
  | flags => "Section \"ServerFlags\"".toList
  | layout => "Section \"ServerLayout\"".toList
  | other => []

def Kind.addedBody (chosen : Line) : Kind → List Line
  | files => [modulePath]
  | modules => [loadEvdev]
  | flags => options.map FlagsOption.replacement
  | layout => [identifierLine, screenLine chosen, keyboardLine, mouseLine]
  | other => []

def added (chosen : Line) (k : Kind) : List (Block (Line × Bool)) :=
  [.line ([], false),
    .sect (k.head, false) ((k.addedBody chosen).map (·, false)) (endSection, false)]

def appendedBlocks (chosen : Line) (seen : Seen) : List (Block (Line × Bool)) :=
  kinds.flatMap fun k ↦ if seen k then [] else added chosen k

def rewriteBlocks (chosen : Line) (seen : Seen) : List (Block Line) → List (Block (Line × Bool))
  | [] => appendedBlocks chosen seen
  | b :: blocks => emit chosen seen b ++ rewriteBlocks chosen (seen.after b) blocks

def linesOf {α : Type} (blocks : List (Block α)) : List α := blocks.flatMap Block.lines

variable {chosen : Line} {s : State} {body : List Line} {foot l : Line}

theorem update_unit (w v : Bool) : update (fun _ : Unit ↦ w) () v = fun _ ↦ v :=
  funext fun _ ↦ update_self _ _ _

theorem files_run (chosen : Line) (hin : s.inFiles = true) (hbody : ∀ l ∈ body, isEnd l = false)
    (hfoot : isEnd foot) :
    (body ++ [foot]).foldl (step chosen) s =
      { s.put (pathSettings.settled (fun _ ↦ s.modulepathWritten) body ++ [foot]) with
        modulepathWritten := true, inFiles := false } := by
  induction body generalizing s with
  | nil =>
    have hpath : matchesKey "ModulePath" foot = false :=
      not_matchesKey_of_end (d := 'M') (v := "odulePath".toList) (by decide) rfl hfoot
    rw [isEnd] at hfoot
    rw [List.nil_append, List.foldl_cons, List.foldl_nil, step, if_pos hin,
      if_neg (by rw [hpath]; exact Bool.false_ne_true), if_pos hfoot]
    cases s.modulepathWritten <;> rfl
  | cons l body ih =>
    have hl := hbody l (.head _)
    rw [isEnd] at hl
    rw [List.cons_append, List.foldl_cons, step, if_pos hin]
    by_cases hpath : matchesKey "ModulePath" l
    · have habout : pathSettings.about l = some () := if_pos hpath
      rw [if_pos hpath, ih (by exact hin) fun l hl ↦ hbody l (.tail _ hl),
        Settings.settled_cons_some habout, update_unit]
      simp only [State.put, List.append_assoc]
      rfl
    · have habout : pathSettings.about l = none := if_neg hpath
      rw [if_neg hpath, hl, if_neg Bool.false_ne_true,
        ih (by exact hin) fun l hl ↦ hbody l (.tail _ hl), Settings.settled_cons_none habout]
      simp only [State.put, List.append_assoc]
      rfl

theorem module_run (chosen : Line) (hout : s.inFiles = false) (hin : s.inModule = true)
    (hbody : ∀ l ∈ body, isEnd l = false) (hfoot : isEnd foot) :
    (body ++ [foot]).foldl (step chosen) s =
      { s.put (evdevSettings.settled (fun _ ↦ s.evdevLoadWritten) body ++ [foot]) with
        evdevLoadWritten := true, inModule := false } := by
  induction body generalizing s with
  | nil =>
    have hload : matchesName "Load" "Evdev" foot = false :=
      not_matchesName_of_end (d := 'L') (v := "oad".toList) (by decide) rfl hfoot
    rw [isEnd] at hfoot
    rw [List.nil_append, List.foldl_cons, List.foldl_nil, step, hout, if_neg Bool.false_ne_true,
      if_pos hin, hload, if_neg Bool.false_ne_true,
      if_pos hfoot]
    cases s.evdevLoadWritten <;> rfl
  | cons l body ih =>
    have hl := hbody l (.head _)
    rw [isEnd] at hl
    rw [List.cons_append, List.foldl_cons, step, hout, if_neg Bool.false_ne_true, if_pos hin]
    by_cases hload : matchesName "Load" "Evdev" l
    · have habout : evdevSettings.about l = some () := if_pos hload
      rw [if_pos hload, ih (by exact hout) (by exact hin) fun l hl ↦ hbody l (.tail _ hl),
        Settings.settled_cons_some habout, update_unit]
      simp only [State.put, List.append_assoc]
      rfl
    · have habout : evdevSettings.about l = none := if_neg hload
      rw [if_neg hload, hl, if_neg Bool.false_ne_true, ih (by exact hout) (by exact hin) fun l hl ↦
        hbody l (.tail _ hl),
        Settings.settled_cons_none habout]
      simp only [State.put, List.append_assoc]
      rfl

theorem optionOf_of_end (h : isEnd l) : optionOf l = none := by
  refine List.find?_eq_none.2 fun o _ ho ↦ ?_
  rw [not_matchesName_of_end (d := 'O') (v := "ption".toList) (by decide) rfl h] at ho
  exact Bool.false_ne_true ho

theorem flags_run (chosen : Line)
    (hout : s.inFiles = false ∧ s.inModule = false ∧ s.skipLayout = false) (hin : s.inFlags = true)
    (hbody : ∀ l ∈ body, isEnd l = false) (hfoot : isEnd foot) :
    ∃ flags, (body ++ [foot]).foldl (step chosen) s =
      { s.put (flagSettings.settled s.flags body ++ [foot]) with
        flags := flags, inFlags := false } := by
  obtain ⟨hf, hm, hs⟩ := hout
  induction body generalizing s with
  | nil =>
    have hnone := optionOf_of_end hfoot
    rw [isEnd] at hfoot
    refine ⟨s.flags, ?_⟩
    rw [List.nil_append, List.foldl_cons, List.foldl_nil, step, hf, if_neg Bool.false_ne_true, hm,
      if_neg Bool.false_ne_true, hs,
      if_neg Bool.false_ne_true, if_pos hin, hnone, Settings.settled_nil]
    dsimp only
    rw [if_pos hfoot]
    rfl
  | cons l body ih =>
    have hl := hbody l (.head _)
    rw [isEnd] at hl
    rw [List.cons_append, List.foldl_cons, step, hf, if_neg Bool.false_ne_true, hm,
      if_neg Bool.false_ne_true, hs,
      if_neg Bool.false_ne_true, if_pos hin]
    cases ho : optionOf l with
    | some o =>
      have habout : flagSettings.about l = some o := ho
      dsimp only
      obtain ⟨flags, hrun⟩ :=
        @ih { s.put (if s.flags o then [] else [o.replacement]) with
          flags := update s.flags o true } hin
        (fun l hl ↦ hbody l (.tail _ hl)) hf hm hs
      refine ⟨flags, ?_⟩
      rw [hrun, Settings.settled_cons_some habout]
      simp only [State.put, List.append_assoc]
      rfl
    | none =>
      have habout : flagSettings.about l = none := ho
      dsimp only
      rw [hl, if_neg Bool.false_ne_true]
      obtain ⟨flags, hrun⟩ := @ih (s.put [l]) hin (fun l hl ↦ hbody l (.tail _ hl)) hf hm hs
      refine ⟨flags, ?_⟩
      rw [hrun, Settings.settled_cons_none habout]
      simp only [State.put, List.append_assoc]
      rfl

def layoutTail (chosen : Line) (seen : Bool) (body : List Line) : List Line :=
  layoutKept body ++ (if seen || (layoutKept body).any (matchesKey "Screen") then []
    else [screenLine chosen]) ++ [keyboardLine, mouseLine, []]

theorem layout_run (chosen : Line)
    (hout : s.inFiles = false ∧ s.inModule = false ∧ s.skipLayout = false ∧ s.inFlags = false)
    (hin : s.inLayout = true) (hbody : ∀ l ∈ body, isEnd l = false) (hfoot : isEnd foot) :
    ∃ seen, (body ++ [foot]).foldl (step chosen) s =
      { s.put (layoutTail chosen s.screenSeen body ++ [foot]) with
        screenSeen := seen, inLayout := false } := by
  obtain ⟨hf, hm, hs, hg⟩ := hout
  induction body generalizing s with
  | nil =>
    rw [isEnd] at hfoot
    refine ⟨s.screenSeen, ?_⟩
    rw [List.nil_append, List.foldl_cons, List.foldl_nil, step, hf, if_neg Bool.false_ne_true, hm,
      if_neg Bool.false_ne_true, hs,
      if_neg Bool.false_ne_true, hg, if_neg Bool.false_ne_true, if_pos hin, if_pos hfoot]
    have hkept : layoutKept [] = [] := rfl
    simp only [State.put, layoutTail, hkept, List.any_nil, Bool.or_false, List.nil_append,
      List.append_assoc, List.cons_append]
  | cons l body ih =>
    have hl := hbody l (.head _)
    rw [isEnd] at hl
    rw [List.cons_append, List.foldl_cons, step, hf, if_neg Bool.false_ne_true, hm,
      if_neg Bool.false_ne_true, hs,
      if_neg Bool.false_ne_true, hg, if_neg Bool.false_ne_true, if_pos hin, hl,
        if_neg Bool.false_ne_true]
    by_cases hdrop : (matchesKey "Identifier" l || matchesKey "InputDevice" l) = true
    · have hkept : layoutKept (l :: body) = layoutKept body :=
        List.filter_cons_of_neg (by rw [hdrop]; exact Bool.false_ne_true)
      rw [if_pos hdrop]
      obtain ⟨seen, hrun⟩ := @ih s hin (fun l hl ↦ hbody l (.tail _ hl)) hf hm hs hg
      exact ⟨seen, by rw [hrun, layoutTail, layoutTail, hkept]⟩
    · have hkept : layoutKept (l :: body) = l :: layoutKept body :=
        List.filter_cons_of_pos (by rw [Bool.not_eq_true] at hdrop; rw [hdrop]; rfl)
      rw [if_neg hdrop]
      obtain ⟨seen, hrun⟩ :=
        @ih { s.put [l] with screenSeen := s.screenSeen || matchesKey "Screen" l } hin
        (fun l hl ↦ hbody l (.tail _ hl)) hf hm hs hg
      refine ⟨seen, ?_⟩
      rw [hrun, layoutTail, layoutTail, hkept, List.any_cons, ← Bool.or_assoc]
      simp only [State.put, List.append_assoc, List.cons_append, List.nil_append]

theorem skip_run (chosen : Line) (hout : s.inFiles = false ∧ s.inModule = false)
    (hin : s.skipLayout = true) (hbody : ∀ l ∈ body, isEnd l = false) (hfoot : isEnd foot) :
    (body ++ [foot]).foldl (step chosen) s = { s with skipLayout := false } := by
  obtain ⟨hf, hm⟩ := hout
  induction body with
  | nil =>
    rw [isEnd] at hfoot
    rw [List.nil_append, List.foldl_cons, List.foldl_nil, step, hf, if_neg Bool.false_ne_true, hm,
      if_neg Bool.false_ne_true, if_pos hin,
      if_pos hfoot]
  | cons l body ih =>
    have hl := hbody l (.head _)
    rw [isEnd] at hl
    have hskip : step chosen s l = s := by
      rw [step, hf, if_neg Bool.false_ne_true, hm, if_neg Bool.false_ne_true, if_pos hin, hl,
        if_neg Bool.false_ne_true]
    rw [List.cons_append, List.foldl_cons, hskip]
    exact ih fun l hl ↦ hbody l (.tail _ hl)

/-- Between two blocks the flags say what sections are seen. -/
structure Outside (s : State) (seen : Seen) : Prop where
  inFiles : s.inFiles = false
  inModule : s.inModule = false
  skipLayout : s.skipLayout = false
  inFlags : s.inFlags = false
  inLayout : s.inLayout = false
  sawFiles : s.sawFiles = seen .files
  sawModule : s.sawModule = seen .modules
  sawFlags : s.sawFlags = seen .flags
  sawLayout : s.sawLayout = seen .layout
  modulepathWritten : s.modulepathWritten = seen .files
  evdevLoadWritten : s.evdevLoadWritten = seen .modules

variable {seen : Seen} {b : Block Line}

theorem Outside.step_eq (h : Outside s seen) (l : Line) : step chosen s l =
    match kindOf l with
    | .files => { s.put [l] with inFiles := true, sawFiles := true }
    | .modules => { s.put [l] with inModule := true, sawModule := true }
    | .flags => { s.put [l] with inFlags := true, sawFlags := true, flags := fun _ ↦ false }
    | .layout =>
      if !s.sawLayout then
        { s.put [l, identifierLine] with sawLayout := true, inLayout := true, screenSeen := false }
      else { s with skipLayout := true }
    | .other => s.put [l] := by
  unfold step kindOf
  simp only [h.inFiles, h.inModule, h.skipLayout, h.inFlags, h.inLayout, if_neg Bool.false_ne_true]
  split_ifs <;> rfl

theorem isSection_of_matchesName {name : String} (h : matchesName "Section" name l) :
    isSection l := by
  unfold matchesName at h
  unfold isSection
  cases hr : (word "Section".toList l).bind spaces with
  | none =>
    rw [hr] at h
    exact h
  | some r =>
    rw [hr, Option.bind_some] at h
    rw [Option.bind_some]
    cases r with
    | nil => exact h
    | cons c r =>
      rw [List.cons_append, matchText] at h
      rw [matchText]
      split_ifs at h ⊢
      · rfl
      · exact h

theorem kindOf_of_not_section (h : isSection l = false) : kindOf l = .other := by
  have hname (name : String) : ¬matchesName "Section" name l = true := fun hm ↦ by
    rw [isSection_of_matchesName hm] at h
    exact Bool.noConfusion h
  unfold kindOf
  rw [if_neg (hname _), if_neg (hname _), if_neg (hname _), if_neg (hname _)]

theorem not_section_of_end (h : isEnd l) : isSection l = false := by
  rw [isSection, show "Section".toList = 'S' :: "ection".toList from rfl,
    word_eq_none (c := 'E') (w := "ndSection".toList) (by decide) h]
  rfl

theorem Outside.foldl_put (h : Outside s seen) {lines : List Line}
    (hl : ∀ l ∈ lines, isSection l = false) : lines.foldl (step chosen) s = s.put lines := by
  induction lines generalizing s with
  | nil =>
    rw [State.put, List.append_nil]
    rfl
  | cons l lines ih =>
    have hput : Outside (s.put [l]) seen := ⟨h.1, h.2, h.3, h.4, h.5, h.6, h.7, h.8, h.9, h.10, h.11⟩
    rw [List.foldl_cons, h.step_eq, kindOf_of_not_section (hl l (.head _))]
    dsimp only
    rw [ih hput fun l hl' ↦ hl l (.tail _ hl')]
    simp only [State.put, List.append_assoc, List.cons_append, List.nil_append]

theorem map_fst_true (l : List Line) : (l.map (·, true)).map Prod.fst = l := by
  rw [List.map_map]
  exact List.map_id l

theorem map_fst_layoutBody (chosen : Line) (body : List Line) :
    (layoutBody chosen body).map Prod.fst = identifierLine :: layoutTail chosen false body := by
  rw [layoutBody, layoutTail, List.map_append, List.map_append, List.map_cons, map_fst_true,
    Bool.false_or]
  split_ifs <;> rfl

theorem map_fst_sect (head foot : Line × Bool) (body : List (Line × Bool)) :
    (linesOf [.sect head body foot]).map Prod.fst = [head.1] ++ (body.map Prod.fst ++ [foot.1]) := by
  rw [linesOf, List.flatMap_cons, List.flatMap_nil, List.append_nil, Block.lines, List.map_cons,
    List.map_append]
  rfl

theorem Outside.block_run (chosen : Line) (h : Outside s seen) (hb : b.WellFormed) :
    Outside (b.lines.foldl (step chosen) s) (seen.after b) ∧
      (b.lines.foldl (step chosen) s).out =
        s.out ++ (linesOf (emit chosen seen b)).map Prod.fst := by
  cases b with
  | line l =>
    rw [Block.lines, h.foldl_put fun l' hl' ↦ by rw [List.mem_singleton.1 hl']; exact hb]
    exact ⟨⟨h.1, h.2, h.3, h.4, h.5, h.6, h.7, h.8, h.9, h.10, h.11⟩, rfl⟩
  | sect head body foot =>
    obtain ⟨hhead, hbody, hfoot⟩ := hb
    have hend : ∀ l ∈ body, isEnd l = false := fun l hl ↦ (hbody l hl).2
    rw [Block.lines, List.foldl_cons, h.step_eq, Seen.after, emit]
    cases hk : kindOf head with
    | files =>
      dsimp only
      rw [files_run chosen rfl hend hfoot]
      refine ⟨⟨rfl, h.inModule, h.skipLayout, h.inFlags, h.inLayout, rfl, h.sawModule, h.sawFlags,
        h.sawLayout, rfl, h.evdevLoadWritten⟩, ?_⟩
      rw [map_fst_sect, ← h.modulepathWritten, ← List.append_assoc]
      rfl
    | modules =>
      dsimp only
      have hrun :=
        module_run chosen (s := { s.put [head] with inModule := true, sawModule := true }) h.inFiles
          rfl hend hfoot
      rw [hrun]
      refine ⟨⟨h.inFiles, rfl, h.skipLayout, h.inFlags, h.inLayout, h.sawFiles, rfl, h.sawFlags,
        h.sawLayout, h.modulepathWritten, rfl⟩, ?_⟩
      rw [map_fst_sect, ← h.evdevLoadWritten, ← List.append_assoc]
      rfl
    | flags =>
      dsimp only
      obtain ⟨flags, hrun⟩ := flags_run chosen
        (s := { s.put [head] with inFlags := true, sawFlags := true, flags := fun _ ↦ false })
        ⟨h.inFiles, h.inModule, h.skipLayout⟩ rfl hend hfoot
      rw [hrun]
      refine ⟨⟨h.inFiles, h.inModule, h.skipLayout, rfl, h.inLayout, h.sawFiles, h.sawModule, rfl,
        h.sawLayout, h.modulepathWritten,
        h.evdevLoadWritten⟩, ?_⟩
      rw [map_fst_sect, ← List.append_assoc]
      rfl
    | layout =>
      dsimp only
      cases hl : seen .layout with
      | false =>
        have hsaw : (!s.sawLayout) = true := by rw [h.sawLayout, hl]; rfl
        obtain ⟨screen, hrun⟩ := layout_run chosen
          (s := { s.put [head, identifierLine] with
            sawLayout := true, inLayout := true, screenSeen := false })
          ⟨h.inFiles, h.inModule, h.skipLayout, h.inFlags⟩ rfl hend hfoot
        rw [if_pos hsaw, hrun, if_neg Bool.false_ne_true]
        refine ⟨⟨h.inFiles, h.inModule, h.skipLayout, h.inFlags, rfl, h.sawFiles, h.sawModule,
          h.sawFlags, rfl, h.modulepathWritten,
          h.evdevLoadWritten⟩, ?_⟩
        rw [map_fst_sect, map_fst_layoutBody, ← List.append_assoc]
        simp only [State.put, List.append_assoc, List.cons_append, List.nil_append]
      | true =>
        have hrun :=
          skip_run chosen (s := { s with skipLayout := true }) ⟨h.inFiles, h.inModule⟩ rfl hend hfoot
        have hsaw : ¬(!s.sawLayout) = true := by rw [h.sawLayout, hl]; exact Bool.false_ne_true
        rw [if_neg hsaw, hrun, if_pos rfl]
        have hsame : update seen .layout true = seen := by rw [← hl, update_eq_self]
        rw [hsame]
        exact ⟨⟨h.inFiles, h.inModule, rfl, h.inFlags, h.inLayout, h.sawFiles, h.sawModule,
          h.sawFlags, h.sawLayout, h.modulepathWritten,
          h.evdevLoadWritten⟩, (List.append_nil _).symm⟩
    | other =>
      have hput : Outside (s.put [head]) seen :=
        ⟨h.1, h.2, h.3, h.4, h.5, h.6, h.7, h.8, h.9, h.10, h.11⟩
      dsimp only
      rw [hput.foldl_put fun l hl ↦ (List.mem_append.1 hl).elim (fun hl ↦ (hbody l hl).1)
        fun hl ↦ not_section_of_end (by rwa [List.mem_singleton.1 hl])]
      refine ⟨⟨h.1, h.2, h.3, h.4, h.5, h.6, h.7, h.8, h.9, h.10, h.11⟩, ?_⟩
      rw [map_fst_sect, map_fst_true, ← List.append_assoc]
      rfl

variable {blocks : List (Block Line)}

theorem linesOf_append {α : Type} (b₁ b₂ : List (Block α)) :
    linesOf (b₁ ++ b₂) = linesOf b₁ ++ linesOf b₂ := List.flatMap_append

theorem map_fst_appendedBlocks (chosen : Line) (seen : Seen) :
    (linesOf (appendedBlocks chosen seen)).map Prod.fst = appended chosen (seen .files)
    (seen .modules) (seen .flags) (seen .layout) := by
  have hkinds (f : Kind → List (Block (Line × Bool))) : kinds.flatMap f = f .files ++ f .modules ++
      f .flags ++ f .layout := by
    simp only [kinds, List.flatMap_cons, List.flatMap_nil, List.append_nil, List.append_assoc]
  rw [appendedBlocks, hkinds, appended]
  cases seen .files <;> cases seen .modules <;> cases seen .flags <;> cases seen .layout <;> rfl

theorem Outside.run (chosen : Line) (h : Outside s seen) (hb : ∀ b ∈ blocks, b.WellFormed) :
    ((linesOf blocks).foldl (step chosen) s).finish chosen =
      s.out ++ (linesOf (rewriteBlocks chosen seen blocks)).map Prod.fst := by
  induction blocks generalizing s seen with
  | nil =>
    rw [rewriteBlocks, map_fst_appendedBlocks, ← h.sawFiles, ← h.sawModule, ← h.sawFlags,
      ← h.sawLayout]
    rfl
  | cons b blocks ih =>
    obtain ⟨hout, hlines⟩ := h.block_run chosen (hb b (.head _))
    have hrest := ih hout fun b hb' ↦ hb b (.tail _ hb')
    rw [linesOf, List.flatMap_cons, List.foldl_append]
    rw [hlines] at hrest
    rw [rewriteBlocks, linesOf_append, List.map_append, ← List.append_assoc]
    exact hrest

theorem transformLayout_eq (hb : ∀ b ∈ blocks, b.WellFormed) (chosen : Line) :
    transformLayout (linesOf blocks) chosen =
      (linesOf (rewriteBlocks chosen (fun _ ↦ false) blocks)).map Prod.fst := by
  have hinit : Outside State.init fun _ ↦ false :=
    ⟨rfl, rfl, rfl, rfl, rfl, rfl, rfl, rfl, rfl, rfl, rfl⟩
  exact hinit.run chosen hb

end YabroOS.Ports.Xorg
