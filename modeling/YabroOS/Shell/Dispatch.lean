import YabroOS.Shell.Launch
import Mathlib.Data.List.Basic

namespace YabroOS.Shell

inductive Command
  | builtin
  | applet
  | external (path : Word)
  | nothing
  deriving DecidableEq

def isBuiltinNames : List Word :=
  ["cd", "shutdown", "poweroff", "reboot", "cls", "pftest", "run", "pwd", "export", "unset", "env",
    "history", "stat",
    "which", "mem", "cpuinfo", "sysinfo", "uptime", "exit", "help"].map String.toList

def parentNames : List Word := ["cd", "export", "unset", "exit"].map String.toList

def callBuiltin (cmd : Word) : Command := if cmd ∈ builtinNames then .builtin else .nothing

def childCommand (world : World) (env : Env) (cmd : Word) : Command :=
  if cmd ∈ builtinNames then .builtin
  else
    let path := resolve world env cmd
    if path = boxPath ∧ cmd ∈ appletNames then .applet else .external path

/-- `run_simple` with one stage that is not in the background. -/
def foregroundCommand (world : World) (env : Env) (redirected : Bool) (cmd : Word) : Command :=
  if redirected ∧ cmd ∈ parentNames then callBuiltin cmd
  else if !redirected ∧ cmd ∈ isBuiltinNames then callBuiltin cmd
  else childCommand world env cmd

/-- `cmd_which_builtin`, none where the command is not found. -/
def whichCommand (world : World) (env : Env) (cmd : Word) : Option Command :=
  if cmd ∈ isBuiltinNames then some .builtin
  else if cmd ∈ appletNames then some .applet
  else
    let path := resolve world env cmd
    if world.pathExists path then some (.external path) else none

def Command.file : Command → Option Word
  | applet => some boxPath
  | external path => some path
  | builtin | nothing => none

section Path

def pathDirs (pv : Word) : List Word :=
  (pv.splitOn ':').map fun dir ↦ if dir = [] then ['/'] else dir

def searchDirs (env : Env) : List Word :=
  match envValue env "PATH".toList with
  | none | some [] => [['/']]
  | some pv => pathDirs pv

def fullPath (dir cmd : Word) : Word :=
  if dir.getLast? = some '/' then dir ++ cmd else dir ++ '/' :: cmd

/-- The directory of `PATH` in which the search ends, the root where there is no such file. -/
def commandDir (world : World) (env : Env) (cmd : Word) : Word :=
  ((searchDirs env).find? fun dir ↦ world.pathExists (joinPath dir cmd)).getD ['/']

def Searched (cmd : Word) : Prop :=
  cmd ∉ builtinNames ∧ cmd.head? ≠ some '/' ∧ cmd ∉ ["yabrusbox".toList, "busybox".toList] ∧
    cmd ∉ appletNames

instance (cmd : Word) : Decidable (Searched cmd) := inferInstanceAs (Decidable (_ ∧ _ ∧ _ ∧ _))

variable {world : World} {env : Env} {exists? : Word → Bool} {dir cmd pv : Word}

theorem joinPath_eq (hdir : dir ≠ []) : joinPath dir cmd = (fullPath dir cmd).take 127 := by
  rw [joinPath, fullPath]
  rcases Nat.lt_or_ge dir.length 127 with hlt | hge
  · rw [List.take_of_length_le (Nat.le_of_lt hlt)]
    by_cases hlast : dir.getLast? = some '/'
    · simp only [hlast, ne_eq, not_true_eq_false, false_and, and_false, if_false, if_true]
      rw [List.take_append, List.take_of_length_le (Nat.le_of_lt hlt)]
    · simp only [hlast, ne_eq, hdir, not_false_eq_true, hlt, and_self, if_true, if_false]
      have hslash : (dir ++ ['/']).length ≤ 127 := by
        rw [List.length_append, List.length_singleton]
        omega
      rw [List.append_cons dir '/' cmd, List.take_append, List.take_of_length_le hslash]
  · have hlen : (dir.take 127).length = 127 := by
      rw [List.length_take]
      omega
    have hfull : ∀ s : Word, (dir ++ s).take 127 = dir.take 127 :=
      fun s ↦ List.take_append_of_le_length hge
    simp only [hlen, Nat.lt_irrefl, and_false, if_false, Nat.sub_self, List.take_zero,
      List.append_nil]
    split_ifs
    · exact (hfull _).symm
    · exact (hfull _).symm

theorem joinPath_length (hdir : dir ≠ []) : (joinPath dir cmd).length ≤ 127 := by
  rw [joinPath_eq hdir]
  exact List.length_take_le _ _

theorem pathDirs_cons {a b : Word} (ha : ':' ∉ a) :
    pathDirs (a ++ ':' :: b) = (if a = [] then ['/'] else a) :: pathDirs b := by
  rw [pathDirs, List.splitOn_append_cons_self, List.splitOn_eq_singleton ha]
  rfl

theorem pathDirs_single (h : ':' ∉ pv) : pathDirs pv = [if pv = [] then ['/'] else pv] := by
  rw [pathDirs, List.splitOn_eq_singleton h]
  rfl

theorem mem_pathDirs_ne_nil (h : dir ∈ pathDirs pv) : dir ≠ [] := by
  obtain ⟨d, -, rfl⟩ := List.mem_map.1 h
  split_ifs with hd
  · exact List.cons_ne_nil _ _
  · exact hd

theorem mem_pathDirs_length (h : dir ∈ pathDirs pv) : dir.length ≤ max 1 pv.length := by
  have hnorm : ∀ a : Word, (if a = [] then ['/'] else a).length ≤ max 1 a.length := by
    intro a
    split_ifs
    · exact Nat.le_max_left _ _
    · exact Nat.le_max_right _ _
  induction hn : pv.length using Nat.strongRecOn generalizing pv with
  | _ n ih =>
    by_cases hc : ':' ∈ pv
    · obtain ⟨a, b, rfl, ha⟩ := List.eq_append_cons_of_mem hc
      rw [List.length_append, List.length_cons] at hn
      rw [pathDirs_cons ha] at h
      rcases List.mem_cons.1 h with rfl | h
      · have := hnorm a
        omega
      · have := ih b.length (by omega) h rfl
        omega
    · rw [pathDirs_single hc] at h
      obtain rfl := List.mem_singleton.1 h
      exact hn ▸ hnorm pv

theorem takeWhile_colon {a : Word} (ha : ':' ∉ a) (s : Word) :
    (a ++ s).takeWhile (· ≠ ':') = a ++ s.takeWhile (· ≠ ':') := by
  refine List.takeWhile_append_of_pos fun c hc ↦ decide_eq_true fun (he : c = ':') ↦ ?_
  rw [he] at hc
  exact ha hc

theorem searchPath_eq (hpv : pv.length ≤ 127) : searchPath exists? cmd pv =
    ((pathDirs pv).find? fun dir ↦ exists? (joinPath dir cmd)).map (joinPath · cmd) := by
  induction hn : pv.length using Nat.strongRecOn generalizing pv with
  | _ n ih =>
    rw [searchPath]
    by_cases hc : ':' ∈ pv
    · obtain ⟨a, b, rfl, ha⟩ := List.eq_append_cons_of_mem hc
      rw [List.length_append, List.length_cons] at hn hpv
      have hdir : ((a ++ ':' :: b).takeWhile (· ≠ ':')).take 127 = a := by
        rw [takeWhile_colon ha, List.takeWhile_cons_of_neg (by simp), List.append_nil,
          List.take_of_length_le (by omega)]
      have hrest : (a ++ ':' :: b).drop (a.length + 1) = b := by
        rw [List.append_cons]
        exact List.drop_left' (by rw [List.length_append, List.length_singleton])
      rw [hdir, List.drop_left, dif_neg (List.cons_ne_nil _ _), hrest, pathDirs_cons ha,
        List.find?_cons,
        ih b.length (by omega) (by omega) rfl]
      cases hout : exists? (joinPath (if a = [] then ['/'] else a) cmd)
      · rfl
      · rfl
    · have hdir : (pv.takeWhile (· ≠ ':')).take 127 = pv := by
        have htake := takeWhile_colon hc []
        rw [List.append_nil, List.takeWhile_nil, List.append_nil] at htake
        rw [htake, List.take_of_length_le hpv]
      rw [hdir, dif_pos (List.drop_length), pathDirs_single hc, List.find?_cons]
      cases hout : exists? (joinPath (if pv = [] then ['/'] else pv) cmd)
      · rfl
      · rfl

theorem searchDirs_ne_nil (h : dir ∈ searchDirs env) : dir ≠ [] := by
  rw [searchDirs] at h
  split at h
  · exact List.mem_singleton.1 h ▸ List.cons_ne_nil _ _
  · exact List.mem_singleton.1 h ▸ List.cons_ne_nil _ _
  · exact mem_pathDirs_ne_nil h

theorem entryValue_length {entry value : Word} (h : entryValue entry = some value) :
    value.length ≤ entry.length := by
  rw [entryValue] at h
  split at h
  · rename_i v hd
    obtain rfl := Option.some.inj h
    have hlen := congrArg List.length hd
    rw [List.length_drop, List.length_cons] at hlen
    omega
  · cases h

theorem Env.Stored.value_length (henv : env.Stored) {name value : Word}
    (h : envValue env name = some value) : value.length ≤ 127 := by
  obtain ⟨entry, hmem, he⟩ := List.exists_of_findSome?_eq_some h
  split_ifs at he
  exact Nat.le_trans (entryValue_length he) (henv.length_le entry hmem)

theorem resolve_eq (henv : env.Stored) (hs : Searched cmd) :
    resolve world env cmd = joinPath (commandDir world env cmd) cmd := by
  obtain ⟨-, hroot, hbox, happlet⟩ := hs
  have hnot : ¬(cmd = "yabrusbox".toList ∨ cmd = "busybox".toList ∨ cmd ∈ appletNames) := by
    simp only [List.mem_cons, List.not_mem_nil, or_false] at hbox
    tauto
  have hsearch : ∀ pv : Word, pv.length ≤ 127 →
      (searchPath world.pathExists cmd pv).getD (resolveElf cmd) =
      joinPath (((pathDirs pv).find? fun dir ↦ world.pathExists (joinPath dir cmd)).getD ['/'])
        cmd := by
    intro pv hpv
    rw [searchPath_eq hpv, resolveElf, if_neg hroot]
    cases (pathDirs pv).find? fun dir ↦ world.pathExists (joinPath dir cmd)
    · rfl
    · rfl
  rw [resolve, if_neg hroot, if_neg hnot, commandDir, searchDirs]
  cases hv : envValue env "PATH".toList with
  | none => exact hsearch ['/'] (by decide)
  | some pv =>
    cases pv with
    | nil => exact hsearch ['/'] (by decide)
    | cons c pv => exact hsearch (c :: pv) (henv.value_length hv)

end Path

variable {world : World} {env : Env} {cmd : Word}

/-- The three ways of finding a command agree on the word, and `execve` gets a whole path. -/
structure Agrees (world : World) (env : Env) (cmd : Word) : Prop where
  handled : cmd ∈ isBuiltinNames ↔ cmd ∈ builtinNames
  foreground : ∀ redirected, foregroundCommand world env redirected cmd = childCommand world env cmd
  found : whichCommand world env cmd = some (childCommand world env cmd) ∨ whichCommand world env
    cmd = none ∧ ∃ path, childCommand world env cmd = .external path ∧ world.pathExists path = false
  file : ∀ path ∈ (childCommand world env cmd).file, path.length ≤ 127 ∧
    (path = cmd ∧ cmd.head? = some '/' ∨ path = boxPath ∨
      path = fullPath (commandDir world env cmd) cmd)
  inside : ∀ dir ∈ searchDirs env, dir.length ≤ 127 ∧ (joinPath dir cmd).length ≤ 127

/-- The word is not `run`, and where a word is searched for its path fits. -/
def Whole (world : World) (env : Env) (cmd : Word) : Prop :=
  cmd ≠ "run".toList ∧ (Searched cmd → (fullPath (commandDir world env cmd) cmd).length ≤ 127)

theorem mem_isBuiltinNames : cmd ∈ isBuiltinNames ↔ cmd = "run".toList ∨ cmd ∈ builtinNames := by
  have hperm : isBuiltinNames.Perm ("run".toList :: builtinNames) := by decide
  rw [hperm.mem_iff, List.mem_cons]

theorem mem_builtinNames_of_parent (h : cmd ∈ parentNames) : cmd ∈ builtinNames := by
  have hall : ∀ w ∈ parentNames, w ∈ builtinNames := by decide
  exact hall cmd h

theorem applet_not_root (h : cmd ∈ appletNames) : cmd.head? ≠ some '/' := by
  have hall : ∀ w ∈ appletNames, w.head? ≠ some '/' := by decide
  exact hall cmd h

theorem resolve_applet (h : cmd ∈ appletNames) : resolve world env cmd = boxPath := by
  rw [resolve, if_neg (applet_not_root h), if_pos (.inr (.inr h))]

theorem childCommand_of_not_builtin (world : World) (env : Env) (hb : cmd ∉ builtinNames) :
    (cmd ∈ appletNames ∧ childCommand world env cmd = .applet) ∨
      (cmd ∉ appletNames ∧ childCommand world env cmd = .external (resolve world env cmd)) := by
  rw [childCommand, if_neg hb]
  by_cases happlet : cmd ∈ appletNames
  · exact .inl ⟨happlet, if_pos ⟨resolve_applet happlet, happlet⟩⟩
  · exact .inr ⟨happlet, if_neg fun h ↦ happlet h.2⟩

theorem foreground_eq (hrun : cmd ≠ "run".toList) (redirected : Bool) :
    foregroundCommand world env redirected cmd = childCommand world env cmd := by
  by_cases hb : cmd ∈ builtinNames
  · have hcall : callBuiltin cmd = childCommand world env cmd := by
      rw [callBuiltin, childCommand, if_pos hb, if_pos hb]
    rw [foregroundCommand, hcall]
    split_ifs
    · rfl
    · rfl
    · rfl
  · rw [foregroundCommand, if_neg fun h ↦ hb (mem_builtinNames_of_parent h.2),
      if_neg fun h ↦ (mem_isBuiltinNames.1 h.2).elim hrun hb]

theorem which_eq (hrun : cmd ≠ "run".toList) :
    whichCommand world env cmd = some (childCommand world env cmd) ∨
      whichCommand world env cmd = none ∧
      ∃ path, childCommand world env cmd = .external path ∧ world.pathExists path = false := by
  rw [whichCommand]
  by_cases hb : cmd ∈ builtinNames
  · rw [if_pos (mem_isBuiltinNames.2 (.inr hb)), childCommand, if_pos hb]
    exact .inl rfl
  rw [if_neg fun h ↦ (mem_isBuiltinNames.1 h).elim hrun hb]
  rcases childCommand_of_not_builtin world env hb with ⟨happlet, hc⟩ | ⟨happlet, hc⟩
  · rw [if_pos happlet, hc]
    exact .inl rfl
  · rw [if_neg happlet, hc]
    dsimp only
    cases he : world.pathExists (resolve world env cmd) with
    | true => exact .inl rfl
    | false => exact .inr ⟨rfl, _, rfl, he⟩

theorem commandDir_ne_nil : commandDir world env cmd ≠ [] := by
  rw [commandDir]
  cases h : (searchDirs env).find? fun dir ↦ world.pathExists (joinPath dir cmd) with
  | none => exact List.cons_ne_nil _ _
  | some dir => exact searchDirs_ne_nil (List.mem_of_find?_eq_some h)

theorem searchDirs_length (henv : env.Stored) {dir : Word} (h : dir ∈ searchDirs env) :
    dir.length ≤ 127 := by
  rw [searchDirs] at h
  split at h
  · exact List.mem_singleton.1 h ▸ by decide
  · exact List.mem_singleton.1 h ▸ by decide
  · rename_i pv _ hv
    have hpv : pv.length ≤ 127 := henv.value_length hv
    have := mem_pathDirs_length h
    omega

/-- The command words on which all ways agree are those that are not `run` and whose path is not
cut. -/
theorem agrees_iff (world : World) (henv : env.Stored) (hcmd : cmd.length ≤ 127) :
    Agrees world env cmd ↔ Whole world env cmd := by
  constructor
  · intro h
    refine ⟨?_, fun hs ↦ ?_⟩
    · rintro rfl
      have hnot : "run".toList ∉ builtinNames := by decide
      exact hnot (h.handled.1 (by decide))
    · rcases childCommand_of_not_builtin world env hs.1 with ⟨happlet, -⟩ | ⟨-, hc⟩
      · exact absurd happlet hs.2.2.2
      obtain ⟨hlen, hpath⟩ := h.file (resolve world env cmd) (by rw [hc]; rfl)
      rw [resolve_eq henv hs, joinPath_eq commandDir_ne_nil] at hlen hpath
      rcases hpath with ⟨-, hroot⟩ | hbox | hfull
      · exact absurd hroot hs.2.1
      · -- a path that is cut has 127 characters
        have := congrArg List.length hbox
        rw [List.length_take, show boxPath.length = 14 by decide] at this
        omega
      · have := congrArg List.length hfull
        rw [List.length_take] at this
        omega
  · rintro ⟨hrun, hfits⟩
    refine ⟨?_, foreground_eq hrun, which_eq hrun, fun path hpath ↦ ?_, fun dir hdir ↦ ?_⟩
    · rw [mem_isBuiltinNames]
      exact ⟨fun h ↦ h.resolve_left hrun, .inr⟩
    · by_cases hb : cmd ∈ builtinNames
      · rw [childCommand, if_pos hb] at hpath
        cases hpath
      rcases childCommand_of_not_builtin world env hb with ⟨-, hc⟩ | ⟨happlet, hc⟩
      · rw [hc] at hpath
        obtain rfl := Option.some.inj hpath
        exact ⟨by decide, .inr (.inl rfl)⟩
      rw [hc] at hpath
      obtain rfl := Option.some.inj hpath
      by_cases hroot : cmd.head? = some '/'
      · rw [resolve, if_pos hroot]
        exact ⟨hcmd, .inl ⟨rfl, hroot⟩⟩
      by_cases hbox : cmd ∈ ["yabrusbox".toList, "busybox".toList]
      · have hres : resolve world env cmd = boxPath := by
          simp only [List.mem_cons, List.not_mem_nil, or_false] at hbox
          rw [resolve, if_neg hroot, if_pos (by tauto)]
        rw [hres]
        exact ⟨by decide, .inr (.inl rfl)⟩
      have hs : Searched cmd := ⟨hb, hroot, hbox, happlet⟩
      rw [resolve_eq henv hs, joinPath_eq commandDir_ne_nil, List.take_of_length_le (hfits hs)]
      exact ⟨hfits hs, .inr (.inr rfl)⟩
    · exact ⟨searchDirs_length henv hdir, joinPath_length (searchDirs_ne_nil hdir)⟩

/-- A program in `/bin`, with the first environment of the shell. -/
theorem agrees_iff_make :
    Agrees ⟨true, true, fun path ↦ path = "/bin/make".toList, fun _ ↦ none⟩ envInit "make".toList ↔
      Whole ⟨true, true, fun path ↦ path = "/bin/make".toList, fun _ ↦ none⟩ envInit "make".toList :=
  agrees_iff _ envInit_stored (by decide)

/-- The word `run` is a builtin for `is_builtin` that `builtin` does not have. -/
theorem not_agrees : ¬ ∀ (world : World) (env : Env) (cmd : Word),
    env.Stored → cmd.length ≤ 127 → Agrees world env cmd := by
  intro h
  have hrun :=
    (h ⟨true, true, fun _ ↦ true, fun _ ↦ none⟩ envInit "run".toList envInit_stored
      (by decide)).handled
  exact absurd (hrun.1 (by decide)) (by decide)

end YabroOS.Shell
