import YabroOS.Shell.Launch

namespace YabroOS.Shell

section Resolve

variable {world : World} {env : Env} {dir cmd pv : Word}

theorem joinPath_ne_nil (h : dir ≠ []) : joinPath dir cmd ≠ [] := by
  have hout : dir.take 127 ≠ [] := by
    rw [Ne, List.take_eq_nil_iff]
    simp [h]
  rw [joinPath]
  split
  · simp
  · simp [hout]

theorem searchPath_ne_nil {exists? : Word → Bool} {path : Word}
    (h : searchPath exists? cmd pv = some path) : path ≠ [] := by
  fun_induction searchPath exists? cmd pv with
  | case1 pv dir out hout =>
    obtain rfl := Option.some.inj h
    refine joinPath_ne_nil ?_
    split <;> simp_all
  | case2 => cases h
  | case3 pv dir out hout hrest ih => exact ih h

theorem resolve_ne_nil : resolve world env cmd ≠ [] := by
  have hslash : ∀ w : Word, w.head? = some '/' → w ≠ [] := by
    rintro w hw rfl
    cases hw
  rw [resolve]
  split
  · rename_i h
    exact hslash cmd h
  split
  · decide
  dsimp only
  generalize hs : searchPath world.pathExists cmd _ = found
  cases found with
  | some path => exact searchPath_ne_nil hs
  | none =>
    rw [Option.getD_none, resolveElf]
    split
    · rename_i h
      exact hslash cmd h
    · exact joinPath_ne_nil (by simp)

end Resolve

section Execve

variable {strings argv envp : List Word} {path : Word}

theorem copyVector_eq (string count : Refusal) (h : ∀ s ∈ strings, s.length ≤ 127) :
    copyVector strings string count = if 16 ≤ strings.length then .error count else .ok strings := by
  rw [copyVector, if_neg]
  rw [Bool.not_eq_true, List.any_eq_false]
  intro s hs
  have := h s (List.mem_of_mem_take hs)
  rw [decide_eq_true_eq]
  omega

theorem placeString_eq {cursor : ℕ} {s : Word} (hs : s.length ≤ 127)
    (hc : userStackTop - userStackSize + 144 ≤ cursor) :
    ∃ next, placeString cursor s = .ok next ∧ cursor - 144 ≤ next := by
  refine ⟨(cursor - (s.length + 1)) / 16 * 16, ?_, by omega⟩
  rw [placeString, if_neg]
  omega

theorem placeStrings_eq {cursor : ℕ} (hs : ∀ s ∈ strings, s.length ≤ 127)
    (hc : userStackTop - userStackSize + 144 * strings.length ≤ cursor) :
    ∃ next, strings.foldlM placeString cursor = .ok next ∧ cursor - 144 * strings.length ≤ next := by
  induction strings generalizing cursor with
  | nil => exact ⟨cursor, rfl, by simp⟩
  | cons s strings ih =>
    rw [List.length_cons] at hc ⊢
    obtain ⟨c₁, h₁, hle₁⟩ := placeString_eq (hs s List.mem_cons_self) (by omega : _ ≤ cursor)
    obtain ⟨c₂, h₂, hle₂⟩ := ih (fun s' hs' ↦ hs s' (List.mem_cons_of_mem s hs')) (by omega : _ ≤ c₁)
    refine ⟨c₂, ?_, by omega⟩
    rw [List.foldlM_cons, h₁]
    exact h₂

theorem initUserStack_eq (program : Program) (hne : argv ≠ []) (hargc : argv.length ≤ 15)
    (henvc : envp.length ≤ 15) (hargv : ∀ s ∈ argv, s.length ≤ 127)
    (henvp : ∀ s ∈ envp, s.length ≤ 127) (hpath : (execPath path).length ≤ 127) :
    initUserStack program path argv envp =
      if 64 ≤ (execPath path).length then .error .execfn else .ok (argv, envp) := by
  rw [initUserStack]
  dsimp only
  rw [List.take_of_length_le hpath, if_neg hne]
  by_cases hlong : 64 ≤ (execPath path).length
  · rw [if_pos hlong, if_pos]
    rw [userStackTop]
    omega
  rw [if_neg hlong, if_neg (by rw [userStackTop]; omega)]
  have hlen : (argv ++ envp).length ≤ 30 := by
    rw [List.length_append]
    omega
  have hshort : ∀ s ∈ argv ++ envp, s.length ≤ 127 :=
    fun s hs ↦ (List.mem_append.1 hs).elim (hargv s) (henvp s)
  have hroom : userStackTop - userStackSize + 144 * (argv ++ envp).length ≤
      ((userStackTop - 64) / 16 * 16 - 16) / 16 * 16 := by
    rw [userStackTop, userStackSize]
    omega
  obtain ⟨cursor, hcursor, hle⟩ := placeStrings_eq hshort hroom
  have haux : auxWords program ≤ 18 := by
    rw [auxWords]
    split <;> split <;> omega
  rw [hcursor]
  change (if _ then _ else _) = _
  rw [userStackTop] at hle
  rw [if_neg (by omega), if_neg]
  rw [userStackTop, userStackSize]
  omega

end Execve

section Dispatch

variable {stage : Stage}

theorem operandApplets_subset : ∀ applet ∈ operandApplets, applet ∈ appletNames := by decide

theorem ne_of_mem_appletNames : ∀ applet ∈ appletNames, applet ≠ "YABRUSBOX.ELF".toList := by decide

theorem dispatchApplet_operands {applet applet' : Word} {first : ℕ} {av args : List Word}
    (h : dispatchApplet applet first av = .operands applet' args) :
    applet' = applet ∧ applet ∈ operandApplets ∧
      args = "yabrusbox".toList :: applet :: (av.drop first).take 13 := by
  rw [dispatchApplet] at h
  split at h
  · rename_i hmem
    cases h
    exact ⟨rfl, hmem, rfl⟩
  · split at h <;> cases h

theorem dispatch_by_name (h : baseName stage.command ∈ appletNames) :
    dispatch stage.words = dispatchApplet (baseName stage.command) 1 stage.words := by
  rw [Stage.words, dispatch.eq_def]
  exact if_pos ⟨h, ne_of_mem_appletNames _ h⟩

theorem dispatch_through_box (h : baseName stage.command ∉ appletNames) {applet : Word}
    {args : List Word} (hd : dispatch stage.words = .operands applet args) :
    args = "yabrusbox".toList :: applet :: (stage.words.drop 2).take 13 := by
  rw [Stage.words, dispatch.eq_def] at hd
  dsimp only at hd
  rw [if_neg fun h' ↦ h h'.1] at hd
  split at hd
  · cases hd
  split at hd
  · cases hd
  split at hd
  · split at hd <;> cases hd
  split at hd
  · split at hd
    · cases hd
    · obtain ⟨rfl, -, hargs⟩ := dispatchApplet_operands hd
      exact hargs
  · cases hd

theorem dispatch_delivers_iff (hn : stage.words.length ≤ 15) :
    (∀ applet args, dispatch stage.words = .operands applet args →
        args = "yabrusbox".toList :: applet :: stage.operands) ↔
      ¬(stage.words.length = 15 ∧ baseName stage.command ∈ operandApplets) := by
  have hlen : stage.words.length = stage.rest.length + 1 := List.length_cons
  by_cases hname : baseName stage.command ∈ appletNames
  · rw [Stage.operands, if_pos hname, dispatch_by_name hname]
    constructor
    · rintro h ⟨h15, hop⟩
      -- the array of `dispatch` has 13 places for the 14 operands
      have := h (baseName stage.command) _ (by rw [dispatchApplet, if_pos hop])
      have htake : stage.rest.take 13 = stage.rest := by
        simpa [Stage.words] using this
      have := congrArg List.length htake
      rw [List.length_take] at this
      omega
    · intro h applet args hd
      obtain ⟨rfl, hop, rfl⟩ := dispatchApplet_operands hd
      have hle : stage.rest.length ≤ 13 := by
        by_contra hlt
        exact h ⟨by omega, hop⟩
      rw [Stage.words, List.drop_succ_cons, List.drop_zero, List.take_of_length_le hle]
  · have hop : baseName stage.command ∉ operandApplets := fun h ↦ hname (operandApplets_subset _ h)
    refine iff_of_true (fun applet args hd ↦ ?_) fun h ↦ hop h.2
    rw [dispatch_through_box hname hd, Stage.operands, if_neg hname, Stage.words,
      List.drop_succ_cons,
      List.drop_one, List.take_of_length_le]
    rw [List.length_tail]
    omega

end Dispatch

/-- The launch gets as far as the environment. -/
structure ReachesEnv (world : World) (env : Env) (stage : Stage) : Prop where
  forks : world.forks
  redirects : world.redirects
  not_builtin : stage.command ∉ builtinNames
  path_le : (resolve world env stage.command).length ≤ 126
  words_le : stage.words.length ≤ 15

/-- The command is not the empty word, and it is not an applet that is called by its name with 14
operands. -/
def Program.Fits (program : Program) (stage : Stage) : Prop :=
  stage.command ≠ [] ∧
    (program.yabrusBox → ¬(stage.words.length = 15 ∧ baseName stage.command ∈ operandApplets))

/-- What a launch needs so that nothing is lost: once it gets to the environment, this has at most
15 entries, and a program that loads fits the line. -/
def Fits (world : World) (env : Env) (stage : Stage) : Prop :=
  ReachesEnv world env stage → env.length ≤ 15 ∧
    ∀ program, world.program (execPath (resolve world env stage.command)) = some program →
      (execPath (resolve world env stage.command)).length ≤ 63 → program.Fits stage

variable {world : World} {env : Env} {stage : Stage} {path : Word}

theorem normalizeArgv0_words (hpath : path ≠ []) :
    normalizeArgv0 path stage.words = if stage.command = [] then path ::
      stage.rest else stage.words := by
  rw [Stage.words]
  cases stage.command with
  | nil => simp [normalizeArgv0, hpath]
  | cons c w => simp [normalizeArgv0]

theorem normalizeArgv0_eq_words_iff (hpath : path ≠ []) :
    normalizeArgv0 path stage.words = stage.words ↔ stage.command ≠ [] := by
  rw [normalizeArgv0_words hpath]
  split
  · rename_i h
    rw [Stage.words, h]
    simp [hpath]
  · rename_i h
    simp [h]

theorem normalizeArgv0_words_bounds (hne : path ≠ []) (hpath : path.length ≤ 126) :
    normalizeArgv0 path stage.words ≠ [] ∧ (normalizeArgv0 path stage.words).length =
      stage.words.length ∧ ∀ s ∈ normalizeArgv0 path stage.words, s.length ≤ 127 := by
  rw [normalizeArgv0_words hne]
  split
  · refine ⟨by simp, rfl, fun s hs ↦ ?_⟩
    rcases List.mem_cons.1 hs with rfl | hs
    · omega
    · exact stage.length_le s (List.mem_cons_of_mem _ hs)
  · exact ⟨by simp [Stage.words], rfl, stage.length_le⟩

theorem take_words : stage.words.take 31 = stage.words := List.take_of_length_le stage.count_le

theorem copyVector_words : copyVector stage.words .argString .argCount =
    if 16 ≤ stage.words.length then .error .argCount else .ok stage.words :=
  copyVector_eq _ _ stage.length_le

theorem sysExecve_words (hpath : path.length ≤ 126) (hwords : 16 ≤ stage.words.length) :
    sysExecve world path stage.words env = .error .argCount := by
  rw [sysExecve, if_neg (by omega), copyVector_words, if_pos hwords]
  rfl

theorem sysExecve_env (hpath : path.length ≤ 126) (hwords : stage.words.length ≤ 15)
    (hst : env.Stored) (henv : 16 ≤ env.length) :
    sysExecve world path stage.words env = .error .envCount := by
  rw [sysExecve, if_neg (by omega), copyVector_words, if_neg (by omega),
    copyVector_eq _ _ hst.length_le, if_pos henv]
  rfl

theorem sysExecve_eq (hne : path ≠ []) (hpath : path.length ≤ 126)
    (hwords : stage.words.length ≤ 15) (hst : env.Stored) (henv : env.length ≤ 15) :
    sysExecve world path stage.words env =
      match world.program (execPath path) with
      | none => .error .file
      | some program =>
        if 64 ≤ (execPath path).length then .error .execfn else .ok
          (program, normalizeArgv0 path stage.words, env) := by
  rw [sysExecve, if_neg (by omega), copyVector_words, if_neg (by omega),
    copyVector_eq _ _ hst.length_le, if_neg (by omega)]
  simp only [Except.bind, bind]
  cases world.program (execPath path) with
  | none => rfl
  | some program =>
    have hexec : (execPath path).length ≤ 127 := by
      rw [execPath]
      split
      · omega
      · rw [List.length_cons]
        omega
    obtain ⟨hnil, hlen, hshort⟩ := normalizeArgv0_words_bounds hne hpath
    dsimp only
    rw [initUserStack_eq program hnil (by omega) henv hshort hst.length_le hexec]
    by_cases hlong : 64 ≤ (execPath path).length
    · rw [if_pos hlong, if_pos hlong]
    · rw [if_neg hlong, if_neg hlong]

theorem launch_refused (h : ¬ReachesEnv world env stage) (hst : env.Stored) :
    (launch world env stage).Delivers stage env := by
  rw [launch]
  split
  · exact ⟨by decide, fun _ ↦ rfl⟩
  split
  · exact ⟨by decide, fun _ ↦ rfl⟩
  split
  · trivial
  rename_i hfork hdup hbuiltin
  dsimp only
  rw [take_words, buildEnvp_eq hst]
  by_cases hpath : (resolve world env stage.command).length ≤ 126
  · by_cases hwords : 16 ≤ stage.words.length
    · rw [sysExecve_words hpath hwords]
      exact ⟨by decide, fun _ ↦ rfl⟩
    · exact absurd ⟨by simpa using hfork, by simpa using hdup, hbuiltin, hpath, by omega⟩ h
  · rw [sysExecve, if_pos (by omega)]
    exact ⟨by decide, fun _ ↦ rfl⟩

theorem launch_of_reaches (h : ReachesEnv world env stage) (hst : env.Stored) :
    launch world env stage =
      match sysExecve world (resolve world env stage.command) stage.words env with
      | .error why => .failed 127 why
      | .ok (program, argv, envp) => .started program argv envp := by
  rw [launch, if_neg (by simp [h.forks]), if_neg (by simp [h.redirects]), if_neg h.not_builtin]
  rewrite [take_words, buildEnvp_eq hst]
  rfl

/-- Every environment that the shell can have and every stage that it accepts: the program works on
the words and the entries, or the launch fails as it should, exactly if the limits are kept. -/
theorem launch_delivers_iff (world : World) (ops : List EnvOp) (stage : Stage) :
    (launch world (Env.after ops) stage).Delivers stage (Env.after ops) ↔
      Fits world (Env.after ops) stage := by
  have hst := Env.after_stored ops
  generalize Env.after ops = env at *
  by_cases hr : ReachesEnv world env stage
  swap
  · exact iff_of_true (launch_refused hr hst) fun h ↦ absurd h hr
  rw [launch_of_reaches hr hst, Fits, imp_iff_right hr]
  by_cases henv : 16 ≤ env.length
  · rw [sysExecve_env hr.path_le hr.words_le hst henv]
    refine iff_of_false (fun h ↦ ?_) fun h ↦ by omega
    exact absurd (h.2 hr.words_le) (by decide)
  rw [sysExecve_eq resolve_ne_nil hr.path_le hr.words_le hst (by omega)]
  have hle : env.length ≤ 15 := by omega
  cases hp : world.program (execPath (resolve world env stage.command)) with
  | none => exact iff_of_true ⟨by decide, fun _ ↦ rfl⟩ ⟨hle, fun _ h ↦ by cases h⟩
  | some program =>
    dsimp only
    by_cases hlong : 64 ≤ (execPath (resolve world env stage.command)).length
    · rw [if_pos hlong]
      exact iff_of_true ⟨by decide, fun _ ↦ rfl⟩ ⟨hle, fun _ _ h ↦ by omega⟩
    · rw [if_neg hlong]
      have hfits : program.Fits stage ↔ Outcome.Delivers stage env
          (.started program (normalizeArgv0 (resolve world env stage.command) stage.words) env) := by
        rw [Program.Fits, Outcome.Delivers, ← normalizeArgv0_eq_words_iff resolve_ne_nil]
        refine and_congr_right fun hwords ↦ ?_
        rw [hwords, ← dispatch_delivers_iff hr.words_le]
        simp
      rw [← hfits]
      constructor
      · intro h
        refine ⟨hle, fun program' hp' _ ↦ ?_⟩
        cases hp'
        exact h
      · exact fun h ↦ h.2 program rfl (by omega)

def boxWorld : World where
  forks := true
  redirects := true
  pathExists _ := false
  program path := if path = boxPath then some ⟨true, true, false⟩ else none

/-- `echo a b c d e f g h i j k l m n`. -/
def fourteenOperands : Stage where
  command := "echo".toList
  rest := "abcdefghijklmn".toList.map ([·])
  count_le := by decide
  length_le := by decide

def oneOperand : Stage where
  command := "echo".toList
  rest := [['a']]
  count_le := by decide
  length_le := by decide

def elevenExports : List EnvOp := [.exportVars ("abcdefghijk".toList.map ([·]))]

/-- `echo` is given 13 of its 14 operands, and with 16 variables it is not run at all. -/
theorem launch_loses_operand :
    ¬((launch boxWorld (Env.after []) fourteenOperands).Delivers fourteenOperands (Env.after [])) ∧
    ¬((launch boxWorld (Env.after elevenExports) oneOperand).Delivers oneOperand
      (Env.after elevenExports)) := by
  constructor
  · have hl : launch boxWorld (Env.after []) fourteenOperands =
        .started ⟨true, true, false⟩ fourteenOperands.words (Env.after []) := by decide +kernel
    have hd : dispatch fourteenOperands.words = .operands "echo".toList
        ("yabrusbox".toList :: "echo".toList :: "abcdefghijklm".toList.map ([·])) := by decide +kernel
    rw [hl]
    rintro ⟨-, -, h⟩
    exact absurd (h rfl _ _ hd) (by decide +kernel)
  · have hl : launch boxWorld (Env.after elevenExports) oneOperand = .failed 127 .envCount := by
      decide +kernel
    rw [hl]
    rintro ⟨-, h⟩
    exact absurd (h (by decide)) (by decide)

end YabroOS.Shell
