import YabroOS.Shell.Environment
import Mathlib.Data.Int.Notation
import Mathlib.Order.Basic

namespace YabroOS.Shell

structure Stage where
  command : Word
  rest : List Word
  count_le : (command :: rest).length ≤ 31
  length_le : ∀ word ∈ command :: rest, word.length ≤ 127

def Stage.words (stage : Stage) : List Word := stage.command :: stage.rest

/-- What an executable file is: YabrusBox or another program, and which of the optional entries its
auxiliary vector has. -/
structure Program where
  yabrusBox : Bool
  phdr : Bool
  interp : Bool
  deriving DecidableEq

/-- What the rest of the system answers during a launch. `program` is what the loader makes of the
file under a path, if it can be loaded. -/
structure World where
  forks : Bool
  redirects : Bool
  pathExists : Word → Bool
  program : Word → Option Program

def appletNames : List Word :=
  ["ls", "cat", "pwd", "echo", "env", "mkdir", "rmdir", "cp", "rm", "mv", "touch", "head", "tail",
    "wc", "grep",
    "uname", "uptime", "ps", "kill", "whoami", "id", "true", "false", "sh"].map String.toList

def builtinNames : List Word :=
  ["exit", "cd", "pwd", "export", "unset", "env", "history", "cls", "shutdown", "poweroff",
    "reboot", "pftest",
    "stat", "which", "mem", "cpuinfo", "sysinfo", "uptime", "help"].map String.toList

def boxPath : Word := "/YABRUSBOX.ELF".toList

def joinPath (dir cmd : Word) : Word :=
  let out := dir.take 127
  let out := if out ≠ [] ∧ out.getLast? ≠ some '/' ∧ out.length < 127 then out ++ ['/'] else out
  out ++ cmd.take (127 - out.length)

def resolveElf (cmd : Word) : Word := if cmd.head? = some '/' then cmd else joinPath ['/'] cmd

def searchPath (pathExists : Word → Bool) (cmd pv : Word) : Option Word :=
  let dir := (pv.takeWhile (· ≠ ':')).take 127
  let out := joinPath (if dir = [] then ['/'] else dir) cmd
  if pathExists out then some out
  else if _h : pv.drop dir.length = [] then none
  else searchPath pathExists cmd (pv.drop (dir.length + 1))
termination_by pv.length
decreasing_by
  rw [List.drop_eq_nil_iff, Nat.not_le] at _h
  rw [List.length_drop]
  omega

def resolve (world : World) (env : Env) (cmd : Word) : Word :=
  if cmd.head? = some '/' then cmd
  else if cmd = "yabrusbox".toList ∨ cmd = "busybox".toList ∨ cmd ∈ appletNames then boxPath
  else
    let pv := match envValue env "PATH".toList with
      | none | some [] => ['/']
      | some pv => pv
    (searchPath world.pathExists cmd pv).getD (resolveElf cmd)

/-- The check that stopped a launch. -/
inductive Refusal
  | fork
  | dup2
  | path
  | argString
  | argCount
  | envString
  | envCount
  | file
  | execfn
  | stackRoom
  deriving DecidableEq

def Refusal.ofEnvironment : Refusal → Bool
  | .envString | .envCount | .stackRoom => true
  | _ => false

def copyVector (strings : List Word) (string count : Refusal) : Except Refusal (List Word) :=
  if (strings.take 16).any fun s ↦ 256 ≤ s.length + 1 then .error string
  else if 16 ≤ strings.length then .error count
  else .ok strings

def execPath (path : Word) : Word := if path.head? = some '/' then path else '/' :: path

def userStackTop : ℕ := 0x00007FFFFFFFF000
def userStackSize : ℕ := 0x00040000

def placeString (cursor : ℕ) (s : Word) : Except Refusal ℕ :=
  let next := (cursor - (s.length + 1)) / 16 * 16
  if 256 ≤ s.length ∨ next < userStackTop - userStackSize then .error .stackRoom else .ok next

def auxWords (program : Program) : ℕ :=
  14 + (if program.phdr then 2 else 0) + (if program.interp then 2 else 0)

def initUserStack (program : Program) (path : Word) (argv envp : List Word) :
    Except Refusal (List Word × List Word) := do
  let execfn := (execPath path).take 127
  let argv := if argv = [] then [execfn] else argv
  let execfnVa := (userStackTop - 64) / 16 * 16
  if userStackTop < execfnVa + execfn.length + 1 then .error .execfn
  else
    let randomVa := (execfnVa - 16) / 16 * 16
    let cursor ← (argv ++ envp).foldlM placeString randomVa
    let vectorBytes := (1 + (argv.length + 1) + (envp.length + 1) + auxWords program) * 8
    if cursor < vectorBytes + 16 + 8 then .error .stackRoom
    else
      let vectorLimit := cursor - 16
      let sp := (vectorLimit - vectorBytes - 8) / 16 * 16 + 8
      if vectorLimit < sp + vectorBytes ∨ sp < userStackTop - userStackSize then .error .stackRoom
      else .ok (argv, envp)

def normalizeArgv0 (path : Word) : List Word → List Word
  | [] :: args => if path = [] then [] :: args else path :: args
  | argv => argv

def sysExecve (world : World) (path : Word) (argv envp : List Word) :
    Except Refusal (Program × List Word × List Word) := do
  if 128 ≤ path.length + 1 then .error .path
  else
    let argv ← copyVector argv .argString .argCount
    let envp ← copyVector envp .envString .envCount
    let argv := normalizeArgv0 path argv
    match world.program (execPath path) with
    | none => .error .file
    | some program => do
      let (argv, envp) ← initUserStack program path argv envp
      .ok (program, argv, envp)

def operandApplets : List Word :=
  ["echo", "cat", "ls", "rmdir", "cp", "tail", "grep", "kill", "mkdir", "rm", "mv", "touch", "head",
    "wc"].map String.toList

def plainApplets : List Word :=
  ["pwd", "ps", "whoami", "id", "uname", "uptime", "env", "true", "false", "sh"].map String.toList

inductive Dispatch
  | version
  | list
  | help
  | shellBuiltin
  | operands (applet : Word) (args : List Word)
  | plain (applet : Word)
  | notFound (applet : Word)
  deriving DecidableEq

def baseName (path : Word) : Word := (path.reverse.takeWhile (· ≠ '/')).reverse

def dispatchApplet (applet : Word) (firstUser : ℕ) (av : List Word) : Dispatch :=
  let args := "yabrusbox".toList :: applet :: (av.drop firstUser).take 13
  if applet ∈ operandApplets then .operands applet args
  else if applet ∈ plainApplets then .plain applet
  else .notFound applet

def dispatch : List Word → Dispatch
  | [] => .help
  | av0 :: args =>
    if baseName av0 ∈ appletNames ∧ baseName av0 ≠ "YABRUSBOX.ELF".toList then
      dispatchApplet (baseName av0) 1 (av0 :: args)
    else match args with
      | [] => .help
      | av1 :: _ =>
        if av1 = "--version".toList then .version
        else if av1 = "--help".toList ∨ av1 = "--list".toList then
          if av1 = "--list".toList then .list else .help
        else if av0 = "yabrusbox".toList ∨ av0 = "busybox".toList ∨
          baseName av0 = "YABRUSBOX.ELF".toList then
          if av1 = "cd".toList then .shellBuiltin else dispatchApplet av1 2 (av0 :: args)
        else .help

/-- How a launch ends. `failed` is before any program acts, with the result of `launch` or the
status of the child. -/
inductive Outcome
  | failed (status : ℤ) (why : Refusal)
  | builtin
  | started (program : Program) (argv envp : List Word)
  deriving DecidableEq

def launch (world : World) (env : Env) (stage : Stage) : Outcome :=
  if !world.forks then .failed (-1) .fork
  else if !world.redirects then .failed 126 .dup2
  else if stage.command ∈ builtinNames then .builtin
  else
    let path := resolve world env stage.command
    let envp := buildEnvp env (envMax + 1)
    match sysExecve world path (stage.words.take 31) envp with
    | .error why => .failed 127 why
    | .ok (program, argv, envp) => .started program argv envp

def Stage.operands (stage : Stage) : List Word :=
  if baseName stage.command ∈ appletNames then stage.rest else stage.rest.tail

/-- The launch fails before anything acts, and not for the environment where there are at most 15
words, or the program has the words of the line and the entries of the shell, and so has the
function that YabrusBox chooses. -/
def Outcome.Delivers (stage : Stage) (env : Env) : Outcome → Prop
  | .failed status why => status ≠ 0 ∧ (stage.words.length ≤ 15 → why.ofEnvironment = false)
  | .builtin => True
  | .started program argv envp => argv = stage.words ∧ envp = env ∧
      (program.yabrusBox → ∀ applet args, dispatch argv = .operands applet args →
        args = "yabrusbox".toList :: applet :: stage.operands)

end YabroOS.Shell
