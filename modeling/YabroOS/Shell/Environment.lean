import YabroOS.Lib.Instances
import Mathlib.Data.List.Basic

namespace YabroOS.Shell

/-- A string of the source without its terminator, a character for a byte. -/
abbrev Word := List Char

abbrev Env := List Word

def envMax : ℕ := 32

def entryName (entry : Word) : Word := (entry.takeWhile (· ≠ '=')).take 127

def entryValue (entry : Word) : Option Word :=
  match entry.drop (entryName entry).length with
  | '=' :: value => some value
  | _ => none

def envInit : Env :=
  ["PATH=/usr/bin:/bin:/".toList, "HOME=/".toList, "SHELL=/bin/sh".toList, "TERM=xterm".toList,
    "TERMINFO=/lib/term".toList]

def envValue (env : Env) (name : Word) : Option Word :=
  env.findSome? fun entry ↦ if entryName entry = name then entryValue entry else none

def envSet (env : Env) (name value : Word) : Option Env :=
  if name = [] ∨ 64 ≤ name.length ∨ 128 < value.length + name.length + 2 then none
  else if name.any (· ∈ ['=', '/', ' ', '\t']) then none
  else
    let entry := name ++ '=' :: value
    match env.findIdx? (entryName · = name) with
    | some i => some (env.set i entry)
    | none => if envMax ≤ env.length then none else some (env ++ [entry])

def envUnset (env : Env) (name : Word) : Env :=
  match env.findIdx? (entryName · = name) with
  | some i => env.eraseIdx i
  | none => env

def buildEnvp (env : Env) (cap : ℕ) : List Word := env.take (cap - 1)

def exportWords (env : Env) : List Word → Env
  | [] => env
  | arg :: args =>
    let name := arg.takeWhile (· ≠ '=')
    let value := match arg.dropWhile (· ≠ '=') with
      | [] => (envValue env name).getD []
      | _ :: value => value
    match envSet env name value with
    | none => env
    | some env => exportWords env args

def changeDir (env : Env) (oldcwd newcwd : Word) : Env :=
  match if oldcwd = [] then some env else envSet env "OLDPWD".toList oldcwd with
  | none => env
  | some env => (envSet env "PWD".toList newcwd).getD env

inductive EnvOp
  | exportVars (args : List Word)
  | unset (names : List Word)
  | cd (oldcwd newcwd : Word)

def Env.step (env : Env) : EnvOp → Env
  | .exportVars args => exportWords env args
  | .unset names => names.foldl envUnset env
  | .cd oldcwd newcwd => changeDir env oldcwd newcwd

def Env.after (ops : List EnvOp) : Env := ops.foldl Env.step envInit

/-- There is room for the entries, and each fits in its 128 bytes. -/
structure Env.Stored (env : Env) : Prop where
  count_le : env.length ≤ envMax
  length_le : ∀ entry ∈ env, entry.length ≤ 127

variable {env env' : Env}

theorem Env.Stored.set (h : env.Stored) {name value : Word}
    (hs : envSet env name value = some env') : env'.Stored := by
  rw [envSet] at hs
  split at hs
  · cases hs
  rename_i hlen
  split at hs
  · cases hs
  have hentry : (name ++ '=' :: value).length ≤ 127 := by
    rw [List.length_append, List.length_cons]
    omega
  dsimp only at hs
  split at hs
  · obtain rfl := Option.some.inj hs
    refine ⟨by rw [List.length_set]; exact h.count_le, fun entry he ↦ ?_⟩
    rcases List.mem_or_eq_of_mem_set he with he | rfl
    · exact h.length_le entry he
    · exact hentry
  · split at hs
    · cases hs
    · rename_i hroom
      obtain rfl := Option.some.inj hs
      refine ⟨?_, fun entry he ↦ ?_⟩
      · rw [List.length_append, List.length_singleton]
        omega
      · rcases List.mem_append.1 he with he | he
        · exact h.length_le entry he
        · rw [List.mem_singleton.1 he]
          exact hentry

theorem Env.Stored.unset (h : env.Stored) (name : Word) : (envUnset env name).Stored := by
  rw [envUnset]
  split
  · refine ⟨Nat.le_trans (List.length_eraseIdx_le _ _) h.count_le, fun entry he ↦ ?_⟩
    exact h.length_le entry (List.mem_of_mem_eraseIdx he)
  · exact h

theorem Env.Stored.exportWords (h : env.Stored) (args : List Word) :
    (Shell.exportWords env args).Stored := by
  induction args generalizing env with
  | nil => exact h
  | cons arg args ih =>
    rw [Shell.exportWords]
    split
    · exact h
    · rename_i hs
      exact ih (h.set hs)

theorem Env.Stored.setPwd (h : env.Stored) (newcwd : Word) :
    ((envSet env "PWD".toList newcwd).getD env).Stored := by
  cases hs : envSet env "PWD".toList newcwd with
  | none => exact h
  | some env' => exact h.set hs

theorem Env.Stored.changeDir (h : env.Stored) (oldcwd newcwd : Word) :
    (Shell.changeDir env oldcwd newcwd).Stored := by
  rw [Shell.changeDir]
  split
  · exact h
  · rename_i env₁ hs
    refine Env.Stored.setPwd ?_ newcwd
    split at hs
    · obtain rfl := Option.some.inj hs
      exact h
    · exact h.set hs

theorem Env.Stored.step (h : env.Stored) (op : EnvOp) : (env.step op).Stored := by
  cases op with
  | exportVars args => exact h.exportWords args
  | unset names => exact List.foldlRecOn names envUnset h fun _ h name _ ↦ h.unset name
  | cd oldcwd newcwd => exact h.changeDir oldcwd newcwd

theorem envInit_stored : Env.Stored envInit := ⟨by decide, by decide⟩

theorem Env.after_stored (ops : List EnvOp) : (Env.after ops).Stored :=
  List.foldlRecOn ops Env.step envInit_stored fun _ h op _ ↦ h.step op

theorem buildEnvp_eq (h : env.Stored) : buildEnvp env (envMax + 1) = env :=
  List.take_of_length_le h.count_le

end YabroOS.Shell
