import Mathlib.Data.List.Nodup
import YabroOS.Libc.Environ
import YabroOS.Shell.Environment

namespace YabroOS.Shell

open Lib Libc Function

/-- One round of the loop of `ysh_main` over its `envp`, none where the string is passed over or
`env_set` refuses it. -/
def importEntry (env : Env) (entry : Word) : Option Env :=
  if entry.length ≤ 1 ∨ 128 ≤ entry.length then none
  else
    let name := entry.takeWhile (· ≠ '=')
    match entry.dropWhile (· ≠ '=') with
    | '=' :: value =>
      if name = [] then none
      else if ¬env.any (entryName · = name) ∧ envMax - 3 ≤ env.length then none
      else envSet env name value
    | _ => none

inductive EnvCall
  | set (name value : Word)
  | unset (name : Word)
  | inherit (entry : Word)

def Env.call (env : Env) : EnvCall → Env × Bool
  | .set name value => ((envSet env name value).getD env, (envSet env name value).isSome)
  | .unset name => (envUnset env name, true)
  | .inherit entry => ((importEntry env entry).getD env, (importEntry env entry).isSome)

def EnvCall.asked : EnvCall → Option (MapOp Word Word)
  | .set name value => some (.set name value true)
  | .unset name => some (.unset name)
  | .inherit entry => some (.set (nameOf entry) (entry.dropWhile (· ≠ '=')).tail true)

def Env.run (env : Env) (calls : List EnvCall) : Env := calls.foldl (fun env c ↦ (env.call c).1) env

def yshCalls (envp : List Word) (cwd : Option Word) : List EnvCall :=
  (envp.take 128).map .inherit ++ (cwd.map fun cwd ↦ .set "PWD".toList cwd).toList

def envpVector (env : Env) : List (Option Word) := (buildEnvp env (envMax + 1)).map some ++ [none]

structure Env.Named (env : Env) : Prop where
  formed : ∀ entry ∈ env, '=' ∈ entry ∧ (nameOf entry).length < 64 ∧ nameOf entry ≠ []
  once : ∀ name, (entriesOf nameOf env name).length ≤ 1

variable {env env' : Env} {name value entry : Word}

theorem Env.Named.clean (h : env.Named) : Clean env :=
  ⟨fun entry he _ ↦ (h.formed entry he).1, fun name _ ↦ h.once name⟩

theorem Env.Named.entryName_eq (h : env.Named) (he : entry ∈ env) :
    entryName entry = nameOf entry :=
  List.take_of_length_le (Nat.le_trans (Nat.le_of_lt (h.formed entry he).2.1) (by decide))

theorem Env.Named.findIdx?_eq (h : env.Named) (name : Word) :
    env.findIdx? (entryName · = name) = env.findIdx? (nameOf · = name) := by
  have hmap : env.map entryName = env.map nameOf :=
    List.map_congr_left fun entry he ↦ h.entryName_eq he
  have hcomp (key : Word → Word) : env.findIdx? (key · = name) =
      (env.map key).findIdx? (· = name) := by
    rw [List.findIdx?_map]
    rfl
  rw [hcomp entryName, hmap, ← hcomp nameOf]

theorem Env.Named.envValue_eq (h : env.Named) (name : Word) :
    envValue env name = wordLookup env name := by
  unfold envValue wordLookup
  have hformed := h.formed
  have hkey : ∀ entry ∈ env, entryName entry = nameOf entry := fun entry he ↦ h.entryName_eq he
  clear h
  induction env with
  | nil => rfl
  | cons entry env ih =>
    have hentry := hkey entry (.head _)
    by_cases hn : nameOf entry = name
    · obtain ⟨value, hvalue⟩ :=
        Option.ne_none_iff_exists'.1 (valueOf_ne_none (hformed entry (.head _)).1)
      have hv : entryValue entry = some value := by
        unfold entryValue
        rw [hentry]
        exact hvalue
      rw [entriesOf_cons_self nameOf hn, List.findSome?_cons, hentry, if_pos hn, hv,
        List.head?_cons, Option.bind_some, hvalue]
    · rw [entriesOf_cons_ne nameOf hn, List.findSome?_cons, hentry, if_neg hn]
      exact ih (fun e he ↦ hformed e (.tail _ he)) fun e he ↦ hkey e (.tail _ he)

theorem envSet_eq (h : env.Named) (hs : envSet env name value = some env') :
    env' = putEntry nameOf env name (name ++ '=' :: value) ∧ name ≠ [] ∧ name.length < 64 ∧
      '=' ∉ name := by
  rw [envSet] at hs
  split at hs
  · cases hs
  rename_i hlen
  split at hs
  · cases hs
  rename_i hany
  have heq : '=' ∉ name := by
    intro hmem
    exact hany (List.any_eq_true.2 ⟨'=', hmem, by decide⟩)
  refine ⟨?_, fun hn ↦ hlen (.inl hn), by omega, heq⟩
  dsimp only at hs
  rw [h.findIdx?_eq] at hs
  unfold putEntry
  split at hs
  · next i hi =>
    rw [hi]
    exact (Option.some.inj hs).symm
  · next hi =>
    split at hs
    · cases hs
    · rw [hi]
      exact (Option.some.inj hs).symm

theorem envUnset_eq (h : env.Named) (name : Word) :
    envUnset env name = dropEntry nameOf env name := by
  cases hi : env.findIdx? (nameOf · = name) <;> simp only [envUnset, dropEntry, h.findIdx?_eq, hi]

theorem Env.Named.set (h : env.Named) (hs : envSet env name value = some env') : env'.Named := by
  obtain ⟨rfl, hname, hlen, heq⟩ := envSet_eq h hs
  have hkey := nameOf_entry heq value
  refine ⟨fun entry he ↦ ?_, entriesOf_le_one_put nameOf hkey h.once⟩
  rcases mem_putEntry nameOf he with he | rfl
  · exact h.formed entry he
  · rw [hkey]
    exact ⟨List.mem_append_right _ (.head _), hlen, hname⟩

theorem Env.Named.unset (h : env.Named) (name : Word) : (envUnset env name).Named := by
  rw [envUnset_eq h]
  refine ⟨fun entry he ↦ h.formed entry (mem_dropEntry nameOf he), fun name' ↦ ?_⟩
  by_cases hk : name' = name
  · rw [hk, entriesOf_drop_self, List.length_tail]
    have := h.once name
    omega
  · rw [entriesOf_drop_ne nameOf hk]
    exact h.once name'

theorem importEntry_eq (h : importEntry env entry = some env') :
    envSet env (nameOf entry) (entry.dropWhile (· ≠ '=')).tail = some env' := by
  unfold importEntry at h
  split at h
  · cases h
  dsimp only at h
  split at h
  · next value hvalue =>
    split at h
    · cases h
    split at h
    · cases h
    rw [hvalue]
    exact h
  · cases h

theorem Env.Named.call (h : env.Named) (c : EnvCall) : (env.call c).1.Named := by
  cases c with
  | set name value =>
    cases hs : envSet env name value with
    | none => rwa [Env.call, hs]
    | some env' =>
      rw [Env.call, hs]
      exact h.set hs
  | unset name => exact h.unset name
  | inherit entry =>
    cases hs : importEntry env entry with
    | none => rwa [Env.call, hs]
    | some env' =>
      rw [Env.call, hs]
      exact h.set (importEntry_eq hs)

theorem follows_set (h : env.Named) (hs : envSet env name value = some env') :
    FollowsMap (wordLookup env) (wordLookup env') (some (.set name value true)) true := by
  obtain ⟨rfl, -, -, heq⟩ := envSet_eq h hs
  have hset : mapAfter (wordLookup env) (.set name value true) =
      update (wordLookup env) name (some value) := by
    rw [mapAfter, if_pos (.inl rfl)]
  exact ⟨_, rfl, (wordLookup_put heq).trans hset.symm⟩

theorem Env.Named.follows (h : env.Named) (c : EnvCall) :
    FollowsMap (wordLookup env) (wordLookup (env.call c).1) c.asked (env.call c).2 := by
  cases c with
  | set name value =>
    cases hs : envSet env name value with
    | none =>
      rw [Env.call, hs]
      rfl
    | some env' =>
      rw [Env.call, hs]
      exact follows_set h hs
  | unset name =>
    refine ⟨_, rfl, ?_⟩
    have htail : (entriesOf nameOf env name).tail = [] := by
      refine List.eq_nil_of_length_eq_zero ?_
      have := h.once name
      rw [List.length_tail]
      omega
    rw [Env.call, envUnset_eq h, wordLookup_drop, htail]
    rfl
  | inherit entry =>
    cases hs : importEntry env entry with
    | none =>
      rw [Env.call, hs]
      rfl
    | some env' =>
      rw [Env.call, hs]
      exact follows_set h (importEntry_eq hs)

theorem Env.Stored.call (h : env.Stored) (c : EnvCall) : (env.call c).1.Stored := by
  cases c with
  | set name value =>
    cases hs : envSet env name value with
    | none => rwa [Env.call, hs]
    | some env' =>
      rw [Env.call, hs]
      exact h.set hs
  | unset name => exact h.unset name
  | inherit entry =>
    cases hs : importEntry env entry with
    | none => rwa [Env.call, hs]
    | some env' =>
      rw [Env.call, hs]
      exact h.set (importEntry_eq hs)

theorem envInit_named : Env.Named envInit := by
  refine ⟨by decide, fun name ↦ ?_⟩
  have hnodup : (envInit.map nameOf).Nodup := by decide
  rw [entriesOf, ← List.countP_eq_length_filter]
  have hcount := List.nodup_iff_count_le_one.1 hnodup name
  rw [List.count, List.countP_map] at hcount
  refine Nat.le_trans (List.countP_mono_left fun entry _ he ↦ ?_) hcount
  exact beq_iff_eq.2 (of_decide_eq_true he)

theorem Env.run_named (calls : List EnvCall) :
    (Env.run envInit calls).Named ∧ (Env.run envInit calls).Stored := by
  unfold Env.run
  refine List.foldlRecOn (motive := fun env : Env ↦ env.Named ∧ env.Stored) calls _
    ⟨envInit_named, envInit_stored⟩ ?_
  exact fun env h c _ ↦ ⟨h.1.call c, h.2.call c⟩

/-- The shell's store is a map: at each point of each run that starts as `ysh_main` does, through
the strings that it takes over, every call does to the lookups what it does to a map's, and the
array for `execve` lists each name once before its null pointer. -/
def ShellMaps : Prop :=
  ∀ envp cwd calls before c, before <+: yshCalls envp cwd ++ calls →
    let env := Env.run envInit before
    FollowsMap (envValue env) (envValue (env.call c).1) c.asked (env.call c).2 ∧
      ListsOnce (envpVector env) (envValue env)

theorem shellMaps : ShellMaps := by
  intro envp cwd calls before c _
  obtain ⟨hnamed, hstored⟩ := Env.run_named before
  have hlookup {env : Env} (h : env.Named) : envValue env = wordLookup env := funext h.envValue_eq
  dsimp only
  rw [hlookup hnamed, hlookup (hnamed.call c)]
  refine ⟨hnamed.follows c,
    hnamed.clean.listsOnce (e := ⟨envpVector (Env.run envInit before), _⟩) ⟨rfl, [], ?_⟩⟩
  rw [envpVector, buildEnvp_eq hstored]

def EnvironmentMaps (words : List Word) : Prop := EnvironMaps words ∧ ShellMaps

/-- The shell's store is one always, the C library's exactly where the strings that it starts with
are clean. -/
theorem environmentMaps_iff (words : List Word) : EnvironmentMaps words ↔ Clean words :=
  ⟨fun h ↦ (environMaps_iff words).1 h.1, fun h ↦ ⟨(environMaps_iff words).2 h, shellMaps⟩⟩

/-- A variable that stands there twice is still found after it is unset. -/
theorem not_environmentMaps_twice : ¬EnvironmentMaps ["A=1".toList, "A=2".toList] := by
  intro h
  obtain ⟨op, hop, hf⟩ := (h.1 [] (.unset (some ['A']))).1
  obtain rfl := Option.some.inj hop
  exact absurd (congrFun hf ['A']) (by decide)

end YabroOS.Shell
