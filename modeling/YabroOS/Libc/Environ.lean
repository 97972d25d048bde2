import YabroOS.Lib.Instances
import Mathlib.Data.List.TakeWhile
import YabroOS.Lib.Entries

namespace YabroOS.Libc

open Lib Function

abbrev Str := List Char

structure Environ where
  vec : List (Option Str)
  count : ℕ

def envInit (envp : List (Option Str)) : Environ := ⟨envp, envp.findIdx (· = none)⟩

def envNameLen (s : Str) : ℕ := (s.takeWhile (· ≠ '=')).length

def envFind (e : Environ) (name : Str) : Option ℕ :=
  (e.vec.take e.count).findIdx? fun c ↦ c.any fun s ↦ envNameLen s = name.length ∧
    s.take name.length = name

def valueOf (s : Str) : Option Str :=
  match s.drop (envNameLen s) with
  | '=' :: value => some value
  | _ => none

def getenv (e : Environ) (name : Str) : Option Str :=
  (envFind e name).bind fun i ↦ e.vec[i]?.join.bind valueOf

def setenv (e : Environ) (name value : Option Str) (overwrite stringOk vectorOk : Bool) :
    Environ × Bool :=
  match name, value with
  | some name, some value =>
    if name = [] ∨ '=' ∈ name then (e, false)
    else
      let s := name ++ '=' :: value
      match envFind e name with
      | some i =>
        if !overwrite then (e, true) else if !stringOk then (e, false)
        else ({ e with vec := e.vec.set i (some s) }, true)
      | none =>
        if !stringOk then (e, false)
        else if !vectorOk then (e, false)
        else (⟨e.vec.take e.count ++ [some s, none], e.count + 1⟩, true)
  | _, _ => (e, false)

/-- The loop `for (j = i; j + 1 < env_count; j++) env_vec[j] = env_vec[j + 1];` in a number of
rounds. -/
def moveDown : ℕ → ℕ → List (Option Str) → List (Option Str)
  | 0, _, vec => vec
  | n + 1, j, vec => moveDown n (j + 1) (vec.set j vec[j + 1]?.join)

def unsetenv (e : Environ) (name : Option Str) : Environ × Bool :=
  match name with
  | some name =>
    if name = [] ∨ '=' ∈ name then (e, false)
    else
      match envFind e name with
      | some i => (⟨(moveDown (e.count - 1 - i) i e.vec).set (e.count - 1) none, e.count - 1⟩, true)
      | none => (e, true)
  | none => (e, false)

inductive EnvCall
  | set (name value : Option Str) (overwrite stringOk vectorOk : Bool)
  | unset (name : Option Str)

def Environ.call (e : Environ) : EnvCall → Environ × Bool
  | .set name value overwrite stringOk vectorOk => setenv e name value overwrite stringOk vectorOk
  | .unset name => unsetenv e name

def Environ.run (e : Environ) (calls : List EnvCall) : Environ :=
  calls.foldl (fun e c ↦ (e.call c).1) e

def EnvCall.asked : EnvCall → Option (MapOp Str Str)
  | .set (some name) (some value) overwrite _ _ => some (.set name value overwrite)
  | .unset (some name) => some (.unset name)
  | _ => none

def ListsOnce (vec : List (Option Str)) (f : Str → Option Str) : Prop :=
  ∃ (words rest : _), vec = List.map some words ++ none :: rest ∧
    ∀ name value, name ≠ [] → f name = some value →
      words.filter (fun s ↦ (name ++ ['=']).isPrefixOf s) = [name ++ '=' :: value]

def nameOf (s : Str) : Str := s.takeWhile (· ≠ '=')

/-- No string but the empty one is without a `=`, and no two have one name. -/
structure Clean (words : List Str) : Prop where
  formed : ∀ s ∈ words, s ≠ [] → '=' ∈ s
  once : ∀ name, name ≠ [] → (entriesOf nameOf words name).length ≤ 1

structure Stored (e : Environ) (words : List Str) : Prop where
  count_eq : e.count = words.length
  vec_eq : ∃ rest, e.vec = words.map some ++ none :: rest

variable {e : Environ} {words : List Str} {name value s : Str}

theorem nameOf_of_notMem (h : '=' ∉ s) : nameOf s = s :=
  List.takeWhile_eq_self_iff.2 fun _ hc ↦ decide_eq_true (ne_of_mem_of_not_mem hc h)

theorem nameOf_entry (h : '=' ∉ name) (value : Str) : nameOf (name ++ '=' :: value) = name := by
  rw [nameOf, List.takeWhile_append_of_pos fun c hc ↦ decide_eq_true (ne_of_mem_of_not_mem hc h),
    List.takeWhile_cons_of_neg (by decide),
    List.append_nil]

theorem notMem_nameOf (s : Str) : '=' ∉ nameOf s := by
  intro h
  have hne := List.mem_takeWhile_imp (p := (· ≠ '=')) h
  exact of_decide_eq_true hne rfl

theorem valueOf_entry (h : '=' ∉ name) (value : Str) :
    valueOf (name ++ '=' :: value) = some value := by
  have hlen : envNameLen (name ++ '=' :: value) = name.length :=
    congrArg List.length (nameOf_entry h value)
  rw [valueOf, hlen, List.drop_left]
  exact rfl

theorem valueOf_eq_none (h : '=' ∉ s) : valueOf s = none := by
  have hlen : envNameLen s = s.length := congrArg List.length (nameOf_of_notMem h)
  rw [valueOf, hlen, List.drop_length]

theorem entry_of_valueOf (h : valueOf s = some value) : s = nameOf s ++ '=' :: value := by
  unfold valueOf at h
  split at h
  · next v hv =>
    obtain rfl := Option.some.inj h
    have hsplit := List.takeWhile_append_dropWhile (p := (· ≠ '=')) (l := s)
    have hdrop : s.drop (envNameLen s) = s.dropWhile (· ≠ '=') := by
      conv => lhs; arg 2; rw [← hsplit]
      exact List.drop_left
    rw [← hdrop, hv] at hsplit
    exact hsplit.symm
  · cases h

theorem entry_of_mem (h : '=' ∈ s) : ∃ name value, '=' ∉ name ∧ s = name ++ '=' :: value := by
  obtain ⟨name, value, rfl, hname⟩ := List.eq_append_cons_of_mem h
  exact ⟨name, value, hname, rfl⟩

theorem matches_iff (s name : Str) :
    envNameLen s = name.length ∧ s.take name.length = name ↔ nameOf s = name := by
  constructor
  · rintro ⟨hlen, htake⟩
    rw [← htake, ← hlen]
    exact List.prefix_iff_eq_take.1 (List.takeWhile_prefix _)
  · rintro rfl
    exact ⟨rfl, (List.prefix_iff_eq_take.1 (List.takeWhile_prefix _)).symm⟩

theorem envFind_eq (h : Stored e words) (name : Str) :
    envFind e name = words.findIdx? (nameOf · = name) := by
  obtain ⟨rest, hvec⟩ := h.vec_eq
  rw [envFind, hvec, h.count_eq, List.take_left' (List.length_map _), List.findIdx?_map]
  congr 1
  funext s
  exact decide_eq_decide.2 (matches_iff s name)

theorem getenv_eq (h : Stored e words) (name : Str) :
    getenv e name = (entriesOf nameOf words name).head?.bind valueOf := by
  obtain ⟨rest, hvec⟩ := h.vec_eq
  rw [getenv, envFind_eq h]
  rcases findIdx?_cases nameOf words name with ⟨hnone, hempty⟩ | ⟨l₁, a, l₂, rfl, ha, hl₁, hsome⟩
  · rw [hnone, hempty]
    rfl
  · have hcell : e.vec[l₁.length]? = some (some a) := by
      rw [hvec, List.map_append, List.append_assoc,
        List.getElem?_append_right (Nat.le_of_eq (List.length_map _)), List.length_map,
        Nat.sub_self]
      rfl
    rw [hsome, Option.bind_some, hcell, entriesOf_append, hl₁, entriesOf_cons_self nameOf ha]
    rfl

theorem moveDown_eq (l m t : List (Option Str)) (c : Option Str) :
    ∃ c', moveDown m.length l.length (l ++ c :: (m ++ t)) = l ++ (m ++ c' :: t) := by
  induction m generalizing l c with
  | nil => exact ⟨c, rfl⟩
  | cons d m ih =>
    obtain ⟨c', hc⟩ := ih (l ++ [d]) d
    refine ⟨c', ?_⟩
    have hnext : (l ++ c :: (d :: m ++ t))[l.length + 1]?.join = d := by
      rw [List.getElem?_append_right (Nat.le_add_right _ _), Nat.add_sub_cancel_left]
      rfl
    have hset : (l ++ c :: (d :: m ++ t)).set l.length d = l ++ [d] ++ d :: (m ++ t) := by
      rw [List.set_append_right _ _ (Nat.le_refl _), Nat.sub_self, List.append_assoc]
      rfl
    rw [List.length_cons, moveDown, hnext, hset]
    rw [List.length_append, List.length_singleton] at hc
    rw [hc, List.append_assoc]
    rfl

def callWords (words : List Str) : EnvCall → List Str × Bool
  | .set (some name) (some value) overwrite stringOk vectorOk =>
    if name = [] ∨ '=' ∈ name then (words, false)
    else if entriesOf nameOf words name ≠ [] ∧ !overwrite then (words, true)
    else if !stringOk ∨ entriesOf nameOf words name = [] ∧ !vectorOk then (words, false)
    else (putEntry nameOf words name (name ++ '=' :: value), true)
  | .unset (some name) =>
    if name = [] ∨ '=' ∈ name then (words, false) else (dropEntry nameOf words name, true)
  | _ => (words, false)

theorem setenv_stored (h : Stored e words) (name value : Str) (overwrite stringOk vectorOk : Bool) :
    Stored (setenv e (some name) (some value) overwrite stringOk vectorOk).1
        (callWords words (.set (some name) (some value) overwrite stringOk vectorOk)).1 ∧
      (setenv e (some name) (some value) overwrite stringOk vectorOk).2 =
        (callWords words (.set (some name) (some value) overwrite stringOk vectorOk)).2 := by
  obtain ⟨rest, hvec⟩ := h.vec_eq
  by_cases hname : name = [] ∨ '=' ∈ name
  · simp only [setenv, callWords, if_pos hname]
    exact ⟨h, trivial⟩
  simp only [setenv, callWords, if_neg hname, envFind_eq h]
  rcases findIdx?_cases nameOf words name with ⟨hnone, hempty⟩ | ⟨l₁, a, l₂, rfl, ha, hl₁, hsome⟩
  · rw [hnone, hempty,
      if_neg (show ¬(([] : List Str) ≠ [] ∧ (!overwrite) = true) from fun hc ↦ hc.1 rfl)]
    cases stringOk <;> cases vectorOk
    · exact ⟨h, rfl⟩
    · exact ⟨h, rfl⟩
    · exact ⟨h, rfl⟩
    · have hput : putEntry nameOf words name (name ++ '=' :: value) = words ++
          [name ++ '=' :: value] := by
        rw [putEntry, hnone]
      refine ⟨⟨?_, [], ?_⟩, rfl⟩
      · dsimp
        rw [hput, List.length_append, List.length_singleton, h.count_eq]
      · dsimp
        rw [hput, hvec, h.count_eq, List.take_left' (List.length_map _), List.map_append,
          List.append_assoc]
        rfl
  · have hfound : entriesOf nameOf (l₁ ++ a :: l₂) name ≠ [] := by
      rw [entriesOf_append, hl₁, entriesOf_cons_self nameOf ha]
      exact List.cons_ne_nil _ _
    rw [hsome]
    cases overwrite
    · rw [if_pos (show entriesOf nameOf (l₁ ++ a :: l₂) name ≠ [] ∧
        (!false) = true from ⟨hfound, rfl⟩)]
      exact ⟨h, rfl⟩
    · rw [if_neg (show ¬(entriesOf nameOf (l₁ ++ a :: l₂) name ≠ [] ∧ (!true) = true) from fun hc ↦
        Bool.noConfusion hc.2)]
      cases stringOk
      · exact ⟨h, rfl⟩
      · have hput : putEntry nameOf (l₁ ++ a :: l₂) name (name ++ '=' :: value) =
            (l₁ ++ a :: l₂).set l₁.length (name ++ '=' :: value) := by
          rw [putEntry, hsome]
        have hgo : ¬((!true) = true ∨ entriesOf nameOf (l₁ ++ a :: l₂) name = [] ∧
            (!vectorOk) = true) := by
          rintro (hc | hc)
          · exact Bool.noConfusion hc
          · exact hfound hc.1
        rw [if_neg hgo]
        refine ⟨⟨?_, rest, ?_⟩, rfl⟩
        · dsimp
          rw [hput, List.length_set, h.count_eq]
        · dsimp
          rw [hput, hvec, List.map_set,
            List.set_append_left _ _
              (by rw [List.length_map, List.length_append, List.length_cons]; omega)]

theorem unsetenv_stored (h : Stored e words) (name : Str) :
    Stored (unsetenv e (some name)).1 (callWords words (.unset (some name))).1 ∧
      (unsetenv e (some name)).2 = (callWords words (.unset (some name))).2 := by
  obtain ⟨rest, hvec⟩ := h.vec_eq
  by_cases hname : name = [] ∨ '=' ∈ name
  · simp only [unsetenv, callWords, if_pos hname]
    exact ⟨h, trivial⟩
  simp only [unsetenv, callWords, if_neg hname, envFind_eq h]
  rcases findIdx?_cases nameOf words name with ⟨hnone, hempty⟩ | ⟨l₁, a, l₂, rfl, ha, hl₁, hsome⟩
  · have hdrop : dropEntry nameOf words name = words := by
      rw [dropEntry, hnone]
    rw [hnone, hdrop]
    exact ⟨h, rfl⟩
  · have hdrop : dropEntry nameOf (l₁ ++ a :: l₂) name = l₁ ++ l₂ := by
      rw [dropEntry, hsome]
      dsimp only
      rw [List.eraseIdx_append_of_length_le (Nat.le_refl _), Nat.sub_self, List.eraseIdx_cons_zero]
    have hcount : e.count = l₁.length + (l₂.length + 1) := by
      rw [h.count_eq, List.length_append, List.length_cons]
    obtain ⟨c', hmove⟩ := moveDown_eq (l₁.map some) (l₂.map some) (none :: rest) (some a)
    rw [List.length_map, List.length_map] at hmove
    have hvec' : e.vec = l₁.map some ++ some a :: (l₂.map some ++ none :: rest) := by
      rw [hvec, List.map_append, List.append_assoc]
      rfl
    rw [hsome, hdrop]
    refine ⟨⟨?_, none :: rest, ?_⟩, rfl⟩
    · dsimp
      rw [hcount, List.length_append]
      rfl
    · dsimp
      rw [hcount, hvec', show l₁.length + (l₂.length + 1) - 1 - l₁.length = l₂.length by omega,
        hmove, ← List.append_assoc, ← List.map_append,
        List.set_append_right _ _ (by rw [List.length_map, List.length_append]; omega),
        List.length_map, List.length_append,
        show l₁.length + (l₂.length + 1) - 1 - (l₁.length + l₂.length) = 0 by omega]
      rfl

theorem call_stored (h : Stored e words) (c : EnvCall) :
    Stored (e.call c).1 (callWords words c).1 ∧ (e.call c).2 = (callWords words c).2 := by
  cases c with
  | set name value overwrite stringOk vectorOk =>
    cases name with
    | none => exact ⟨h, rfl⟩
    | some name =>
      cases value with
      | none => exact ⟨h, rfl⟩
      | some value => exact setenv_stored h name value overwrite stringOk vectorOk
  | unset name =>
    cases name with
    | none => exact ⟨h, rfl⟩
    | some name => exact unsetenv_stored h name

def wordLookup (words : List Str) (name : Str) : Option Str :=
  (entriesOf nameOf words name).head?.bind valueOf

theorem getenv_eq_wordLookup (h : Stored e words) : getenv e = wordLookup words :=
  funext fun name ↦ getenv_eq h name

theorem valueOf_ne_none (h : '=' ∈ s) : valueOf s ≠ none := by
  obtain ⟨name, value, hname, rfl⟩ := entry_of_mem h
  rw [valueOf_entry hname]
  exact Option.some_ne_none _

theorem wordLookup_put (hname : '=' ∉ name) :
    wordLookup (putEntry nameOf words name (name ++ '=' :: value)) =
      update (wordLookup words) name (some value) := by
  have hkey := nameOf_entry hname value
  funext other
  unfold wordLookup
  by_cases hother : other = name
  · rw [hother, entriesOf_put_self nameOf hkey, update_self, List.head?_cons, Option.bind_some,
      valueOf_entry hname]
  · rw [entriesOf_put_ne nameOf hkey hother, update_of_ne hother]

theorem wordLookup_drop : wordLookup (dropEntry nameOf words name) =
    update (wordLookup words) name ((entriesOf nameOf words name).tail.head?.bind valueOf) := by
  funext other
  unfold wordLookup
  by_cases hother : other = name
  · rw [hother, entriesOf_drop_self, update_self]
  · rw [entriesOf_drop_ne nameOf hother, update_of_ne hother]

theorem Clean.head (h : Clean words) (hname : name ≠ []) {t : List Str}
    (ht : entriesOf nameOf words name = s :: t) : '=' ∈ s ∧ t = [] := by
  have hmem := (mem_entriesOf nameOf).1 (ht ▸ List.mem_cons_self : s ∈ entriesOf nameOf words name)
  have hlen := h.once name hname
  rw [ht, List.length_cons] at hlen
  refine ⟨h.formed s hmem.1 ?_, List.eq_nil_of_length_eq_zero (by omega)⟩
  rintro rfl
  exact hname hmem.2.symm

theorem Clean.call (h : Clean words) (c : EnvCall) : Clean (callWords words c).1 := by
  cases c with
  | set n v overwrite stringOk vectorOk =>
    cases n with
    | none => exact h
    | some name =>
      cases v with
      | none => exact h
      | some value =>
        dsimp only [callWords]
        split_ifs with hname
        · exact h
        · exact h
        · exact h
        · rw [not_or] at hname
          refine ⟨fun s hs hne ↦ ?_, fun name' hname' ↦ ?_⟩
          · rcases mem_putEntry nameOf hs with hs | rfl
            · exact h.formed s hs hne
            · exact List.mem_append_right _ (.head _)
          · by_cases hk : name' = name
            · rw [hk, entriesOf_put_self nameOf (nameOf_entry hname.2 value), List.length_cons,
                List.length_tail]
              have := h.once name hname.1
              omega
            · rw [entriesOf_put_ne nameOf (nameOf_entry hname.2 value) hk]
              exact h.once name' hname'
  | unset n =>
    cases n with
    | none => exact h
    | some name =>
      dsimp only [callWords]
      split_ifs with hname
      · exact h
      · refine ⟨fun s hs ↦ h.formed s (mem_dropEntry nameOf hs), fun name' hname' ↦ ?_⟩
        by_cases hk : name' = name
        · rw [hk, entriesOf_drop_self, List.length_tail]
          have := h.once name (hk ▸ hname')
          omega
        · rw [entriesOf_drop_ne nameOf hk]
          exact h.once name' hname'

theorem Clean.follows (h : Clean words) (c : EnvCall) :
    FollowsMap (wordLookup words)
    (wordLookup (callWords words c).1) c.asked (callWords words c).2 := by
  cases c with
  | set n v overwrite stringOk vectorOk =>
    cases n with
    | none => rfl
    | some name =>
      cases v with
      | none => rfl
      | some value =>
        dsimp only [callWords]
        split_ifs with hname hfound hfail
        · rfl
        · refine ⟨_, rfl, ?_⟩
          obtain ⟨s, t, ht⟩ := List.exists_cons_of_ne_nil hfound.1
          rw [not_or] at hname
          have hdef : wordLookup words name ≠ none := by
            rw [wordLookup, ht]
            exact valueOf_ne_none (h.head hname.1 ht).1
          have hkeep : ¬(overwrite = true ∨ wordLookup words name = none) := by
            rintro (ho | hn)
            · rw [ho] at hfound
              exact Bool.noConfusion hfound.2
            · exact hdef hn
          exact (if_neg hkeep).symm
        · rfl
        · refine ⟨_, rfl, ?_⟩
          have hset : overwrite = true ∨ wordLookup words name = none := by
            by_cases ho : overwrite = true
            · exact .inl ho
            · have hempty : entriesOf nameOf words name = [] := by
                by_contra hne
                exact hfound ⟨hne, by rw [Bool.eq_false_iff.2 ho]; rfl⟩
              exact .inr (by rw [wordLookup, hempty]; rfl)
          rw [not_or] at hname
          exact (wordLookup_put hname.2).trans (if_pos hset).symm
  | unset n =>
    cases n with
    | none => rfl
    | some name =>
      dsimp only [callWords]
      split_ifs with hname
      · rfl
      · refine ⟨_, rfl, ?_⟩
        rw [not_or] at hname
        have htail : (entriesOf nameOf words name).tail = [] := by
          refine List.eq_nil_of_length_eq_zero ?_
          have := h.once name hname.1
          rw [List.length_tail]
          omega
        rw [wordLookup_drop, htail]
        rfl

theorem isPrefixOf_iff (hname : '=' ∉ name) :
    (name ++ ['=']).isPrefixOf s = true ↔ nameOf s = name ∧ '=' ∈ s := by
  rw [List.isPrefixOf_iff_prefix]
  constructor
  · rintro ⟨value, rfl⟩
    rw [List.append_assoc]
    exact ⟨nameOf_entry hname value, List.mem_append_right _ (.head _)⟩
  · rintro ⟨rfl, hs⟩
    obtain ⟨n, value, hn, rfl⟩ := entry_of_mem hs
    rw [nameOf_entry hn value]
    exact ⟨value, List.append_assoc _ _ _⟩

theorem filter_isPrefixOf (hname : '=' ∉ name) :
    words.filter (fun s ↦ (name ++ ['=']).isPrefixOf s) =
      (entriesOf nameOf words name).filter ('=' ∈ ·) := by
  rw [entriesOf, List.filter_filter]
  refine List.filter_congr fun s _ ↦ ?_
  rw [Bool.eq_iff_iff, isPrefixOf_iff hname, Bool.and_eq_true, decide_eq_true_eq, decide_eq_true_eq,
    and_comm]

theorem Clean.listsOnce (h : Clean words) (hs : Stored e words) :
    ListsOnce e.vec (wordLookup words) := by
  obtain ⟨rest, hvec⟩ := hs.vec_eq
  refine ⟨words, rest, hvec, fun name value hname hf ↦ ?_⟩
  unfold wordLookup at hf
  cases ht : entriesOf nameOf words name with
  | nil =>
    rw [ht] at hf
    cases hf
  | cons s t =>
    obtain ⟨hmem, rfl⟩ := h.head hname ht
    rw [ht] at hf
    have hkey : nameOf s = name :=
      ((mem_entriesOf nameOf).1 (ht ▸ List.mem_cons_self : s ∈ entriesOf nameOf words name)).2
    have hentry := entry_of_valueOf hf
    rw [hkey] at hentry
    have hkeep : [s].filter ('=' ∈ ·) = [s] := List.filter_eq_self.2 fun a ha ↦ by
      rw [List.mem_singleton.1 ha]
      exact decide_eq_true hmem
    rw [filter_isPrefixOf (hkey ▸ notMem_nameOf s), ht, hkeep, ← hentry]

theorem envInit_stored (words : List Str) : Stored (envInit (words.map some ++ [none])) words := by
  refine ⟨?_, [], rfl⟩
  change (words.map some ++ [none]).findIdx (· = none) = words.length
  induction words with
  | nil => rfl
  | cons s words ih =>
    rw [List.map_cons, List.cons_append, List.findIdx_cons, ih]
    rfl

theorem run_stored (h : Stored e words) (hc : Clean words) (calls : List EnvCall) :
    ∃ words', Stored (e.run calls) words' ∧ Clean words' := by
  induction calls generalizing e words with
  | nil => exact ⟨words, h, hc⟩
  | cons c calls ih => exact ih (call_stored h c).1 (hc.call c)

/-- The C library's store is a map: along each run from these strings every call does to the lookups
what it does to a map's, and the vector lists each name once before its null pointer. -/
def EnvironMaps (words : List Str) : Prop :=
  ∀ calls c, let e := (envInit (words.map some ++ [none])).run calls
    FollowsMap (getenv e) (getenv (e.call c).1) c.asked (e.call c).2 ∧ ListsOnce e.vec (getenv e)

theorem environMaps_of_clean (h : Clean words) : EnvironMaps words := by
  intro calls c
  obtain ⟨words', hs, hc⟩ := run_stored (envInit_stored words) h calls
  obtain ⟨hs', hok⟩ := call_stored hs c
  dsimp only
  rw [getenv_eq_wordLookup hs, getenv_eq_wordLookup hs', hok]
  exact ⟨hc.follows c, hc.listsOnce hs⟩

theorem not_follows_of_malformed (hs : s ∈ words) (hne : s ≠ []) (hm : '=' ∉ s)
    (hnone : wordLookup words s = none) :
    ¬FollowsMap (wordLookup words)
    (wordLookup (callWords words (.set (some s) (some []) false true true)).1)
      (EnvCall.asked (.set (some s) (some []) false true true))
    (callWords words (.set (some s) (some []) false true true)).2 := by
  have hfound : entriesOf nameOf words s ≠ [] :=
    List.ne_nil_of_mem ((mem_entriesOf nameOf).2 ⟨hs, nameOf_of_notMem hm⟩)
  have hcall : callWords words (.set (some s) (some []) false true true) = (words, true) := by
    dsimp only [callWords]
    rw [if_neg (not_or.2 ⟨hne, hm⟩), if_pos ⟨hfound, rfl⟩]
  rw [hcall]
  rintro ⟨op, hop, hf⟩
  obtain rfl := Option.some.inj hop
  rw [mapAfter, if_pos (.inr hnone)] at hf
  have hvalue := congrFun hf s
  rw [update_self, hnone] at hvalue
  cases hvalue

theorem map_some_append_inj {r r' : List (Option Str)} {words' : List Str}
    (h : words.map some ++ none :: r = words'.map some ++ none :: r') : words = words' := by
  induction words generalizing words' with
  | nil =>
    cases words' with
    | nil => rfl
    | cons s words' => cases h
  | cons s words ih =>
    cases words' with
    | nil => cases h
    | cons s' words' =>
      obtain ⟨hhead, htail⟩ := List.cons.inj h
      rw [Option.some.inj hhead, ih htail]

theorem EnvironMaps.follows (h : EnvironMaps words) (calls : List EnvCall) {words' : List Str}
    (hs : Stored ((envInit (words.map some ++ [none])).run calls) words') (c : EnvCall) :
    FollowsMap (wordLookup words')
    (wordLookup (callWords words' c).1) c.asked (callWords words' c).2 := by
  obtain ⟨hs', hok⟩ := call_stored hs c
  have hfollows := (h calls c).1
  rwa [getenv_eq_wordLookup hs, getenv_eq_wordLookup hs', hok] at hfollows

theorem formed_of_environMaps (h : EnvironMaps words) (hmem : s ∈ words) (hne : s ≠ []) :
    '=' ∈ s := by
  by_contra hm
  have hs := envInit_stored words
  cases hv : wordLookup words s with
  | none => exact not_follows_of_malformed hmem hne hm hv (h.follows [] hs _)
  | some value =>
    -- the first entry of the name is another one: without it the string is the first or comes
    -- nearer to it
    have hdrop : callWords words (.unset (some s)) = (dropEntry nameOf words s, true) :=
      if_neg (not_or.2 ⟨hne, hm⟩)
    have hunset := h.follows [] hs (.unset (some s))
    rw [hdrop] at hunset
    obtain ⟨op, hop, hf⟩ := hunset
    obtain rfl := Option.some.inj hop
    have hnone : wordLookup (dropEntry nameOf words s) s = none := by
      rw [show wordLookup (dropEntry nameOf words s) = _ from hf]
      exact update_self _ _ _
    have hmem' : s ∈ dropEntry nameOf words s := by
      have hin := (mem_entriesOf nameOf).2 ⟨hmem, nameOf_of_notMem hm⟩
      cases ht : entriesOf nameOf words s with
      | nil => exact absurd hin (ht ▸ List.not_mem_nil)
      | cons a t =>
        rw [wordLookup, ht, List.head?_cons, Option.bind_some] at hv
        rw [ht] at hin
        rcases List.mem_cons.1 hin with rfl | hin
        · rw [valueOf_eq_none hm] at hv
          cases hv
        · have hrest : s ∈ entriesOf nameOf (dropEntry nameOf words s) s := by
            rw [entriesOf_drop_self, ht]
            exact hin
          exact ((mem_entriesOf nameOf).1 hrest).1
    have hs' := (call_stored hs (.unset (some s))).1
    rw [hdrop] at hs'
    exact not_follows_of_malformed hmem' hne hm hnone (h.follows [.unset (some s)] hs' _)

theorem environMaps_iff (words : List Str) : EnvironMaps words ↔ Clean words := by
  refine ⟨fun h ↦ ⟨fun s hmem hne ↦ formed_of_environMaps h hmem hne, fun name hname ↦ ?_⟩,
    environMaps_of_clean⟩
  obtain ⟨words', rest, hvec, hlists⟩ := (h [] (.unset none)).2
  obtain rfl : words = words' := map_some_append_inj hvec
  have hlookup : getenv ((envInit (words.map some ++ [none])).run []) = wordLookup words :=
    getenv_eq_wordLookup (envInit_stored words)
  rw [hlookup] at hlists
  cases ht : entriesOf nameOf words name with
  | nil => exact Nat.zero_le _
  | cons s t =>
    have hall : ∀ a ∈ entriesOf nameOf words name, '=' ∈ a ∧ nameOf a = name := by
      intro a ha
      obtain ⟨hmem, hkey⟩ := (mem_entriesOf nameOf).1 ha
      refine ⟨formed_of_environMaps h hmem ?_, hkey⟩
      rintro rfl
      exact hname hkey.symm
    obtain ⟨hs, hkey⟩ := hall s (by rw [ht]; exact .head _)
    obtain ⟨value, hvalue⟩ := Option.ne_none_iff_exists'.1 (valueOf_ne_none hs)
    have honce := hlists name value hname (by rw [wordLookup, ht]; exact hvalue)
    have hkeep : (entriesOf nameOf words name).filter ('=' ∈ ·) = entriesOf nameOf words name :=
      List.filter_eq_self.2 fun a ha ↦ decide_eq_true (hall a ha).1
    rw [filter_isPrefixOf (hkey ▸ notMem_nameOf s), hkeep, ht] at honce
    rw [honce]
    exact Nat.le_refl 1

end YabroOS.Libc
