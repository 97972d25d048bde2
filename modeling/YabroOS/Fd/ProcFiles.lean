import YabroOS.Lib.Instances
import Mathlib.Data.List.TakeDrop
import Mathlib.Data.Finset.Insert
import Mathlib.Logic.Function.Basic

namespace YabroOS.Procfs

open Function

section Texts

inductive ProcNode
  | cpuinfo
  | meminfo
  | uptime
  | version
  | status (one : Bool)
  | cmdline (one : Bool)
  | maps (one : Bool)
  | exe (one : Bool)
  deriving DecidableEq

namespace ProcNode

def name : ProcNode → String
  | cpuinfo => "cpuinfo"
  | meminfo => "meminfo"
  | uptime => "uptime"
  | version => "version"
  | status _ => "status"
  | cmdline _ => "cmdline"
  | maps _ => "maps"
  | exe _ => "exe"

def dir : ProcNode → String
  | status one | cmdline one | maps one | exe one => if one then "/proc/1/" else "/proc/self/"
  | _ => "/proc/"

def path (n : ProcNode) : String := n.dir ++ n.name

end ProcNode

/-- A path that leads to a file: its own, or another one, such as one with capital letters, that is
no file's own. -/
structure ProcPath where
  node : ProcNode
  path : String
  spelled : path = node.path ∨ ∀ n : ProcNode, path ≠ n.path
  deriving DecidableEq

def ProcNode.own (n : ProcNode) : ProcPath := ⟨n, n.path, .inl rfl⟩

/-- What the files say at one moment. -/
structure Texts where
  cpuinfo : List UInt8
  meminfo : List UInt8
  uptime : List UInt8
  version : List UInt8
  status : List UInt8
  cmdline : List UInt8
  maps : List UInt8

/-- The text for a path, in a buffer of 4096 bytes. It is empty for `exe` and for every path that is
not spelled so. -/
def pseudoMakeProc (m : Texts) (path : String) : List UInt8 :=
  (if path = "/proc/cpuinfo" then m.cpuinfo
    else if path = "/proc/meminfo" then m.meminfo
    else if path = "/proc/uptime" then m.uptime
    else if path = "/proc/version" then m.version
    else if path = "/proc/self/status" ∨ path = "/proc/1/status" then m.status
    else if path = "/proc/self/cmdline" ∨ path = "/proc/1/cmdline" then m.cmdline
    else if path = "/proc/self/maps" ∨ path = "/proc/1/maps" then m.maps
    else []).take 4095

def regenerated (name : String) : Option String :=
  match name.toList with
  | 'c' :: 'p' :: _ => some "/proc/cpuinfo"
  | 'm' :: 'e' :: _ => some "/proc/meminfo"
  | 'u' :: 'p' :: _ => some "/proc/uptime"
  | 'v' :: 'e' :: _ => some "/proc/version"
  | _ => none

theorem regenerated_name {n : ProcNode} {path : String} (h : regenerated n.name = some path) :
    path = n.path := by
  cases n with
  | status one => simp [regenerated, ProcNode.name] at h
  | cmdline one => simp [regenerated, ProcNode.name] at h
  | maps one => simp [regenerated, ProcNode.name] at h
  | exe one => simp [regenerated, ProcNode.name] at h
  | _ => exact (Option.some.inj h).symm

/-- A buffer after the text for a path is written to it: what was there before stays behind it. Only
the texts that end in an appended string are followed by a zero, and an empty one is a zero. -/
def overwrite (path : String) (text old : List UInt8) : List UInt8 :=
  let written := if path = "/proc/self/cmdline" ∨ path = "/proc/1/cmdline" then text else text ++ [0]
  written ++ old.drop written.length

theorem overwrite_take (path : String) {text : List UInt8} (old : List UInt8) {n : ℕ}
    (h : n ≤ text.length) : (overwrite path text old).take n = text.take n := by
  rw [overwrite]
  split_ifs
  · rw [List.take_append_of_le_length h]
  · rw [List.append_assoc, List.take_append_of_le_length h]

end Texts

def maxFiles : ℕ := 512

/-- A descriptor of a file under `/proc`: the buffer that `data` points to, by its index in
`pseudo_buf`. -/
structure ProcFd where
  path : ProcPath
  data : ℕ
  size : ℕ
  offset : ℕ
  deriving DecidableEq

inductive Desc
  | free
  | other
  | proc (f : ProcFd)
  deriving DecidableEq

structure System where
  taskFdTableId : ℕ → Option (Fin 32)
  taskFdTableRefs : Fin 32 → ℕ
  taskFdTables : Fin 32 → ℕ → Desc
  pseudoBuf : ℕ → List UInt8

inductive Op
  | openProc (path : ProcPath)
  | openOther
  | close (fd : ℕ)
  | dup (old min : ℕ)
  | dup2 (old new : ℕ)
  | clone (child : ℕ) (shareFiles : Bool)
  | exit
  | seek (fd offset : ℕ)
  | read (fd count : ℕ) (copied : Bool)

namespace System

variable (s : System) (t : ℕ) (m : Texts)

def currentFiles : Fin 32 := (s.taskFdTableId t).getD 0

def files (fd : ℕ) : Desc := s.taskFdTables (s.currentFiles t) fd

def setFd (table : Fin 32) (fd : ℕ) (d : Desc) : System :=
  { s with taskFdTables := update s.taskFdTables table (update (s.taskFdTables table) fd d) }

@[irreducible] def findFreeFd (min : ℕ) : Option ℕ :=
  (List.range maxFiles).find? fun fd ↦ min ≤ fd ∧ s.files t fd = .free

def fill (k : ℕ) (path : String) (text : List UInt8) : System :=
  { s with pseudoBuf := update s.pseudoBuf k (overwrite path text (s.pseudoBuf k)) }

def sysOpen (path : ProcPath) : System :=
  match s.findFreeFd t 0 with
  | none => s
  | some fd =>
    let text := pseudoMakeProc m path.path
    (s.fill (fd % maxFiles) path.path text).setFd (s.currentFiles t) fd
      (.proc ⟨path, fd % maxFiles, text.length, 0⟩)

def sysDup (old min : ℕ) : System :=
  if maxFiles ≤ old ∨ s.files t old = .free then s
  else
    match s.findFreeFd t min with
    | none => s
    | some fd => s.setFd (s.currentFiles t) fd (s.files t old)

def sysDup2 (old new : ℕ) : System :=
  if maxFiles ≤ old ∨ s.files t old = .free ∨ maxFiles ≤ new ∨ old = new then s
  else s.setFd (s.currentFiles t) new (s.files t old)

def taskFdTableClone (child : ℕ) (shareFiles : Bool) : System :=
  match s.taskFdTableId t with
  | none => s
  | some source =>
    if s.taskFdTableRefs source = 0 then s
    else if shareFiles then
      { s with
        taskFdTableId := update s.taskFdTableId child (some source)
        taskFdTableRefs := update s.taskFdTableRefs source (s.taskFdTableRefs source + 1) }
    else
      match (List.finRange 32).find? fun i ↦ i ≠ 0 ∧ s.taskFdTableRefs i = 0 with
      | none => s
      | some destination =>
        { s with
          taskFdTableId := update s.taskFdTableId child (some destination)
          taskFdTableRefs := update s.taskFdTableRefs destination 1
          taskFdTables := update s.taskFdTables destination fun fd ↦
            if fd < maxFiles then s.taskFdTables source fd else s.taskFdTables destination fd }

def taskFdTableRelease : System :=
  match s.taskFdTableId t with
  | none => s
  | some table =>
    let s := { s with taskFdTableId := update s.taskFdTableId t none }
    if s.taskFdTableRefs table = 0 then s
    else
      let s := { s with
        taskFdTableRefs := update s.taskFdTableRefs table (s.taskFdTableRefs table - 1) }
      if s.taskFdTableRefs table ≠ 0 then
        if t = 0 then
          { s with
            taskFdTableId := update s.taskFdTableId 0 (some 0)
            taskFdTableRefs := update s.taskFdTableRefs 0 (s.taskFdTableRefs 0 + 1) }
        else s
      else
        let s := { s with
          taskFdTables := update s.taskFdTables table fun fd ↦ if fd < maxFiles then .free
            else s.taskFdTables table fd }
        if table = 0 then
          { s with
            taskFdTableId := update s.taskFdTableId 0 (some 0)
            taskFdTableRefs := update s.taskFdTableRefs 0 1 }
        else s

def refresh (f : ProcFd) : System × ProcFd :=
  match regenerated f.path.node.name with
  | none => (s, f)
  | some path =>
    let text := pseudoMakeProc m path
    (s.fill f.data path text, { f with size := text.length })

/-- The read of a file under `/proc`, none for an error or another file; `copied` tells whether the
caller's buffer can be written. -/
def sysRead (fd count : ℕ) (copied : Bool) : System × Option (List UInt8) :=
  if maxFiles ≤ fd then (s, none)
  else
    match s.files t fd with
    | .proc f =>
      let (s', f) := s.refresh m f
      let avail := if f.offset < f.size then f.size - f.offset else 0
      let n := min count avail
      if n ≠ 0 ∧ copied = false then (s'.setFd (s.currentFiles t) fd (.proc f), none)
      else
        (s'.setFd (s.currentFiles t) fd (.proc { f with offset := f.offset + n }),
          some (((s'.pseudoBuf f.data).drop f.offset).take n))
    | _ => (s, none)

def exec : Op → System × Option (List UInt8)
  | .openProc path => (s.sysOpen t m path, none)
  | .openOther =>
    (match s.findFreeFd t 0 with
      | none => s
      | some fd => s.setFd (s.currentFiles t) fd .other, none)
  | .close fd => (if maxFiles ≤ fd then s else s.setFd (s.currentFiles t) fd .free, none)
  | .dup old min => (s.sysDup t old min, none)
  | .dup2 old new => (s.sysDup2 t old new, none)
  | .clone child shareFiles => (s.taskFdTableClone t child shareFiles, none)
  | .exit => (s.taskFdTableRelease t, none)
  | .seek fd offset =>
    (match s.files t fd with
      | .proc f => s.setFd (s.currentFiles t) fd (.proc { f with offset := offset })
      | _ => s, none)
  | .read fd count copied => s.sysRead t m fd count copied

/-- The system after calls of any tasks, each with what the files say at its moment. -/
def run (l : List (ℕ × Texts × Op)) : System := l.foldl (fun s x ↦ (s.exec x.1 x.2.1 x.2.2).1) s

def init : System where
  taskFdTableId t := if t = 0 then some 0 else none
  taskFdTableRefs i := if i = 0 then 1 else 0
  taskFdTables table fd := if table = 0 ∧ fd < 3 then .other else .free
  pseudoBuf _ := List.replicate 4096 0

/-- Every descriptor that reads the buffer without generating its text anew finds in its new
content, over its length, what was there before or the text for its path. -/
def Harmless (k : ℕ) (content : List UInt8) : Prop :=
  ∀ table fd f, s.taskFdTables table fd = .proc f → f.data = k →
    regenerated f.path.node.name = none → content.take f.size = (s.pseudoBuf k).take f.size ∨
      f.size ≤ (pseudoMakeProc m f.path.path).length ∧
        content.take f.size = (pseudoMakeProc m f.path.path).take f.size

def Safe : Op → Prop
  | .openProc path => ∀ fd ∈ s.findFreeFd t 0,
      s.Harmless m (fd % maxFiles)
        (overwrite path.path (pseudoMakeProc m path.path) (s.pseudoBuf (fd % maxFiles)))
  | .read fd _ _ => ∀ f path, s.files t fd = .proc f → regenerated f.path.node.name = some path →
      s.Harmless m f.data (overwrite path (pseudoMakeProc m path) (s.pseudoBuf f.data))
  | _ => True

/-- Every call of a run is safe where it is made. -/
def Safely : System → List (ℕ × Texts × Op) → Prop
  | _, [] => True
  | s, (t, m, op) :: l => s.Safe t m op ∧ Safely (s.exec t m op).1 l

variable {s t m} {seen : List Texts} {fd : ℕ} {d : Desc} {table : Fin 32}

def Fresh (s : System) (seen : List Texts) (f : ProcFd) : Prop :=
  regenerated f.path.node.name = none → ∃ m ∈ seen, f.size ≤ (pseudoMakeProc m f.path.path).length ∧
    (s.pseudoBuf f.data).take f.size = (pseudoMakeProc m f.path.path).take f.size

def Inv (s : System) (seen : List Texts) : Prop :=
  ∀ table fd f, s.taskFdTables table fd = .proc f → s.Fresh seen f

theorem fill_self (k : ℕ) (path : String) (text : List UInt8) :
    (s.fill k path text).pseudoBuf k = overwrite path text (s.pseudoBuf k) :=
  update_self _ _ _

theorem fill_other {k j : ℕ} (path : String) (text : List UInt8) (h : j ≠ k) :
    (s.fill k path text).pseudoBuf j = s.pseudoBuf j :=
  update_of_ne h _ _

theorem Inv.mono (h : s.Inv seen) (m : Texts) : s.Inv (seen ++ [m]) := fun table fd f hf hn ↦ by
  obtain ⟨m', hm, hrest⟩ := h table fd f hf hn
  exact ⟨m', List.mem_append_left _ hm, hrest⟩

theorem Inv.fill (h : s.Inv seen) {k : ℕ} {text : List UInt8} {path : String}
    (hk : s.Harmless m k (overwrite path text (s.pseudoBuf k))) :
    (s.fill k path text).Inv (seen ++ [m]) := by
  intro table fd f hf hn
  obtain ⟨m', hm, hsize, htake⟩ := h table fd f hf hn
  by_cases hdata : f.data = k
  · rw [hdata, fill_self]
    rcases hk table fd f hf hdata hn with hsame | hown
    · exact ⟨m', List.mem_append_left _ hm, hsize, by rw [hsame, ← hdata, htake]⟩
    · exact ⟨m, by simp, hown⟩
  · refine ⟨m', List.mem_append_left _ hm, hsize, ?_⟩
    rw [fill_other path text hdata, htake]

theorem setFd_self (table : Fin 32) (fd : ℕ) (d : Desc) :
    (s.setFd table fd d).taskFdTables table fd = d := by
  simp only [System.setFd, update_self]

theorem setFd_of_ne {fd' : ℕ} (h : fd' ≠ fd) :
    (s.setFd table fd d).taskFdTables table fd' = s.taskFdTables table fd' := by
  simp only [System.setFd, update_self]
  exact update_of_ne h _ _

theorem setFd_table {table' : Fin 32} (h : table' ≠ table) :
    (s.setFd table fd d).taskFdTables table' = s.taskFdTables table' :=
  update_of_ne h _ _

theorem of_setFd {table' : Fin 32} {fd' : ℕ} {f : ProcFd}
    (hf : (s.setFd table fd d).taskFdTables table' fd' = .proc f) :
    d = .proc f ∨ s.taskFdTables table' fd' = .proc f := by
  by_cases htable : table' = table
  · rw [htable] at hf ⊢
    by_cases hfd : fd' = fd
    · rw [hfd, setFd_self] at hf
      exact .inl hf
    · rw [setFd_of_ne hfd] at hf
      exact .inr hf
  · rw [setFd_table htable] at hf
    exact .inr hf

theorem Inv.setFd (h : s.Inv seen) (table : Fin 32) (fd : ℕ)
    (hd : ∀ f, d = .proc f → s.Fresh seen f) : (s.setFd table fd d).Inv seen := by
  intro table' fd' f hf
  rcases of_setFd hf with hnew | hold
  · exact hd f hnew
  · exact h _ _ f hold

theorem Inv.files (h : s.Inv seen) (fd : ℕ) (f : ProcFd) (hf : s.files t fd = .proc f) :
    s.Fresh seen f :=
  h _ _ f hf

theorem Inv.of_tables {s' : System} (h : s.Inv seen) (hbuf : s'.pseudoBuf = s.pseudoBuf)
    (htables : ∀ table fd f, s'.taskFdTables table fd = .proc f →
      ∃ table' fd', s.taskFdTables table' fd' = .proc f) :
    s'.Inv seen := by
  intro table fd f hf hn
  obtain ⟨table', fd', hf'⟩ := htables table fd f hf
  rw [hbuf]
  exact h table' fd' f hf' hn

theorem Inv.clone (h : s.Inv seen) (child : ℕ) (shareFiles : Bool) :
    (s.taskFdTableClone t child shareFiles).Inv seen := by
  rw [taskFdTableClone]
  split
  · exact h
  · split_ifs
    · exact h
    · exact h.of_tables rfl fun table fd f hf ↦ ⟨table, fd, hf⟩
    · split
      · exact h
      · refine h.of_tables rfl fun table fd f hf ↦ ?_
        simp only [update_apply] at hf
        split_ifs at hf
        · dsimp only at hf
          split_ifs at hf
          · exact ⟨_, _, hf⟩
          · exact ⟨_, _, hf⟩
        · exact ⟨_, _, hf⟩

theorem Inv.release (h : s.Inv seen) : (s.taskFdTableRelease t).Inv seen := by
  rw [taskFdTableRelease]
  split
  · exact h
  · next table _ =>
    have hfree : ∀ table' fd f, update s.taskFdTables table
        (fun fd ↦ if fd < maxFiles then .free else s.taskFdTables table fd)
        table' fd = .proc f → ∃ table' fd', s.taskFdTables table' fd' = .proc f := by
      intro table' fd f hf
      simp only [update_apply] at hf
      split_ifs at hf
      · dsimp only at hf
        split_ifs at hf
        exact ⟨_, _, hf⟩
      · exact ⟨_, _, hf⟩
    dsimp only
    split_ifs
    · exact h.of_tables rfl fun table fd f hf ↦ ⟨table, fd, hf⟩
    · exact h.of_tables rfl fun table fd f hf ↦ ⟨table, fd, hf⟩
    · exact h.of_tables rfl fun table fd f hf ↦ ⟨table, fd, hf⟩
    · exact h.of_tables rfl hfree
    · exact h.of_tables rfl hfree

theorem Inv.open (h : s.Inv seen) (path : ProcPath) (hsafe : s.Safe t m (.openProc path)) :
    (s.sysOpen t m path).Inv (seen ++ [m]) := by
  rw [sysOpen]
  split
  · exact h.mono m
  · next fd hfd =>
    refine (h.fill (hsafe fd hfd)).setFd _ fd fun f hf _ ↦ ?_
    obtain rfl := Desc.proc.inj hf
    refine ⟨m, by simp, le_rfl, ?_⟩
    rw [fill_self, overwrite_take _ _ le_rfl]

/-- The state and the descriptor between the two parts of a read: its text is one for its path, or
for the own path of its file where the read generates it. -/
theorem Inv.refresh (h : s.Inv seen) {f : ProcFd} (hf : s.files t fd = .proc f)
    (hsafe : ∀ path, regenerated f.path.node.name = some path →
      s.Harmless m f.data (overwrite path (pseudoMakeProc m path) (s.pseudoBuf f.data))) :
    (s.refresh m f).1.Inv (seen ++ [m]) ∧ (s.refresh m f).2.path = f.path ∧
      (s.refresh m f).2.offset = f.offset ∧
      ∃ path, (path = f.path.path ∨ regenerated f.path.node.name = some path) ∧
        ∃ m' ∈ seen ++ [m], (s.refresh m f).2.size ≤ (pseudoMakeProc m' path).length ∧
          ((s.refresh m f).1.pseudoBuf (s.refresh m f).2.data).take (s.refresh m f).2.size =
            (pseudoMakeProc m' path).take (s.refresh m f).2.size := by
  cases hp : regenerated f.path.node.name with
  | none =>
    have hstay : s.refresh m f = (s, f) := by simp only [System.refresh, hp]
    obtain ⟨m', hm, hrest⟩ := h.files fd f hf hp
    rw [hstay]
    exact ⟨h.mono m, rfl, rfl, f.path.path, .inl rfl, m', List.mem_append_left _ hm, hrest⟩
  | some path =>
    have hnew : s.refresh m f = (s.fill f.data path (pseudoMakeProc m path),
        { f with size := (pseudoMakeProc m path).length }) := by
      simp only [System.refresh, hp]
    rw [hnew]
    refine ⟨h.fill (hsafe path hp), rfl, rfl, path, .inr rfl, m, by simp, le_rfl, ?_⟩
    rw [fill_self, overwrite_take _ _ le_rfl]

theorem Inv.read (h : s.Inv seen) {count : ℕ} {copied : Bool}
    (hsafe : s.Safe t m (.read fd count copied)) :
    (s.sysRead t m fd count copied).1.Inv (seen ++ [m]) := by
  rw [sysRead]
  split_ifs
  · exact h.mono m
  · split
    · next f hf =>
      obtain ⟨hinv, hpath, -, path, hwhich, m', hm, hfresh⟩ :=
        h.refresh hf fun path hp ↦ hsafe f path hf hp
      dsimp only
      split_ifs
      all_goals
        refine hinv.setFd _ fd fun g hg hn ↦ ?_
        obtain rfl := Desc.proc.inj hg
        simp only [hpath] at hn ⊢
        obtain rfl := hwhich.resolve_right fun hp ↦ by rw [hn] at hp; cases hp
        exact ⟨m', hm, hfresh⟩
    · exact h.mono m

theorem Inv.exec (h : s.Inv seen) {op : Op} (hsafe : s.Safe t m op) :
    (s.exec t m op).1.Inv (seen ++ [m]) := by
  cases op with
  | openProc path => exact h.open path hsafe
  | openOther =>
    simp only [System.exec]
    split
    · exact h.mono m
    · exact (h.mono m).setFd _ _ fun f hf ↦ by cases hf
  | close fd =>
    simp only [System.exec]
    split_ifs
    · exact h.mono m
    · exact (h.mono m).setFd _ _ fun f hf ↦ by cases hf
  | dup old min =>
    simp only [System.exec, sysDup]
    split_ifs
    · exact h.mono m
    · split
      · exact h.mono m
      · exact (h.mono m).setFd _ _ fun f hf ↦ (h.mono m).files old f hf
  | dup2 old new =>
    simp only [System.exec, sysDup2]
    split_ifs
    · exact h.mono m
    · exact (h.mono m).setFd _ _ fun f hf ↦ (h.mono m).files old f hf
  | clone child shareFiles => exact (h.mono m).clone child shareFiles
  | exit => exact (h.mono m).release
  | seek fd offset =>
    simp only [System.exec]
    split
    · next f hf =>
      exact (h.mono m).setFd _ _ fun g hg ↦ by
        obtain rfl := Desc.proc.inj hg
        exact (h.mono m).files fd f hf
    · exact h.mono m
  | read fd count copied => exact h.read hsafe

theorem Inv.run (h : s.Inv seen) {l : List (ℕ × Texts × Op)} (hsafe : s.Safely l) :
    (s.run l).Inv (seen ++ l.map (·.2.1)) := by
  induction l generalizing s seen with
  | nil =>
    rw [List.map_nil, List.append_nil]
    exact h
  | cons x l ih =>
    have hrun := ih (h.exec hsafe.1) hsafe.2
    rwa [List.append_assoc] at hrun

theorem inv_init : init.Inv [] := by
  intro table fd f hf
  simp only [init] at hf
  split_ifs at hf

theorem safely_append {l l' : List (ℕ × Texts × Op)} (h : s.Safely (l ++ l')) :
    s.Safely l ∧ (s.run l).Safely l' := by
  induction l generalizing s with
  | nil => exact ⟨trivial, h⟩
  | cons x l ih => exact ⟨⟨h.1, (ih h.2).1⟩, (ih h.2).2⟩

theorem segment_prefix {buf text : List UInt8} {size offset n : ℕ}
    (h : buf.take size = text.take size) (hn : n ≤ size - offset) :
    (buf.drop offset).take n <+: text.drop offset := by
  have hsame := congrArg (fun l ↦ (l.drop offset).take n) h
  simp only [List.drop_take, List.take_take, min_eq_left hn] at hsame
  rw [hsame]
  exact List.take_prefix n _

/-- Any tasks and any order of calls that are safe: what a descriptor reads is from a text for the
path that it was opened with, or for the own path of the file that this path leads to. -/
theorem proc_reads (l : List (ℕ × Texts × Op)) (t : ℕ) (m : Texts) (fd count : ℕ) (copied : Bool)
    (f : ProcFd) (out : List UInt8) (hsafe : init.Safely (l ++ [(t, m, .read fd count copied)]))
    (hf : (init.run l).files t fd = .proc f)
    (hout : ((init.run l).exec t m (.read fd count copied)).2 = some out) :
    ∃ path, (path = f.path.path ∨ path = f.path.node.path) ∧
      ∃ m' ∈ l.map (·.2.1) ++ [m], out <+: (pseudoMakeProc m' path).drop f.offset := by
  obtain ⟨hbefore, hread, -⟩ := safely_append hsafe
  have hinv := inv_init.run hbefore
  rw [List.nil_append] at hinv
  generalize init.run l = s at *
  obtain ⟨-, hpath, hoffset, path, hwhich, m', hm, hsize, htake⟩ :=
    hinv.refresh hf fun path hp ↦ hread f path hf hp
  refine ⟨path, hwhich.imp_right regenerated_name, m', hm, ?_⟩
  simp only [exec, sysRead] at hout
  split_ifs at hout
  rw [hf] at hout
  dsimp only at hout
  rw [hoffset] at hout
  generalize (s.refresh m f).1 = s' at *
  generalize (s.refresh m f).2 = g at *
  split_ifs at hout
  all_goals
    obtain rfl := Option.some.inj hout
    exact segment_prefix htake (by omega)

def shortTexts : Texts where
  cpuinfo := [1]
  meminfo := [2]
  uptime := [3]
  version := [10, 11]
  status := [20, 21, 22]
  cmdline := [4, 0]
  maps := [5]

/-- A descriptor, its copy, and the program's own file under the next number. -/
def statusCalls : List (ℕ × Texts × Op) :=
  [(0, shortTexts, .openProc (ProcNode.status false).own), (0, shortTexts, .dup 3 0),
    (0, shortTexts, .openProc (ProcNode.exe false).own)]

theorem proc_reads_status :
    ((init.run statusCalls).exec 0 shortTexts (.read 4 2 true)).2 = some [20, 21] ∧
      ∃ path, (path = (ProcNode.status false).path ∨ path = (ProcNode.status false).path) ∧
        ∃ m' ∈ statusCalls.map (·.2.1) ++ [shortTexts], [20, 21] <+:
          (pseudoMakeProc m' path).drop 0 := by
  have hcopy : (init.run statusCalls).files 0 4 = .proc ⟨(ProcNode.status false).own, 3, 3, 0⟩ := by
    decide +kernel
  have hout : ((init.run statusCalls).exec 0 shortTexts (.read 4 2 true)).2 = some [20, 21] := by
    decide +kernel
  have hfirst : init.findFreeFd 0 0 = some 3 := by decide +kernel
  have hfree : ((init.exec 0 shortTexts (.openProc (ProcNode.status false).own)).1.exec 0 shortTexts
      (.dup 3 0)).1.findFreeFd 0 0 = some 5 := by decide +kernel
  have hnone (table : Fin 32) (fd : ℕ) (f : ProcFd) : init.taskFdTables table fd ≠ .proc f := by
    intro hf
    simp only [init] at hf
    split_ifs at hf
  -- The only text so far is in the buffer of descriptor 3.
  have hopened {table fd f}
    (hf : (init.sysOpen 0 shortTexts (ProcNode.status false).own).taskFdTables table fd = .proc f) :
      f.data = 3 := by
    rw [sysOpen, hfirst] at hf
    rcases of_setFd hf with hnew | hold
    · rw [← Desc.proc.inj hnew, maxFiles]
    · exact absurd hold (hnone table fd f)
  have hcopied {table fd f}
    (hf : ((init.sysOpen 0 shortTexts (ProcNode.status false).own).sysDup 0 3 0).taskFdTables
      table fd =
      .proc f) : f.data = 3 := by
    rw [sysDup] at hf
    split_ifs at hf
    · exact hopened hf
    · split at hf
      · exact hopened hf
      · exact (of_setFd hf).elim (fun hnew ↦ hopened hnew) hopened
  refine ⟨hout, proc_reads statusCalls 0 shortTexts 4 2 true ⟨(ProcNode.status false).own, 3, 3, 0⟩
    [20, 21]
    ⟨fun fd _ table fd' f hf ↦ ?_, trivial, fun fd hfd table fd' f hf hdata ↦ ?_,
      fun f path hf hp ↦ ?_, trivial⟩
    hcopy hout⟩
  · exact absurd hf (hnone table fd' f)
  · obtain rfl := Option.some.inj (hfree.symm.trans hfd)
    rw [hcopied hf, maxFiles] at hdata
    cases hdata
  · obtain rfl := Desc.proc.inj (hcopy.symm.trans hf)
    simp [regenerated, ProcNode.name, ProcNode.own] at hp

/-- A child opens another file under the number of a descriptor that it has inherited and closed;
its parent reads the child's text. -/
theorem not_proc_reads :
    let calls :=
  [(0, shortTexts, Op.openProc (ProcNode.status false).own), (0, shortTexts, .clone 1 false),
      (1, shortTexts, .close 3), (1, shortTexts, .openProc ProcNode.version.own)]
    (init.run calls).files 0 3 = .proc ⟨(ProcNode.status false).own, 3, 3, 0⟩ ∧
      ((init.run calls).exec 0 shortTexts (.read 3 2 true)).2 = some [10, 11] ∧
      ¬ ∃ path, (path = (ProcNode.status false).own.path ∨
        path = (ProcNode.status false).own.node.path) ∧
        ∃ m' ∈ calls.map (·.2.1) ++ [shortTexts], [10, 11] <+: (pseudoMakeProc m' path).drop 0 := by
  have htext : (pseudoMakeProc shortTexts (ProcNode.status false).path).drop 0 = [20, 21, 22] := by
    decide +kernel
  refine ⟨by decide +kernel, by decide +kernel, ?_⟩
  rintro ⟨path, hpath, m', hm, hprefix⟩
  obtain rfl : path = (ProcNode.status false).path := hpath.elim id id
  have hm' : m' = shortTexts := by simpa using hm
  rw [hm', htext] at hprefix
  exact absurd hprefix (by decide)

end System

end YabroOS.Procfs
