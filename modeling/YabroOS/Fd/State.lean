import YabroOS.Kernel.Files
import Mathlib.Algebra.BigOperators.Fin

namespace YabroOS

open Function

structure OpenDesc where
  refs : ℕ
  used : Bool

structure InputOpenState where
  used : Bool
  refs : ℕ
  kind : ℕ

structure EpollWatch where
  used : Bool
  fd : ℤ
  events : UInt32
  data : UInt64

structure EpollState where
  used : Bool
  refs : ℕ
  w : Fin 128 → EpollWatch

structure TimerfdState where
  clockid : ℤ
  flags : ℕ
  intervalNs : ℕ
  nextNs : ℕ
  expirations : ℕ

/-- The pointers of a descriptor besides `private_data`. `opened` is not in the source: it numbers
the `sys_open` that a descriptor descends from. -/
structure FdLinks where
  sharedOffset : Option (Fin 512)
  inputState : Option (Fin 32768)
  opened : ℕ
  deriving DecidableEq

def FdLinks.none : FdLinks := ⟨.none, .none, 0⟩

/-- The descriptor tables with every object that a descriptor can point to. The counters at the end
are the static variables where the searches for a free socket start. `held` and `shut` are not in
the source: they tell which sides of a socket have had a holder, and which have been shut down,
since the socket was handed out. -/
structure Fds extends Io where
  links : Fin 32 → ℕ → FdLinks
  openDescs : Fin 512 → OpenDesc
  inputOpenStates : Fin 32768 → InputOpenState
  epolls : Fin 4 → EpollState
  eventfdFlags : Fin 8 → ℕ
  timerfds : Fin 8 → TimerfdState
  ptyUnlocked : Fin 8 → Bool
  socketNetlink : Fin 32 → Bool
  used : Slot → Bool
  nextPid : ℕ
  opens : ℕ
  held : Fin 32 → Bool → Bool
  shut : Fin 32 → Bool → Bool
  socketSi : ℕ
  netlinkNi : ℕ
  pairSi : ℕ
  connectSi : ℕ

@[irreducible] def firstFree {n : ℕ} (p : Fin n → Bool) : Option (Fin n) :=
  (List.finRange n).find? p

def nextFree (start : ℕ) (p : Fin 32 → Bool) : Option (Fin 32) :=
  ((List.finRange 32).map
    (fun k : Fin 32 ↦ (⟨(start + k) % 32, Nat.mod_lt _ (by decide)⟩ : Fin 32))).find? p

theorem firstFree_some {n : ℕ} {p : Fin n → Bool} {i : Fin n} (h : firstFree p = some i) :
    p i = true := by
  rw [firstFree] at h
  exact List.find?_some h

theorem firstFree_decide {n : ℕ} {P : Fin n → Prop} [DecidablePred P] {i : Fin n}
    (h : firstFree (fun i ↦ decide (P i)) = some i) : P i :=
  of_decide_eq_true (firstFree_some h)

theorem firstFree_eq_none {n : ℕ} {p : Fin n → Bool} : firstFree p = none ↔ ∀ i, p i = false := by
  simp [firstFree, List.find?_eq_none]

theorem find_range_some {P : ℕ → Prop} [DecidablePred P] {m n : ℕ}
    (h : (List.range m).find? (fun i ↦ decide (P i)) = some n) : n < m ∧ P n := by
  have h' := List.find?_some h
  exact ⟨List.mem_range.1 (List.mem_of_find?_eq_some h), by simpa using h'⟩

theorem nextFree_some {start : ℕ} {P : Fin 32 → Prop} [DecidablePred P] {i : Fin 32}
    (h : nextFree start (fun i ↦ decide (P i)) = some i) : P i := by
  rw [nextFree] at h
  have h' := List.find?_some h
  simpa using h'

namespace Fds

variable (s : Fds)

def init : Fds where
  toIo := .init
  links := fun _ _ ↦ .none
  openDescs := fun _ ↦ ⟨0, false⟩
  inputOpenStates := fun _ ↦ ⟨false, 0, 0⟩
  epolls := fun _ ↦ ⟨false, 0, fun _ ↦ ⟨false, 0, 0, 0⟩⟩
  eventfdFlags := fun _ ↦ 0
  timerfds := fun _ ↦ ⟨0, 0, 0, 0, 0⟩
  ptyUnlocked := fun _ ↦ false
  socketNetlink := fun _ ↦ false
  used := fun i ↦ i = 0
  nextPid := 100
  opens := 0
  held := fun _ _ ↦ false
  shut := fun _ _ ↦ false
  socketSi := 0
  netlinkNi := 0
  pairSi := 0
  connectSi := 0

def setIo (io : Io) : Fds := { s with toIo := io }

def currentFiles (t : Slot) : Fin 32 := (s.taskFdTableId t).getD 0

def files (t : Slot) (fd : ℕ) : FileDesc := s.taskFdTables (s.currentFiles t) fd

@[irreducible] def findFreeFd (t : Slot) : Option ℕ :=
  (List.range maxFiles).find? (fun fd ↦ (s.files t fd).inUse = false)

def fdValid (t : Slot) (fd : ℤ) : Bool := 0 ≤ fd ∧ fd < maxFiles ∧ (s.files t fd.toNat).inUse

def setSlot (table : Fin 32) (fd : ℕ) (d : FileDesc) (x : FdLinks) : Fds :=
  { s with
    toIo := s.toIo.setFd table fd d
    links := update s.links table (update (s.links table) fd x) }

def allocOpenOffset : Fds × Option (Fin 512) :=
  match firstFree (fun c ↦ (s.openDescs c).used = false) with
  | none => (s, none)
  | some c => ({ s with openDescs := update s.openDescs c ⟨1, true⟩ }, some c)

def retainOpenOffset : Option (Fin 512) → Fds
  | none => s
  | some c =>
    { s with openDescs := update s.openDescs c { s.openDescs c with
      refs := (s.openDescs c).refs + 1 } }

def releaseOpenOffset : Option (Fin 512) → Fds
  | none => s
  | some c =>
    let d := s.openDescs c
    if d.refs = 0 then s
    else { s with openDescs := update s.openDescs c ⟨d.refs - 1,
      if d.refs = 1 then false else d.used⟩ }

def inputStateAlloc (kind : ℕ) : Fds × Option (Fin 32768) :=
  match firstFree (fun i ↦ (s.inputOpenStates i).used = false) with
  | none => (s, none)
  | some i => ({ s with inputOpenStates := update s.inputOpenStates i ⟨true, 1, kind⟩ }, some i)

def inputStateRetain : Option (Fin 32768) → Fds
  | none => s
  | some i =>
    let st := s.inputOpenStates i
    if st.used ∧ st.refs < 2 ^ 32 - 1 then
      { s with inputOpenStates := update s.inputOpenStates i { st with refs := st.refs + 1 } }
    else s

def inputStateRelease : Option (Fin 32768) → Fds
  | none => s
  | some i =>
    let st := s.inputOpenStates i
    if st.used = false then s
    else if 1 < st.refs then
      { s with inputOpenStates := update s.inputOpenStates i { st with refs := st.refs - 1 } }
    else { s with inputOpenStates := update s.inputOpenStates i ⟨false, 0, 0⟩ }

def epollRetainFile : Target → Fds
  | .epoll e =>
    let st := s.epolls e
    if st.used ∧ st.refs < 2 ^ 32 - 1 then
      { s with epolls := update s.epolls e { st with refs := st.refs + 1 } }
    else s
  | _ => s

def epollReleaseFile : Target → Fds
  | .epoll e =>
    let st := s.epolls e
    if st.used = false then s
    else if 1 < st.refs then { s with epolls := update s.epolls e { st with refs := st.refs - 1 } }
    else
      { s with epolls := update s.epolls e ⟨false, 0, fun i ↦ { st.w i with used := false }⟩ }
  | _ => s

section Slots

variable (table : Fin 32) (fd : ℕ)

def fdMarkClosed : Fds :=
  (s.inputStateRelease (s.links table fd).inputState).setSlot table fd .free .none

def fdDropResources : Fds :=
  let s' := s.releaseOpenOffset (s.links table fd).sharedOffset
  s'.setSlot table fd (s.taskFdTables table fd) { s.links table fd with sharedOffset := none }

def taskFdRelease : Fds :=
  let d := s.taskFdTables table fd
  if d.inUse = false then s
  else
    ((s.epollReleaseFile d.target).releaseOpenOffset (s.links table fd).sharedOffset).fdMarkClosed
      table fd

def releaseFd (table : Fin 32) (s : Fds) (fd : ℕ) : Fds :=
  let d := s.taskFdTables table fd
  if d.inUse = false then s else (s.setIo (s.toIo.dropTarget d.target)).taskFdRelease table fd

def cloneFd (source destination : Fin 32) (s : Fds) (fd : ℕ) : Fds :=
  let d := s.taskFdTables source fd
  let x := s.links source fd
  let s := s.setSlot destination fd d x
  if d.inUse = false then s
  else
    let s := ((s.inputStateRetain x.inputState).epollRetainFile d.target).retainOpenOffset
      x.sharedOffset
    s.setIo (s.toIo.retainTarget d.target)

def fdCopyScalar (src dst : ℕ) (flags : ℕ → ℕ) : Fds :=
  let d := s.taskFdTables table src
  let x := s.links table src
  let s := s.setSlot table dst { d with flags := flags d.flags } x
  let s := (s.retainOpenOffset x.sharedOffset).inputStateRetain x.inputState
  if d.inUse then s.epollRetainFile d.target else s

def fdRetainEndpointRef : Fds :=
  let d := s.taskFdTables table fd
  if d.inUse then s.setIo (s.toIo.retainTarget d.target) else s

end Slots

def taskFdTableRelease (i : Slot) : Fds :=
  match s.taskFdTableId i with
  | none => s
  | some table =>
    let s := s.setIo { s.toIo with taskFdTableId := update s.taskFdTableId i none }
    if s.taskFdTableRefs table = 0 then s
    else
      let s := s.setIo { s.toIo with
        taskFdTableRefs := update s.taskFdTableRefs table (s.taskFdTableRefs table - 1) }
      if s.taskFdTableRefs table ≠ 0 then
        if i = 0 then
          s.setIo { s.toIo with
            taskFdTableId := update s.taskFdTableId 0 (some 0)
            taskFdTableRefs := update s.taskFdTableRefs 0 (s.taskFdTableRefs 0 + 1) }
        else s
      else
        let s := (List.range maxFiles).foldl (releaseFd table) s
        if table = 0 then
          s.setIo { s.toIo with
            taskFdTableId := update s.taskFdTableId 0 (some 0)
            taskFdTableRefs := update s.taskFdTableRefs 0 1 }
        else s

def taskFdTableClone (parent child : Slot) (shareFiles : Bool) : Option Fds :=
  match s.taskFdTableId parent with
  | none => none
  | some source =>
    if s.taskFdTableRefs source = 0 then none
    else if shareFiles then
      some (s.setIo { s.toIo with
        taskFdTableId := update s.taskFdTableId child (some source)
        taskFdTableRefs := update s.taskFdTableRefs source (s.taskFdTableRefs source + 1) })
    else
      match firstFree (fun i ↦ i ≠ 0 ∧ s.taskFdTableRefs i = 0) with
      | none => none
      | some destination =>
        let s := s.setIo { s.toIo with
          taskFdTableId := update s.taskFdTableId child (some destination)
          taskFdTableRefs := update s.taskFdTableRefs destination 1 }
        some ((List.range maxFiles).foldl (cloneFd source destination) s)

end Fds

end YabroOS
