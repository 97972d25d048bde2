import YabroOS.Fd.Sockets
import Mathlib.Algebra.Order.BigOperators.Group.Finset

namespace YabroOS

open Function

/-- The things that descriptors are counted for. -/
inductive Obj
  | reader (p : Fin 8)
  | writer (p : Fin 8)
  | master (p : Fin 8)
  | slave (p : Fin 8)
  | epoll (e : Fin 4)
  | input (i : Fin 32768)
  | cell (c : Fin 512)
  | side (i : Fin 32) (b : Bool)
  deriving DecidableEq

def hits (a : Option Obj) (o : Obj) : ℕ := if a = some o then 1 else 0

@[simp] theorem hits_none (o : Obj) : hits none o = 0 := rfl

@[simp] theorem hits_self (o : Obj) : hits (some o) o = 1 := if_pos rfl

theorem hits_of_ne {a o : Obj} (h : o ≠ a) : hits (some a) o = 0 :=
  if_neg fun he ↦ h (Option.some.inj he).symm

theorem hits_le (a : Option Obj) (o : Obj) : hits a o ≤ 1 := by
  rw [hits]
  split_ifs <;> omega

namespace Target

def endpoint : Target → Option Obj
  | .pipeR p => some (.reader p)
  | .pipeW p => some (.writer p)
  | .ptyMaster p => some (.master p)
  | .ptySlave p => some (.slave p)
  | .socket i b => some (.side i b)
  | _ => none

def epollObj : Target → Option Obj
  | .epoll e => some (.epoll e)
  | _ => none

end Target

def FileDesc.holds (d : FileDesc) (x : FdLinks) (o : Obj) : ℕ :=
  if d.inUse then
    hits d.target.endpoint o + hits d.target.epollObj o + hits (x.sharedOffset.map .cell) o +
      hits (x.inputState.map .input) o
  else 0

theorem FileDesc.holds_le (d : FileDesc) (x : FdLinks) (o : Obj) : d.holds x o ≤ 4 := by
  have h₁ := hits_le d.target.endpoint o
  have h₂ := hits_le d.target.epollObj o
  have h₃ := hits_le (x.sharedOffset.map .cell) o
  have h₄ := hits_le (x.inputState.map .input) o
  rw [holds]
  split_ifs <;> omega

theorem FileDesc.holds_free {d : FileDesc} (h : d.inUse = false) (x : FdLinks) (o : Obj) :
    d.holds x o = 0 := by
  simp [holds, h]

namespace Fds

def count (s : Fds) : Obj → ℕ
  | .reader p => (s.pipes p).readers
  | .writer p => (s.pipes p).writers
  | .master p => (s.ptySlots p).masterRefs
  | .slave p => (s.ptySlots p).slaveRefs
  | .epoll e => (s.epolls e).refs
  | .input i => (s.inputOpenStates i).refs
  | .cell c => (s.openDescs c).refs
  | .side i b => (s.unixSockets i).sideRefs b

structure View where
  tables : Fin 32 → ℕ → FileDesc
  links : Fin 32 → ℕ → FdLinks
  refs : Fin 32 → ℕ
  ids : Slot → Option (Fin 32)
  opens : ℕ

def view (s : Fds) : View := ⟨s.taskFdTables, s.links, s.taskFdTableRefs, s.taskFdTableId, s.opens⟩

namespace View

variable (v : View)

def slotHolds (table : Fin 32) (fd : ℕ) (o : Obj) : ℕ :=
  (v.tables table fd).holds (v.links table fd) o

def tableHolds (table : Fin 32) (o : Obj) : ℕ :=
  ∑ fd ∈ Finset.range maxFiles, v.slotHolds table fd o

def holders (o : Obj) : ℕ := ∑ table : Fin 32, if v.refs table = 0 then 0 else v.tableHolds table o

def put (table : Fin 32) (fd : ℕ) (d : FileDesc) (x : FdLinks) : View :=
  { v with
    tables := update v.tables table (update (v.tables table) fd d)
    links := update v.links table (update (v.links table) fd x) }

end View

/-- A slot of a pool is in use exactly when it is counted. -/
structure Used (s : Fds) : Prop where
  cell : ∀ c, (s.openDescs c).used = true ↔ (s.openDescs c).refs ≠ 0
  input : ∀ i, (s.inputOpenStates i).used = true ↔ (s.inputOpenStates i).refs ≠ 0
  epoll : ∀ e, (s.epolls e).used = true ↔ (s.epolls e).refs ≠ 0

variable {s s' s₁ s₂ : Fds} {table : Fin 32} {fd : ℕ} {o a : Obj} {c : Option (Fin 512)}
  {n m : Obj → ℕ → ℕ} {i : Option (Fin 32768)}

namespace View

variable {v : View} {d : FileDesc} {x : FdLinks}

theorem put_self (v : View) (table : Fin 32) (fd : ℕ) :
    v.put table fd (v.tables table fd) (v.links table fd) = v := by
  simp [put, update_eq_self]

theorem put_tables (v : View) (table : Fin 32) (fd : ℕ) (d : FileDesc) (x : FdLinks)
    (table' : Fin 32) (fd' : ℕ) :
    (v.put table fd d x).tables table' fd' =
      if table' = table ∧ fd' = fd then d else v.tables table' fd' := by
  by_cases h : table' = table
  · subst h
    by_cases h' : fd' = fd <;> simp [put, h']
  · simp [put, h]

theorem put_links (v : View) (table : Fin 32) (fd : ℕ) (d : FileDesc) (x : FdLinks)
    (table' : Fin 32) (fd' : ℕ) :
    (v.put table fd d x).links table' fd' =
      if table' = table ∧ fd' = fd then x else v.links table' fd' := by
  by_cases h : table' = table
  · subst h
    by_cases h' : fd' = fd <;> simp [put, h']
  · simp [put, h]

theorem put_slotHolds (v : View) (table : Fin 32) (fd : ℕ) (d : FileDesc) (x : FdLinks)
    (table' : Fin 32) (fd' : ℕ) (o : Obj) :
    (v.put table fd d x).slotHolds table' fd' o =
      if table' = table ∧ fd' = fd then d.holds x o else v.slotHolds table' fd' o := by
  rw [slotHolds, put_tables, put_links]
  split_ifs <;> rfl

theorem put_tableHolds_of_ne {table' : Fin 32} (h : table' ≠ table) :
    (v.put table fd d x).tableHolds table' o = v.tableHolds table' o := by
  refine Finset.sum_congr rfl fun fd' _ ↦ ?_
  rw [put_slotHolds, if_neg fun hc ↦ h hc.1]

theorem put_tableHolds (table : Fin 32) (hfd : fd < maxFiles) :
    (v.put table fd d x).tableHolds table o + v.slotHolds table fd o = v.tableHolds table o +
      d.holds x o := by
  have hmem : fd ∈ Finset.range maxFiles := Finset.mem_range.2 hfd
  have h₁ := Finset.add_sum_erase _ (fun fd' ↦ (v.put table fd d x).slotHolds table fd' o) hmem
  have h₂ := Finset.add_sum_erase _ (fun fd' ↦ v.slotHolds table fd' o) hmem
  have h₃ : ∑ fd' ∈ (Finset.range maxFiles).erase fd, (v.put table fd d x).slotHolds table fd' o =
      ∑ fd' ∈ (Finset.range maxFiles).erase fd, v.slotHolds table fd' o := by
    refine Finset.sum_congr rfl fun fd' hfd' ↦ ?_
    rw [put_slotHolds, if_neg fun hc ↦ Finset.ne_of_mem_erase hfd' hc.2]
  have h₄ : (v.put table fd d x).slotHolds table fd o = d.holds x o := by
    rw [put_slotHolds, if_pos ⟨rfl, rfl⟩]
  rw [tableHolds, tableHolds]
  omega

theorem holders_eq (v : View) (table : Fin 32) (o : Obj) :
    v.holders o = (if v.refs table = 0 then 0 else v.tableHolds table o) +
      ∑ table' ∈ Finset.univ.erase table, if v.refs table' = 0 then 0 else v.tableHolds table' o :=
  (Finset.add_sum_erase _ _ (Finset.mem_univ table)).symm

theorem put_holders (hlive : v.refs table ≠ 0) (hfd : fd < maxFiles) :
    (v.put table fd d x).holders o + v.slotHolds table fd o = v.holders o + d.holds x o := by
  have hrest : ∑ table' ∈ Finset.univ.erase table,
        (if (v.put table fd d x).refs table' = 0 then 0
          else (v.put table fd d x).tableHolds table' o) =
      ∑ table' ∈ Finset.univ.erase table, if v.refs table' = 0 then 0 else v.tableHolds table' o := by
    refine Finset.sum_congr rfl fun table' h ↦ ?_
    rw [put_tableHolds_of_ne (Finset.ne_of_mem_erase h)]
    rfl
  have hlive' : (v.put table fd d x).refs table ≠ 0 := hlive
  have := put_tableHolds (v := v) (d := d) (x := x) (o := o) table hfd
  rw [holders_eq _ table, holders_eq v table, if_neg hlive, if_neg hlive', hrest]
  omega

theorem holders_le (v : View) (o : Obj) : v.holders o ≤ 65536 := by
  have htable : ∀ table, v.tableHolds table o ≤ 2048 := by
    intro table
    calc v.tableHolds table o ≤ ∑ _fd ∈ Finset.range maxFiles, 4 :=
          Finset.sum_le_sum fun fd _ ↦ FileDesc.holds_le _ _ _
      _ = 2048 := by simp [maxFiles]
  calc v.holders o ≤ ∑ _table : Fin 32, 2048 := by
        refine Finset.sum_le_sum fun table _ ↦ ?_
        split_ifs
        · omega
        · exact htable table
    _ = 65536 := by simp

theorem slotHolds_le_tableHolds (v : View) (table : Fin 32) (hfd : fd < maxFiles) (o : Obj) :
    v.slotHolds table fd o ≤ v.tableHolds table o :=
  Finset.single_le_sum (f := fun fd ↦ v.slotHolds table fd o) (fun _ _ ↦ Nat.zero_le _)
    (Finset.mem_range.2 hfd)

theorem slotHolds_le_holders (hlive : v.refs table ≠ 0) (hfd : fd < maxFiles) (o : Obj) :
    v.slotHolds table fd o ≤ v.holders o := by
  rw [holders_eq v table, if_neg hlive]
  exact (slotHolds_le_tableHolds v table hfd o).trans (Nat.le_add_right _ _)

end View

theorem tables_of_put {d : FileDesc} {x : FdLinks} (hv : s'.view = s.view.put table fd d x)
    (table' : Fin 32) (fd' : ℕ) : s'.taskFdTables table' fd' =
      if table' = table ∧ fd' = fd then d else s.taskFdTables table' fd' :=
  (congrFun (congrFun (congrArg View.tables hv) table') fd').trans (View.put_tables ..)

theorem links_of_put {d : FileDesc} {x : FdLinks} (hv : s'.view = s.view.put table fd d x)
    (table' : Fin 32) (fd' : ℕ) : s'.links table' fd' =
      if table' = table ∧ fd' = fd then x else s.links table' fd' :=
  (congrFun (congrFun (congrArg View.links hv) table') fd').trans (View.put_links ..)

def Retainable (s : Fds) (a : Option Obj) : Prop :=
  ∀ o, a = some o → s.count o ≠ 0 ∧ s.count o < 2 ^ 32 - 1

theorem count_cell (s : Fds) (c : Fin 512) (d : OpenDesc) (o : Obj) :
    { s with openDescs := update s.openDescs c d }.count o =
      if o = .cell c then d.refs else s.count o := by
  cases o with
  | cell c' => by_cases h : c' = c <;> simp [count, h]
  | _ => rfl

theorem count_input (s : Fds) (i : Fin 32768) (st : InputOpenState) (o : Obj) :
    { s with inputOpenStates := update s.inputOpenStates i st }.count o =
      if o = .input i then st.refs else s.count o := by
  cases o with
  | input i' => by_cases h : i' = i <;> simp [count, h]
  | _ => rfl

theorem count_epoll (s : Fds) (e : Fin 4) (st : EpollState) (o : Obj) :
    { s with epolls := update s.epolls e st }.count o =
      if o = .epoll e then st.refs else s.count o := by
  cases o with
  | epoll e' => by_cases h : e' = e <;> simp [count, h]
  | _ => rfl

theorem Used.setCell (h : s.Used) (c : Fin 512) {d : OpenDesc} (hd : d.used = true ↔ d.refs ≠ 0) :
    Used { s with openDescs := update s.openDescs c d } := by
  refine ⟨fun c' ↦ ?_, h.input, h.epoll⟩
  by_cases hc : c' = c
  · simpa [hc] using hd
  · simpa [update_of_ne hc] using h.cell c'

theorem Used.setInput (h : s.Used) (i : Fin 32768) {st : InputOpenState}
    (hd : st.used = true ↔ st.refs ≠ 0) :
    Used { s with inputOpenStates := update s.inputOpenStates i st } := by
  refine ⟨h.cell, fun i' ↦ ?_, h.epoll⟩
  by_cases hi : i' = i
  · simpa [hi] using hd
  · simpa [update_of_ne hi] using h.input i'

theorem Used.setEpoll (h : s.Used) (e : Fin 4) {st : EpollState}
    (hd : st.used = true ↔ st.refs ≠ 0) : Used { s with epolls := update s.epolls e st } := by
  refine ⟨h.cell, h.input, fun e' ↦ ?_⟩
  by_cases he : e' = e
  · simpa [he] using hd
  · simpa [update_of_ne he] using h.epoll e'

/-- What the primitives of one kind of object do: they keep the tables, and add or take one
reference. -/
structure Moves (s s' : Fds) (n : Obj → ℕ → ℕ) : Prop where
  used : s'.Used
  view : s'.view = s.view
  count : ∀ o, s'.count o = n o (s.count o)

abbrev Drops (s s' : Fds) (a : Option Obj) : Prop := Moves s s' (fun o n ↦ n - hits a o)

abbrev Adds (s s' : Fds) (a : Option Obj) : Prop := Moves s s' (fun o n ↦ n + hits a o)

theorem Used.same (h : s.Used) : Adds s s none := ⟨h, rfl, fun _ ↦ rfl⟩

theorem drops_of (hu : s'.Used) (hv : s'.view = s.view)
    (hc : ∀ o, s'.count o = if o = a then s.count a - 1 else s.count o) : Drops s s' (some a) := by
  refine ⟨hu, hv, fun o ↦ ?_⟩
  rw [hc]
  by_cases h : o = a
  · rw [if_pos h, h, hits_self]
  · rw [if_neg h, hits_of_ne h, Nat.sub_zero]

theorem adds_of (hu : s'.Used) (hv : s'.view = s.view)
    (hc : ∀ o, s'.count o = if o = a then s.count a + 1 else s.count o) : Adds s s' (some a) := by
  refine ⟨hu, hv, fun o ↦ ?_⟩
  rw [hc]
  by_cases h : o = a
  · rw [if_pos h, h, hits_self]
  · rw [if_neg h, hits_of_ne h, Nat.add_zero]

theorem drops_zero (hu : s.Used) (hz : s.count a = 0) : Drops s s (some a) := by
  refine drops_of hu rfl fun o ↦ ?_
  split_ifs with h
  · rw [h]
    omega
  · rfl

theorem drops_openOffset (h : s.Used) (c : Option (Fin 512)) :
    Drops s (s.releaseOpenOffset c) (c.map .cell) := by
  cases c with
  | none => exact ⟨h, rfl, fun _ ↦ rfl⟩
  | some c =>
    have hc := h.cell c
    simp only [releaseOpenOffset]
    split_ifs with hz h₁
    · exact drops_zero h hz
    · exact drops_of (h.setCell c (by simp [h₁])) rfl fun o ↦ count_cell s c _ o
    · refine drops_of (h.setCell c ?_) rfl fun o ↦ count_cell s c _ o
      rw [hc]
      simp only
      omega

theorem adds_openOffset (h : s.Used) (hc : s.Retainable (c.map .cell)) :
    Adds s (s.retainOpenOffset c) (c.map .cell) := by
  cases c with
  | none => exact h.same
  | some c =>
    refine adds_of (h.setCell c ?_) rfl fun o ↦ count_cell s c _ o
    have hu := (h.cell c).2 (hc _ rfl).1
    simp [hu]

theorem drops_inputState (h : s.Used) (i : Option (Fin 32768)) :
    Drops s (s.inputStateRelease i) (i.map .input) := by
  cases i with
  | none => exact ⟨h, rfl, fun _ ↦ rfl⟩
  | some i =>
    have hi := h.input i
    simp only [inputStateRelease]
    split_ifs with hz h₁
    · exact drops_zero h (not_not.1 fun hc ↦ by simp [hi.2 hc] at hz)
    · refine drops_of (h.setInput i ?_) rfl fun o ↦ count_input s i _ o
      rw [hi]
      simp only
      omega
    · refine drops_of (h.setInput i (by simp)) rfl fun o ↦ (count_input s i _ o).trans ?_
      have : (s.inputOpenStates i).refs - 1 = 0 := by omega
      simp [count, this]

theorem adds_inputState (h : s.Used) (hi : s.Retainable (i.map .input)) :
    Adds s (s.inputStateRetain i) (i.map .input) := by
  cases i with
  | none => exact h.same
  | some i =>
    obtain ⟨hpos, hlt⟩ := hi _ rfl
    have hu : (s.inputOpenStates i).used = true := (h.input i).2 hpos
    rw [inputStateRetain, if_pos ⟨hu, hlt⟩]
    refine adds_of (h.setInput i ?_) rfl fun o ↦ count_input s i _ o
    simp [hu]

theorem drops_epoll (h : s.Used) (d : Target) : Drops s (s.epollReleaseFile d) d.epollObj := by
  cases d with
  | epoll e =>
    have he := h.epoll e
    simp only [epollReleaseFile]
    split_ifs with hz h₁
    · exact drops_zero h (not_not.1 fun hc ↦ by simp [he.2 hc] at hz)
    · refine drops_of (h.setEpoll e ?_) rfl fun o ↦ count_epoll s e _ o
      rw [he]
      simp only
      omega
    · refine drops_of (h.setEpoll e (by simp)) rfl fun o ↦ (count_epoll s e _ o).trans ?_
      have : (s.epolls e).refs - 1 = 0 := by omega
      simp [count, this]
  | _ => exact ⟨h, rfl, fun _ ↦ rfl⟩

theorem adds_epoll (h : s.Used) {d : Target} (hd : s.Retainable d.epollObj) :
    Adds s (s.epollRetainFile d) d.epollObj := by
  cases d with
  | epoll e =>
    obtain ⟨hpos, hlt⟩ := hd _ rfl
    have hu : (s.epolls e).used = true := (h.epoll e).2 hpos
    rw [epollRetainFile, if_pos ⟨hu, hlt⟩]
    refine adds_of (h.setEpoll e ?_) rfl fun o ↦ count_epoll s e _ o
    simp [hu]
  | _ => exact h.same

theorem count_pipe (s : Fds) (p : Fin 8) (g : PipeState → PipeState) (o : Obj) :
    (s.setIo (s.toIo.modifyPipe p g)).count o =
      if o = .reader p then (g (s.pipes p)).readers
      else if o = .writer p then (g (s.pipes p)).writers else s.count o := by
  cases o with
  | reader p' => by_cases h : p' = p <;> simp [count, setIo, Io.modifyPipe, h]
  | writer p' => by_cases h : p' = p <;> simp [count, setIo, Io.modifyPipe, h]
  | _ => rfl

theorem count_pty (s : Fds) (p : Fin 8) (g : PtyState → PtyState) (o : Obj) :
    (s.setIo (s.toIo.modifyPty p g)).count o =
      if o = .master p then (g (s.ptySlots p)).masterRefs
      else if o = .slave p then (g (s.ptySlots p)).slaveRefs else s.count o := by
  cases o with
  | master p' => by_cases h : p' = p <;> simp [count, setIo, Io.modifyPty, h]
  | slave p' => by_cases h : p' = p <;> simp [count, setIo, Io.modifyPty, h]
  | _ => rfl

theorem count_socket (s : Fds) (i : Fin 32) (g : UnixSocketState → UnixSocketState) (o : Obj) :
    (s.setIo (s.toIo.modifySocket i g)).count o =
      if o = .side i false then (g (s.unixSockets i)).sideRefs false
      else if o = .side i true then (g (s.unixSockets i)).sideRefs true else s.count o := by
  cases o with
  | side i' b => by_cases h : i' = i <;> cases b <;> simp [count, setIo, Io.modifySocket, h]
  | _ => rfl

theorem dropRef_sideRefs (st : UnixSocketState) (b : Bool) :
    (st.dropRef b).sideRefs = update st.sideRefs b (st.sideRefs b - 1) := by
  simp only [UnixSocketState.dropRef]
  by_cases h : st.sideRefs b = 0
  · simp only [h, ne_eq, not_true_eq_false, if_false]
    split_ifs <;> simp [h]
  · simp only [ne_eq, h, not_false_eq_true, if_true]
    split_ifs <;> rfl

theorem drops_target (h : s.Used) (d : Target) :
    Drops s (s.setIo (s.toIo.dropTarget d)) d.endpoint := by
  have hu : (s.setIo (s.toIo.dropTarget d)).Used := ⟨h.cell, h.input, h.epoll⟩
  cases d with
  | pipeR p =>
    refine drops_of hu rfl fun o ↦ ?_
    rw [Io.dropTarget, count_pipe]
    by_cases h' : o = .writer p <;> simp [h', count]
  | pipeW p =>
    refine drops_of hu rfl fun o ↦ ?_
    rw [Io.dropTarget, count_pipe]
    by_cases h' : o = .reader p <;> simp [h', count]
  | ptyMaster p =>
    refine drops_of hu rfl fun o ↦ ?_
    rw [Io.dropTarget, count_pty]
    by_cases h' : o = .slave p <;> simp [h', count, PtyState.dropMaster]
  | ptySlave p =>
    refine drops_of hu rfl fun o ↦ ?_
    rw [Io.dropTarget, count_pty]
    by_cases h' : o = .master p <;> simp [h', count, PtyState.dropSlave]
  | socket i b =>
    refine drops_of hu rfl fun o ↦ ?_
    rw [Io.dropTarget, count_socket, dropRef_sideRefs]
    cases b
    · by_cases h' : o = .side i true <;> simp [h', count]
    · by_cases h' : o = .side i false <;> simp [h', count]
  | _ => exact ⟨hu, rfl, fun _ ↦ rfl⟩

theorem adds_target (h : s.Used) (d : Target) :
    Adds s (s.setIo (s.toIo.retainTarget d)) d.endpoint := by
  have hu : (s.setIo (s.toIo.retainTarget d)).Used := ⟨h.cell, h.input, h.epoll⟩
  cases d with
  | pipeR p =>
    refine adds_of hu rfl fun o ↦ ?_
    rw [Io.retainTarget, count_pipe]
    by_cases h' : o = .writer p <;> simp [h', count]
  | pipeW p =>
    refine adds_of hu rfl fun o ↦ ?_
    rw [Io.retainTarget, count_pipe]
    by_cases h' : o = .reader p <;> simp [h', count]
  | ptyMaster p =>
    refine adds_of hu rfl fun o ↦ ?_
    rw [Io.retainTarget, count_pty]
    by_cases h' : o = .slave p <;> simp [h', count]
  | ptySlave p =>
    refine adds_of hu rfl fun o ↦ ?_
    rw [Io.retainTarget, count_pty]
    by_cases h' : o = .master p <;> simp [h', count]
  | socket i b =>
    refine adds_of hu rfl fun o ↦ ?_
    rw [Io.retainTarget, count_socket]
    cases b
    · by_cases h' : o = .side i true <;> simp [h', count]
    · by_cases h' : o = .side i false <;> simp [h', count]
  | _ => exact ⟨hu, rfl, fun _ ↦ rfl⟩

structure Writes (s s' : Fds) (table : Fin 32) (fd : ℕ) (d : FileDesc) (x : FdLinks)
    (n : Obj → ℕ → ℕ) : Prop where
  used : s'.Used
  view : s'.view = s.view.put table fd d x
  count : ∀ o, s'.count o = n o (s.count o)

theorem View.put_put (v : View) (table : Fin 32) (fd : ℕ) (d d' : FileDesc) (x x' : FdLinks) :
    (v.put table fd d x).put table fd d' x' = v.put table fd d' x' := by
  simp [View.put]

theorem Moves.trans (h : Moves s s₁ n) (h' : Moves s₁ s₂ m) : Moves s s₂ (fun o k ↦ m o (n o k)) :=
  ⟨h'.used, h'.view.trans h.view, fun o ↦ by rw [h'.count, h.count]⟩

theorem Moves.tables (h : Moves s s' n) : s'.taskFdTables = s.taskFdTables :=
  congrArg View.tables h.view

theorem Moves.links (h : Moves s s' n) : s'.links = s.links := congrArg View.links h.view

theorem Moves.writes {d : FileDesc} {x : FdLinks} (h : Moves s s₁ n)
    (h' : Writes s₁ s₂ table fd d x m) : Writes s s₂ table fd d x (fun o k ↦ m o (n o k)) :=
  ⟨h'.used, h.view ▸ h'.view, fun o ↦ by rw [h'.count, h.count]⟩

theorem writes_setSlot (h : s.Used) (table : Fin 32) (fd : ℕ) (d : FileDesc) (x : FdLinks) :
    Writes s (s.setSlot table fd d x) table fd d x (fun _ n ↦ n) :=
  ⟨⟨h.cell, h.input, h.epoll⟩, rfl, fun o ↦ by cases o <;> rfl⟩

theorem writes_markClosed (h : s.Used) (table : Fin 32) (fd : ℕ) :
    Writes s (s.fdMarkClosed table fd) table fd .free .none
      (fun o n ↦ n - hits ((s.links table fd).inputState.map .input) o) := by
  have hd := drops_inputState h (s.links table fd).inputState
  exact hd.writes (writes_setSlot hd.used table fd .free .none)

theorem writes_taskFdRelease (h : s.Used) (hin : (s.taskFdTables table fd).inUse = true) :
    Writes s (s.taskFdRelease table fd) table fd .free .none
      (fun o n ↦ n - hits (s.taskFdTables table fd).target.epollObj o -
        hits ((s.links table fd).sharedOffset.map .cell) o -
          hits ((s.links table fd).inputState.map .input) o) := by
  have h₁ := drops_epoll h (s.taskFdTables table fd).target
  have h₂ := h₁.trans (drops_openOffset h₁.used (s.links table fd).sharedOffset)
  have h₃ := writes_markClosed h₂.used table fd
  rw [h₂.links] at h₃
  simp only [taskFdRelease, hin, Bool.true_eq_false, if_false]
  exact h₂.writes h₃

theorem writes_closeRest (h : s.Used) (table : Fin 32) (fd : ℕ) :
    Writes s (s.closeRest table fd) table fd .free .none
      (fun o n ↦ n - hits ((s.links table fd).sharedOffset.map .cell) o -
        hits ((s.links table fd).inputState.map .input) o) := by
  have h₁ := drops_openOffset h (s.links table fd).sharedOffset
  have h₂ := h₁.writes (writes_setSlot h₁.used table fd (s.taskFdTables table fd)
    { s.links table fd with sharedOffset := none })
  have h₃ := writes_markClosed h₂.used table fd
  have hl : (s.fdDropResources table fd).links table fd =
      { s.links table fd with sharedOffset := none } := by
    have := congrFun (congrFun (congrArg View.links h₂.view) table) fd
    rwa [View.put_links, if_pos ⟨rfl, rfl⟩] at this
  refine ⟨h₃.used, ?_, fun o ↦ ?_⟩
  · rw [show (s.closeRest table fd).view = _ from h₃.view, h₂.view, View.put_put]
  · rw [show (s.closeRest table fd).count o = _ from h₃.count o, h₂.count o]
    have hl' : ((s.releaseOpenOffset (s.links table fd).sharedOffset).setSlot table fd
        (s.taskFdTables table fd)
      { s.links table fd with sharedOffset := none }).links table fd = _ := hl
    rw [hl']

theorem slotHolds_of_inUse (hin : (s.taskFdTables table fd).inUse = true) :
    s.view.slotHolds table fd o =
      hits (s.taskFdTables table fd).target.endpoint o +
        hits (s.taskFdTables table fd).target.epollObj o +
        hits ((s.links table fd).sharedOffset.map .cell) o +
          hits ((s.links table fd).inputState.map .input) o :=
  if_pos hin

theorem slotHolds_of_free (hin : (s.taskFdTables table fd).inUse = false) :
    s.view.slotHolds table fd o = 0 :=
  FileDesc.holds_free hin _ o

theorem releaseFd_spec (h : s.Used) (table : Fin 32) (fd : ℕ) :
    (s.releaseFd table fd).Used ∧
      (∃ d x, (s.releaseFd table fd).view = s.view.put table fd d x ∧ d.inUse = false ∧
        (x = .none ∨ x = s.links table fd ∧ (s.taskFdTables table fd).inUse = false)) ∧
      ∀ o, (s.releaseFd table fd).count o = s.count o - s.view.slotHolds table fd o := by
  simp only [releaseFd]
  split_ifs with hin
  · refine ⟨h, ⟨s.taskFdTables table fd, s.links table fd, ?_, hin, .inr ⟨rfl, hin⟩⟩, fun o ↦ ?_⟩
    · exact (s.view.put_self table fd).symm
    · rw [slotHolds_of_free hin, Nat.sub_zero]
  · have hin : (s.taskFdTables table fd).inUse = true := by simpa using hin
    have h₁ := drops_target h (s.taskFdTables table fd).target
    have h₂ := h₁.writes (writes_taskFdRelease h₁.used (by rw [h₁.tables]; exact hin))
    refine ⟨h₂.used, ⟨.free, .none, h₂.view, rfl, .inl rfl⟩, fun o ↦ ?_⟩
    rw [h₂.count, h₁.tables, h₁.links, slotHolds_of_inUse hin]
    omega

/-- A count does not stand in the way of copying a descriptor. -/
structure Copyable (s : Fds) (d : FileDesc) (x : FdLinks) : Prop where
  input : s.Retainable (x.inputState.map .input)
  epoll : s.Retainable d.target.epollObj
  cell : s.Retainable (x.sharedOffset.map .cell)

theorem Retainable.adds {a b : Option Obj} (h : s.Retainable a) (hb : Adds s s' b)
    (hne : ∀ o, a = some o → hits b o = 0) : s'.Retainable a := by
  intro o ho
  rw [hb.count, hne o ho]
  exact h o ho

theorem hits_input_epoll {d : Target} {o : Obj} (h : d.epollObj = some o) :
    hits (i.map .input) o = 0 := by
  cases d <;> cases h
  cases i <;> simp [hits]

theorem hits_input_cell {o : Obj} (h : c.map .cell = some o) : hits (i.map .input) o = 0 := by
  cases c <;> cases h
  cases i <;> simp [hits]

theorem hits_epoll_cell {d : Target} {o : Obj} (h : c.map .cell = some o) :
    hits d.epollObj o = 0 := by
  cases c <;> cases h
  cases d <;> simp [hits, Target.epollObj]

theorem hits_cell_input {o : Obj} (h : i.map .input = some o) : hits (c.map .cell) o = 0 := by
  cases i <;> cases h
  cases c <;> simp [hits]

theorem hits_cell_epoll {d : Target} {o : Obj} (h : d.epollObj = some o) :
    hits (c.map .cell) o = 0 := by
  cases d <;> cases h
  cases c <;> simp [hits]

theorem Writes.moves {d : FileDesc} {x : FdLinks} (h : Writes s s₁ table fd d x n)
    (h' : Moves s₁ s₂ m) : Writes s s₂ table fd d x (fun o k ↦ m o (n o k)) :=
  ⟨h'.used, h'.view.trans h.view, fun o ↦ by rw [h'.count, h.count]⟩

theorem Copyable.setSlot {d : FileDesc} {x : FdLinks} (h : s.Copyable d x) (table : Fin 32) (fd : ℕ)
    (d' : FileDesc) (x' : FdLinks) : (s.setSlot table fd d' x').Copyable d x := by
  have hc : ∀ o, (s.setSlot table fd d' x').count o = s.count o := fun o ↦ by cases o <;> rfl
  constructor
  all_goals
    intro o ho
    rw [hc]
  · exact h.input o ho
  · exact h.epoll o ho
  · exact h.cell o ho

theorem cloneFd_spec (h : s.Used) (source destination : Fin 32) (fd : ℕ)
    (hc : (s.taskFdTables source fd).inUse = true →
      s.Copyable (s.taskFdTables source fd) (s.links source fd)) :
    Writes s (s.cloneFd source destination fd) destination fd (s.taskFdTables source fd)
      (s.links source fd) (fun o n ↦ n + s.view.slotHolds source fd o) := by
  have h₀ := writes_setSlot h destination fd (s.taskFdTables source fd) (s.links source fd)
  simp only [cloneFd]
  split_ifs with hin
  · refine ⟨h₀.used, h₀.view, fun o ↦ ?_⟩
    rw [h₀.count, slotHolds_of_free hin, Nat.add_zero]
  · have hin : (s.taskFdTables source fd).inUse = true := by simpa using hin
    have hc := (hc hin).setSlot destination fd (s.taskFdTables source fd) (s.links source fd)
    have h₁ := adds_inputState h₀.used hc.input
    have h₂ := adds_epoll h₁.used (hc.epoll.adds h₁ fun o ↦ hits_input_epoll)
    have h₃ := adds_openOffset h₂.used
      ((hc.cell.adds h₁ fun o ↦ hits_input_cell).adds h₂ fun o ↦ hits_epoll_cell)
    have h₄ := adds_target h₃.used (s.taskFdTables source fd).target
    have hw := h₀.moves (((h₁.trans h₂).trans h₃).trans h₄)
    refine ⟨hw.used, hw.view, fun o ↦ ?_⟩
    rw [hw.count, slotHolds_of_inUse hin]
    omega

theorem dupFd_spec (h : s.Used) (table : Fin 32) (src dst : ℕ) (flags : ℕ → ℕ)
    (hin : (s.taskFdTables table src).inUse = true)
    (hc : s.Copyable (s.taskFdTables table src) (s.links table src)) :
    Writes s ((s.fdCopyScalar table src dst flags).fdRetainEndpointRef table dst) table dst
      { s.taskFdTables table src with flags := flags (s.taskFdTables table src).flags }
      (s.links table src) (fun o n ↦ n + s.view.slotHolds table src o) := by
  have h₀ := writes_setSlot h table dst
    { s.taskFdTables table src with flags := flags (s.taskFdTables table src).flags }
      (s.links table src)
  have hc := hc.setSlot table dst
    { s.taskFdTables table src with flags := flags (s.taskFdTables table src).flags }
      (s.links table src)
  have h₁ := adds_openOffset h₀.used hc.cell
  have h₂ := adds_inputState h₁.used (hc.input.adds h₁ fun o ↦ hits_cell_input)
  have h₃ := adds_epoll h₂.used
    ((hc.epoll.adds h₁ fun o ↦ hits_cell_epoll).adds h₂ fun o ↦ hits_input_epoll)
  have hw := h₀.moves ((h₁.trans h₂).trans h₃)
  have hcopy : s.fdCopyScalar table src dst flags = _ := if_pos hin
  have hdst : (s.fdCopyScalar table src dst flags).taskFdTables table dst =
      { s.taskFdTables table src with flags := flags (s.taskFdTables table src).flags } := by
    have := tables_of_put hw.view table dst
    rw [if_pos ⟨rfl, rfl⟩] at this
    rwa [hcopy]
  have h₄ := hw.moves (adds_target hw.used (s.taskFdTables table src).target)
  have hend : (s.fdCopyScalar table src dst flags).fdRetainEndpointRef table dst =
      (s.fdCopyScalar table src dst flags).setIo
        ((s.fdCopyScalar table src dst flags).toIo.retainTarget
          (s.taskFdTables table src).target) := by
    rw [fdRetainEndpointRef, hdst]
    exact if_pos hin
  rw [hend, hcopy]
  refine ⟨h₄.used, h₄.view, fun o ↦ ?_⟩
  rw [h₄.count, slotHolds_of_inUse hin]
  omega

end Fds

end YabroOS
