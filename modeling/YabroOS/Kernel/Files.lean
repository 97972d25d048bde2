import YabroOS.Kernel.State

namespace YabroOS

open Function

def FileDesc.free : FileDesc := ⟨false, .closed, 0⟩

namespace UnixSocketState

def dropRef (s : UnixSocketState) (side : Bool) : UnixSocketState :=
  let s :=
    if s.sideRefs side ≠ 0 then
      { s with
        sideRefs := update s.sideRefs side (s.sideRefs side - 1)
        closed := if s.sideRefs side = 1 then update s.closed side true else s.closed }
    else s
  let s := { s with refs := s.refs - 1 }
  if s.refs = 0 then { s with listener := false, pending := [] } else s

end UnixSocketState

namespace PtyState

def dropMaster (p : PtyState) : PtyState :=
  { p with
    masterRefs := p.masterRefs - 1, masterOpen := if p.masterRefs ≤ 1 then false else p.masterOpen }

def dropSlave (p : PtyState) : PtyState :=
  { p with slaveRefs := p.slaveRefs - 1, slaveOpen := if p.slaveRefs ≤ 1 then false else p.slaveOpen }

end PtyState

namespace Io

variable (io : Io)

def setFd (table : Fin 32) (fd : ℕ) (d : FileDesc) : Io :=
  { io with taskFdTables := update io.taskFdTables table (update (io.taskFdTables table) fd d) }

def modifyPipe (p : Fin 8) (g : PipeState → PipeState) : Io :=
  { io with pipes := update io.pipes p (g (io.pipes p)) }

def modifySocket (s : Fin 32) (g : UnixSocketState → UnixSocketState) : Io :=
  { io with unixSockets := update io.unixSockets s (g (io.unixSockets s)) }

def modifyPty (p : Fin 8) (g : PtyState → PtyState) : Io :=
  { io with ptySlots := update io.ptySlots p (g (io.ptySlots p)) }

def dropTarget : Target → Io
  | .pipeR p => io.modifyPipe p (fun s ↦ { s with readers := s.readers - 1 })
  | .pipeW p => io.modifyPipe p (fun s ↦ { s with writers := s.writers - 1 })
  | .ptyMaster p => io.modifyPty p PtyState.dropMaster
  | .ptySlave p => io.modifyPty p PtyState.dropSlave
  | .socket s side => io.modifySocket s (fun st ↦ st.dropRef side)
  | _ => io

def releaseFd (table : Fin 32) (io : Io) (fd : ℕ) : Io :=
  let d := io.taskFdTables table fd
  if d.inUse = false then io else (io.dropTarget d.target).setFd table fd .free

def taskFdTableRelease (i : Slot) : Io :=
  match io.taskFdTableId i with
  | none => io
  | some table =>
    let io := { io with taskFdTableId := update io.taskFdTableId i none }
    if io.taskFdTableRefs table = 0 then io
    else
      let io := { io with
        taskFdTableRefs := update io.taskFdTableRefs table (io.taskFdTableRefs table - 1) }
      if io.taskFdTableRefs table ≠ 0 then
        if i = 0 then
          { io with
            taskFdTableId := update io.taskFdTableId 0 (some 0)
            taskFdTableRefs := update io.taskFdTableRefs 0 (io.taskFdTableRefs 0 + 1) }
        else io
      else
        let io := (List.range maxFiles).foldl (releaseFd table) io
        if table = 0 then
          { io with
            taskFdTableId := update io.taskFdTableId 0 (some 0)
            taskFdTableRefs := update io.taskFdTableRefs 0 1 }
        else io

def retainTarget : Target → Io
  | .pipeR p => io.modifyPipe p (fun s ↦ { s with readers := s.readers + 1 })
  | .pipeW p => io.modifyPipe p (fun s ↦ { s with writers := s.writers + 1 })
  | .ptyMaster p =>
    io.modifyPty p (fun s ↦ { s with masterRefs := s.masterRefs + 1, masterOpen := true })
  | .ptySlave p =>
    io.modifyPty p (fun s ↦ { s with slaveRefs := s.slaveRefs + 1, slaveOpen := true })
  | .socket s side =>
    io.modifySocket s (fun st ↦
      { st with refs := st.refs + 1, sideRefs := update st.sideRefs side (st.sideRefs side + 1) })
  | _ => io

def cloneFd (source destination : Fin 32) (io : Io) (fd : ℕ) : Io :=
  let d := io.taskFdTables source fd
  let io := io.setFd destination fd d
  if d.inUse then io.retainTarget d.target else io

def taskFdTableClone (parent child : Slot) (shareFiles : Bool) : Option Io :=
  match io.taskFdTableId parent with
  | none => none
  | some source =>
    if io.taskFdTableRefs source = 0 then none
    else if shareFiles then
      some { io with
        taskFdTableId := update io.taskFdTableId child (some source)
        taskFdTableRefs := update io.taskFdTableRefs source (io.taskFdTableRefs source + 1) }
    else
      match (List.finRange 32).find? (fun i ↦ i ≠ 0 ∧ io.taskFdTableRefs i = 0) with
      | none => none
      | some destination =>
        let io := { io with
          taskFdTableId := update io.taskFdTableId child (some destination)
          taskFdTableRefs := update io.taskFdTableRefs destination 1 }
        some ((List.range maxFiles).foldl (cloneFd source destination) io)

end Io

end YabroOS
