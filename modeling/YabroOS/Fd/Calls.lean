import YabroOS.Fd.State

namespace YabroOS

open Function

namespace Errno

def enoent : ℤ := 2
def eio : ℤ := 5
def enxio : ℤ := 6
def ebadf : ℤ := 9
def eagain : ℤ := 11
def enomem : ℤ := 12
def eacces : ℤ := 13
def efault : ℤ := 14
def einval : ℤ := 22
def emfile : ℤ := 24
def erofs : ℤ := 30
def epipe : ℤ := 32
def enametoolong : ℤ := 36
def enosys : ℤ := 38
def eafnosupport : ℤ := 97
def eaddrinuse : ℤ := 98
def enotconn : ℤ := 107
def econnrefused : ℤ := 111

end Errno

open Errno

def devInput : ℕ := 8
def devInputMouse : ℕ := 9
def pseudoDevDir : ℕ := 102
def oCloexec : ℕ := 0x80000
def oNonblock : ℕ := 0x800

def isCloexec (flags : ℕ) : Bool := flags.testBit 19

def clearCloexec (flags : ℕ) : ℕ := flags &&& 0xFFF7FFFF

/-- What the path of an `open` leads to: nothing readable, a pseudo file, or what the file system
and the boot image hold there after a file that was asked for has been created. -/
inductive OpenPath
  | fault
  | tooLong
  | pseudo (kind : ℕ)
  | ptmx
  | pts (p : Fin 8)
  | bootfs
  | dir
  | bootFile
  | regular (truncates : Bool)
  | missing
  deriving DecidableEq

def ptyDefaultTermios : Termios where
  iflag := 0x500
  oflag := 0x5
  lflag := 0x8a3b
  cc := fun i ↦
    ([3, 0x1c, 0x7f, 0x15, 4, 0, 1, 0, 0x11, 0x13, 0x1a, 0, 0x12, 0x0f, 0x17, 0x16, 0] : List
      UInt8).getD i 0

def PtyState.fresh : PtyState where
  masterToSlave := []
  slaveToMaster := []
  canon := []
  masterOpen := true
  slaveOpen := false
  masterRefs := 1
  slaveRefs := 0
  termios := ptyDefaultTermios
  fgPgrp := 0
  session := 0
  outputStopped := false

def PtyState.free (p : PtyState) : Bool :=
  p.masterOpen = false ∧ p.slaveOpen = false ∧ p.masterRefs = 0 ∧ p.slaveRefs = 0

def PipeState.free (p : PipeState) : Bool := p.readers = 0 ∧ p.writers = 0 ∧ p.data = []

namespace Fds

variable (s : Fds) (t : Slot)

section Open

variable (table : Fin 32) (fd : ℕ) (flags : ℕ)

def opened (d : FileDesc) (x : FdLinks) : Fds × ℤ :=
  ({ s.setSlot table fd d { x with opened := s.opens } with opens := s.opens + 1 }, fd)

def openFile (failed : Fds → Fds) : Fds × ℤ :=
  match s.allocOpenOffset with
  | (s, none) => (failed s, -emfile)
  | (s, some c) =>
    s.opened table fd ⟨true, .file, flags⟩ { s.links table fd with sharedOffset := some c }

def openFailed (s : Fds) : Fds := s.setSlot table fd ⟨false, .file, flags⟩ (s.links table fd)

def sysOpenResolved : OpenPath → Fds × ℤ
  | .fault => (s, -efault)
  | .tooLong => (s, -enametoolong)
  | .ptmx =>
    match firstFree (fun p ↦ (s.ptySlots p).free) with
    | none => (s.fdMarkClosed table fd, -emfile)
    | some p =>
      { s with
        toIo := s.toIo.modifyPty p (fun _ ↦ .fresh)
        ptyUnlocked := update s.ptyUnlocked p false }.opened table fd ⟨true, .ptyMaster p, flags⟩
          (s.links table fd)
  | .pts p =>
    if (s.ptySlots p).masterOpen = false then (s.fdMarkClosed table fd, -enxio)
    else if s.ptyUnlocked p = false then (s.fdMarkClosed table fd, -eacces)
    else if (s.ptySlots p).slaveRefs = 2 ^ 32 - 1 then (s.fdMarkClosed table fd, -emfile)
    else
      (s.setIo (s.toIo.retainTarget (.ptySlave p))).opened table fd ⟨true, .ptySlave p, flags⟩
        (s.links table fd)
  | .pseudo kind =>
    if kind = devInput ∨ kind = devInputMouse then
      match s.inputStateAlloc kind with
      | (s, none) => (s.fdMarkClosed table fd, -emfile)
      | (s, some i) =>
        s.opened table fd ⟨true, .pseudo kind, flags⟩ { s.links table fd with inputState := some i }
    else s.opened table fd ⟨true, .pseudo kind, flags⟩ (s.links table fd)
  | .bootfs =>
    if flags.testBit 6 ∨ flags % 4 ≠ 0 then (s, -enoent)
    else s.openFile table fd flags (openFailed table fd flags)
  | .dir => s.opened table fd ⟨true, .pseudo pseudoDevDir, flags⟩ (s.links table fd)
  | .bootFile =>
    if flags % 4 ≠ 0 then (s, -erofs) else s.openFile table fd flags (openFailed table fd flags)
  | .regular truncates =>
    if flags.testBit 9 ∧ truncates = false then (s, -eio)
    else s.openFile table fd flags (fun s ↦ s.fdMarkClosed table fd)
  | .missing => (s, -enoent)

end Open

def sysOpen (path : OpenPath) (flags : ℕ) : Fds × ℤ :=
  match path with
  | .fault => (s, -efault)
  | .tooLong => (s, -enametoolong)
  | path =>
    match s.findFreeFd t with
    | none => (s, -emfile)
    | some fd => s.sysOpenResolved (s.currentFiles t) fd flags path

def liveEnds (target : Target) : ℕ :=
  ∑ table : Fin 32, if s.taskFdTableRefs table = 0 then 0
    else ∑ fd ∈ Finset.range maxFiles,
      if (s.taskFdTables table fd).inUse ∧ (s.taskFdTables table fd).target = target then 1 else 0

def pipeLiveReaders (p : Fin 8) : ℕ := s.liveEnds (.pipeR p)

def pipeLiveWriters (p : Fin 8) : ℕ := s.liveEnds (.pipeW p)

def modifyPipe (p : Fin 8) (g : PipeState → PipeState) : Fds := s.setIo (s.toIo.modifyPipe p g)

def closeRest (table : Fin 32) (fd : ℕ) : Fds := (s.fdDropResources table fd).fdMarkClosed table fd

def closeFd (table : Fin 32) (fd : ℕ) : Fds :=
  match (s.taskFdTables table fd).target with
  | .epoll _ => s.taskFdRelease table fd
  | .ptyMaster p => (s.setIo (s.toIo.dropTarget (.ptyMaster p))).closeRest table fd
  | .ptySlave p =>
    let s := s.setIo (s.toIo.dropTarget (.ptySlave p))
    let s :=
      if (s.ptySlots p).slaveRefs = 0 then
        s.setIo (s.toIo.modifyPty p (fun st ↦ { st with outputStopped := false }))
      else s
    s.closeRest table fd
  | .pipeR p =>
    let s := (s.setIo (s.toIo.dropTarget (.pipeR p))).closeRest table fd
    s.modifyPipe p (fun st ↦ { st with readers := s.pipeLiveReaders p })
  | .pipeW p =>
    let s := (s.setIo (s.toIo.dropTarget (.pipeW p))).closeRest table fd
    s.modifyPipe p (fun st ↦ { st with writers := s.pipeLiveWriters p })
  | .socket i side => (s.setIo (s.toIo.dropTarget (.socket i side))).closeRest table fd
  | _ => s.closeRest table fd

def sysClose (fd : ℤ) : Fds × ℤ :=
  if s.fdValid t fd = false then (s, -ebadf) else (s.closeFd (s.currentFiles t) fd.toNat, 0)

def closeOnExec : Fds :=
  (List.range maxFiles).foldl (fun s fd ↦
    if (s.files t fd).inUse ∧ isCloexec (s.files t fd).flags then (s.sysClose t fd).1 else s) s

def sysPipe (copied : Bool) : Fds × ℤ × Option (ℕ × ℕ) :=
  match s.findFreeFd t with
  | none => (s, -emfile, none)
  | some a =>
    match (List.range maxFiles).find? (fun i ↦ a < i ∧ (s.files t i).inUse = false) with
    | none => (s, -emfile, none)
    | some b =>
      match firstFree (fun p ↦ (s.pipes p).free) with
      | none => (s, -emfile, none)
      | some p =>
        let table := s.currentFiles t
        if copied then
          let s := s.modifyPipe p (fun _ ↦ ⟨[], 1, 1⟩)
          let s := s.setSlot table a ⟨true, .pipeR p, 0⟩ (s.links table a)
          (s.setSlot table b ⟨true, .pipeW p, 0⟩ (s.links table b), 0, some (a, b))
        else
          let s := s.modifyPipe p (fun _ ↦ ⟨[], 0, 0⟩)
          let s := s.setSlot table a ⟨false, .pipeR p, 0⟩ (s.links table a)
          (s.setSlot table b ⟨false, .pipeW p, 0⟩ (s.links table b), -efault, none)

def setFlags (table : Fin 32) (fd : ℕ) (g : ℕ → ℕ) : Fds :=
  let d := s.taskFdTables table fd
  s.setIo (s.toIo.setFd table fd { d with flags := g d.flags })

/-- The numbers are read back from the caller, who cannot have changed them. -/
def sysPipe2 (copied : Bool) (flags : ℕ) : Fds × ℤ :=
  match s.sysPipe t copied with
  | (s, rc, none) => (s, rc)
  | (s, rc, some (a, b)) =>
    let table := s.currentFiles t
    let g (f : ℕ) : ℕ := f ||| (flags &&& (oCloexec ||| oNonblock))
    ((s.setFlags table a g).setFlags table b g, rc)

/-- The search runs over numbers below zero as well when the caller asks for one; `outside` is what
the kernel finds in front of the table then. -/
def sysDupInternal (outside : ℤ → Bool) (oldfd minfd : ℤ) (cloexec : Bool) : Fds × ℤ :=
  if s.fdValid t oldfd = false then (s, -ebadf)
  else if (List.range (-minfd).toNat).any (fun i ↦ outside (minfd + i) = false) then (s, -emfile)
  else
    match (List.range maxFiles).find? (fun i : ℕ ↦ minfd ≤ i ∧ (s.files t i).inUse = false) with
    | none => (s, -emfile)
    | some n =>
      let table := s.currentFiles t
      let s := s.fdCopyScalar table oldfd.toNat n
        (fun f ↦ clearCloexec f ||| if cloexec then oCloexec else 0)
      (s.fdRetainEndpointRef table n, n)

def sysDup (oldfd : ℤ) : Fds × ℤ := s.sysDupInternal t (fun _ ↦ true) oldfd 0 false

def dupOver (oldfd newfd : ℤ) (flags : ℕ) : Fds × ℤ :=
  let table := s.currentFiles t
  let s := if (s.files t newfd.toNat).inUse then (s.sysClose t newfd).1 else s
  let s := s.fdCopyScalar table oldfd.toNat newfd.toNat
    (fun f ↦ clearCloexec f ||| (flags &&& oCloexec))
  (s.fdRetainEndpointRef table newfd.toNat, newfd)

def sysDup2 (oldfd newfd : ℤ) : Fds × ℤ :=
  if s.fdValid t oldfd = false ∨ newfd < 0 ∨ maxFiles ≤ newfd then (s, -ebadf)
  else if oldfd = newfd then (s, newfd)
  else s.dupOver t oldfd newfd 0

def sysDup3 (oldfd newfd : ℤ) (flags : ℕ) : Fds × ℤ :=
  if flags &&& 0xFFF7FFFF ≠ 0 then (s, -einval)
  else if s.fdValid t oldfd = false ∨ newfd < 0 ∨ maxFiles ≤ newfd then (s, -ebadf)
  else if oldfd = newfd then (s, -einval)
  else s.dupOver t oldfd newfd flags

def sysFcntl (outside : ℤ → Bool) (fd cmd : ℤ) (arg : UInt64) : Fds × ℤ :=
  if s.fdValid t fd = false then (s, -ebadf)
  else
    let d := s.files t fd.toNat
    let table := s.currentFiles t
    if cmd = 0 then s.sysDupInternal t outside fd arg.toUInt32.toInt32.toInt false
    else if cmd = 1 then (s, if isCloexec d.flags then 1 else 0)
    else if cmd = 2 then
      (s.setFlags table fd.toNat
        (fun f ↦ clearCloexec f ||| if arg.toNat.testBit 0 then oCloexec else 0), 0)
    else if cmd = 3 then (s, d.flags)
    else if cmd = 4 then
      (s.setFlags table fd.toNat (fun f ↦ f &&& oCloexec ||| clearCloexec (arg.toNat % 2 ^ 32)), 0)
    else if cmd = 1030 then s.sysDupInternal t outside fd arg.toUInt32.toInt32.toInt true
    else (s, -enosys)

def sysEpollCreate1 (flags : ℕ) : Fds × ℤ :=
  if flags &&& 0xFFF7FFFF ≠ 0 then (s, -einval)
  else
    match s.findFreeFd t with
    | none => (s, -emfile)
    | some fd =>
      match firstFree (fun e ↦ (s.epolls e).used = false) with
      | none => (s, -emfile)
      | some e =>
        let table := s.currentFiles t
        let s := { s with epolls := update s.epolls e ⟨true, 1,
          fun i ↦ { (s.epolls e).w i with used := false }⟩ }
        (s.setSlot table fd ⟨true, .epoll e, flags⟩ (s.links table fd), fd)

def sysClone (shareFiles copied : Bool) : Fds × ℤ × Option Slot :=
  match firstFree (fun i ↦ s.used i = false) with
  | none => (s, -enomem, none)
  | some child =>
    let s := { s with nextPid := s.nextPid + 1 }
    match s.taskFdTableClone t child shareFiles with
    | none => (s, -emfile, none)
    | some s' =>
      if copied then ({ s' with used := update s'.used child true }, s.nextPid - 1, some child)
      else (s'.taskFdTableRelease child, -efault, none)

def sysFork (cloned : Bool) : Fds × ℤ :=
  match s.sysClone t false true with
  | (s, rc, none) => (s, rc)
  | (s, rc, some child) =>
    if cloned then (s, rc)
    else ({ s.taskFdTableRelease child with used := update s.used child false }, -enomem)

def sysExit : Fds := s.taskFdTableRelease t

def reap (child : Slot) : Fds :=
  { s.taskFdTableRelease child with used := update s.used child false }

end Fds

end YabroOS
