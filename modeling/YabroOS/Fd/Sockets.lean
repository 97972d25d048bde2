import YabroOS.Fd.Calls

namespace YabroOS

open Function Errno

def UnixSocketState.zero : UnixSocketState where
  data := fun _ ↦ []
  closed := fun _ ↦ false
  refs := 0
  sideRefs := fun _ ↦ 0
  listener := false
  bound := false
  connected := false
  pending := []
  path := []

/-- The errors of `socket_un_copy_path` and of the address checks of `bind`. -/
inductive AddrError
  | fault
  | invalid
  | family
  deriving DecidableEq

def AddrError.code : AddrError → ℤ
  | .fault => efault
  | .invalid => einval
  | .family => eafnosupport

/-- What the address argument of a socket call holds; a netlink address has no path. -/
inductive SockAddr
  | bad (e : AddrError)
  | path (p : List UInt8)
  deriving DecidableEq

inductive SocketNode
  | ok
  | other
  | failed
  deriving DecidableEq

def TimerfdState.expire (st : TimerfdState) (now : ℕ) : TimerfdState :=
  if st.nextNs ≠ 0 ∧ st.nextNs ≤ now then
    if st.intervalNs ≠ 0 then
      let missed := (now - st.nextNs) / st.intervalNs + 1
      { st with
        expirations := (st.expirations + missed) % 2 ^ 64
        nextNs := (st.nextNs + missed * st.intervalNs) % 2 ^ 64 }
    else { st with expirations := 1, nextNs := 0 }
  else st

namespace Fds

variable (s : Fds) (t : Slot)

def modifySocket (i : Fin 32) (g : UnixSocketState → UnixSocketState) : Fds :=
  s.setIo (s.toIo.modifySocket i g)

def clearSocket (i : Fin 32) (netlink : Bool) : Fds :=
  { s with
    toIo := s.toIo.modifySocket i (fun _ ↦ .zero)
    socketNetlink := update s.socketNetlink i netlink
    held := update s.held i (fun _ ↦ false)
    shut := update s.shut i (fun _ ↦ false) }

def hold (i : Fin 32) (side : Bool) : Fds :=
  { s with held := update s.held i (update (s.held i) side true) }

def setSocketSlot (fd : ℕ) (i : Fin 32) (side : Bool) (flags : ℕ) : Fds :=
  let table := s.currentFiles t
  s.setSlot table fd ⟨true, .socket i side, flags⟩ { s.links table fd with sharedOffset := none }

def socketAllocEndpoint (i : Fin 32) (side : Bool) (flags : ℕ) : Fds × Option ℕ :=
  match s.findFreeFd t with
  | none => (s, none)
  | some fd =>
    let s := s.setSocketSlot t fd i side flags
    ((s.setIo (s.toIo.retainTarget (.socket i side))).hold i side, some fd)

def socketNew (i : Fin 32) (netlink : Bool) (flags : ℕ) : Fds × ℤ :=
  match (s.clearSocket i netlink).socketAllocEndpoint t i false flags with
  | (s, none) => (s, -emfile)
  | (s, some fd) => (s, fd)

def sysSocket (domain : ℤ) (type : ℕ) (protocol : ℤ) : Fds × ℤ :=
  if domain = 1 ∧ type % 16 = 1 then
    match nextFree s.socketSi (fun j ↦ (s.unixSockets j).refs = 0) with
    | none => (s, -emfile)
    | some i =>
      { s with socketSi := (i + 1) % 32 }.socketNew t i false (if type.testBit 11 then oNonblock
        else 0)
  else if domain = 16 ∧ type % 16 = 2 ∧ protocol = 15 then
    match nextFree s.netlinkNi (fun j ↦ (s.unixSockets j).refs = 0) with
    | none => (s, -emfile)
    | some i => { s with netlinkNi := (i + 1) % 32 }.socketNew t i true 0
  else (s, -eafnosupport)

/-- `sv` is null without a result pointer; `copied` tells whether both numbers could be written. -/
def sysSocketpair (domain : ℤ) (type : ℕ) (sv copied : Bool) : Fds × ℤ :=
  if domain ≠ 1 ∨ type % 16 ≠ 1 then (s, -eafnosupport)
  else if sv = false then (s, -efault)
  else
    let i : Fin 32 := ⟨s.pairSi % 32, Nat.mod_lt _ (by decide)⟩
    let s := { s with pairSi := s.pairSi + 1 }
    if (s.unixSockets i).refs ≠ 0 then (s, -emfile)
    else
      match (s.clearSocket i false).socketAllocEndpoint t i false 0 with
      | (s, none) => (s, -emfile)
      | (s, some a) =>
        match s.socketAllocEndpoint t i true 0 with
        | (s, none) =>
          let table := s.currentFiles t
          let s := s.setSlot table a ⟨false, .closed, 0⟩ (s.links table a)
          (s.modifySocket i
            (fun st ↦ { st with refs := 0, sideRefs := update st.sideRefs false 0 }), -emfile)
        | (s, some b) =>
          if copied then (s, 0)
          else
            let table := s.currentFiles t
            let s := s.setSlot table a ⟨false, .socket i false, 0⟩ (s.links table a)
            let s := s.setSlot table b ⟨false, .socket i true, 0⟩ (s.links table b)
            (s.modifySocket i (fun st ↦ { st with refs := 0 }), -efault)

def socketOf (fd : ℤ) : Option (Fin 32 × Bool) :=
  if s.fdValid t fd then
    match (s.files t fd.toNat).target with
    | .socket i side => some (i, side)
    | _ => none
  else none

def socketFindListener (path : List UInt8) : Option (Fin 32) :=
  firstFree (fun i ↦ (s.unixSockets i).refs ≠ 0 ∧ (s.unixSockets i).listener ∧
    (s.unixSockets i).bound ∧ (s.unixSockets i).path = path)

def sysBind (fd : ℤ) (addr : SockAddr) (node : SocketNode) : Fds × ℤ :=
  match s.socketOf t fd with
  | none => (s, -ebadf)
  | some (i, _) =>
    if (s.unixSockets i).bound ∨ (s.unixSockets i).connected then (s, -einval)
    else
      match addr with
      | .bad e => (s, -e.code)
      | .path path =>
        if s.socketNetlink i then (s.modifySocket i (fun st ↦ { st with bound := true }), 0)
        else if (List.finRange 32).any (fun j ↦
            (s.unixSockets j).refs ≠ 0 ∧ (s.unixSockets j).bound ∧ (s.unixSockets j).path = path) then
          (s, -eaddrinuse)
        else if path.head? ≠ some 0x40 ∧ node = .other then (s, -eaddrinuse)
        else if path.head? ≠ some 0x40 ∧ node = .failed then (s, -eio)
        else (s.modifySocket i (fun st ↦ { st with path := path, bound := true }), 0)

def sysListen (fd backlog : ℤ) : Fds × ℤ :=
  match s.socketOf t fd with
  | none => (s, -ebadf)
  | some (i, _) =>
    if backlog < 0 then (s, -einval)
    else if (s.unixSockets i).connected then (s, -einval)
    else if (s.unixSockets i).bound = false then (s, -einval)
    else (s.modifySocket i (fun st ↦ { st with listener := true, pending := [] }), 0)

def sysConnect (fd : ℤ) (addr : SockAddr) : Fds × ℤ :=
  match s.socketOf t fd with
  | none => (s, -ebadf)
  | some (old, side) =>
    match addr with
    | .bad e => (s, -e.code)
    | .path path =>
      match s.socketFindListener path with
      | none => (s, -econnrefused)
      | some li =>
        if 4 ≤ (s.unixSockets li).pending.length then (s, -eagain)
        else
          match nextFree s.connectSi (fun j ↦ j ≠ li ∧ (s.unixSockets j).refs = 0) with
          | none => (s, -emfile)
          | some ni =>
            let s := { s with connectSi := (ni + 1) % 32 }.clearSocket ni false
            let s := s.modifySocket old (fun st ↦ st.dropRef side)
            let s := (s.setSocketSlot t fd.toNat ni false 0).modifySocket ni (fun st ↦
              { st with refs := 2, sideRefs := fun _ ↦ 1, connected := true })
            let s := (s.hold ni false).hold ni true
            (s.modifySocket li (fun st ↦ { st with pending := st.pending ++ [(ni : ℤ)] }), 0)

/-- `blocks` tells whether the caller could be put to sleep; `copied` is `none` without an address
to fill in, else whether its length could be written. -/
def sysAccept (fd : ℤ) (blocks : Bool) (copied : Option Bool) : Fds × ℤ :=
  match s.socketOf t fd with
  | none => (s, -ebadf)
  | some (li, _) =>
    if (s.unixSockets li).listener = false then (s, -einval)
    else
      match (s.unixSockets li).pending with
      | [] => (s, if (s.files t fd.toNat).flags.testBit 11 ∨ blocks = false then -eagain else 0)
      | si :: rest =>
        if h : 0 ≤ si ∧ si < 32 then
          let i : Fin 32 := ⟨si.toNat, by omega⟩
          if (s.unixSockets i).refs = 0 then (s, -einval)
          else
            match s.findFreeFd t with
            | none => (s, -emfile)
            | some n =>
              let s := s.setSocketSlot t n i true 0
              if copied = some false then (s, -efault)
              else
                let s := s.modifySocket li (fun st ↦ { st with pending := rest })
                (s.modifySocket i (fun st ↦ { st with connected := true }), n)
        else (s, -einval)

def sysShutdown (fd how : ℤ) : Fds × ℤ :=
  match s.socketOf t fd with
  | none => (s, -ebadf)
  | some (i, side) =>
    if how < 0 ∨ 2 < how then (s, -einval)
    else if how = 0 then (s, 0)
    else
      ({ s with
        toIo := s.toIo.modifySocket i (fun st ↦ { st with closed := update st.closed side true })
        shut := update s.shut i (update (s.shut i) side true) }, 0)

def sysEventfd2 (initval flags : ℕ) : Fds × ℤ :=
  match s.findFreeFd t with
  | none => (s, -emfile)
  | some fd =>
    match firstFree (fun e ↦ s.eventfdFlags e = 0 ∧ s.eventfds e = 0) with
    | none => (s, -emfile)
    | some e =>
      let table := s.currentFiles t
      let s := { s with
        toIo := { s.toIo with eventfds := update s.eventfds e initval }
        eventfdFlags := update s.eventfdFlags e (flags ||| 1) }
      (s.setSlot table fd ⟨true, .eventfd e, flags⟩ (s.links table fd), fd)

def sysTimerfdCreate (clockid : ℤ) (flags : ℕ) : Fds × ℤ :=
  if clockid ≠ 0 ∧ clockid ≠ 1 then (s, -einval)
  else
    match s.findFreeFd t with
    | none => (s, -emfile)
    | some fd =>
      match firstFree (fun i ↦ (s.timerfds i).flags = 0 ∧ (s.timerfds i).nextNs = 0 ∧
        (s.timerfds i).expirations = 0) with
      | none => (s, -emfile)
      | some i =>
        let table := s.currentFiles t
        let s := { s with timerfds := update s.timerfds i ⟨clockid, 1, 0, 0, 0⟩ }
        (s.setSlot table fd ⟨true, .timerfd i, flags⟩ (s.links table fd), fd)

def target? (fd : ℤ) : Option Target :=
  if s.fdValid t fd then some (s.files t fd.toNat).target else none

def eventfdWrite (fd : ℤ) (v : ℕ) : Fds × ℤ :=
  match s.target? t fd with
  | some (.eventfd e) =>
    if v = 2 ^ 64 - 1 then (s, -einval)
    else if 2 ^ 64 - 1 - s.eventfds e < v then (s, -eagain)
    else (s.setIo { s.toIo with eventfds := update s.eventfds e (s.eventfds e + v) }, 8)
  | _ => (s, -ebadf)

def eventfdRead (fd : ℤ) (copied : Bool) : Fds × ℤ :=
  match s.target? t fd with
  | some (.eventfd e) =>
    if s.eventfds e = 0 then (s, -eagain)
    else (s.setIo { s.toIo with eventfds := update s.eventfds e 0 }, if copied then 8 else -efault)
  | _ => (s, -ebadf)

def sysTimerfdSettime (fd : ℤ) (now value interval : ℕ) : Fds × ℤ :=
  match s.target? t fd with
  | some (.timerfd i) =>
    let st := { s.timerfds i with
      intervalNs := interval
      expirations := 0
      nextNs := if value = 0 then 0 else (now + value) % 2 ^ 64 }
    ({ s with timerfds := update s.timerfds i st }, 0)
  | _ => (s, -ebadf)

def timerfdRead (fd : ℤ) (now : ℕ) (copied : Bool) : Fds × ℤ :=
  match s.target? t fd with
  | some (.timerfd i) =>
    let st := (s.timerfds i).expire now
    if st.expirations = 0 then ({ s with timerfds := update s.timerfds i st }, -eagain)
    else
      ({ s with timerfds := update s.timerfds i { st with expirations := 0 } },
        if copied then 8 else -efault)
  | _ => (s, -ebadf)

/-- The bytes that `sys_write` copies from the caller go to the ring as far as there is room. -/
def pipeWrite (fd : ℤ) (data : List UInt8) : Fds × ℤ :=
  match s.target? t fd with
  | some (.pipeW p) =>
    let s := s.modifyPipe p (fun st ↦ { st with readers := s.pipeLiveReaders p })
    if (s.pipes p).readers = 0 then (s, -epipe)
    else
      let put := data.take (pipeCap - (s.pipes p).data.length)
      (s.modifyPipe p (fun st ↦ { st with data := st.data ++ put }), put.length)
  | _ => (s, -ebadf)

def pipeRead (fd : ℤ) (n : ℕ) : Fds × ℤ :=
  match s.target? t fd with
  | some (.pipeR p) =>
    (s.modifyPipe p (fun st ↦ { st with data := st.data.drop n }), ((s.pipes p).data.take n).length)
  | _ => (s, -ebadf)

def ptyLock (fd : ℤ) (lock : ℕ) : Fds × ℤ :=
  match s.target? t fd with
  | some (.ptyMaster p) => ({ s with ptyUnlocked := update s.ptyUnlocked p (lock = 0) }, 0)
  | _ => (s, -ebadf)

end Fds

inductive FdOp
  | open (path : OpenPath) (flags : ℕ)
  | close (fd : ℤ)
  | pipe (copied : Bool)
  | pipe2 (copied : Bool) (flags : ℕ)
  | dup (oldfd : ℤ)
  | dup2 (oldfd newfd : ℤ)
  | dup3 (oldfd newfd : ℤ) (flags : ℕ)
  | fcntl (outside : ℤ → Bool) (fd cmd : ℤ) (arg : UInt64)
  | epollCreate1 (flags : ℕ)
  | clone (shareFiles copied : Bool)
  | fork (cloned : Bool)
  | execve
  | exit
  | reap (child : Slot)
  | socket (domain : ℤ) (type : ℕ) (protocol : ℤ)
  | socketpair (domain : ℤ) (type : ℕ) (sv copied : Bool)
  | bind (fd : ℤ) (addr : SockAddr) (node : SocketNode)
  | listen (fd backlog : ℤ)
  | connect (fd : ℤ) (addr : SockAddr)
  | accept (fd : ℤ) (blocks : Bool) (copied : Option Bool)
  | shutdown (fd how : ℤ)
  | eventfd2 (initval flags : ℕ)
  | timerfdCreate (clockid : ℤ) (flags : ℕ)
  | eventfdWrite (fd : ℤ) (v : ℕ)
  | eventfdRead (fd : ℤ) (copied : Bool)
  | timerfdSettime (fd : ℤ) (now value interval : ℕ)
  | timerfdRead (fd : ℤ) (now : ℕ) (copied : Bool)
  | pipeWrite (fd : ℤ) (data : List UInt8)
  | pipeRead (fd : ℤ) (n : ℕ)
  | ptyLock (fd : ℤ) (lock : ℕ)

namespace Fds

/-- One call by the task `t`; `execve` stands for one that succeeds. -/
def exec (s : Fds) (t : Slot) : FdOp → Fds × ℤ
  | .open path flags => s.sysOpen t path flags
  | .close fd => s.sysClose t fd
  | .pipe copied => let (s, rc, _) := s.sysPipe t copied; (s, rc)
  | .pipe2 copied flags => s.sysPipe2 t copied flags
  | .dup oldfd => s.sysDup t oldfd
  | .dup2 oldfd newfd => s.sysDup2 t oldfd newfd
  | .dup3 oldfd newfd flags => s.sysDup3 t oldfd newfd flags
  | .fcntl outside fd cmd arg => s.sysFcntl t outside fd cmd arg
  | .epollCreate1 flags => s.sysEpollCreate1 t flags
  | .clone shareFiles copied => let (s, rc, _) := s.sysClone t shareFiles copied; (s, rc)
  | .fork cloned => s.sysFork t cloned
  | .execve => (s.closeOnExec t, 0)
  | .exit => (s.sysExit t, 0)
  | .reap child => (s.reap child, 0)
  | .socket domain type protocol => s.sysSocket t domain type protocol
  | .socketpair domain type sv copied => s.sysSocketpair t domain type sv copied
  | .bind fd addr node => s.sysBind t fd addr node
  | .listen fd backlog => s.sysListen t fd backlog
  | .connect fd addr => s.sysConnect t fd addr
  | .accept fd blocks copied => s.sysAccept t fd blocks copied
  | .shutdown fd how => s.sysShutdown t fd how
  | .eventfd2 initval flags => s.sysEventfd2 t initval flags
  | .timerfdCreate clockid flags => s.sysTimerfdCreate t clockid flags
  | .eventfdWrite fd v => s.eventfdWrite t fd v
  | .eventfdRead fd copied => s.eventfdRead t fd copied
  | .timerfdSettime fd now value interval => s.sysTimerfdSettime t fd now value interval
  | .timerfdRead fd now copied => s.timerfdRead t fd now copied
  | .pipeWrite fd data => s.pipeWrite t fd data
  | .pipeRead fd n => s.pipeRead t fd n
  | .ptyLock fd lock => s.ptyLock t fd lock

def run (s : Fds) (l : List (Slot × FdOp)) : Fds := l.foldl (fun s p ↦ (s.exec p.1 p.2).1) s

end Fds

end YabroOS
