import YabroOS.Fd.Calls
import YabroOS.Lib.Links
import YabroOS.Lib.Runs

namespace YabroOS

open Lib Function Errno

namespace Errno

def eexist : ℤ := 17
def enospc : ℤ := 28

end Errno

/-- An open descriptor. `obj` is not in the source: it numbers the open object behind it, which
copies of the descriptor share. `epoll` is the instance when the type is `FD_EPOLL`. -/
structure Handle where
  obj : ℕ
  epoll : Option (Fin 4)
  deriving DecidableEq

/-- A watch with the object that its number stood for at `EPOLL_CTL_ADD`, which is not in the
source. -/
structure Watch extends EpollWatch where
  obj : Option ℕ

structure Instance where
  used : Bool
  refs : ℕ
  w : Fin 128 → Watch

/-- The descriptors of all tables and the `epoll` instances; `births` numbers the next open object.
-/
structure Watches where
  files : Fin 32 × ℕ → Option Handle
  epolls : Fin 4 → Instance
  births : ℕ

/-- One event that `epoll_wait` gives, with the object that it was registered for and the one that
it concerns. -/
structure Report where
  events : UInt32
  data : UInt64
  registered : Option ℕ
  concerns : Option ℕ
  deriving DecidableEq

namespace Watches

variable (s : Watches) (table : Fin 32)

def init : Watches where
  files p := if p.1 = 0 ∧ p.2 < 3 then some ⟨p.2, none⟩ else none
  epolls _ := ⟨false, 0, fun _ ↦ ⟨⟨false, 0, 0, 0⟩, none⟩⟩
  births := 3

def handle (fd : ℤ) : Option Handle :=
  if 0 ≤ fd ∧ fd < maxFiles then s.files (table, fd.toNat) else none

@[irreducible] def findFreeFd : Option ℕ :=
  (List.range maxFiles).find? (fun fd ↦ s.files (table, fd) = none)

def epollRetainFile : Option (Fin 4) → Watches
  | none => s
  | some e =>
    let st := s.epolls e
    if st.used ∧ st.refs < 2 ^ 32 - 1 then
      { s with epolls := update s.epolls e { st with refs := st.refs + 1 } } else s

def Instance.cleared (st : Instance) : Fin 128 → Watch :=
  fun i ↦ ⟨{ (st.w i).toEpollWatch with used := false }, (st.w i).obj⟩

def epollReleaseFile : Option (Fin 4) → Watches
  | none => s
  | some e =>
    let st := s.epolls e
    if st.used = false then s
    else if 1 < st.refs then { s with epolls := update s.epolls e { st with refs := st.refs - 1 } }
    else { s with epolls := update s.epolls e ⟨false, 0, Instance.cleared st⟩ }

def create : Watches :=
  match s.findFreeFd table with
  | none => s
  | some fd =>
    { s with files := update s.files (table, fd) (some ⟨s.births, none⟩), births := s.births + 1 }

def sysEpollCreate1 : Watches :=
  match s.findFreeFd table with
  | none => s
  | some fd =>
    match firstFree (fun e ↦ (s.epolls e).used = false) with
    | none => s
    | some e =>
      { files := update s.files (table, fd) (some ⟨s.births, some e⟩)
        epolls := update s.epolls e ⟨true, 1, Instance.cleared (s.epolls e)⟩
        births := s.births + 1 }

def closeAt (p : Fin 32 × ℕ) : Watches :=
  match s.files p with
  | none => s
  | some f => { s.epollReleaseFile f.epoll with files := update s.files p none }

def sysClose (fd : ℤ) : Watches :=
  if (s.handle table fd).isSome then s.closeAt (table, fd.toNat) else s

def copyAt (src dst : Fin 32 × ℕ) : Watches :=
  match s.files src with
  | none => s
  | some f => { s with files := update s.files dst (some f) }.epollRetainFile f.epoll

def sysDup (oldfd : ℤ) : Watches :=
  if (s.handle table oldfd).isSome then
    match s.findFreeFd table with
    | none => s
    | some fd => s.copyAt (table, oldfd.toNat) (table, fd)
  else s

def sysDup2 (oldfd newfd : ℤ) : Watches :=
  if (s.handle table oldfd).isSome ∧ 0 ≤ newfd ∧ newfd < maxFiles ∧ oldfd ≠ newfd then
    (s.closeAt (table, newfd.toNat)).copyAt (table, oldfd.toNat) (table, newfd.toNat)
  else s

def fork (child : Fin 32) : Watches :=
  (List.range maxFiles).foldl (fun s fd ↦ s.copyAt (table, fd) (child, fd)) s

def exit : Watches := (List.range maxFiles).foldl (fun s fd ↦ s.closeAt (table, fd)) s

def epollCtlAdd : ℤ := 1
def epollCtlDel : ℤ := 2
def epollCtlMod : ℤ := 3

def setWatch (e : Fin 4) (i : Fin 128) (x : Watch) : Watches :=
  { s with epolls := update s.epolls e { s.epolls e with w := update (s.epolls e).w i x } }

def slotOf (e : Fin 4) (fd : ℤ) : Option (Fin 128) :=
  firstFree (fun i ↦ ((s.epolls e).w i).used ∧ ((s.epolls e).w i).fd = fd)

/-- `ev` is the event that the caller passes, or `none` when it cannot be read. -/
def sysEpollCtl (epfd op fd : ℤ) (ev : Option (UInt32 × UInt64)) : Watches × ℤ :=
  match (s.handle table epfd).bind Handle.epoll with
  | none => (s, -ebadf)
  | some e =>
    if fd < 0 ∨ maxFiles + 3 ≤ fd then (s, -ebadf)
    else if (s.epolls e).used = false then (s, -ebadf)
    else if op ≠ epollCtlDel ∧ ev = none then (s, -efault)
    else
      let ev := ev.getD (0, 0)
      let slot := s.slotOf e fd
      if op = epollCtlDel then
        match slot with
        | none => (s, -enoent)
        | some i => (s.setWatch e i { (s.epolls e).w i with used := false }, 0)
      else if op = epollCtlAdd then
        if slot.isSome then (s, -eexist)
        else
          match firstFree (fun i ↦ ((s.epolls e).w i).used = false) with
          | none => (s, -enospc)
          | some i => (s.setWatch e i ⟨⟨true, fd, ev.1, ev.2⟩, (s.handle table fd).map Handle.obj⟩, 0)
      else if op = epollCtlMod then
        match slot with
        | none => (s, -enoent)
        | some i => (s.setWatch e i { (s.epolls e).w i with events := ev.1, data := ev.2 }, 0)
      else (s, -einval)

def epollIsReady (ready : ℕ → UInt32 → UInt32) (fd : ℤ) (events : UInt32) : UInt32 :=
  if fd = 1 ∨ fd = 2 then events &&& 4
  else
    match s.handle table fd with
    | none => 0
    | some f => ready f.obj events

def report (ready : ℕ → UInt32 → UInt32) (x : Watch) : Option Report :=
  if x.used = true ∧ s.epollIsReady table ready x.fd x.events ≠ 0 then
    some ⟨s.epollIsReady table ready x.fd x.events, x.data, x.obj,
      (s.handle table x.fd).map Handle.obj⟩
  else none

def sysEpollWait (ready : ℕ → UInt32 → UInt32) (epfd maxevents : ℤ) : Except ℤ (List Report) :=
  match (s.handle table epfd).bind Handle.epoll with
  | none => .error (-ebadf)
  | some e =>
    if maxevents ≤ 0 ∨ 256 < maxevents then .error (-einval)
    else if (s.epolls e).used = false then .error (-ebadf)
    else .ok (((List.finRange 128).filterMap (fun i ↦ s.report table ready ((s.epolls e).w i))).take
      maxevents.toNat)

inductive Op
  | create (table : Fin 32)
  | epollCreate1 (table : Fin 32)
  | close (table : Fin 32) (fd : ℤ)
  | dup (table : Fin 32) (oldfd : ℤ)
  | dup2 (table : Fin 32) (oldfd newfd : ℤ)
  | fork (table child : Fin 32)
  | exit (table : Fin 32)
  | epollCtl (table : Fin 32) (epfd op fd : ℤ) (ev : Option (UInt32 × UInt64))

def Idle (child : Fin 32) : Prop := ∀ fd < maxFiles, s.files (child, fd) = none

instance (child : Fin 32) : Decidable (s.Idle child) :=
  inferInstanceAs (Decidable (∀ fd < maxFiles, _))

def step (s : Watches) : Op → Watches
  | .create table => s.create table
  | .epollCreate1 table => s.sysEpollCreate1 table
  | .close table fd => s.sysClose table fd
  | .dup table oldfd => s.sysDup table oldfd
  | .dup2 table oldfd newfd => s.sysDup2 table oldfd newfd
  | .fork table child => if s.Idle child then s.fork table child else s
  | .exit table => s.exit table
  | .epollCtl table epfd op fd ev => (s.sysEpollCtl table epfd op fd ev).1

end Watches

end YabroOS
