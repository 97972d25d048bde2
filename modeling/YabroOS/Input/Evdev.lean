import YabroOS.Lib.Links
import YabroOS.Lib.Instances

namespace YabroOS.Input

open Lib Function

def eagain : ℤ := 11
def efault : ℤ := 14
def einval : ℤ := 22

def inputEventCap : ℕ := 256
def inputEventReadMax : ℕ := 64
def inputEventSize : ℕ := 24
@[irreducible] def inputOpenStateCap : ℕ := 32768
def maxFiles : ℕ := 512

/-- `DEV_INPUT` and `DEV_INPUT_MOUSE`. -/
inductive Dev
  | keyboard
  | mouse
  deriving DecidableEq

structure InputEvent where
  tvSec : ℤ
  tvUsec : ℤ
  type : UInt16
  code : UInt16
  value : Int32
  deriving DecidableEq

structure OpenState where
  used : Bool
  refs : ℕ
  kind : Option Dev
  seq : ℕ

/-- A descriptor of an event device without its cursor. `opened` is not in the source: it numbers
the `open` that the descriptor descends from. -/
structure File where
  dev : Dev
  flags : ℕ
  inputState : Option ℕ
  opened : ℕ

/-- What the readers of one `open` have seen; none of it is in the source. `start` is the cursor at
the `open`, and `faulted` are the events of reads whose buffer could not be written. -/
structure Description where
  dev : Dev
  start : ℕ
  received : List (ℕ × InputEvent)
  faulted : List ℕ

/-- The two event devices and the descriptors that are open on them, by their place in the
descriptor tables; `inputSeq` is a field of the descriptors. `pushed` are all events so far and is
not in the source, nor are `opens` and `descs`. -/
structure Evdev where
  queue : Dev → ℕ → InputEvent
  eventSeq : Dev → ℕ
  states : ℕ → OpenState
  files : ℕ → Option File
  inputSeq : ℕ → ℕ
  pushed : Dev → List InputEvent
  opens : ℕ
  descs : ℕ → Description

def place (table fd : ℕ) : ℕ := table * maxFiles + fd

def isNonblock (flags : ℕ) : Bool := flags.testBit 11

namespace Evdev

variable (s : Evdev)

def init (queue : Dev → ℕ → InputEvent) : Evdev where
  queue := queue
  eventSeq _ := 0
  states _ := ⟨false, 0, none, 0⟩
  files _ := none
  inputSeq _ := 0
  pushed _ := []
  opens := 0
  descs _ := ⟨.keyboard, 0, [], []⟩

def pushEvent (d : Dev) (e : InputEvent) : Evdev :=
  { s with
    queue := update s.queue d (update (s.queue d) (s.eventSeq d % inputEventCap) e)
    eventSeq := update s.eventSeq d (s.eventSeq d + 1)
    pushed := update s.pushed d (s.pushed d ++ [e]) }

def inputPushEvent (e : InputEvent) : Evdev := s.pushEvent .keyboard e

def mousePushEvent (e : InputEvent) : Evdev := s.pushEvent .mouse e

@[irreducible] def freeState : Option ℕ :=
  (List.range inputOpenStateCap).find? (fun i ↦ (s.states i).used = false)

theorem freeState_some {i : ℕ} (h : s.freeState = some i) : (s.states i).used = false := by
  rw [freeState] at h
  have hfound := List.find?_some h
  simpa using hfound

def inputStateAlloc (d : Dev) (seq : ℕ) : Evdev × Option ℕ :=
  match s.freeState with
  | none => (s, none)
  | some i => ({ s with states := update s.states i ⟨true, 1, some d, seq⟩ }, some i)

def inputStateRetain : Option ℕ → Evdev
  | none => s
  | some i =>
    let st := s.states i
    if st.used ∧ st.refs < 2 ^ 32 - 1 then
      { s with states := update s.states i { st with refs := st.refs + 1 } }
    else s

def inputStateRelease : Option ℕ → Evdev
  | none => s
  | some i =>
    let st := s.states i
    if st.used = false then s
    else if 1 < st.refs then { s with states := update s.states i { st with refs := st.refs - 1 } }
    else { s with states := update s.states i ⟨false, 0, none, 0⟩ }

def openDev (p : ℕ) (d : Dev) (flags : ℕ) : Evdev :=
  match s.inputStateAlloc d (s.eventSeq d) with
  | (s, none) => s
  | (s, some i) =>
    { s with
      files := update s.files p (some ⟨d, flags, some i, s.opens⟩)
      inputSeq := update s.inputSeq p (s.eventSeq d)
      opens := s.opens + 1
      descs := update s.descs s.opens ⟨d, s.eventSeq d, [], []⟩ }

def fdMarkClosed (p : ℕ) : Evdev :=
  match s.files p with
  | none => s
  | some f =>
    { s.inputStateRelease f.inputState with
      files := update s.files p none, inputSeq := update s.inputSeq p 0 }

/-- `fd_copy_scalar`, and the body of the loop of `task_fd_table_clone`; the target is free. -/
def copyFd (src dst : ℕ) : Evdev :=
  match s.files src with
  | none => s
  | some f =>
    { s with
      files := update s.files dst (some f)
      inputSeq := update s.inputSeq dst (s.inputSeq src) }.inputStateRetain
      f.inputState

def dup (src dst : ℕ) : Evdev := if src = dst then s else (s.fdMarkClosed dst).copyFd src dst

def cloneTable (src dst : ℕ) : Evdev :=
  (List.range maxFiles).foldl (fun s fd ↦ s.copyFd (place src fd) (place dst fd)) s

def releaseTable (table : ℕ) : Evdev :=
  (List.range maxFiles).foldl (fun s fd ↦ s.fdMarkClosed (place table fd)) s

section Events

variable (d : Dev) (p : ℕ)

def inputFdSeq : ℕ :=
  match s.files p with
  | none => 0
  | some f =>
    match f.inputState with
    | none => s.inputSeq p
    | some i => if (s.states i).used then (s.states i).seq else s.inputSeq p

def inputFdSeqSet (seq : ℕ) : Evdev :=
  match s.files p with
  | none => s
  | some f =>
    let s := { s with inputSeq := update s.inputSeq p seq }
    match f.inputState with
    | none => s
    | some i =>
      if (s.states i).used then
        { s with states := update s.states i { s.states i with seq := seq } } else s

def eventOldestSeq : ℕ := if inputEventCap < s.eventSeq d then s.eventSeq d - inputEventCap else 0

def isOf : Bool := (s.files p).any (fun f ↦ f.dev = d)

def fdSync : Evdev :=
  if s.isOf d p = false then s
  else if s.inputFdSeq p < s.eventOldestSeq d then s.inputFdSeqSet p (s.eventOldestSeq d)
  else s

def fdReady : Evdev × Bool :=
  if s.isOf d p = false then (s, false)
  else
    let s := s.fdSync d p
    (s, s.inputFdSeq p < s.eventSeq d)

def popEventFd : Evdev × Option (ℕ × InputEvent) :=
  match s.fdReady d p with
  | (s, false) => (s, none)
  | (s, true) =>
    let seq := s.inputFdSeq p
    (s.inputFdSeqSet p (seq + 1), some (seq, s.queue d (seq % inputEventCap)))

end Events

def keyboardFdSync (p : ℕ) : Evdev := s.fdSync .keyboard p
def mouseFdSync (p : ℕ) : Evdev := s.fdSync .mouse p
def keyboardFdReady (p : ℕ) : Evdev × Bool := s.fdReady .keyboard p
def mouseFdReady (p : ℕ) : Evdev × Bool := s.fdReady .mouse p
def keyboardPopEventFd (p : ℕ) : Evdev × Option (ℕ × InputEvent) := s.popEventFd .keyboard p
def mousePopEventFd (p : ℕ) : Evdev × Option (ℕ × InputEvent) := s.popEventFd .mouse p

def popLoop (d : Dev) (p : ℕ) : ℕ → Evdev → Evdev × List (ℕ × InputEvent)
  | 0, s => (s, [])
  | n + 1, s =>
    match if d = .keyboard then s.keyboardPopEventFd p else s.mousePopEventFd p with
    | (s, none) => (s, [])
    | (s, some e) => ((popLoop d p n s).1, e :: (popLoop d p n s).2)

def modifyDesc (o : ℕ) (g : Description → Description) : Evdev :=
  { s with descs := update s.descs o (g (s.descs o)) }

/-- `sys_read` on an event device with a buffer that has passed the check of its range. `copied`
tells whether the events could be written to it. A reader that is blocked has `0` in its result
register. -/
def sysRead (p count : ℕ) (copied : Bool) : Evdev × ℤ :=
  match s.files p with
  | none => (s, 0)
  | some f =>
    if count = 0 then (s, 0)
    else if count < inputEventSize then (s, -einval)
    else
      match popLoop f.dev p (min (count / inputEventSize) inputEventReadMax) s with
      | (s, []) => (s, if isNonblock f.flags then -eagain else 0)
      | (s, e :: l) =>
        if copied then
          (s.modifyDesc f.opened (fun x ↦ { x with received := x.received ++ e :: l }),
            ((e :: l).length * inputEventSize : ℕ))
        else (s.modifyDesc f.opened
          (fun x ↦ { x with faulted := x.faulted ++ (e :: l).map Prod.fst }), -efault)

/-- The test of the descriptor in `sys_poll`, `select_fd_state` and `epoll_is_ready`. -/
def poll (p : ℕ) : Evdev × Bool :=
  match s.files p with
  | none => (s, false)
  | some f =>
    match f.dev with
    | .keyboard => s.keyboardFdReady p
    | .mouse => s.mouseFdReady p

/-- The calls that concern an event device. A table is given by its number. -/
inductive Op
  | inputPushEvent (e : InputEvent)
  | mousePushEvent (e : InputEvent)
  | openDev (table : Fin 32) (fd : Fin 512) (d : Dev) (flags : ℕ)
  | dup (table : Fin 32) (src dst : Fin 512)
  | close (table : Fin 32) (fd : Fin 512)
  | fork (src dst : Fin 32)
  | exit (table : Fin 32)
  | poll (table : Fin 32) (fd : Fin 512)
  | read (table : Fin 32) (fd : Fin 512) (count : ℕ) (copied : Bool)

def Idle (table : ℕ) : Prop := ∀ fd < maxFiles, s.files (place table fd) = none

instance (table : ℕ) : Decidable (s.Idle table) := inferInstanceAs (Decidable (∀ fd < maxFiles, _))

def step : Op → Evdev
  | .inputPushEvent e => s.inputPushEvent e
  | .mousePushEvent e => s.mousePushEvent e
  | .openDev table fd d flags =>
    if (s.files (place table fd)).isSome then s else s.openDev (place table fd) d flags
  | .dup table src dst => s.dup (place table src) (place table dst)
  | .close table fd => s.fdMarkClosed (place table fd)
  | .fork src dst => if s.Idle dst then s.cloneTable src dst else s
  | .exit table => s.releaseTable table
  | .poll table fd => (s.poll (place table fd)).1
  | .read table fd count copied => (s.sysRead (place table fd) count copied).1

def run (l : List Op) : Evdev := l.foldl step s

end Evdev

end YabroOS.Input
