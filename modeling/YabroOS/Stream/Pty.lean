import YabroOS.Kernel.Sched
import YabroOS.Lib.Consume
import YabroOS.Stream.Socket

namespace YabroOS

namespace Termios

def inlcr : UInt32 := 0x40
def igncr : UInt32 := 0x80
def icrnl : UInt32 := 0x100
def ixon : UInt32 := 0x400
def ixany : UInt32 := 0x800
def opost : UInt32 := 0x1
def onlcr : UInt32 := 0x4
def isig : UInt32 := 0x1
def echo : UInt32 := 0x8
def echoe : UInt32 := 0x10
def echok : UInt32 := 0x20
def echonl : UInt32 := 0x40
def noflsh : UInt32 := 0x80
def echoctl : UInt32 := 0x200

def vintr : ℕ := 0
def vquit : ℕ := 1
def verase : ℕ := 2
def vkill : ℕ := 3
def vstart : ℕ := 8
def vstop : ℕ := 9
def vsusp : ℕ := 10

variable (t : Termios)

def iflagHas (bit : UInt32) : Bool := t.iflag &&& bit ≠ 0
def oflagHas (bit : UInt32) : Bool := t.oflag &&& bit ≠ 0
def lflagHas (bit : UInt32) : Bool := t.lflag &&& bit ≠ 0

def isCc (i : ℕ) (c : UInt8) : Bool := PtyState.ttyCcMatch t i c

def mapInput (c : UInt8) : Option UInt8 :=
  if c = 13 then if t.iflagHas igncr then none else if t.iflagHas icrnl then some 10 else some 13
  else if c = 10 ∧ t.iflagHas inlcr then some 13
  else some c

def signalOf (c : UInt8) : Option ℕ :=
  if t.isCc vintr c then some 2 else if t.isCc vquit c then some 3
  else if t.isCc vsusp c then some 20 else none

end Termios

namespace Stream

open Lib Termios

/-- What becomes of bytes that leave the ring for the master: they are read, or lost by a read that
cannot copy them out, or flushed. -/
inductive Fate
  | read
  | lost
  | flushed
  deriving DecidableEq

/-- A pseudo terminal, with its history: the bytes that `pty_output_write` has accepted, and those
that have left the ring for the master. -/
structure Pty where
  masterToSlave : RingBuffer UInt8
  slaveToMaster : RingBuffer UInt8
  canon : List UInt8
  masterOpen : Bool
  slaveOpen : Bool
  termios : Termios
  outputStopped : Bool
  accepted : List UInt8
  drained : List (List UInt8 × Fate)

theorem chunkSize_pos : 0 < chunkSize := by decide

def ptyRingWrite (r : RingBuffer UInt8) (src : List UInt8) : RingBuffer UInt8 × ℕ :=
  consume (fun r c ↦ if r.count < ptyCap then (r.push ptyCap c, true) else (r, false)) r src

def ptyRingRead : ℕ → RingBuffer UInt8 → List UInt8 × RingBuffer UInt8
  | 0, r => ([], r)
  | n + 1, r =>
    if r.count = 0 then ([], r)
    else ((r.pop ptyCap).1 :: (ptyRingRead n (r.pop ptyCap).2).1,
      (ptyRingRead n (r.pop ptyCap).2).2)

namespace Pty

variable (p : Pty)

def outputDone (c : UInt8) (n : ℕ) (r : RingBuffer UInt8 × ℕ) : Pty × Bool :=
  if r.2 ≠ n then ({ p with slaveToMaster := r.1 }, false)
  else ({ p with slaveToMaster := r.1, accepted := p.accepted ++ [c] }, true)

def outputByte (c : UInt8) : Pty × Bool :=
  if p.termios.oflagHas opost ∧ p.termios.oflagHas onlcr ∧ c = 10 then
    if ptyCap - p.slaveToMaster.count < 2 then (p, false)
    else p.outputDone c 2 (ptyRingWrite p.slaveToMaster [13, 10])
  else if ptyCap ≤ p.slaveToMaster.count then (p, false)
  else p.outputDone c 1 (ptyRingWrite p.slaveToMaster [c])

def outputWrite (src : List UInt8) : Pty × ℕ := consume outputByte p src

def echoChar (c : UInt8) : Pty :=
  if p.masterOpen = false then p
  else if p.termios.lflagHas echo = false then
    if c = 10 ∧ p.termios.lflagHas echonl then (p.outputWrite [c]).1 else p
  else if p.termios.lflagHas echoctl ∧ ((c < 0x20 ∧ c ≠ 10 ∧ c ≠ 9) ∨ c = 0x7f) then
    (p.outputWrite [94, if c = 0x7f then 63 else c ^^^ 0x40]).1
  else (p.outputWrite [c]).1

def flushInput : Pty :=
  { p with masterToSlave := { p.masterToSlave with rpos := 0, wpos := 0, count := 0 }, canon := [] }

def flushOutput : Pty :=
  { p with
    slaveToMaster := { p.slaveToMaster with rpos := 0, wpos := 0, count := 0 }
    drained := p.drained ++ [(p.slaveToMaster.toList ptyCap, .flushed)] }

def signalFlush : Pty :=
  if p.termios.lflagHas noflsh then p else { p.flushInput.flushOutput with outputStopped := false }

def signalByte (c : UInt8) : Pty :=
  let p := p.signalFlush.echoChar c
  if p.termios.lflagHas echo ∧ p.termios.lflagHas echoctl then (p.outputWrite [10]).1 else p

def eraseByte (c : UInt8) : Pty :=
  if p.canon ≠ [] then
    let p := { p with canon := p.canon.dropLast }
    if p.termios.lflagHas echo then
      if p.termios.lflagHas echoe then (p.outputWrite [8, 32, 8]).1 else p.echoChar c
    else p
  else if p.termios.lflagHas echo then p.echoChar c
  else p

def killByte (c : UInt8) : Pty :=
  let p := { p with canon := [] }
  if p.termios.lflagHas echok then (p.outputWrite [10]).1
  else if p.termios.lflagHas echo then p.echoChar c
  else p

def canonByte (c : UInt8) : Pty × Bool :=
  if p.termios.isCc verase c then (p.eraseByte c, true)
  else if p.termios.isCc vkill c then (p.killByte c, true)
  else if ptyCap ≤ p.canon.length then (p, false)
  else if p.termios.isCc PtyState.veof c then ({ p with canon := p.canon ++ [c] }, true)
  else (({ p with canon := p.canon ++ [c] } : Pty).echoChar c, true)

def rawByte (c : UInt8) : Pty × Bool :=
  if ptyCap ≤ p.masterToSlave.count then (p, false)
  else (({ p with masterToSlave := (ptyRingWrite p.masterToSlave [c]).1 } : Pty).echoChar c, true)

def inputByte (c : UInt8) : Pty × Bool :=
  if p.termios.lflagHas isig ∧ p.termios.signalOf c ≠ none then (p.signalByte c, true)
  else if p.termios.lflagHas PtyState.icanon then p.canonByte c
  else p.rawByte c

def feedByte (c : UInt8) : Pty × Bool :=
  match p.termios.mapInput c with
  | none => (p, true)
  | some c =>
    if p.termios.iflagHas ixon then
      if p.termios.isCc vstop c then ({ p with outputStopped := true }, true)
      else if p.termios.isCc vstart c then ({ p with outputStopped := false }, true)
      else if p.outputStopped ∧ p.termios.iflagHas ixany then
        ({ p with outputStopped := false } : Pty).inputByte c
      else p.inputByte c
    else p.inputByte c

def canonFeed (src : List UInt8) : Pty × ℕ := consume feedByte p src

/-- What a call gives back: a number, the bytes that are read, or nothing yet because the caller
waits. -/
inductive Result
  | ret (v : ℤ)
  | read (bytes : List UInt8)
  | blocked
  deriving DecidableEq

/-- The end of a write: the number of bytes that are taken, or an error if the first cannot be
fetched. -/
def written (r : Pty × ℕ × Bool) : Pty × Result :=
  (r.1, .ret (if r.2.2 ∧ r.2.1 = 0 then -efault else r.2.1))

/-- `sys_write` to the master after its checks of the descriptor and of the arguments; `fault` says
where the bytes cannot be fetched. -/
def masterWrite (src : List UInt8) (fault : ℕ → Bool) : Pty × Result :=
  if p.slaveOpen = false then (p, .ret (-epipe))
  else written (chunkLoop canonFeed chunkSize fault src.length 0 p src)

def slaveWrite (src : List UInt8) (fault : ℕ → Bool) : Pty × Result :=
  if p.masterOpen = false then (p, .ret (-epipe))
  else written (chunkLoop outputWrite chunkSize fault src.length 0 p src)

def wait (nonblock other : Bool) : Pty × Result :=
  (p, if nonblock ∨ other = false then .ret (-eagain) else .blocked)

def handOut (bytes : List UInt8) (copied : Bool) : Result :=
  if bytes ≠ [] ∧ copied = false then .ret (-efault) else .read bytes

def masterRead (count : ℕ) (nonblock other copied : Bool) : Pty × Result :=
  if count = 0 then (p, .read [])
  else if p.slaveOpen = false ∧ p.slaveToMaster.count = 0 then (p, .ret (-epipe))
  else if p.slaveToMaster.count = 0 ∨ p.outputStopped then p.wait nonblock other
  else
    let (bytes, r) := ptyRingRead (chunk count) p.slaveToMaster
    ({ p with
      slaveToMaster := r, drained := p.drained ++ [(bytes, if copied then .read else .lost)] },
      handOut bytes copied)

def endsLine (t : Termios) (c : UInt8) : Bool :=
  c = 10 ∨ t.isCc PtyState.veof c ∨ t.isCc PtyState.veol c ∨ t.isCc PtyState.veol2 c

def canonAvailable : Bool := p.canon.any (endsLine p.termios)

def canonTake (t : Termios) : ℕ → List UInt8 → ℕ × List UInt8
  | 0, _ => (0, [])
  | _ + 1, [] => (0, [])
  | n + 1, c :: l =>
    if t.isCc PtyState.veof c then (1, [])
    else if c = 10 ∨ t.isCc PtyState.veol c ∨ t.isCc PtyState.veol2 c then (1, [c])
    else ((canonTake t n l).1 + 1, c :: (canonTake t n l).2)

def slaveRead (count : ℕ) (nonblock other copied : Bool) : Pty × Result :=
  if count = 0 then (p, .read [])
  else if p.masterOpen = false ∧ p.masterToSlave.count = 0 ∧ p.canon = [] then (p, .ret (-epipe))
  else if p.termios.lflagHas PtyState.icanon then
    if p.canonAvailable = false ∧ p.masterOpen then p.wait nonblock other
    else
      let (consumed, bytes) := canonTake p.termios (chunk count) p.canon
      ({ p with canon := p.canon.drop consumed }, handOut bytes copied)
  else if p.masterToSlave.count = 0 then
    if p.masterOpen = false then (p, .ret (-epipe)) else p.wait nonblock other
  else
    let (bytes, r) := ptyRingRead (chunk count) p.masterToSlave
    ({ p with masterToSlave := r }, handOut bytes copied)

/-- The character with which `TCXONC` stops or starts the other side; zero stands for none. -/
def sendControl (c : UInt8) : Pty × Result :=
  if c = 0 then (p, .ret 0)
  else ((p.outputWrite [c]).1, .ret (if (p.outputWrite [c]).2 ≠ 1 then -eagain else 0))

def xonc (action : ℕ) : Pty × Result :=
  if action = 0 then ({ p with outputStopped := true }, .ret 0)
  else if action = 1 then ({ p with outputStopped := false }, .ret 0)
  else if action = 2 then p.sendControl (p.termios.cc vstop)
  else if action = 3 then p.sendControl (p.termios.cc vstart)
  else (p, .ret (-einval))

end Pty

/-- The calls on the two ends of a terminal; `setAttr` is a `TCSETS` that leaves the output flags,
and `flush` a `TCFLSH` or what `TCSETSF` does first. -/
inductive PtyCall
  | masterWrite (src : List UInt8) (fault : ℕ → Bool)
  | slaveWrite (src : List UInt8) (fault : ℕ → Bool)
  | masterRead (count : ℕ) (nonblock other copied : Bool)
  | slaveRead (count : ℕ) (nonblock other copied : Bool)
  | xonc (action : ℕ)
  | setAttr (iflag lflag : UInt32) (cc : ℕ → UInt8)
  | flush (input output : Bool)

namespace Pty

def step (p : Pty) : PtyCall → Pty × Result
  | .masterWrite src fault => p.masterWrite src fault
  | .slaveWrite src fault => p.slaveWrite src fault
  | .masterRead count nonblock other copied => p.masterRead count nonblock other copied
  | .slaveRead count nonblock other copied => p.slaveRead count nonblock other copied
  | .xonc action => p.xonc action
  | .setAttr iflag lflag cc => ({ p with termios := ⟨iflag, p.termios.oflag, lflag, cc⟩ }, .ret 0)
  | .flush input output =>
    let p := if input then p.flushInput else p
    (if output then p.flushOutput else p, .ret 0)

def run : Pty → List PtyCall → Pty × List Result
  | p, [] => (p, [])
  | p, call :: l => ((run (p.step call).1 l).1, (p.step call).2 :: (run (p.step call).1 l).2)

def start (m s : ℕ → UInt8) (t : Termios) : Pty :=
  ⟨⟨m, 0, 0, 0⟩, ⟨s, 0, 0, 0⟩, [], true, true, t, false, [], []⟩

end Pty

end Stream

end YabroOS
