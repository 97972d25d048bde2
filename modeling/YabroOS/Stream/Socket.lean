import YabroOS.Lib.Ring
import YabroOS.Kernel.State

namespace YabroOS.Stream

open Function Lib

def einval : ℤ := 22
def eagain : ℤ := 11
def efault : ℤ := 14
def epipe : ℤ := 32
def enotconn : ℤ := 107

def chunkSize : ℕ := 256

def chunk (left : ℕ) : ℕ := min left chunkSize

theorem chunk_le (left : ℕ) : chunk left ≤ left := Nat.min_le_left ..

theorem chunk_pos {left : ℕ} (h : 0 < left) : 0 < chunk left := Nat.lt_min.2 ⟨h, by decide⟩

def slice (buf : ℕ → UInt8) (off n : ℕ) : List UInt8 := (List.range n).map (fun i ↦ buf (off + i))

@[simp] theorem length_slice (buf : ℕ → UInt8) (off n : ℕ) : (slice buf off n).length = n := by
  simp [slice]

@[simp] theorem slice_zero (buf : ℕ → UInt8) (off : ℕ) : slice buf off 0 = [] := rfl

theorem slice_add (buf : ℕ → UInt8) (off n m : ℕ) :
    slice buf off (n + m) = slice buf off n ++ slice buf (off + n) m := by
  simp only [slice, List.range_add, List.map_append, List.map_map]
  congr 1
  refine List.map_congr_left (fun i _ ↦ ?_)
  simp only [comp_apply, Nat.add_assoc]

/-- What a system call gives back: a value, or nothing yet because the caller waits and makes the
same call again when it wakes up. -/
inductive Reply
  | ret (v : ℤ)
  | blocked
  deriving DecidableEq

/-- The part of `unix_socket_state` that carries data; a side reads the ring that has its number. -/
structure Socket where
  ring : Bool → RingBuffer UInt8
  closed : Bool → Bool
  refs : ℕ

/-- An entry of a message vector with the bytes it points to. -/
structure Iovec where
  base : UInt64
  len : ℕ
  bytes : ℕ → UInt8

def sendLoop (buf : ℕ → UInt8) (n done : ℕ) (r : RingBuffer UInt8) : RingBuffer UInt8 × ℕ :=
  if done < n then
    sendLoop buf n (done + chunk (n - done)) (r.pushAll sockCap (slice buf done (chunk (n - done))))
  else (r, done)
termination_by n - done
decreasing_by
  have hpos : 0 < chunk (n - done) := chunk_pos (by omega)
  omega

def recvLoop (n done : ℕ) (r : RingBuffer UInt8) (out : List UInt8) :
    RingBuffer UInt8 × List UInt8 :=
  if done < n then
    recvLoop n (done + chunk (n - done)) (RingBuffer.popN sockCap (chunk (n - done)) r).2
      (out ++ (RingBuffer.popN sockCap (chunk (n - done)) r).1)
  else (r, out)
termination_by n - done
decreasing_by
  have hpos : 0 < chunk (n - done) := chunk_pos (by omega)
  omega

def recvEntry (len off : ℕ) (r : RingBuffer UInt8) (out : List UInt8) :
    RingBuffer UInt8 × List UInt8 :=
  if off < len ∧ 0 < r.count then
    recvEntry len (off + chunk (min (len - off) r.count))
      (RingBuffer.popN sockCap (chunk (min (len - off) r.count)) r).2
      (out ++ (RingBuffer.popN sockCap (chunk (min (len - off) r.count)) r).1)
  else (r, out)
termination_by len - off
decreasing_by
  have hpos : 0 < chunk (min (len - off) r.count) := chunk_pos (by omega)
  omega

def sendEntries : List Iovec → RingBuffer UInt8 → ℕ → RingBuffer UInt8 × ℕ
  | [], r, sent => (r, sent)
  | v :: l, r, sent =>
    let (r, off) := sendLoop v.bytes v.len 0 r
    sendEntries l r (sent + off)

def recvEntries (total : ℕ) :
    List Iovec → RingBuffer UInt8 → List UInt8 → RingBuffer UInt8 × List UInt8
  | [], r, out => (r, out)
  | v :: l, r, out =>
    if out.length < total then
      let (r, out) := recvEntry v.len 0 r out
      recvEntries total l r out
    else (r, out)

def socketMsgCopyIn (iov : List Iovec) : ℤ :=
  if 64 < iov.length then -einval
  else if iov.any (fun v ↦ 2 ^ 20 < v.len ∨ userLimit ≤ v.base.toNat) then -efault
  else 0

/-- The length of a message; `none` if it is too long. -/
def msgTotal : List Iovec → ℕ → Option ℕ
  | [], total => some total
  | v :: l, total => if 2 ^ 24 - v.len < total then none else msgTotal l (total + v.len)

namespace Socket

variable (s : Socket) (side : Bool)

def sysSendto (buf : ℕ → UInt8) (len : ℤ) (nonblock : Bool) : Socket × Reply :=
  let peer := !side
  if len < 0 then (s, .ret (-einval))
  else if s.refs < 2 then (s, .ret (-enotconn))
  else if s.closed peer then (s, .ret (-epipe))
  else if len = 0 then (s, .ret 0)
  else
    let room := sockCap - (s.ring peer).count
    if room = 0 then (s, if nonblock then .ret (-eagain) else .blocked)
    else
      let (r, done) := sendLoop buf (min len.toNat room) 0 (s.ring peer)
      ({ s with ring := update s.ring peer r }, .ret done)

def sysRecvfrom (len : ℤ) (nonblock : Bool) : Socket × Reply × List UInt8 :=
  if len < 0 then (s, .ret (-einval), [])
  else if len = 0 then (s, .ret 0, [])
  else if (s.ring side).count = 0 then
    (s, if s.closed !side then .ret 0 else if nonblock then .ret (-eagain) else .blocked, [])
  else
    let (r, out) := recvLoop (min len.toNat (s.ring side).count) 0 (s.ring side) []
    ({ s with ring := update s.ring side r }, .ret out.length, out)

def sysSendmsg (iov : List Iovec) (nonblock : Bool) : Socket × Reply :=
  let peer := !side
  if s.refs < 2 then (s, .ret (-enotconn))
  else if socketMsgCopyIn iov < 0 then (s, .ret (socketMsgCopyIn iov))
  else
    match msgTotal iov 0 with
    | none => (s, .ret (-einval))
    | some total =>
      if total = 0 then (s, .ret 0)
      else if s.closed peer then (s, .ret (-epipe))
      else if sockCap - (s.ring peer).count < total then
        (s, if nonblock then .ret (-eagain) else .blocked)
      else
        let (r, sent) := sendEntries iov (s.ring peer) 0
        ({ s with ring := update s.ring peer r }, .ret sent)

def sysRecvmsg (iov : List Iovec) (nonblock : Bool) : Socket × Reply × List UInt8 :=
  if socketMsgCopyIn iov < 0 then (s, .ret (socketMsgCopyIn iov), [])
  else
    match msgTotal iov 0 with
    | none => (s, .ret (-einval), [])
    | some total =>
      if total = 0 then (s, .ret 0, [])
      else if (s.ring side).count = 0 then
        (s, if s.closed !side then .ret 0 else if nonblock then .ret (-eagain) else .blocked, [])
      else
        let (r, out) := recvEntries total iov (s.ring side) []
        ({ s with ring := update s.ring side r }, .ret out.length, out)

end Socket

end YabroOS.Stream
