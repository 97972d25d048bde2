import YabroOS.Lib.Runs
import YabroOS.Stream.Socket

namespace YabroOS.Stream

open Function Lib

/-- `pipe_wait_buf` and `pipe_wait_count` of a task that is blocked in a read of the pipe. -/
structure PipeWait where
  buf : ℕ
  count : ℕ
  deriving DecidableEq

/-- A pipe with the tasks that use it, and with its history: the bytes that its writers have handed
over, and the reads in the order in which they were completed. Each task works in the address space
`space` of `mem`, and two tasks may share one. -/
structure Pipe where
  ring : RingBuffer UInt8
  waiting : Slot → Option PipeWait
  mem : ℕ → ℕ → UInt8
  space : Slot → ℕ
  accepted : List UInt8
  reads : List (Slot × List UInt8)

def store (mem : ℕ → ℕ → UInt8) (sp addr : ℕ) (l : List UInt8) : ℕ → ℕ → UInt8 :=
  update mem sp (fun a ↦ if addr ≤ a then (l[a - addr]?).getD (mem sp a) else mem sp a)

namespace Pipe

variable (p : Pipe)

def readLoop (sp buf count done : ℕ) (p : Pipe) (out : List UInt8) : Pipe × List UInt8 :=
  if done < count ∧ 0 < p.ring.count then
    readLoop sp buf count (done + chunk (min (count - done) p.ring.count))
      { p with
        ring := (RingBuffer.popN pipeCap (chunk (min (count - done) p.ring.count)) p.ring).2
        mem := store p.mem sp (buf + done)
          (RingBuffer.popN pipeCap (chunk (min (count - done) p.ring.count)) p.ring).1 }
      (out ++ (RingBuffer.popN pipeCap (chunk (min (count - done) p.ring.count)) p.ring).1)
  else (p, out)
termination_by count - done
decreasing_by
  have hpos : 0 < chunk (min (count - done) p.ring.count) := chunk_pos (by omega)
  omega

def complete (i : Slot) (out : List UInt8) : Pipe := { p with reads := p.reads ++ [(i, out)] }

def pipeReadIntoTask (i : Slot) (w : PipeWait) : Pipe :=
  if w.buf = 0 ∨ w.count = 0 then p
  else
    let (p, out) := readLoop (p.space i) w.buf w.count 0 p []
    { p with waiting := update p.waiting i none }.complete i out

def wakeReader (i : Slot) : Pipe :=
  match p.waiting i with
  | none => p
  | some w => p.pipeReadIntoTask i w

def pipeWakeReaders : Pipe := (List.finRange 64).foldl wakeReader p

def accept (l : List UInt8) : Pipe :=
  { p with ring := p.ring.pushAll pipeCap l, accepted := p.accepted ++ l }

def writeChunk (count done : ℕ) : ℕ := min (chunk (count - done)) (pipeCap - p.ring.count)

/-- The loop of `sys_write`; every round takes at least one byte, so that `fuel = count` lets it end
by itself. -/
def writeLoop (sp buf count : ℕ) : ℕ → ℕ → Pipe → Pipe × ℕ
  | 0, done, p => (p, done)
  | fuel + 1, done, p =>
    if done < count ∧ p.ring.count ≠ pipeCap then
      let n := p.writeChunk count done
      let p := (p.accept (slice (p.mem sp) (buf + done) n)).pipeWakeReaders
      if done + n < count ∧ p.ring.count = pipeCap then (p, done + n)
      else writeLoop sp buf count fuel (done + n) p
    else (p, done)

def sysWrite (i : Slot) (buf count : ℕ) (readers nonblock : Bool) : Pipe × ℤ :=
  if 2 ^ 20 < count ∨ buf = 0 ∧ count ≠ 0 then (p, -einval)
  else if count = 0 then (p, 0)
  else if readers = false then (p, -epipe)
  else
    let (p, done) := writeLoop (p.space i) buf count count 0 p
    (p, if done = 0 ∧ nonblock then -eagain else done)

def sysWritev (i : Slot) (readers nonblock : Bool) : List (ℕ × ℕ) → Pipe → ℤ → Pipe × ℤ
  | [], p, total => (p, total)
  | (base, len) :: iov, p, total =>
    match p.sysWrite i base len readers nonblock with
    | (p, n) =>
      if n < 0 then (p, if total ≠ 0 then total else n)
      else if n < len then (p, total + n)
      else sysWritev i readers nonblock iov p (total + n)

/-- `sys_read` from the read end, which does not wait; `writers` says whether the pipe has a writer.
-/
def sysRead (i : Slot) (buf count : ℕ) (writers : Bool) : Pipe × ℤ :=
  if buf = 0 ∧ count ≠ 0 then (p, -einval)
  else if count = 0 then (p, 0)
  else if p.ring.count = 0 then (p, if writers then -eagain else 0)
  else
    let (p, out) := readLoop (p.space i) buf count 0 p []
    (p.complete i out, out.length)

def sysPipeReadDispatch (i : Slot) (buf count : ℕ) (writers nonblock other : Bool) : Pipe × ℤ :=
  if count = 0 then (p, 0)
  else if p.ring.count ≠ 0 then p.sysRead i buf count writers
  else if writers = false then (p, 0)
  else if nonblock ∨ other = false then (p, -eagain)
  else ({ p with waiting := update p.waiting i (some ⟨buf, count⟩) }, 0)

def sysReadv (i : Slot) (writers nonblock other : Bool) : List (ℕ × ℕ) → Pipe → ℤ → Pipe × ℤ
  | [], p, total => (p, total)
  | (base, len) :: iov, p, total =>
    match if len ≠ 0 ∧ p.ring.count = 0 ∧ writers ∧ nonblock = false ∧ total = 0 then
        p.sysPipeReadDispatch i base len writers nonblock other
      else p.sysRead i base len writers with
    | (p, n) =>
      if n < 0 then (p, if total ≠ 0 then total else n)
      else if n < len then (p, total + n)
      else sysReadv i writers nonblock other iov p (total + n)

end Pipe

/-- A call on the pipe by a task; a signal that ends a wait; a store of user code to its memory. -/
inductive PipeCall
  | write (i : Slot) (buf count : ℕ) (readers nonblock : Bool)
  | writev (i : Slot) (iov : List (ℕ × ℕ)) (readers nonblock : Bool)
  | read (i : Slot) (buf count : ℕ) (writers nonblock other : Bool)
  | readv (i : Slot) (iov : List (ℕ × ℕ)) (writers nonblock other : Bool)
  | signal (i : Slot)
  | user (mem : ℕ → ℕ → UInt8)

namespace Pipe

def ifAwake (p : Pipe) (i : Slot) (q : Pipe) : Pipe := if p.waiting i = none then q else p

def step (p : Pipe) : PipeCall → Pipe
  | .write i buf count readers nonblock => p.ifAwake i (p.sysWrite i buf count readers nonblock).1
  | .writev i iov readers nonblock =>
    p.ifAwake i (if 1024 < iov.length then p else (sysWritev i readers nonblock iov p 0).1)
  | .read i buf count writers nonblock other =>
    p.ifAwake i (p.sysPipeReadDispatch i buf count writers nonblock other).1
  | .readv i iov writers nonblock other =>
    p.ifAwake i (if 1024 < iov.length then p else (sysReadv i writers nonblock other iov p 0).1)
  | .signal i => { p with waiting := update p.waiting i none }
  | .user mem => { p with mem := mem }

def run (p : Pipe) (l : List PipeCall) : Pipe := l.foldl step p

def start (data : ℕ → UInt8) (mem : ℕ → ℕ → UInt8) (space : Slot → ℕ) : Pipe :=
  ⟨⟨data, 0, 0, 0⟩, fun _ ↦ none, mem, space, [], []⟩

end Pipe

end YabroOS.Stream

namespace YabroOS.Stream.Pipe

open Function Lib

variable {p q : Pipe} {l out : List UInt8} {i : Slot} {sp buf count done : ℕ} {total : ℤ}
  {s : List Slot}

abbrev Queues (p : Pipe) (l : List UInt8) : Prop := RingBuffer.Holds pipeCap p.ring l

def delivered (p : Pipe) : List UInt8 := p.reads.flatMap (·.2)

theorem delivered_complete (p : Pipe) (i : Slot) (out : List UInt8) :
    (p.complete i out).delivered = p.delivered ++ out := by
  simp [delivered, complete]

/-- The bytes that the reads have been given, followed by those in the ring, are the bytes that the
writers have handed over. -/
def InOrder (p : Pipe) : Prop := ∃ l, p.Queues l ∧ p.delivered ++ l = p.accepted

structure Frame (p q : Pipe) : Prop where
  waiting : q.waiting = p.waiting
  space : q.space = p.space
  accepted : q.accepted = p.accepted
  reads : q.reads = p.reads

theorem readLoop_spec (sp buf count done : ℕ) (out : List UInt8) (h : p.Queues l) :
    (readLoop sp buf count done p out).2 = out ++ l.take (count - done) ∧
      (readLoop sp buf count done p out).1.Queues (l.drop (count - done)) ∧
      Frame p (readLoop sp buf count done p out).1 := by
  induction done, p, out using readLoop.induct sp buf count generalizing l with
  | case1 done p out hlt ih =>
    rw [readLoop, if_pos hlt]
    have hk : chunk (min (count - done) p.ring.count) ≤ min (count - done) p.ring.count := chunk_le _
    have hc := h.count
    generalize chunk (min (count - done) p.ring.count) = k at hk ih ⊢
    obtain ⟨hbytes, hrest⟩ := RingBuffer.Holds.popN_take h (n := k) (by omega)
    obtain ⟨hout, hring, hframe⟩ := ih hrest
    have hsplit : count - done = k + (count - (done + k)) := by omega
    rw [List.drop_drop, ← hsplit] at hring
    refine ⟨?_, hring, hframe.waiting, hframe.space, hframe.accepted, hframe.reads⟩
    rw [hout, hbytes, hsplit, List.take_add, List.append_assoc]
  | case2 done p out hlt =>
    rw [readLoop, if_neg hlt]
    have hz : count - done = 0 ∨ l = [] := by
      have hc := h.count
      by_cases hd : done < count
      · refine .inr (List.eq_nil_of_length_eq_zero ?_)
        omega
      · exact .inl (by omega)
    rcases hz with hz | rfl
    · rw [hz, List.take_zero, List.append_nil, List.drop_zero]
      exact ⟨rfl, h, rfl, rfl, rfl, rfl⟩
    · rw [List.take_nil, List.append_nil, List.drop_nil]
      exact ⟨rfl, h, rfl, rfl, rfl, rfl⟩

/-- A waiting read takes what it has asked for, as far as the ring has it. -/
structure Fed (p q : Pipe) (i : Slot) (n : ℕ) (l : List UInt8) : Prop where
  ring : q.Queues (l.drop n)
  waiting : q.waiting = update p.waiting i none
  space : q.space = p.space
  accepted : q.accepted = p.accepted
  reads : q.reads = p.reads ++ [(i, l.take n)]

theorem pipeReadIntoTask_fed {w : PipeWait} (h : p.Queues l) (hb : w.buf ≠ 0) (hc : w.count ≠ 0) :
    Fed p (p.pipeReadIntoTask i w) i w.count l := by
  obtain ⟨hout, hring, hframe⟩ := readLoop_spec (p.space i) w.buf w.count 0 [] h
  rw [List.nil_append, Nat.sub_zero] at hout
  rw [Nat.sub_zero] at hring
  rw [pipeReadIntoTask, if_neg (not_or.2 ⟨hb, hc⟩)]
  exact
    { ring := hring
      waiting := by rw [← hframe.waiting]; rfl
      space := hframe.space
      accepted := hframe.accepted
      reads := by
        rw [← hframe.reads, ← hout]
        rfl }

theorem Fed.inOrder {n : ℕ} (h : Fed p q i n l) (ho : p.delivered ++ l = p.accepted) :
    q.InOrder := by
  refine ⟨_, h.ring, ?_⟩
  rw [h.accepted, ← ho, delivered, h.reads, List.flatMap_append, List.flatMap_singleton,
    List.append_assoc,
    List.take_append_drop]
  rfl

theorem wakeReader_inOrder (ho : p.InOrder) (i : Slot) : (p.wakeReader i).InOrder := by
  obtain ⟨l, h, heq⟩ := ho
  unfold wakeReader
  split
  · exact ⟨l, h, heq⟩
  · next w hw =>
    by_cases hz : w.buf = 0 ∨ w.count = 0
    · rw [pipeReadIntoTask, if_pos hz]
      exact ⟨l, h, heq⟩
    · exact (pipeReadIntoTask_fed h (fun hb ↦ hz (.inl hb)) (fun hc ↦ hz (.inr hc))).inOrder heq

theorem pipeWakeReaders_inOrder (ho : p.InOrder) : p.pipeWakeReaders.InOrder := by
  unfold pipeWakeReaders
  induction List.finRange 64 generalizing p with
  | nil => exact ho
  | cons i l ih => exact ih (wakeReader_inOrder ho i)

theorem accept_inOrder (ho : p.InOrder) {m : List UInt8} (hm : p.ring.count + m.length ≤ pipeCap) :
    (p.accept m).InOrder := by
  obtain ⟨l, h, heq⟩ := ho
  have hcount := h.count
  refine ⟨l ++ m, h.pushAll (by omega), ?_⟩
  show p.delivered ++ (l ++ m) = p.accepted ++ m
  rw [← heq, List.append_assoc]

theorem InOrder.count_le (ho : p.InOrder) : p.ring.count ≤ pipeCap := by
  obtain ⟨l, h, -⟩ := ho
  exact h.count_le

theorem writeLoop_inOrder (fuel : ℕ) (ho : p.InOrder) :
    (writeLoop sp buf count fuel done p).1.InOrder := by
  induction fuel generalizing p done with
  | zero => exact ho
  | succ fuel ih =>
    simp only [writeLoop]
    split
    · have hacc := accept_inOrder ho (m := slice (p.mem sp) (buf + done) (p.writeChunk count done))
        (by
        have hle := ho.count_le
        rw [length_slice, writeChunk]
        omega)
      have hwake := pipeWakeReaders_inOrder hacc
      split
      · exact hwake
      · exact ih hwake
    · exact ho

theorem sysWrite_inOrder (ho : p.InOrder) (i : Slot) (buf count : ℕ) (readers nonblock : Bool) :
    (p.sysWrite i buf count readers nonblock).1.InOrder := by
  unfold sysWrite
  split_ifs
  · exact ho
  · exact ho
  · exact ho
  · exact writeLoop_inOrder count ho

theorem sysWritev_inOrder (i : Slot) (readers nonblock : Bool) (iov : List (ℕ × ℕ))
    (ho : p.InOrder) : (sysWritev i readers nonblock iov p total).1.InOrder := by
  induction iov generalizing p total with
  | nil => exact ho
  | cons v iov ih =>
    have hw := sysWrite_inOrder ho i v.1 v.2 readers nonblock
    simp only [sysWritev]
    generalize p.sysWrite i v.1 v.2 readers nonblock = r at hw ⊢
    split_ifs
    · exact hw
    · exact hw
    · exact hw
    · exact ih hw

theorem sysRead_inOrder (ho : p.InOrder) (i : Slot) (buf count : ℕ) (writers : Bool) :
    (p.sysRead i buf count writers).1.InOrder := by
  obtain ⟨l, h, heq⟩ := ho
  unfold sysRead
  split_ifs
  · exact ⟨l, h, heq⟩
  · exact ⟨l, h, heq⟩
  · exact ⟨l, h, heq⟩
  · exact ⟨l, h, heq⟩
  · obtain ⟨hout, hring, hframe⟩ := readLoop_spec (p.space i) buf count 0 [] h
    rw [List.nil_append, Nat.sub_zero] at hout
    rw [Nat.sub_zero] at hring
    refine ⟨_, hring, ?_⟩
    show (complete _ i _).delivered ++ _ = _
    rw [delivered_complete, delivered, hframe.reads, hout, List.append_assoc, List.take_append_drop]
    exact heq.trans hframe.accepted.symm

theorem sysPipeReadDispatch_inOrder (ho : p.InOrder) (i : Slot) (buf count : ℕ)
    (writers nonblock other : Bool) :
    (p.sysPipeReadDispatch i buf count writers nonblock other).1.InOrder := by
  unfold sysPipeReadDispatch
  split_ifs
  · exact ho
  · exact sysRead_inOrder ho i buf count writers
  · exact ho
  · exact ho
  · exact ho

def readvEntry (p : Pipe) (i : Slot) (v : ℕ × ℕ) (writers nonblock other : Bool) (total : ℤ) :
    Pipe × ℤ :=
  if v.2 ≠ 0 ∧ p.ring.count = 0 ∧ writers ∧ nonblock = false ∧ total = 0 then
    p.sysPipeReadDispatch i v.1 v.2 writers nonblock other
  else p.sysRead i v.1 v.2 writers

theorem sysReadv_cons (p : Pipe) (i : Slot) (v : ℕ × ℕ) (iov : List (ℕ × ℕ))
    (writers nonblock other : Bool) (total : ℤ) :
    sysReadv i writers nonblock other (v :: iov) p total =
      if (p.readvEntry i v writers nonblock other total).2 < 0 then
        ((p.readvEntry i v writers nonblock other total).1,
          if total ≠ 0 then total else (p.readvEntry i v writers nonblock other total).2)
      else if (p.readvEntry i v writers nonblock other total).2 < v.2 then
        ((p.readvEntry i v writers nonblock other total).1,
          total + (p.readvEntry i v writers nonblock other total).2)
      else sysReadv i writers nonblock other iov (p.readvEntry i v writers nonblock other total).1
        (total + (p.readvEntry i v writers nonblock other total).2) := rfl

theorem readvEntry_inOrder (ho : p.InOrder) (i : Slot) (v : ℕ × ℕ) (writers nonblock other : Bool)
    (total : ℤ) : (p.readvEntry i v writers nonblock other total).1.InOrder := by
  unfold readvEntry
  split
  · exact sysPipeReadDispatch_inOrder ho i v.1 v.2 writers nonblock other
  · exact sysRead_inOrder ho i v.1 v.2 writers

theorem sysReadv_inOrder (i : Slot) (writers nonblock other : Bool) (iov : List (ℕ × ℕ))
    (ho : p.InOrder) : (sysReadv i writers nonblock other iov p total).1.InOrder := by
  induction iov generalizing p total with
  | nil => exact ho
  | cons v iov ih =>
    have hr := readvEntry_inOrder ho i v writers nonblock other total
    rw [sysReadv_cons]
    generalize p.readvEntry i v writers nonblock other total = r at hr ⊢
    split_ifs
    · exact hr
    · exact hr
    · exact hr
    · exact ih hr

theorem ifAwake_inOrder (ho : p.InOrder) (hq : q.InOrder) (i : Slot) : (p.ifAwake i q).InOrder := by
  unfold ifAwake
  split_ifs
  · exact hq
  · exact ho

theorem step_inOrder (ho : p.InOrder) (c : PipeCall) : (p.step c).InOrder := by
  cases c with
  | write i buf count readers nonblock =>
    exact ifAwake_inOrder ho (sysWrite_inOrder ho i buf count readers nonblock) i
  | writev i iov readers nonblock =>
    refine ifAwake_inOrder ho ?_ i
    split_ifs
    · exact ho
    · exact sysWritev_inOrder i readers nonblock iov ho
  | read i buf count writers nonblock other =>
    exact ifAwake_inOrder ho (sysPipeReadDispatch_inOrder ho i buf count writers nonblock other) i
  | readv i iov writers nonblock other =>
    refine ifAwake_inOrder ho ?_ i
    split_ifs
    · exact ho
    · exact sysReadv_inOrder i writers nonblock other iov ho
  | signal i => exact ho
  | user mem => exact ho

theorem start_inOrder (data : ℕ → UInt8) (mem : ℕ → ℕ → UInt8) (space : Slot → ℕ) :
    (start data mem space).InOrder :=
  ⟨[], RingBuffer.holds_empty (by decide) data, rfl⟩

def want (p : Pipe) (i : Slot) : ℕ := ((p.waiting i).map PipeWait.count).getD 0

@[grind =]
def feeds (waiting : Slot → Option PipeWait) : List Slot → List UInt8 → List (Slot × List UInt8)
  | [], _ => []
  | i :: s, l =>
    match waiting i with
    | none => feeds waiting s l
    | some w => (i, l.take w.count) :: feeds waiting s (l.drop w.count)

theorem feeds_congr {f g : Slot → Option PipeWait} (h : ∀ j ∈ s, f j = g j) (l : List UInt8) :
    feeds f s l = feeds g s l := by
  induction s generalizing l with
  | nil => rfl
  | cons i s ih =>
    simp only [feeds, h i (.head _)]
    split
    · exact ih (fun j hj ↦ h j (.tail _ hj)) l
    · rw [ih (fun j hj ↦ h j (.tail _ hj))]

def Ready (p : Pipe) : Prop := ∀ i w, p.waiting i = some w → w.buf ≠ 0 ∧ w.count ≠ 0

theorem wake_spec (hs : s.Nodup) (h : p.Queues l) (hr : p.Ready) :
    (s.foldl wakeReader p).reads = p.reads ++ feeds p.waiting s l ∧
      (∀ j, (s.foldl wakeReader p).waiting j = if j ∈ s then none else p.waiting j) ∧
      (s.foldl wakeReader p).accepted = p.accepted := by
  induction s generalizing p l with
  | nil => exact ⟨by simp [feeds], fun j ↦ by simp, rfl⟩
  | cons i s ih =>
    obtain ⟨hi, hs⟩ := List.nodup_cons.1 hs
    rw [List.foldl_cons]
    cases hw : p.waiting i with
    | none =>
      have hp : p.wakeReader i = p := by rw [wakeReader, hw]
      obtain ⟨hreads, hwait, hacc⟩ := ih hs h hr
      rw [hp]
      refine ⟨by rw [hreads, feeds, hw], fun j ↦ ?_, hacc⟩
      rw [hwait]
      by_cases hji : j = i
      · subst hji
        simp [hi, hw]
      · simp [hji]
    | some w =>
      have hp : p.wakeReader i = p.pipeReadIntoTask i w := by rw [wakeReader, hw]
      have hfed := pipeReadIntoTask_fed (i := i) h (hr i w hw).1 (hr i w hw).2
      rw [hp]
      generalize p.pipeReadIntoTask i w = q at hfed ⊢
      have hrq : q.Ready := by
        intro j v hv
        rw [hfed.waiting] at hv
        by_cases hji : j = i
        · subst hji
          rw [update_self] at hv
          cases hv
        · rw [update_of_ne hji] at hv
          exact hr j v hv
      obtain ⟨hreads, hwait, hacc⟩ := ih hs hfed.ring hrq
      have hrest : feeds (update p.waiting i none) s (l.drop w.count) =
          feeds p.waiting s (l.drop w.count) := by
        refine feeds_congr (fun j hj ↦ ?_) _
        rw [update_of_ne]
        rintro rfl
        exact hi hj
      refine ⟨?_, fun j ↦ ?_, hacc.trans hfed.accepted⟩
      · rw [hreads, hfed.reads, feeds, hw, hfed.waiting, List.append_assoc,
          List.singleton_append, hrest]
      · rw [hwait, hfed.waiting]
        by_cases hji : j = i
        · subst hji
          simp
        · simp [hji]

/-- In slot order, no reader finds the ring empty when it holds `n` bytes at first. -/
def ServedIn (p : Pipe) (s : List Slot) (n : ℕ) : Prop :=
  ∀ a i b, s = a ++ i :: b → p.waiting i ≠ none → (a.map p.want).sum < n

theorem feeds_served (hr : p.Ready) (h : p.ServedIn s l.length) (hi : i ∈ s)
    (hw : p.waiting i ≠ none) : ∃ out, out ≠ [] ∧ (i, out) ∈ feeds p.waiting s l := by
  induction s generalizing l with
  | nil => cases hi
  | cons j s ih =>
    have htail : p.ServedIn s (l.length - p.want j) := by
      intro a k b hs hk
      have hlt := h (j :: a) k b (by rw [hs]; rfl) hk
      rw [List.map_cons, List.sum_cons] at hlt
      omega
    cases hj : p.waiting j with
    | none =>
      have hz : p.want j = 0 := by simp [want, hj]
      rw [hz, Nat.sub_zero] at htail
      have hne : i ≠ j := by
        rintro rfl
        exact hw hj
      rw [feeds, hj]
      exact ih htail ((List.mem_cons.1 hi).resolve_left hne)
    | some w =>
      have hwant : p.want j = w.count := by simp [want, hj]
      rw [feeds, hj]
      rcases List.mem_cons.1 hi with rfl | his
      · have hpos := h [] i s rfl hw
        rw [List.map_nil, List.sum_nil] at hpos
        refine ⟨_, fun hnil ↦ ?_, .head _⟩
        have hlen := congrArg List.length hnil
        rw [List.length_take, List.length_nil] at hlen
        have := (hr i w hj).2
        omega
      · rw [hwant, ← List.length_drop] at htail
        obtain ⟨out, hout, hmem⟩ := ih htail his
        exact ⟨out, hout, .tail _ hmem⟩

/-- In slot order, the requests of the readers before a reader do not use up `n` bytes. -/
def Served (p : Pipe) (n : ℕ) : Prop :=
  ∀ i : Slot, p.waiting i ≠ none → (((List.finRange 64).take i).map p.want).sum < n

instance (p : Pipe) (n : ℕ) : Decidable (p.Served n) := by
  unfold Served
  infer_instance

theorem Served.servedIn {n : ℕ} (h : p.Served n) : p.ServedIn (List.finRange 64) n := by
  intro a i b hs hi
  have hlen : a.length < (List.finRange 64).length := by
    rw [hs, List.length_append, List.length_cons]
    omega
  have hget : (List.finRange 64)[a.length] = i := by
    simp only [hs, List.getElem_append_right (Nat.le_refl _), Nat.sub_self, List.getElem_cons_zero]
  have hval : (i : ℕ) = a.length := by
    rw [← hget, List.getElem_finRange]
    rfl
  have hlt := h i hi
  rwa [hval, hs, List.take_left] at hlt

/-- Every blocked read has been completed with at least one byte. -/
def Completes (p q : Pipe) : Prop :=
  ∃ new, q.reads = p.reads ++ new ∧
    ∀ i, p.waiting i ≠ none → q.waiting i = none ∧ ∃ out, out ≠ [] ∧ (i, out) ∈ new

/-- No read waits with a null buffer, and none while the ring has something to deliver. -/
structure Settled (p : Pipe) : Prop where
  ready : p.Ready
  empty : ∀ i, p.waiting i ≠ none → p.ring.count = 0

def Awake (p : Pipe) : Prop := ∀ i, p.waiting i = none

theorem Awake.settled (h : p.Awake) : p.Settled :=
  ⟨fun i _ hw ↦ (nomatch (h i).symm.trans hw), fun i hi ↦ absurd (h i) hi⟩

theorem wake_awake (ho : p.InOrder) (h : p.Awake) :
    p.pipeWakeReaders.Awake ∧ p.pipeWakeReaders.reads = p.reads := by
  obtain ⟨l, hl, -⟩ := ho
  obtain ⟨hreads, hwait, -⟩ := wake_spec (List.nodup_finRange 64) hl h.settled.ready
  have hfeeds : feeds p.waiting (List.finRange 64) l = [] := by
    induction List.finRange 64 with
    | nil => rfl
    | cons i s ih => rw [feeds, h i, ih]
  refine ⟨fun i ↦ ?_, ?_⟩
  · rw [pipeWakeReaders, hwait, if_pos (List.mem_finRange i)]
  · rw [pipeWakeReaders, hreads, hfeeds, List.append_nil]

theorem accept_chunk_inOrder (ho : p.InOrder) (sp buf count done : ℕ) :
    (p.accept (slice (p.mem sp) (buf + done) (p.writeChunk count done))).InOrder := by
  refine accept_inOrder ho ?_
  have hle := ho.count_le
  rw [length_slice, writeChunk]
  omega

theorem writeLoop_awake (sp buf count done fuel : ℕ) (ho : p.InOrder) (h : p.Awake) :
    (writeLoop sp buf count fuel done p).1.Awake ∧
      (writeLoop sp buf count fuel done p).1.reads = p.reads := by
  induction fuel generalizing p done with
  | zero => exact ⟨h, rfl⟩
  | succ fuel ih =>
    have hacc := accept_chunk_inOrder ho sp buf count done
    obtain ⟨hwake, hreads⟩ := wake_awake hacc h
    simp only [writeLoop]
    split
    · split
      · exact ⟨hwake, hreads⟩
      · obtain ⟨h₁, h₂⟩ := ih (done + p.writeChunk count done) (pipeWakeReaders_inOrder hacc) hwake
        exact ⟨h₁, h₂.trans hreads⟩
    · exact ⟨h, rfl⟩

theorem writeLoop_completes (ho : p.InOrder) (hset : p.Settled) (hc : count ≠ 0)
    (hserved : p.Served (chunk count)) (hempty : p.ring.count = 0) :
    Completes p (writeLoop sp buf count count 0 p).1 ∧
      (writeLoop sp buf count count 0 p).1.Awake := by
  obtain ⟨fuel, rfl⟩ := Nat.exists_eq_succ_of_ne_zero hc
  have hn : p.writeChunk (fuel + 1) 0 = chunk (fuel + 1) := by
    have : chunk (fuel + 1) ≤ 256 := Nat.min_le_right ..
    rw [writeChunk, hempty, Nat.sub_zero, Nat.sub_zero, pipeCap]
    omega
  obtain ⟨l, hl, heq⟩ := ho
  obtain rfl : l = [] := List.eq_nil_of_length_eq_zero (hl.count.symm.trans hempty)
  have hacc := accept_chunk_inOrder ⟨[], hl, heq⟩ sp buf (fuel + 1) 0
  have hring : (p.accept (slice (p.mem sp) (buf + 0) (p.writeChunk (fuel + 1) 0))).Queues
      (slice (p.mem sp) (buf + 0) (p.writeChunk (fuel + 1) 0)) := by
    have h := hl.pushAll (m := slice (p.mem sp) (buf + 0) (p.writeChunk (fuel + 1) 0)) (by
      rw [length_slice, List.length_nil, writeChunk]
      omega)
    rwa [List.nil_append] at h
  have hinv := pipeWakeReaders_inOrder hacc
  obtain ⟨hreads, hwait, -⟩ := wake_spec (List.nodup_finRange 64) hring hset.ready
  have hawake :
      (p.accept (slice (p.mem sp) (buf + 0)
        (p.writeChunk (fuel + 1) 0))).pipeWakeReaders.Awake := by
    intro i
    rw [pipeWakeReaders, hwait, if_pos (List.mem_finRange i)]
  have hfeeds : ∀ i, p.waiting i ≠ none → ∃ out, out ≠ [] ∧
      (i, out) ∈ feeds p.waiting (List.finRange 64)
        (slice (p.mem sp) (buf + 0) (p.writeChunk (fuel + 1) 0)) := by
    intro i hi
    refine feeds_served hset.ready ?_ (List.mem_finRange i) hi
    rw [length_slice, hn]
    exact hserved.servedIn
  have hcap : p.ring.count ≠ pipeCap := by
    rw [hempty]
    decide
  have hreads :
      (p.accept (slice (p.mem sp) (buf + 0) (p.writeChunk (fuel + 1) 0))).pipeWakeReaders.reads =
      p.reads ++ feeds p.waiting (List.finRange 64)
        (slice (p.mem sp) (buf + 0) (p.writeChunk (fuel + 1) 0)) := hreads
  simp only [writeLoop]
  rw [if_pos ⟨Nat.succ_pos fuel, hcap⟩]
  split
  · exact ⟨⟨_, hreads, fun i hi ↦ ⟨hawake i, hfeeds i hi⟩⟩, hawake⟩
  · obtain ⟨h₁, h₂⟩ :=
      writeLoop_awake sp buf (fuel + 1) (0 + p.writeChunk (fuel + 1) 0) fuel hinv hawake
    exact ⟨⟨_, h₂.trans hreads, fun i hi ↦ ⟨h₁ i, hfeeds i hi⟩⟩, h₁⟩

/-- `sys_write` gets to its loop. -/
def Accepts (buf count : ℕ) (readers : Bool) : Prop :=
  count ≤ 2 ^ 20 ∧ buf ≠ 0 ∧ count ≠ 0 ∧ readers = true

def Blocks (p : Pipe) (count : ℕ) (writers nonblock other : Bool) : Prop :=
  count ≠ 0 ∧ p.ring.count = 0 ∧ writers = true ∧ nonblock = false ∧ other = true

def firstEntry (iov : List (ℕ × ℕ)) : Option (ℕ × ℕ) := iov.find? (fun v ↦ v.2 ≠ 0)

/-- The first chunk of a write is enough for every reader that waits, and no read waits with a null
buffer. -/
def Admits (p : Pipe) : PipeCall → Prop
  | .write _ buf count readers _ => Accepts buf count readers → p.Served (chunk count)
  | .writev _ iov readers _ =>
    ∀ v, firstEntry iov = some v → Accepts v.1 v.2 readers → p.Served (chunk v.2)
  | .read _ buf count writers nonblock other => p.Blocks count writers nonblock other → buf ≠ 0
  | .readv _ iov writers nonblock other =>
    ∀ v, firstEntry iov = some v → p.Blocks v.2 writers nonblock other → v.1 ≠ 0
  | _ => True

def Turned (p q : Pipe) : Prop := q = p ∨ Completes p q ∧ q.Awake

theorem sysWrite_turned (ho : p.InOrder) (hset : p.Settled) (i : Slot) {readers : Bool}
    (nonblock : Bool) (h : Accepts buf count readers → p.Served (chunk count)) :
    ((p.sysWrite i buf count readers nonblock).1 = p ∧
        (count ≠ 0 → (p.sysWrite i buf count readers nonblock).2 < 0)) ∨
      Completes p (p.sysWrite i buf count readers nonblock).1 ∧
        (p.sysWrite i buf count readers nonblock).1.Awake := by
  unfold sysWrite
  split_ifs with hbad hzero hreaders
  · exact .inl ⟨rfl, fun _ ↦ show -einval < 0 by decide⟩
  · exact .inl ⟨rfl, fun hne ↦ absurd hzero hne⟩
  · exact .inl ⟨rfl, fun _ ↦ show -epipe < 0 by decide⟩
  · have hb : buf ≠ 0 := fun hb ↦ hbad (.inr ⟨hb, hzero⟩)
    have hacc : Accepts buf count readers := ⟨by omega, hb, hzero, by simpa using hreaders⟩
    right
    by_cases hwait : ∃ j, p.waiting j ≠ none
    · obtain ⟨j, hj⟩ := hwait
      exact writeLoop_completes ho hset hzero (h hacc) (hset.empty j hj)
    · push Not at hwait
      obtain ⟨h₁, h₂⟩ := writeLoop_awake (p.space i) buf count 0 count ho hwait
      exact ⟨⟨[], by rw [List.append_nil]; exact h₂, fun j hj ↦ absurd (hwait j) hj⟩, h₁⟩

theorem sysWrite_awake (ho : p.InOrder) (h : p.Awake) (i : Slot) (buf count : ℕ)
    (readers nonblock : Bool) :
    (p.sysWrite i buf count readers nonblock).1.Awake ∧
      (p.sysWrite i buf count readers nonblock).1.reads = p.reads := by
  unfold sysWrite
  split_ifs
  · exact ⟨h, rfl⟩
  · exact ⟨h, rfl⟩
  · exact ⟨h, rfl⟩
  · exact writeLoop_awake _ buf count 0 count ho h

theorem sysWritev_awake (i : Slot) (readers nonblock : Bool) (iov : List (ℕ × ℕ)) (total : ℤ)
    (ho : p.InOrder) (h : p.Awake) : (sysWritev i readers nonblock iov p total).1.Awake ∧
      (sysWritev i readers nonblock iov p total).1.reads = p.reads := by
  induction iov generalizing p total with
  | nil => exact ⟨h, rfl⟩
  | cons v iov ih =>
    have hin := sysWrite_inOrder ho i v.1 v.2 readers nonblock
    obtain ⟨hw, hr⟩ := sysWrite_awake ho h i v.1 v.2 readers nonblock
    simp only [sysWritev]
    generalize p.sysWrite i v.1 v.2 readers nonblock = r at hin hw hr ⊢
    split_ifs
    · exact ⟨hw, hr⟩
    · exact ⟨hw, hr⟩
    · exact ⟨hw, hr⟩
    · obtain ⟨h₁, h₂⟩ := ih (total + r.2) hin hw
      exact ⟨h₁, h₂.trans hr⟩

theorem sysWritev_turned (i : Slot) (readers nonblock : Bool) (iov : List (ℕ × ℕ)) (ho : p.InOrder)
    (hset : p.Settled)
    (h : ∀ v, firstEntry iov = some v → Accepts v.1 v.2 readers → p.Served (chunk v.2)) :
    Turned p (sysWritev i readers nonblock iov p total).1 := by
  induction iov generalizing total with
  | nil => exact .inl rfl
  | cons v iov ih =>
    by_cases hv : v.2 = 0
    · -- an empty entry changes nothing, and the next one is the first
      have hskip : p.sysWrite i v.1 v.2 readers nonblock = (p, 0) := by
        simp [sysWrite, hv]
      have hrest : ∀ w, firstEntry iov = some w → Accepts w.1 w.2 readers →
          p.Served (chunk w.2) := by
        intro w hw
        refine h w ?_
        rw [firstEntry, List.find?_cons_of_neg (by simpa using hv)]
        exact hw
      simp only [sysWritev, hskip]
      rw [if_neg (by decide), if_neg (by simp [hv])]
      exact ih hrest
    · have hfirst : firstEntry (v :: iov) = some v := by
        rw [firstEntry, List.find?_cons_of_pos (by simpa using hv)]
      have hw := sysWrite_turned ho hset i nonblock (h v hfirst)
      have hin := sysWrite_inOrder ho i v.1 v.2 readers nonblock
      simp only [sysWritev]
      generalize p.sysWrite i v.1 v.2 readers nonblock = r at hw hin ⊢
      rcases hw with ⟨hsame, hneg⟩ | ⟨⟨new, hnew, hall⟩, hawake⟩
      · rw [if_pos (hneg hv)]
        exact .inl hsame
      · right
        split_ifs
        · exact ⟨⟨new, hnew, hall⟩, hawake⟩
        · exact ⟨⟨new, hnew, hall⟩, hawake⟩
        · exact ⟨⟨new, hnew, hall⟩, hawake⟩
        · obtain ⟨h₁, h₂⟩ := sysWritev_awake i readers nonblock iov (total + r.2) hin hawake
          exact ⟨⟨new, h₂.trans hnew, fun j hj ↦ ⟨h₁ j, (hall j hj).2⟩⟩, h₁⟩

end YabroOS.Stream.Pipe
