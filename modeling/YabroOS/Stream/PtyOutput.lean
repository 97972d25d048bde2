import YabroOS.Stream.Pty

namespace YabroOS.Stream

open Lib Termios

variable {r : RingBuffer UInt8} {l m src : List UInt8} {c : UInt8} {n : ℕ} {o : UInt32}

theorem ptyRingWrite_holds (h : RingBuffer.Holds ptyCap r l) (hle : l.length + m.length ≤ ptyCap) :
    (ptyRingWrite r m).2 = m.length ∧ RingBuffer.Holds ptyCap (ptyRingWrite r m).1 (l ++ m) := by
  induction m generalizing r l with
  | nil =>
    rw [List.append_nil]
    exact ⟨rfl, h⟩
  | cons c m ih =>
    rw [List.length_cons] at hle
    have hcount := h.count
    have hroom : r.count < ptyCap := by omega
    have hpush := h.push (by omega) c
    have hstep : ptyRingWrite r (c :: m) =
        ((ptyRingWrite (r.push ptyCap c) m).1, (ptyRingWrite (r.push ptyCap c) m).2 + 1) := by
      unfold ptyRingWrite
      rw [consume_taken (by rw [if_pos hroom])]
      simp only [if_pos hroom]
    obtain ⟨hn, hrest⟩ := ih hpush (by rw [List.length_append, List.length_singleton]; omega)
    rw [List.append_assoc, List.singleton_append] at hrest
    rw [hstep, List.length_cons, hn]
    exact ⟨rfl, hrest⟩

theorem ptyRingRead_holds (h : RingBuffer.Holds ptyCap r l) (n : ℕ) :
    (ptyRingRead n r).1 = l.take n ∧ RingBuffer.Holds ptyCap (ptyRingRead n r).2 (l.drop n) := by
  induction n generalizing r l with
  | zero => exact ⟨rfl, h⟩
  | succ n ih =>
    have hcount := h.count
    cases l with
    | nil =>
      rw [ptyRingRead, if_pos (hcount.trans List.length_nil)]
      exact ⟨rfl, h⟩
    | cons c l =>
      obtain ⟨hc, hpop⟩ := h.pop
      obtain ⟨htake, hdrop⟩ := ih hpop
      rw [ptyRingRead, if_neg (by rw [hcount]; exact Nat.succ_ne_zero _), htake, hc]
      exact ⟨rfl, hdrop⟩

def outputImage (t : Termios) (c : UInt8) : List UInt8 :=
  if t.oflagHas opost ∧ t.oflagHas onlcr ∧ c = 10 then [13, 10] else [c]

namespace Pty

variable {p : Pty}

theorem outputByte_spec (h : RingBuffer.Holds ptyCap p.slaveToMaster l) (c : UInt8) :
    (ptyCap < l.length + (outputImage p.termios c).length ∧ p.outputByte c = (p, false)) ∨
      ∃ r, RingBuffer.Holds ptyCap r (l ++ outputImage p.termios c) ∧
        p.outputByte c = ({ p with slaveToMaster := r, accepted := p.accepted ++ [c] }, true) := by
  have hcount := h.count
  have hle := h.count_le
  unfold outputByte outputImage
  by_cases hcrlf : p.termios.oflagHas opost ∧ p.termios.oflagHas onlcr ∧ c = 10
  · rw [if_pos hcrlf, if_pos hcrlf]
    by_cases hroom : ptyCap - p.slaveToMaster.count < 2
    · exact .inl ⟨by rw [List.length_cons, List.length_singleton]; omega, if_pos hroom⟩
    · obtain ⟨hn, hr⟩ :=
        ptyRingWrite_holds (m := [13, 10]) h
          (by rw [List.length_cons, List.length_singleton]; omega)
      refine .inr ⟨_, hr, ?_⟩
      rw [if_neg hroom]
      exact if_neg (not_not.2 hn)
  · rw [if_neg hcrlf, if_neg hcrlf]
    by_cases hroom : ptyCap ≤ p.slaveToMaster.count
    · exact .inl ⟨by rw [List.length_singleton]; omega, if_pos hroom⟩
    · obtain ⟨hn, hr⟩ := ptyRingWrite_holds (m := [c]) h (by rw [List.length_singleton]; omega)
      refine .inr ⟨_, hr, ?_⟩
      rw [if_neg hroom]
      exact if_neg (not_not.2 hn)

theorem outputWrite_spec (h : RingBuffer.Holds ptyCap p.slaveToMaster l) (src : List UInt8) :
    ∃ r, RingBuffer.Holds ptyCap r
      (l ++ (src.take (p.outputWrite src).2).flatMap (outputImage p.termios)) ∧
      (p.outputWrite src).1 =
        { p with slaveToMaster := r, accepted := p.accepted ++ src.take (p.outputWrite src).2 } := by
  induction src generalizing p l with
  | nil => exact ⟨p.slaveToMaster, by simpa using h, by simp [outputWrite, consume]⟩
  | cons c src ih =>
    obtain ⟨-, hrefused⟩ | ⟨r, hr, htaken⟩ := outputByte_spec h c
    · have hwrite : p.outputWrite (c :: src) = (p, 0) := by
        rw [outputWrite, consume_refused (by rw [hrefused]; exact Bool.false_ne_true), hrefused]
      rw [hwrite]
      exact ⟨p.slaveToMaster, by simpa using h, by simp⟩
    · obtain ⟨q, hq⟩ : ∃ q : Pty, q =
          { p with slaveToMaster := r, accepted := p.accepted ++ [c] } := ⟨_, rfl⟩
      rw [← hq] at htaken
      have hwrite : p.outputWrite (c :: src) =
          ((q.outputWrite src).1, (q.outputWrite src).2 + 1) := by
        rw [outputWrite, consume_taken (by rw [htaken]), htaken]
        rfl
      obtain ⟨r', hr', hsame⟩ :=
        ih (p := q) (l := l ++ outputImage p.termios c) (by rw [hq]; exact hr)
      rw [hwrite]
      refine ⟨r', ?_, ?_⟩
      · rw [List.take_succ_cons, List.flatMap_cons, ← List.append_assoc]
        rwa [show q.termios = p.termios by rw [hq]] at hr'
      · rw [hsame, hq, List.take_succ_cons, List.append_assoc, List.singleton_append]

def gone (p : Pty) : List UInt8 := p.drained.flatMap Prod.fst

structure Streams (o : UInt32) (p : Pty) : Prop where
  oflag : p.termios.oflag = o
  holds : RingBuffer.Holds ptyCap p.slaveToMaster (p.slaveToMaster.toList ptyCap)
  stream : p.gone ++ p.slaveToMaster.toList ptyCap = p.accepted.flatMap (outputImage p.termios)

theorem Streams.outputWrite (h : p.Streams o) (src : List UInt8) :
    (p.outputWrite src).1.Streams o := by
  obtain ⟨r, hr, hp⟩ := outputWrite_spec h.holds src
  rw [hp]
  refine ⟨h.oflag, by rwa [hr.toList], ?_⟩
  show p.gone ++ r.toList ptyCap = (p.accepted ++ _).flatMap (outputImage p.termios)
  rw [hr.toList, ← List.append_assoc, h.stream, List.flatMap_append]

theorem Streams.echoChar (h : p.Streams o) (c : UInt8) : (p.echoChar c).Streams o := by
  unfold Pty.echoChar
  split_ifs <;> first
    | exact h
    | exact h.outputWrite _

theorem Streams.flushInput (h : p.Streams o) : p.flushInput.Streams o :=
  ⟨h.oflag, h.holds, h.stream⟩

theorem Streams.flushOutput (h : p.Streams o) : p.flushOutput.Streams o := by
  have hempty := RingBuffer.holds_empty (by decide : 0 < ptyCap) p.slaveToMaster.data
  have hnil : p.flushOutput.slaveToMaster.toList ptyCap = [] := hempty.toList
  refine ⟨h.oflag, hnil ▸ hempty, ?_⟩
  show (p.drained ++ _).flatMap Prod.fst ++ _ = _
  rw [List.flatMap_append, List.flatMap_singleton, hnil, List.append_nil]
  exact h.stream

theorem Streams.stopped (h : p.Streams o) (b : Bool) :
    ({ p with outputStopped := b } : Pty).Streams o :=
  ⟨h.oflag, h.holds, h.stream⟩

theorem Streams.signalByte (h : p.Streams o) (c : UInt8) : (p.signalByte c).Streams o := by
  have hflush : p.signalFlush.Streams o := by
    unfold Pty.signalFlush
    split_ifs
    · exact h
    · exact h.flushInput.flushOutput.stopped false
  unfold Pty.signalByte
  dsimp only
  split_ifs
  · exact (hflush.echoChar c).outputWrite [10]
  · exact hflush.echoChar c

theorem Streams.canon (h : p.Streams o) (l : List UInt8) :
    ({ p with canon := l } : Pty).Streams o :=
  ⟨h.oflag, h.holds, h.stream⟩

theorem Streams.eraseByte (h : p.Streams o) (c : UInt8) : (p.eraseByte c).Streams o := by
  have hcut := h.canon p.canon.dropLast
  unfold Pty.eraseByte
  dsimp only
  split_ifs
  · exact hcut.outputWrite _
  · exact hcut.echoChar c
  · exact hcut
  · exact h.echoChar c
  · exact h

theorem Streams.killByte (h : p.Streams o) (c : UInt8) : (p.killByte c).Streams o := by
  have hcut := h.canon []
  unfold Pty.killByte
  dsimp only
  split_ifs
  · exact hcut.outputWrite _
  · exact hcut.echoChar c
  · exact hcut

theorem Streams.canonByte (h : p.Streams o) (c : UInt8) : (p.canonByte c).1.Streams o := by
  unfold Pty.canonByte
  split_ifs
  · exact h.eraseByte c
  · exact h.killByte c
  · exact h
  · exact h.canon _
  · exact (h.canon _).echoChar c

theorem Streams.rawByte (h : p.Streams o) (c : UInt8) : (p.rawByte c).1.Streams o := by
  unfold Pty.rawByte
  split_ifs
  · exact h
  · refine Streams.echoChar ?_ c
    exact ⟨h.oflag, h.holds, h.stream⟩

theorem Streams.inputByte (h : p.Streams o) (c : UInt8) : (p.inputByte c).1.Streams o := by
  unfold Pty.inputByte
  split_ifs
  · exact h.signalByte c
  · exact h.canonByte c
  · exact h.rawByte c

theorem Streams.feedByte (h : p.Streams o) (c : UInt8) : (p.feedByte c).1.Streams o := by
  unfold Pty.feedByte
  split
  · exact h
  split_ifs
  · exact h.stopped true
  · exact h.stopped false
  · exact (h.stopped false).inputByte _
  · exact h.inputByte _
  · exact h.inputByte _

theorem Streams.masterWrite (h : p.Streams o) (src : List UInt8) (fault : ℕ → Bool) :
    (p.masterWrite src fault).1.Streams o := by
  unfold Pty.masterWrite
  split_ifs
  · exact h
  · obtain ⟨failed, hloop⟩ :=
      chunkLoop_consume Pty.feedByte fault chunkSize_pos 0 p (le_refl src.length)
    show (chunkLoop (consume Pty.feedByte) chunkSize fault src.length 0 p src).1.Streams o
    rw [hloop]
    exact consume_invariant (fun p c _ h ↦ h.feedByte c) h

theorem Streams.slaveWrite (h : p.Streams o) (src : List UInt8) (fault : ℕ → Bool) :
    (p.slaveWrite src fault).1.Streams o := by
  unfold Pty.slaveWrite
  split_ifs
  · exact h
  · obtain ⟨failed, hloop⟩ :=
      chunkLoop_consume Pty.outputByte fault chunkSize_pos 0 p (le_refl src.length)
    show (chunkLoop (consume Pty.outputByte) chunkSize fault src.length 0 p src).1.Streams o
    rw [hloop]
    exact h.outputWrite _

theorem Streams.masterRead (h : p.Streams o) (count : ℕ) (nonblock other copied : Bool) :
    (p.masterRead count nonblock other copied).1.Streams o := by
  unfold Pty.masterRead
  by_cases hcount : count = 0
  · rwa [if_pos hcount]
  by_cases hpipe : p.slaveOpen = false ∧ p.slaveToMaster.count = 0
  · rwa [if_neg hcount, if_pos hpipe]
  by_cases hwait : p.slaveToMaster.count = 0 ∨ p.outputStopped
  · rwa [if_neg hcount, if_neg hpipe, if_pos hwait]
  rw [if_neg hcount, if_neg hpipe, if_neg hwait]
  obtain ⟨hbytes, hr⟩ := ptyRingRead_holds h.holds (chunk count)
  refine ⟨h.oflag, ?_, ?_⟩
  · show RingBuffer.Holds ptyCap (ptyRingRead (chunk count) p.slaveToMaster).2 _
    rwa [hr.toList]
  · show (p.drained ++ _).flatMap Prod.fst ++
      RingBuffer.toList ptyCap (ptyRingRead (chunk count) p.slaveToMaster).2 = _
    rw [List.flatMap_append, List.flatMap_singleton, hr.toList, hbytes, List.append_assoc,
      List.take_append_drop]
    exact h.stream

theorem Streams.slaveRead (h : p.Streams o) (count : ℕ) (nonblock other copied : Bool) :
    (p.slaveRead count nonblock other copied).1.Streams o := by
  unfold Pty.slaveRead
  split_ifs <;> exact ⟨h.oflag, h.holds, h.stream⟩

theorem Streams.sendControl (h : p.Streams o) (c : UInt8) : (p.sendControl c).1.Streams o := by
  unfold Pty.sendControl
  by_cases hc : c = 0
  · rwa [if_pos hc]
  · rw [if_neg hc]
    exact h.outputWrite [c]

theorem Streams.xonc (h : p.Streams o) (action : ℕ) : (p.xonc action).1.Streams o := by
  unfold Pty.xonc
  split_ifs
  · exact h.stopped true
  · exact h.stopped false
  · exact h.sendControl _
  · exact h.sendControl _
  · exact h

theorem Streams.step (h : p.Streams o) (call : PtyCall) : (p.step call).1.Streams o := by
  cases call with
  | masterWrite src fault => exact h.masterWrite src fault
  | slaveWrite src fault => exact h.slaveWrite src fault
  | masterRead count nonblock other copied => exact h.masterRead count nonblock other copied
  | slaveRead count nonblock other copied => exact h.slaveRead count nonblock other copied
  | xonc action => exact h.xonc action
  | setAttr iflag lflag cc => exact ⟨h.oflag, h.holds, h.stream⟩
  | flush input output =>
    have hinput : (if input then p.flushInput else p).Streams o := by
      cases input with
      | true => exact h.flushInput
      | false => exact h
    cases output with
    | true => exact hinput.flushOutput
    | false => exact hinput

theorem streams_start (m s : ℕ → UInt8) (t : Termios) : (start m s t).Streams t.oflag :=
  ⟨rfl, RingBuffer.holds_empty (by decide) s, rfl⟩

theorem Streams.run (h : p.Streams o) (l : List PtyCall) : (p.run l).1.Streams o := by
  induction l generalizing p with
  | nil => exact h
  | cons call l ih => exact ih (h.step call)

/-- A write in parts, each handed over when the one before has been accepted in full. -/
def outputParts (p : Pty) : List (List UInt8) → Pty × ℕ
  | [] => (p, 0)
  | src :: parts =>
    if (p.outputWrite src).2 < src.length then p.outputWrite src
    else (((p.outputWrite src).1.outputParts parts).1,
      src.length + ((p.outputWrite src).1.outputParts parts).2)

theorem outputParts_eq (p : Pty) (parts : List (List UInt8)) :
    p.outputParts parts = p.outputWrite parts.flatten := by
  induction parts generalizing p with
  | nil => rfl
  | cons src parts ih =>
    rw [outputParts, List.flatten_cons]
    by_cases hshort : (p.outputWrite src).2 < src.length
    · rw [if_pos hshort]
      exact (consume_append_of_lt parts.flatten hshort).symm
    · have hall : (p.outputWrite src).2 = src.length :=
        le_antisymm (consume_le _ _ _) (not_lt.1 hshort)
      rw [if_neg hshort, ih]
      exact (consume_append hall).symm

theorem slaveWrite_eq (hopen : p.masterOpen = true) (src : List UInt8) :
    (p.slaveWrite src (fun _ ↦ false)).1 = (p.outputWrite src).1 := by
  obtain ⟨failed, hloop⟩ :=
    chunkLoop_consume outputByte (fun _ ↦ false) chunkSize_pos 0 p (le_refl src.length)
  rw [fetched_all chunkSize_pos (fun _ ↦ rfl) 0 (le_refl _)] at hloop
  rw [slaveWrite, if_neg (ne_of_eq_of_ne hopen (Ne.symm Bool.false_ne_true))]
  show (chunkLoop (consume outputByte) chunkSize (fun _ ↦ false) src.length 0 p src).1 = _
  rw [hloop, outputWrite]

def delivered (p : Pty) : List UInt8 := (p.drained.filter fun d ↦ d.2 = .read).flatMap Prod.fst

theorem delivered_eq_gone (h : ∀ d ∈ p.drained, d.2 = .read) : p.delivered = p.gone := by
  have hall : (p.drained.filter fun d ↦ d.2 = .read) = p.drained :=
    List.filter_eq_self.2 fun d hd ↦ decide_eq_true (h d hd)
  rw [delivered, gone, hall]

structure OutputStream (t : Termios) (p : Pty) : Prop where
  stream : p.gone ++ p.slaveToMaster.toList ptyCap = p.accepted.flatMap (outputImage t)
  delivered : (∀ d ∈ p.drained, d.2 = .read) →
    p.delivered ++ p.slaveToMaster.toList ptyCap = p.accepted.flatMap (outputImage t)
  count_le : p.slaveToMaster.count ≤ ptyCap
  wpos : p.slaveToMaster.wpos = (p.slaveToMaster.rpos + p.slaveToMaster.count) % ptyCap
  accepts : ∀ src, (p.outputWrite src).1.accepted = p.accepted ++ src.take (p.outputWrite src).2
  whole : ∀ src, (p.outputWrite src).1.slaveToMaster.toList ptyCap =
    p.slaveToMaster.toList ptyCap ++ (src.take (p.outputWrite src).2).flatMap (outputImage t)
  parts : ∀ parts, p.outputParts parts = p.outputWrite parts.flatten
  chunks : p.masterOpen = true → ∀ src, (p.slaveWrite src (fun _ ↦ false)).1 = (p.outputWrite src).1

theorem Streams.outputStream {t : Termios} (h : p.Streams o)
    (ht : outputImage p.termios = outputImage t) : OutputStream t p where
  stream := ht ▸ h.stream
  delivered hall := by
    rw [delivered_eq_gone hall, ← ht]
    exact h.stream
  count_le := h.holds.count_le
  wpos := h.holds.wpos
  accepts src := by
    obtain ⟨r, -, hp⟩ := outputWrite_spec h.holds src
    rw [hp]
  whole src := by
    obtain ⟨r, hr, hp⟩ := outputWrite_spec h.holds src
    rw [hp, ← ht]
    exact hr.toList
  parts := outputParts_eq p
  chunks hopen src := slaveWrite_eq hopen src

/-- After any run of a terminal, the bytes that left the ring and those in it are the images of the
bytes that were accepted, in the order in which they were. -/
theorem run_outputStream (m s : ℕ → UInt8) (t : Termios) (l : List PtyCall) :
    OutputStream t (run (start m s t) l).1 := by
  have h := (streams_start m s t).run l
  refine h.outputStream (funext fun c ↦ ?_)
  unfold outputImage Termios.oflagHas
  rw [h.oflag]

/-- The bytes of a read that cannot be copied out are lost. -/
theorem not_run_delivered : ¬ ∀ (m s : ℕ → UInt8) (t : Termios) (l : List PtyCall),
    (∀ d ∈ (run (start m s t) l).1.drained, d.2 ≠ .flushed) →
      (run (start m s t) l).1.delivered ++ (run (start m s t) l).1.slaveToMaster.toList ptyCap =
        (run (start m s t) l).1.accepted.flatMap (outputImage t) := by
  intro h
  have hlost :=
    h (fun _ ↦ 0) (fun _ ↦ 0) ⟨0, 0, 0, fun _ ↦ 0⟩ [.slaveWrite [65] fun _ ↦ false,
      .masterRead 1 false true false]
  exact absurd (hlost (by decide)) (by decide)

end Pty

end YabroOS.Stream
