import YabroOS.Stream.Socket

namespace YabroOS.Stream

open Function Lib

variable {r : RingBuffer UInt8} {l : List UInt8} {c : SocketCall}

abbrev Holds (r : RingBuffer UInt8) (l : List UInt8) : Prop := RingBuffer.Holds sockCap r l

theorem sendLoop_holds (buf : ℕ → UInt8) (n done : ℕ) (h : Holds r l)
    (hle : l.length + (n - done) ≤ sockCap) (hdone : done ≤ n) :
    Holds (sendLoop buf n done r).1 (l ++ slice buf done (n - done)) ∧
      (sendLoop buf n done r).2 = n := by
  induction done, r using sendLoop.induct buf n generalizing l with
  | case1 done r hlt ih =>
    rw [sendLoop, if_pos hlt]
    have hk := chunk_le (n - done)
    generalize chunk (n - done) = k at hk ih ⊢
    have hpush := RingBuffer.Holds.pushAll (m := slice buf done k) h (by rw [length_slice]; omega)
    obtain ⟨hr, hn⟩ := ih hpush (by rw [List.length_append, length_slice]; omega) (by omega)
    refine ⟨?_, hn⟩
    have hsplit : n - done = k + (n - (done + k)) := by omega
    rw [hsplit, slice_add, ← List.append_assoc]
    exact hr
  | case2 done r hlt =>
    rw [sendLoop, if_neg hlt]
    obtain rfl : done = n := by omega
    rw [Nat.sub_self, slice_zero, List.append_nil]
    exact ⟨h, rfl⟩

theorem recvLoop_holds (n done : ℕ) (out : List UInt8) (h : Holds r l) (hle : n - done ≤ l.length) :
    (recvLoop n done r out).2 = out ++ l.take (n - done) ∧
      Holds (recvLoop n done r out).1 (l.drop (n - done)) := by
  induction done, r, out using recvLoop.induct n generalizing l with
  | case1 done r out hlt ih =>
    rw [recvLoop, if_pos hlt]
    have hk := chunk_le (n - done)
    generalize chunk (n - done) = k at hk ih ⊢
    obtain ⟨hbytes, hrest⟩ := RingBuffer.Holds.popN_take h (n := k) (by omega)
    obtain ⟨hout, hr⟩ := ih hrest (by rw [List.length_drop]; omega)
    have hsplit : n - done = k + (n - (done + k)) := by omega
    rw [List.drop_drop, ← hsplit] at hr
    refine ⟨?_, hr⟩
    rw [hout, hbytes, hsplit, List.take_add, List.append_assoc]
  | case2 done r out hlt =>
    rw [recvLoop, if_neg hlt]
    have hz : n - done = 0 := by omega
    rw [hz, List.take_zero, List.append_nil, List.drop_zero]
    exact ⟨rfl, h⟩

def Moves (l out : List UInt8) (p : RingBuffer UInt8 × List UInt8) : Prop :=
  ∃ a b, l = a ++ b ∧ p.2 = out ++ a ∧ Holds p.1 b

theorem Moves.refl (h : Holds r l) (out : List UInt8) : Moves l out (r, out) :=
  ⟨[], l, rfl, by simp, h⟩

theorem recvEntry_moves (len off : ℕ) (out : List UInt8) (h : Holds r l) :
    Moves l out (recvEntry len off r out) := by
  induction off, r, out using recvEntry.induct len generalizing l with
  | case1 off r out hlt ih =>
    rw [recvEntry, if_pos hlt]
    have hk : chunk (min (len - off) r.count) ≤ l.length := by
      rw [← h.count]
      exact (chunk_le _).trans (Nat.min_le_right ..)
    generalize chunk (min (len - off) r.count) = k at hk ih ⊢
    obtain ⟨hbytes, hrest⟩ := RingBuffer.Holds.popN_take h hk
    obtain ⟨a, b, hl, hout, hr⟩ := ih hrest
    refine ⟨l.take k ++ a, b, ?_, ?_, hr⟩
    · rw [List.append_assoc, ← hl, List.take_append_drop]
    · rw [hout, hbytes, List.append_assoc]
  | case2 off r out hlt =>
    rw [recvEntry, if_neg hlt]
    exact .refl h out

theorem recvEntries_moves (total : ℕ) (iov : List Iovec) (out : List UInt8) (h : Holds r l) :
    Moves l out (recvEntries total iov r out) := by
  induction iov generalizing r l out with
  | nil => exact .refl h out
  | cons v iov ih =>
    simp only [recvEntries]
    split
    · obtain ⟨a, b, rfl, hout, hr⟩ := recvEntry_moves v.len 0 out h
      obtain ⟨a', b', rfl, hout', hr'⟩ := ih (recvEntry v.len 0 r out).2 hr
      refine ⟨a ++ a', b', by rw [List.append_assoc], ?_, hr'⟩
      rw [hout', hout, List.append_assoc]
    · exact .refl h out

def messageBytes (iov : List Iovec) : List UInt8 := iov.flatMap (fun v ↦ slice v.bytes 0 v.len)

theorem messageBytes_cons (v : Iovec) (iov : List Iovec) :
    messageBytes (v :: iov) = slice v.bytes 0 v.len ++ messageBytes iov := by
  simp [messageBytes]

theorem sendEntries_holds (iov : List Iovec) (sent : ℕ) (h : Holds r l)
    (hle : l.length + (messageBytes iov).length ≤ sockCap) :
    Holds (sendEntries iov r sent).1 (l ++ messageBytes iov) ∧
      (sendEntries iov r sent).2 = sent + (messageBytes iov).length := by
  induction iov generalizing r l sent with
  | nil =>
    simp only [messageBytes, List.flatMap_nil, List.append_nil, List.length_nil]
    exact ⟨h, rfl⟩
  | cons v iov ih =>
    rw [messageBytes_cons, List.length_append, length_slice] at hle
    obtain ⟨hr, hn⟩ := sendLoop_holds v.bytes v.len 0 h (by omega) (Nat.zero_le _)
    rw [Nat.sub_zero] at hr
    obtain ⟨hr', hn'⟩ := ih (sent + v.len) hr (by rw [List.length_append, length_slice]; omega)
    simp only [sendEntries, hn]
    rw [messageBytes_cons, ← List.append_assoc]
    refine ⟨hr', ?_⟩
    rw [hn', List.length_append, length_slice, Nat.add_assoc]

theorem msgTotal_some {iov : List Iovec} {base total : ℕ} (h : msgTotal iov base = some total) :
    total = base + (messageBytes iov).length := by
  induction iov generalizing base with
  | nil =>
    simp only [msgTotal, Option.some.injEq] at h
    simp [messageBytes, h]
  | cons v iov ih =>
    simp only [msgTotal] at h
    split at h
    · cases h
    · rw [ih h, messageBytes_cons, List.length_append, length_slice, Nat.add_assoc]

/-- A call on one of the two ends, with what it finds in user memory. -/
inductive SocketCall
  | sendto (side : Bool) (buf : ℕ → UInt8) (len : ℤ) (nonblock : Bool)
  | sendmsg (side : Bool) (iov : List Iovec) (nonblock : Bool)
  | recvfrom (side : Bool) (len : ℤ) (nonblock : Bool)
  | recvmsg (side : Bool) (iov : List Iovec) (nonblock : Bool)

namespace Socket

def exec (s : Socket) : SocketCall → Socket × Reply × List UInt8
  | .sendto side buf len nonblock =>
    ((s.sysSendto side buf len nonblock).1, (s.sysSendto side buf len nonblock).2, [])
  | .sendmsg side iov nonblock =>
    ((s.sysSendmsg side iov nonblock).1, (s.sysSendmsg side iov nonblock).2, [])
  | .recvfrom side len nonblock => s.sysRecvfrom side len nonblock
  | .recvmsg side iov nonblock => s.sysRecvmsg side iov nonblock

/-- The state after `memset`; who has closed what does not matter for the data. -/
def fresh (closed : Bool → Bool) (refs : ℕ) : Socket := ⟨fun _ ↦ ⟨fun _ ↦ 0, 0, 0, 0⟩, closed, refs⟩

end Socket

def SocketCall.sent (side : Bool) : SocketCall → Reply → List UInt8
  | .sendto sd buf _ _, .ret v => if sd = side then slice buf 0 v.toNat else []
  | .sendmsg sd iov _, .ret v => if sd = side then (messageBytes iov).take v.toNat else []
  | _, _ => []

def SocketCall.received (side : Bool) : SocketCall → List UInt8 → List UInt8
  | .recvfrom sd _ _, out => if sd = side then out else []
  | .recvmsg sd _ _, out => if sd = side then out else []
  | _, _ => []

/-- A socket with all that has gone through it. -/
structure Traffic where
  socket : Socket
  sent : Bool → List UInt8
  received : Bool → List UInt8

namespace Traffic

def step (h : Traffic) (c : SocketCall) : Traffic where
  socket := (h.socket.exec c).1
  sent := fun side ↦ h.sent side ++ c.sent side (h.socket.exec c).2.1
  received := fun side ↦ h.received side ++ c.received side (h.socket.exec c).2.2

def run (h : Traffic) (l : List SocketCall) : Traffic := l.foldl step h

def start (closed : Bool → Bool) (refs : ℕ) : Traffic :=
  ⟨.fresh closed refs, fun _ ↦ [], fun _ ↦ []⟩

def InOrder (h : Traffic) : Prop :=
  ∀ side, ∃ l, Holds (h.socket.ring side) l ∧ h.received side ++ l = h.sent !side

end Traffic

/-- What a call does to the ring of each side: it appends what the other side sends and takes what
this side receives. -/
def Passes (s : Socket) (c : SocketCall) : Prop :=
  ∀ side l, Holds (s.ring side) l → ∃ l', Holds ((s.exec c).1.ring side) l' ∧
    c.received side (s.exec c).2.2 ++ l' = l ++ c.sent (!side) (s.exec c).2.1

theorem passes_of_eq {s : Socket} (hs : (s.exec c).1 = s)
    (hr : ∀ side, c.received side (s.exec c).2.2 = [])
    (ht : ∀ side, c.sent side (s.exec c).2.1 = []) : Passes s c := by
  intro side l h
  refine ⟨l, by rwa [hs], ?_⟩
  rw [hr, ht, List.nil_append, List.append_nil]

def Reply.Nothing : Reply → Prop
  | .ret v => v ≤ 0
  | .blocked => True

namespace Socket

variable (s : Socket) (side : Bool)

theorem sysSendto_cases (buf : ℕ → UInt8) (len : ℤ) (nonblock : Bool) :
    (∃ q : Reply, s.sysSendto side buf len nonblock = (s, q) ∧ q.Nothing) ∨
      ∃ r n, s.sysSendto side buf len nonblock =
        ({ s with ring := update s.ring (!side) r }, .ret (n : ℕ)) ∧
        ∀ l, Holds (s.ring !side) l → Holds r (l ++ slice buf 0 n) := by
  simp only [sysSendto]
  split_ifs with hlen hrefs hclosed hzero hroom hnb
  · exact .inl ⟨_, rfl, show -einval ≤ 0 by decide⟩
  · exact .inl ⟨_, rfl, show -enotconn ≤ 0 by decide⟩
  · exact .inl ⟨_, rfl, show -epipe ≤ 0 by decide⟩
  · exact .inl ⟨_, rfl, le_refl (0 : ℤ)⟩
  · exact .inl ⟨_, rfl, show -eagain ≤ 0 by decide⟩
  · exact .inl ⟨_, rfl, trivial⟩
  · have hdone : ∀ l, Holds (s.ring !side) l →
        (sendLoop buf (min len.toNat (sockCap - (s.ring !side).count)) 0 (s.ring !side)).2 =
          min len.toNat (sockCap - (s.ring !side).count) ∧
        Holds (sendLoop buf (min len.toNat (sockCap - (s.ring !side).count)) 0 (s.ring !side)).1
          (l ++ slice buf 0 (min len.toNat (sockCap - (s.ring !side).count))) := by
      intro l h
      have hcount := h.count
      have hcap := h.count_le
      obtain ⟨hr, hn⟩ := sendLoop_holds buf (min len.toNat (sockCap - (s.ring !side).count)) 0 h
        (by omega) (Nat.zero_le _)
      exact ⟨hn, hr⟩
    refine .inr ⟨_, _, rfl, fun l h ↦ ?_⟩
    rw [(hdone l h).1]
    exact (hdone l h).2

theorem sysSendmsg_cases (iov : List Iovec) (nonblock : Bool) :
    (∃ q : Reply, s.sysSendmsg side iov nonblock = (s, q) ∧ q.Nothing) ∨
      ∃ r n, s.sysSendmsg side iov nonblock =
        ({ s with ring := update s.ring (!side) r }, .ret (n : ℕ)) ∧
        ∀ l, Holds (s.ring !side) l → Holds r (l ++ (messageBytes iov).take n) := by
  simp only [sysSendmsg]
  by_cases hrefs : s.refs < 2
  · rw [if_pos hrefs]
    exact .inl ⟨_, rfl, show -enotconn ≤ 0 by decide⟩
  by_cases hcheck : socketMsgCopyIn iov < 0
  · rw [if_neg hrefs, if_pos hcheck]
    exact .inl ⟨_, rfl, le_of_lt hcheck⟩
  rw [if_neg hrefs, if_neg hcheck]
  split
  · exact .inl ⟨_, rfl, show -einval ≤ 0 by decide⟩
  next total htotal =>
  have hlen := msgTotal_some htotal
  split_ifs with hzero hclosed hroom hnb
  · exact .inl ⟨_, rfl, le_refl (0 : ℤ)⟩
  · exact .inl ⟨_, rfl, show -epipe ≤ 0 by decide⟩
  · exact .inl ⟨_, rfl, show -eagain ≤ 0 by decide⟩
  · exact .inl ⟨_, rfl, trivial⟩
  · refine .inr ⟨_, _, rfl, fun l h ↦ ?_⟩
    have hcount := h.count
    have hcap := h.count_le
    obtain ⟨hr, hn⟩ := sendEntries_holds iov 0 h (by omega)
    rw [hn, Nat.zero_add, List.take_length]
    exact hr

theorem sysRecvfrom_cases (len : ℤ) (nonblock : Bool) :
    (∃ q, s.sysRecvfrom side len nonblock = (s, q, [])) ∨
      ∃ r out, s.sysRecvfrom side len nonblock =
        ({ s with ring := update s.ring side r }, .ret out.length, out) ∧
        ∀ l, Holds (s.ring side) l → ∃ l', Holds r l' ∧ out ++ l' = l := by
  simp only [sysRecvfrom]
  split_ifs with hlen hzero hempty
  · exact .inl ⟨_, rfl⟩
  · exact .inl ⟨_, rfl⟩
  · exact .inl ⟨_, rfl⟩
  · exact .inl ⟨_, rfl⟩
  · exact .inl ⟨_, rfl⟩
  · refine .inr ⟨_, _, rfl, fun l h ↦ ?_⟩
    have hcount := h.count
    obtain ⟨hout, hr⟩ := recvLoop_holds (min len.toNat (s.ring side).count) 0 [] h (by omega)
    refine ⟨_, hr, ?_⟩
    rw [hout, List.nil_append, List.take_append_drop]

theorem sysRecvmsg_cases (iov : List Iovec) (nonblock : Bool) :
    (∃ q, s.sysRecvmsg side iov nonblock = (s, q, [])) ∨
      ∃ r out, s.sysRecvmsg side iov nonblock =
        ({ s with ring := update s.ring side r }, .ret out.length, out) ∧
        ∀ l, Holds (s.ring side) l → ∃ l', Holds r l' ∧ out ++ l' = l := by
  simp only [sysRecvmsg]
  by_cases hcheck : socketMsgCopyIn iov < 0
  · rw [if_pos hcheck]
    exact .inl ⟨_, rfl⟩
  rw [if_neg hcheck]
  split
  · exact .inl ⟨_, rfl⟩
  next total htotal =>
  split_ifs with hzero hempty
  · exact .inl ⟨_, rfl⟩
  · exact .inl ⟨_, rfl⟩
  · exact .inl ⟨_, rfl⟩
  · exact .inl ⟨_, rfl⟩
  · refine .inr ⟨_, _, rfl, fun l h ↦ ?_⟩
    obtain ⟨a, b, hl, hout, hr⟩ := recvEntries_moves total iov [] h
    refine ⟨b, hr, ?_⟩
    rw [hout, List.nil_append, hl]

end Socket

theorem slice_nothing {v : ℤ} (h : v ≤ 0) (buf : ℕ → UInt8) : slice buf 0 v.toNat = [] := by
  rw [Int.toNat_of_nonpos h, slice_zero]

theorem passes_send {s : Socket} (side : Bool) {r : RingBuffer UInt8} (m : List UInt8)
    (hs : (s.exec c).1.ring = update s.ring (!side) r)
    (hr : ∀ sd, c.received sd (s.exec c).2.2 = [])
    (ht : ∀ sd, c.sent sd (s.exec c).2.1 = if side = sd then m else [])
    (h : ∀ l, Holds (s.ring !side) l → Holds r (l ++ m)) : Passes s c := by
  intro sd l hl
  rw [hs, hr, ht]
  by_cases hsd : sd = !side
  · subst hsd
    refine ⟨l ++ m, ?_, ?_⟩
    · rw [update_self]
      exact h l hl
    · rw [Bool.not_not, if_pos rfl, List.nil_append]
  · refine ⟨l, ?_, ?_⟩
    · rw [update_of_ne hsd]
      exact hl
    · rw [if_neg, List.append_nil, List.nil_append]
      rintro rfl
      exact hsd (Bool.not_not sd).symm

theorem passes_receive {s : Socket} (side : Bool) {r : RingBuffer UInt8} (out : List UInt8)
    (hs : (s.exec c).1.ring = update s.ring side r)
    (hr : ∀ sd, c.received sd (s.exec c).2.2 = if side = sd then out else [])
    (ht : ∀ sd, c.sent sd (s.exec c).2.1 = [])
    (h : ∀ l, Holds (s.ring side) l → ∃ l', Holds r l' ∧ out ++ l' = l) : Passes s c := by
  intro sd l hl
  rw [hs, hr, ht, List.append_nil]
  by_cases hsd : sd = side
  · subst hsd
    obtain ⟨l', hl', hout⟩ := h l hl
    refine ⟨l', ?_, ?_⟩
    · rw [update_self]
      exact hl'
    · rw [if_pos rfl]
      exact hout
  · refine ⟨l, ?_, ?_⟩
    · rw [update_of_ne hsd]
      exact hl
    · rw [if_neg (Ne.symm hsd), List.nil_append]

theorem exec_passes (s : Socket) (c : SocketCall) : Passes s c := by
  cases c with
  | sendto side buf len nonblock =>
    rcases s.sysSendto_cases side buf len nonblock with ⟨q, he, hq⟩ | ⟨r, n, he, h⟩
    · refine passes_of_eq ?_ (fun _ ↦ rfl) (fun sd ↦ ?_)
      · simp only [Socket.exec, he]
      · simp only [Socket.exec, he]
        cases q with
        | blocked => rfl
        | ret v => rw [SocketCall.sent, slice_nothing hq, ite_self]
    · refine passes_send side (slice buf 0 n) ?_ (fun _ ↦ rfl) (fun sd ↦ ?_) h
      · simp only [Socket.exec, he]
      · simp only [Socket.exec, he, SocketCall.sent, Int.toNat_natCast]
  | sendmsg side iov nonblock =>
    rcases s.sysSendmsg_cases side iov nonblock with ⟨q, he, hq⟩ | ⟨r, n, he, h⟩
    · refine passes_of_eq ?_ (fun _ ↦ rfl) (fun sd ↦ ?_)
      · simp only [Socket.exec, he]
      · simp only [Socket.exec, he]
        cases q with
        | blocked => rfl
        | ret v => rw [SocketCall.sent, Int.toNat_of_nonpos hq, List.take_zero, ite_self]
    · refine passes_send side ((messageBytes iov).take n) ?_ (fun _ ↦ rfl) (fun sd ↦ ?_) h
      · simp only [Socket.exec, he]
      · simp only [Socket.exec, he, SocketCall.sent, Int.toNat_natCast]
  | recvfrom side len nonblock =>
    rcases s.sysRecvfrom_cases side len nonblock with ⟨q, he⟩ | ⟨r, out, he, h⟩
    · refine passes_of_eq ?_ (fun sd ↦ ?_) (fun sd ↦ rfl)
      · simp only [Socket.exec, he]
      · simp only [Socket.exec, he, SocketCall.received, ite_self]
    · refine passes_receive side out ?_ (fun sd ↦ ?_) (fun sd ↦ rfl) h
      · simp only [Socket.exec, he]
      · simp only [Socket.exec, he, SocketCall.received]
  | recvmsg side iov nonblock =>
    rcases s.sysRecvmsg_cases side iov nonblock with ⟨q, he⟩ | ⟨r, out, he, h⟩
    · refine passes_of_eq ?_ (fun sd ↦ ?_) (fun sd ↦ rfl)
      · simp only [Socket.exec, he]
      · simp only [Socket.exec, he, SocketCall.received, ite_self]
    · refine passes_receive side out ?_ (fun sd ↦ ?_) (fun sd ↦ rfl) h
      · simp only [Socket.exec, he]
      · simp only [Socket.exec, he, SocketCall.received]

namespace Traffic

theorem InOrder.step {h : Traffic} (ho : h.InOrder) (c : SocketCall) : (h.step c).InOrder := by
  intro side
  obtain ⟨l, hl, heq⟩ := ho side
  obtain ⟨l', hl', heq'⟩ := exec_passes h.socket c side l hl
  refine ⟨l', hl', ?_⟩
  simp only [Traffic.step]
  rw [List.append_assoc, heq', ← List.append_assoc, heq]

theorem InOrder.run {h : Traffic} (ho : h.InOrder) (l : List SocketCall) : (h.run l).InOrder := by
  induction l generalizing h with
  | nil => exact ho
  | cons c l ih => exact ih (ho.step c)

theorem start_inOrder (closed : Bool → Bool) (refs : ℕ) : (start closed refs).InOrder :=
  fun _ ↦ ⟨[], RingBuffer.holds_empty (by decide) _, rfl⟩

/-- The two byte streams of a socket, after any calls of both ends. -/
theorem socket_stream (closed : Bool → Bool) (refs : ℕ) (calls : List SocketCall) (side : Bool) :
    let h := (start closed refs).run calls
    h.received side ++ (h.socket.ring side).toList sockCap = h.sent (!side) ∧
      (h.socket.ring side).count ≤ sockCap ∧
      (h.socket.ring side).wpos = ((h.socket.ring side).rpos + (h.socket.ring side).count) %
        sockCap := by
  obtain ⟨l, hl, heq⟩ := (start_inOrder closed refs).run calls side
  refine ⟨?_, hl.count_le, hl.wpos⟩
  rw [hl.toList]
  exact heq

end Traffic

end YabroOS.Stream

namespace YabroOS.Stream

open Function Lib

namespace Socket

/-- A side is connected, and its peer still reads. -/
structure Open (s : Socket) (side : Bool) : Prop where
  refs : 2 ≤ s.refs
  peer : s.closed (!side) = false

def writeReady (s : Socket) (side : Bool) : Bool :=
  s.closed (!side) ∨ (s.ring !side).count < sockCap

/-- The call of a sender that blocks, made again in each of the states in which the sender is woken;
none while it still waits. -/
def retried (side : Bool) (iov : List Iovec) : List Socket → Option ℤ
  | [] => none
  | s :: wakes =>
    match (s.sysSendmsg side iov false).2 with
    | .ret v => some v
    | .blocked => retried side iov wakes

end Socket

/-- A message that `sys_sendmsg` admits, with its length. -/
structure Admitted (iov : List Iovec) (n : ℕ) : Prop where
  checked : 0 ≤ socketMsgCopyIn iov
  total : msgTotal iov 0 = some n
  pos : 0 < n

variable {s : Socket} {side b : Bool} {iov : List Iovec} {n : ℕ} {l : List UInt8}
    {wakes : List Socket}

theorem Admitted.length (h : Admitted iov n) : (messageBytes iov).length = n := by
  rw [msgTotal_some h.total, Nat.zero_add]

theorem sysSendmsg_admitted (hs : s.Open side) (h : Admitted iov n) :
    s.sysSendmsg side iov b =
      if sockCap - (s.ring !side).count < n then (s, if b then .ret (-eagain) else .blocked)
      else ({ s with ring := update s.ring (!side) (sendEntries iov (s.ring !side) 0).1 },
        .ret (sendEntries iov (s.ring !side) 0).2) := by
  simp only [Socket.sysSendmsg, if_neg (not_lt.2 hs.refs), if_neg (not_lt.2 h.checked), h.total,
    if_neg h.pos.ne', hs.peer,
    Bool.false_eq_true, if_false]

theorem sysSendmsg_reply (hs : s.Open side) (h : Admitted iov n) (hl : Holds (s.ring !side) l) :
    (s.sysSendmsg side iov b).2 =
      if l.length + n ≤ sockCap then .ret n else if b then .ret (-eagain) else .blocked := by
  have hcount := hl.count
  have hcap := hl.count_le
  rw [sysSendmsg_admitted hs h]
  by_cases hroom : l.length + n ≤ sockCap
  · have hsent := (sendEntries_holds iov 0 hl (by rw [h.length]; exact hroom)).2
    rw [if_neg (by omega), if_pos hroom]
    dsimp only
    rw [hsent, h.length, Nat.zero_add]
  · rw [if_pos (by omega), if_neg hroom]

theorem sends_iff (hs : s.Open side) (h : Admitted iov n) (hl : Holds (s.ring !side) l) :
    (∃ v : ℤ, 0 < v ∧ (s.sysSendmsg side iov b).2 = .ret v) ↔ l.length + n ≤ sockCap := by
  have hpos := h.pos
  rw [sysSendmsg_reply hs h hl]
  split_ifs with hroom hnb
  · exact iff_of_true ⟨n, by omega, rfl⟩ hroom
  · refine iff_of_false ?_ hroom
    rintro ⟨v, hv, he⟩
    cases he
    exact absurd hv (by decide)
  · refine iff_of_false ?_ hroom
    rintro ⟨v, -, he⟩
    cases he

theorem retried_of_not_fits (h : Admitted iov n) (hlong : sockCap < n)
    (hwakes : ∀ s ∈ wakes, s.Open side ∧ ∃ l, Holds (s.ring !side) l) :
    Socket.retried side iov wakes = none := by
  induction wakes with
  | nil => rfl
  | cons s wakes ih =>
    obtain ⟨hs, l, hl⟩ := hwakes s (.head _)
    have hreply := sysSendmsg_reply (b := false) hs h hl
    rw [if_neg (by omega)] at hreply
    simp only [Socket.retried, hreply]
    exact ih (fun s' hs' ↦ hwakes s' (.tail _ hs'))

theorem retried_of_fits (h : Admitted iov n) (hfits : n ≤ sockCap)
    (hwakes : ∀ s ∈ wakes, s.Open side ∧ ∃ l, Holds (s.ring !side) l)
    (hempty : ∃ s ∈ wakes, Holds (s.ring !side) []) :
    Socket.retried side iov wakes = some (n : ℤ) := by
  induction wakes with
  | nil =>
    obtain ⟨s, hs, -⟩ := hempty
    cases hs
  | cons s wakes ih =>
    obtain ⟨hs, l, hl⟩ := hwakes s (.head _)
    have hreply := sysSendmsg_reply (b := false) hs h hl
    by_cases hroom : l.length + n ≤ sockCap
    · rw [if_pos hroom] at hreply
      simp only [Socket.retried, hreply]
    · rw [if_neg hroom] at hreply
      simp only [Socket.retried, hreply]
      refine ih (fun s' hs' ↦ hwakes s' (.tail _ hs')) ?_
      obtain ⟨s', hs', he⟩ := hempty
      cases hs' with
      | head =>
        -- the ring of this state is not empty
        have hcount := hl.count.symm.trans he.count
        rw [hcount] at hroom
        exact absurd (by simpa using hfits) hroom
      | tail _ hs' => exact ⟨s', hs', he⟩

/-- A message goes through an empty ring when it is not longer than the ring; a longer one is never
sent, however often its sender is woken. -/
theorem sendmsg_completes_iff (hs : s.Open side) (hempty : Holds (s.ring !side) [])
    (h : Admitted iov n) :
    ((∃ v : ℤ, 0 < v ∧ (s.sysSendmsg side iov b).2 = .ret v) ↔ n ≤ sockCap) ∧
      ((∀ wakes : List Socket, (∀ s ∈ wakes, s.Open side ∧ s.writeReady side = true ∧
        ∃ l, Holds (s.ring !side) l) →
        (∃ s ∈ wakes, Holds (s.ring !side) []) → ∃ v : ℤ, 0 < v ∧
          Socket.retried side iov wakes = some v) ↔ n ≤ sockCap) := by
  refine ⟨?_, fun hall ↦ ?_, fun hfits wakes hwakes he ↦ ?_⟩
  · simpa using sends_iff (b := b) hs h hempty
  · by_contra hlong
    have hready : s.writeReady side = true := decide_eq_true (.inr (by rw [hempty.count]; decide))
    obtain ⟨v, -, hv⟩ := hall [s] (by simpa using ⟨hs, hready, [], hempty⟩) ⟨s, .head _, hempty⟩
    rw [retried_of_not_fits h (not_le.1 hlong) (by simpa using ⟨hs, [], hempty⟩)] at hv
    cases hv
  · have hpos := h.pos
    exact ⟨n, by omega, retried_of_fits h hfits (fun s hs ↦ ⟨(hwakes s hs).1, (hwakes s hs).2.2⟩) he⟩

def oneBuffer (len : ℕ) : List Iovec := [⟨0x1000, len, fun _ ↦ 0⟩]

def pair : Socket := .fresh (fun _ ↦ false) 2

theorem sendmsg_completes_short :
    ∃ v : ℤ, 0 < v ∧ (pair.sysSendmsg false (oneBuffer 16384) false).2 = .ret v :=
  (sendmsg_completes_iff (n := 16384) ⟨le_refl 2, rfl⟩ (RingBuffer.holds_empty (by decide) _)
    ⟨by decide, by decide, by decide⟩).1.2 (le_refl sockCap)

/-- A message that is longer than the ring by one byte is admitted, and its sender waits for room
that an empty ring does not have. -/
theorem not_sendmsg_completes :
    ¬ ∀ (s : Socket) (side b : Bool) (iov : List Iovec) (n : ℕ), s.Open side →
    Holds (s.ring !side) [] → Admitted iov n → ∃ v : ℤ, 0 < v ∧
      (s.sysSendmsg side iov b).2 = .ret v := by
  intro hall
  have hadm : Admitted (oneBuffer 16385) 16385 := ⟨by decide, by decide, by decide⟩
  have hopen : pair.Open false := ⟨le_refl 2, rfl⟩
  have hempty : Holds (pair.ring true) [] := RingBuffer.holds_empty (by decide) _
  have h := (sends_iff (b := false) hopen hadm hempty).1 (hall _ _ _ _ _ hopen hempty hadm)
  exact absurd h (by decide)

end YabroOS.Stream
