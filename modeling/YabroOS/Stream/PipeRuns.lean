import YabroOS.Stream.Pipe

namespace YabroOS.Stream.Pipe

open Function Lib

variable {p q r : Pipe} {i : Slot} {buf count : ℕ}

/-- A read hands over no byte, and nobody is left waiting for what the ring has. -/
structure Reads (p q : Pipe) : Prop where
  accepted : q.accepted = p.accepted
  settled : p.Settled → q.Settled

theorem Reads.refl (p : Pipe) : Reads p p := ⟨rfl, id⟩

theorem Reads.trans (h : Reads p q) (h' : Reads q r) : Reads p r :=
  ⟨h'.accepted.trans h.accepted, fun hs ↦ h'.settled (h.settled hs)⟩

theorem Settled.awake (h : p.Settled) (hne : p.ring.count ≠ 0) : p.Awake := by
  intro i
  by_contra hi
  exact hne (h.empty i hi)

theorem sysRead_reads (ho : p.InOrder) (i : Slot) (buf count : ℕ) (writers : Bool) :
    Reads p (p.sysRead i buf count writers).1 := by
  obtain ⟨l, h, -⟩ := ho
  unfold sysRead
  split_ifs with hbuf hzero hempty
  · exact .refl p
  · exact .refl p
  · exact .refl p
  · exact .refl p
  · obtain ⟨-, -, hframe⟩ := readLoop_spec (p.space i) buf count 0 [] h
    refine ⟨hframe.accepted, fun hs ↦ Awake.settled (fun j ↦ ?_)⟩
    have hj := hs.awake hempty j
    rw [← hframe.waiting] at hj
    exact hj

theorem settled_wait (hs : p.Settled) (hb : buf ≠ 0) (hc : count ≠ 0) (hempty : p.ring.count = 0) :
    { p with waiting := update p.waiting i (some ⟨buf, count⟩) }.Settled := by
  refine ⟨fun j w hw ↦ ?_, fun _ _ ↦ hempty⟩
  by_cases hji : j = i
  · subst hji
    obtain rfl : ⟨buf, count⟩ = w := Option.some.inj ((update_self j _ p.waiting).symm.trans hw)
    exact ⟨hb, hc⟩
  · exact hs.ready j w ((update_of_ne hji _ p.waiting).symm.trans hw)

theorem sysPipeReadDispatch_reads (ho : p.InOrder) (i : Slot) {writers nonblock other : Bool}
    (h : p.Blocks count writers nonblock other → buf ≠ 0) :
    Reads p (p.sysPipeReadDispatch i buf count writers nonblock other).1 := by
  unfold sysPipeReadDispatch
  split_ifs with hzero hring hwriters hnow
  · exact .refl p
  · exact sysRead_reads ho i buf count writers
  · exact .refl p
  · exact .refl p
  · have hempty : p.ring.count = 0 := not_not.1 hring
    obtain ⟨hnonblock, hother⟩ := not_or.1 hnow
    have hblocks : p.Blocks count writers nonblock other :=
      ⟨hzero, hempty, by simpa using hwriters, by simpa using hnonblock, by simpa using hother⟩
    exact ⟨rfl, fun hs ↦ settled_wait hs (h hblocks) hzero hempty⟩

theorem sysReadv_reads_of_pos (i : Slot) (writers nonblock other : Bool) (iov : List (ℕ × ℕ))
    {total : ℤ} (ht : 0 < total) (ho : p.InOrder) :
    Reads p (sysReadv i writers nonblock other iov p total).1 := by
  induction iov generalizing p total with
  | nil => exact .refl p
  | cons v iov ih =>
    have hr : Reads p (p.readvEntry i v writers nonblock other total).1 := by
      rw [readvEntry, if_neg (fun hc ↦ by omega)]
      exact sysRead_reads ho i v.1 v.2 writers
    have hin := readvEntry_inOrder ho i v writers nonblock other total
    rw [sysReadv_cons]
    generalize p.readvEntry i v writers nonblock other total = r at hr hin ⊢
    split_ifs
    · exact hr
    · exact hr
    · exact hr
    · exact hr.trans (ih (by omega) hin)

theorem sysReadv_reads (i : Slot) {writers nonblock other : Bool} (iov : List (ℕ × ℕ))
    (ho : p.InOrder)
    (h : ∀ v, firstEntry iov = some v → p.Blocks v.2 writers nonblock other → v.1 ≠ 0) :
    Reads p (sysReadv i writers nonblock other iov p 0).1 := by
  induction iov with
  | nil => exact .refl p
  | cons v iov ih =>
    rw [sysReadv_cons]
    by_cases hv : v.2 = 0
    · -- an empty entry changes nothing, and the next one is the first
      have hskip : p.readvEntry i v writers nonblock other 0 = (p, 0) := by
        simp [readvEntry, sysRead, hv]
      have hrest : ∀ w, firstEntry iov = some w → p.Blocks w.2 writers nonblock other → w.1 ≠ 0 := by
        intro w hw
        refine h w ?_
        rw [firstEntry, List.find?_cons_of_neg (by simpa using hv)]
        exact hw
      rw [hskip, if_neg (lt_irrefl 0), if_neg (by simp [hv])]
      exact ih hrest
    · have hfirst : firstEntry (v :: iov) = some v := by
        rw [firstEntry, List.find?_cons_of_pos (by simpa using hv)]
      have hr : Reads p (p.readvEntry i v writers nonblock other 0).1 := by
        unfold readvEntry
        split
        · exact sysPipeReadDispatch_reads ho i (h v hfirst)
        · exact sysRead_reads ho i v.1 v.2 writers
      have hin := readvEntry_inOrder ho i v writers nonblock other 0
      generalize p.readvEntry i v writers nonblock other 0 = r at hr hin ⊢
      split_ifs with hneg htotal hshort
      · exact hr
      · exact hr
      · exact hr
      · exact hr.trans (sysReadv_reads_of_pos i writers nonblock other iov (by omega) hin)

theorem step_cases (ho : p.InOrder) (hs : p.Settled) {c : PipeCall} (h : Admits p c) :
    Reads p (p.step c) ∨ Completes p (p.step c) ∧ (p.step c).Awake := by
  cases c with
  | write i buf count readers nonblock =>
    simp only [step, ifAwake]
    split_ifs
    · rcases sysWrite_turned ho hs i nonblock h with ⟨hsame, -⟩ | hdone
      · rw [hsame]
        exact .inl (.refl p)
      · exact .inr hdone
    · exact .inl (.refl p)
  | writev i iov readers nonblock =>
    simp only [step, ifAwake]
    split_ifs
    · exact .inl (.refl p)
    · rcases sysWritev_turned i readers nonblock iov ho hs h with hsame | hdone
      · rw [hsame]
        exact .inl (.refl p)
      · exact .inr hdone
    · exact .inl (.refl p)
  | read i buf count writers nonblock other =>
    left
    simp only [step, ifAwake]
    split_ifs
    · exact sysPipeReadDispatch_reads ho i h
    · exact .refl p
  | readv i iov writers nonblock other =>
    left
    simp only [step, ifAwake]
    split_ifs
    · exact .refl p
    · exact sysReadv_reads i iov ho h
    · exact .refl p
  | signal i =>
    left
    refine ⟨rfl, fun hs ↦ ⟨fun j w hw ↦ ?_, fun j hj ↦ ?_⟩⟩
    · have hw : update p.waiting i none j = some w := hw
      rw [update_apply] at hw
      split_ifs at hw
      exact hs.ready j w hw
    · have hj : update p.waiting i none j ≠ none := hj
      rw [update_apply] at hj
      split_ifs at hj
      · exact absurd rfl hj
      · exact hs.empty j hj
  | user mem => exact .inl ⟨rfl, fun hs ↦ ⟨hs.ready, hs.empty⟩⟩

theorem step_settled (ho : p.InOrder) (hs : p.Settled) {c : PipeCall} (h : Admits p c) :
    (p.step c).Settled := by
  rcases step_cases ho hs h with hr | ⟨-, hawake⟩
  · exact hr.settled hs
  · exact hawake.settled

theorem start_settled (data : ℕ → UInt8) (mem : ℕ → ℕ → UInt8) (space : Slot → ℕ) :
    (start data mem space).Settled :=
  Awake.settled (fun _ ↦ rfl)

theorem run_inOrder (ho : p.InOrder) (l : List PipeCall) : (p.run l).InOrder := by
  induction l generalizing p with
  | nil => exact ho
  | cons c l ih => exact ih (step_inOrder ho c)

theorem run_settled (ho : p.InOrder) (hs : p.Settled) {l : List PipeCall}
    (h : Along step Admits p l) : (p.run l).Settled := by
  have hboth : (p.run l).InOrder ∧ (p.run l).Settled :=
    h.invariant (I := fun p ↦ p.InOrder ∧ p.Settled)
      (fun _ c hi hc ↦ ⟨step_inOrder hi.1 c, step_settled hi.1 hi.2 hc⟩) ⟨ho, hs⟩
  exact hboth.2

/-- The byte stream of a pipe, after any calls of its readers and writers. -/
theorem pipe_stream (data : ℕ → UInt8) (mem : ℕ → ℕ → UInt8) (space : Slot → ℕ)
    (l : List PipeCall) :
    let p := (start data mem space).run l
    p.delivered ++ p.ring.toList pipeCap = p.accepted ∧
      p.ring.count ≤ pipeCap ∧ p.ring.wpos = (p.ring.rpos + p.ring.count) % pipeCap ∧
      (Along step Admits (start data mem space) l →
        ∀ c, Admits p c → (p.step c).accepted ≠ p.accepted → Completes p (p.step c)) := by
  intro p
  have ho : p.InOrder := run_inOrder (start_inOrder data mem space) l
  obtain ⟨m, hm, heq⟩ := id ho
  refine ⟨by rw [hm.toList, heq], hm.count_le, hm.wpos, fun h c hc hne ↦ ?_⟩
  have hs : p.Settled := run_settled (start_inOrder data mem space) (start_settled data mem space) h
  rcases step_cases ho hs hc with hr | ⟨hdone, -⟩
  · exact absurd hr.accepted hne
  · exact hdone

def sevens : Pipe := start (fun _ ↦ 0) (fun _ _ ↦ 7) (fun i ↦ i)

theorem pipe_stream_one_reader :
    Completes (sevens.run [.read 1 1 1 true false true])
      ((sevens.run [.read 1 1 1 true false true]).step (.write 0 1 2 true false)) := by
  have hread : Along step Admits sevens [.read 1 1 1 true false true] := ⟨fun _ ↦ by decide, trivial⟩
  refine (pipe_stream _ _ _ [.read 1 1 1 true false true]).2.2.2 hread (.write 0 1 2 true false)
    (fun _ ↦ ?_) ?_
  · decide
  · decide +kernel

/-- One byte arrives for two readers, and the second is told that the pipe is at its end. -/
theorem second_reader_gets_nothing :
    (sevens.run [.read 1 1 1 true false true, .read 2 1 1 true false true]).waiting 2 =
      some ⟨1, 1⟩ ∧ (sevens.run [.read 1 1 1 true false true, .read 2 1 1 true false true,
        .write 0 1 1 true false]).accepted = [7] ∧
      (sevens.run [.read 1 1 1 true false true, .read 2 1 1 true false true,
        .write 0 1 1 true false]).reads =
        [(1, [7]), (2, [])] ∧
      ¬ Completes (sevens.run [.read 1 1 1 true false true, .read 2 1 1 true false true])
        (sevens.run [.read 1 1 1 true false true, .read 2 1 1 true false true,
          .write 0 1 1 true false]) := by
  have hreads :
      (sevens.run [.read 1 1 1 true false true, .read 2 1 1 true false true,
        .write 0 1 1 true false]).reads =
      [(1, [7]), (2, [])] := by decide +kernel
  refine ⟨by decide +kernel, by decide +kernel, hreads, ?_⟩
  rintro ⟨new, hnew, hall⟩
  rw [hreads] at hnew
  obtain ⟨out, hout, hmem⟩ := (hall 2 (by decide +kernel)).2
  have hnew : [((1 : Slot), [(7 : UInt8)]), (2, [])] = new := hnew
  subst hnew
  have hempty : ∀ r ∈ [((1 : Slot), [(7 : UInt8)]), (2, [])], r.1 = 2 → r.2 = [] := by decide
  exact hout (hempty _ hmem rfl)

end YabroOS.Stream.Pipe
