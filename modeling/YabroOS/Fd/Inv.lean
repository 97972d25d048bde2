import YabroOS.Fd.Tables

namespace YabroOS

open Function

def Obj.isSide : Obj → Bool
  | .side _ _ => true
  | _ => false

/-- The things that an invariant with or without sockets is about. -/
def Obj.Seen (full : Bool) (o : Obj) : Prop := o.isSide = true → full = true

theorem Obj.Seen.of_not_side {full : Bool} {o : Obj} (ho : o.isSide = false) : o.Seen full := by
  intro hs
  simp [ho] at hs

namespace UnixSocketState

/-- What holds of a socket by itself; `held` and `shut` tell what has happened to it. -/
structure Whole (st : UnixSocketState) (held shut : Bool → Bool) : Prop where
  refs : st.refs = st.sideRefs false + st.sideRefs true
  pending : st.pending ≠ [] → st.listener = true ∧ st.refs ≠ 0
  side : ∀ b, st.sideRefs b ≠ 0 → held b = true
  closed : st.refs ≠ 0 → ∀ b, st.closed b = true ↔ held b = true ∧ st.sideRefs b = 0 ∨ shut b = true

variable {st : UnixSocketState} {held shut : Bool → Bool} {b : Bool}

theorem dropRef_refs (st : UnixSocketState) (b : Bool) : (st.dropRef b).refs = st.refs - 1 := by
  simp only [dropRef]
  split_ifs <;> rfl

theorem dropRef_pending (st : UnixSocketState) (b : Bool) :
    (st.dropRef b).pending = if st.refs - 1 = 0 then [] else st.pending := by
  simp only [dropRef]
  split_ifs <;> rfl

theorem dropRef_listener (st : UnixSocketState) (b : Bool) :
    (st.dropRef b).listener = if st.refs - 1 = 0 then false else st.listener := by
  simp only [dropRef]
  split_ifs <;> rfl

theorem dropRef_closed (hb : st.sideRefs b ≠ 0) :
    (st.dropRef b).closed = if st.sideRefs b = 1 then update st.closed b true else st.closed := by
  simp only [dropRef, ne_eq, hb, not_false_eq_true, if_true]
  split_ifs <;> rfl

theorem Whole.dropRef (h : st.Whole held shut) (hb : st.sideRefs b ≠ 0) :
    (st.dropRef b).Whole held shut := by
  have hside := Fds.dropRef_sideRefs st b
  constructor
  case refs =>
    have := h.refs
    rw [dropRef_refs, hside]
    cases b <;> simp <;> omega
  case pending =>
    rw [dropRef_pending, dropRef_listener, dropRef_refs]
    split_ifs with hz
    · exact fun hc ↦ absurd rfl hc
    · exact fun hp ↦ ⟨(h.pending hp).1, hz⟩
  case side =>
    intro b' hb'
    rw [hside] at hb'
    by_cases he : b' = b
    · exact he ▸ h.side b hb
    · rw [update_of_ne he] at hb'
      exact h.side b' hb'
  case closed =>
    intro hr b'
    rw [dropRef_refs] at hr
    have hclosed := h.closed (by omega) b'
    rw [dropRef_closed hb, hside]
    by_cases he : b' = b
    · subst he
      rw [update_self]
      have hheld := h.side b' hb
      split_ifs with h₁
      · simp [h₁, hheld]
      · have h₂ : ¬ st.sideRefs b' - 1 = 0 := by omega
        simpa [hb, h₂] using hclosed
    · rw [update_of_ne he]
      split_ifs
      · rwa [update_of_ne he]
      · exact hclosed

theorem Whole.retain (h : st.Whole held shut) (hb : st.sideRefs b ≠ 0) :
    Whole { st with refs := st.refs + 1, sideRefs := update st.sideRefs b (st.sideRefs b + 1) } held
      shut := by
  have hrefs := h.refs
  have hpos : st.refs ≠ 0 := by
    cases b <;> omega
  constructor
  case refs =>
    cases b <;> simp <;> omega
  case pending => exact fun hp ↦ ⟨(h.pending hp).1, Nat.succ_ne_zero _⟩
  case side =>
    intro b' hb'
    by_cases he : b' = b
    · exact he ▸ h.side b hb
    · simp only [update_of_ne he] at hb'
      exact h.side b' hb'
  case closed =>
    intro _ b'
    have hclosed := h.closed hpos b'
    by_cases he : b' = b
    · subst he
      simpa [hb] using hclosed
    · simpa [update_of_ne he] using hclosed

end UnixSocketState

namespace Fds

variable {s s₁ s' : Fds} {table : Fin 32} {fd : ℕ} {d : FileDesc} {x : FdLinks} {o : Obj} {t : Slot}

/-- The entries of pending queues that name a socket; each stands for its second side. -/
def waiting (s : Fds) : Obj → ℕ
  | .side i true => ∑ li : Fin 32, (s.unixSockets li).pending.count (i : ℤ)
  | _ => 0

theorem waiting_of_not_side (s : Fds) (ho : o.isSide = false) : s.waiting o = 0 := by
  cases o with
  | side i b => cases ho
  | _ => rfl

structure Keeps (s s' : Fds) : Prop where
  pending : ∀ i, (s'.unixSockets i).pending = (s.unixSockets i).pending
  whole : (∀ i, (s.unixSockets i).Whole (s.held i) (s.shut i)) →
    ∀ i, (s'.unixSockets i).Whole (s'.held i) (s'.shut i)

theorem Keeps.waiting (h : Keeps s s') (o : Obj) : s'.waiting o = s.waiting o := by
  cases o with
  | side i b =>
    cases b
    · rfl
    · exact Finset.sum_congr rfl fun li _ ↦ by rw [h.pending]
  | _ => rfl

theorem Keeps.trans (h : Keeps s s₁) (h' : Keeps s₁ s') : Keeps s s' :=
  ⟨fun i ↦ (h'.pending i).trans (h.pending i), fun hw ↦ h'.whole (h.whole hw)⟩

theorem Keeps.same (hs : s'.unixSockets = s.unixSockets) (hh : s'.held = s.held)
    (hc : s'.shut = s.shut) : Keeps s s' := by
  refine ⟨fun i ↦ by rw [hs], fun h i ↦ ?_⟩
  rw [hs, hh, hc]
  exact h i

/-- The counts are the numbers of holders: those of sockets too if the invariant is `full`, where an
entry of a pending queue is a holder. -/
structure Inv (full : Bool) (s : Fds) : Prop where
  used : s.Used
  tidy : s.view.Tidy
  count : ∀ o, o.Seen full → s.count o = s.view.holders o + s.waiting o
  whole : full = true → ∀ i, (s.unixSockets i).Whole (s.held i) (s.shut i)

/-- The socket `i` can lose `n` references: it has no queue, or it stays. -/
def Spares (s : Fds) (i : Fin 32) (n : ℕ) : Prop :=
  (s.unixSockets i).pending = [] ∨ n < (s.unixSockets i).refs

theorem Keeps.update {i : Fin 32} {st : UnixSocketState}
    (he : s'.unixSockets = update s.unixSockets i st) (hh : s'.held = s.held)
    (hc : s'.shut = s.shut) (hp : st.pending = (s.unixSockets i).pending)
    (hw : (s.unixSockets i).Whole (s.held i) (s.shut i) → st.Whole (s.held i) (s.shut i)) :
    Keeps s s' := by
  refine ⟨fun j ↦ ?_, fun h j ↦ ?_⟩
  · rw [he, update_apply]
    split_ifs with hj
    · rw [hj, hp]
    · rfl
  · rw [he, hh, hc, update_apply]
    split_ifs with hj
    · exact hj ▸ hw (h i)
    · exact h j

theorem keeps_drop {i : Fin 32} {b : Bool} (hb : (s.unixSockets i).sideRefs b ≠ 0)
    (hs : s.Spares i 1) (he : s'.unixSockets = update s.unixSockets i ((s.unixSockets i).dropRef b))
    (hh : s'.held = s.held) (hc : s'.shut = s.shut) : Keeps s s' := by
  refine .update he hh hc ?_ fun h ↦ h.dropRef hb
  rw [UnixSocketState.dropRef_pending]
  obtain hs | hs := hs
  · rw [hs, ite_self]
  · rw [if_neg (by omega)]

theorem keeps_retain {i : Fin 32} {b : Bool} (hb : (s.unixSockets i).sideRefs b ≠ 0)
    (he : s'.unixSockets = update s.unixSockets i { s.unixSockets i with
      refs := (s.unixSockets i).refs + 1
      sideRefs := update (s.unixSockets i).sideRefs b ((s.unixSockets i).sideRefs b + 1) })
    (hh : s'.held = s.held) (hc : s'.shut = s.shut) : Keeps s s' :=
  .update he hh hc rfl fun h ↦ h.retain hb

theorem waiting_seen {full : Bool} (hk : full = true → Keeps s s') (ho : o.Seen full) :
    s'.waiting o = s.waiting o := by
  cases hs : o.isSide with
  | false => rw [waiting_of_not_side s hs, waiting_of_not_side s' hs]
  | true => exact (hk (ho hs)).waiting o

namespace Inv

variable {full : Bool}

theorem same (h : s.Inv full) (hu : s'.Used) (hv : s'.view = s.view)
    (hc : ∀ o, o.Seen full → s'.count o = s.count o) (hk : full = true → Keeps s s') :
    s'.Inv full := by
  refine ⟨hu, hv ▸ h.tidy, fun o ho ↦ ?_, fun hf ↦ (hk hf).whole (h.whole hf)⟩
  rw [hc o ho, hv, h.count o ho, waiting_seen hk ho]

theorem write (h : s.Inv full) (hu : s'.Used) (hv : s'.view = s.view.put table fd d x)
    (hlive : s.taskFdTableRefs table ≠ 0) (hfd : fd < maxFiles)
    (hbare : d.inUse = false ∨ (∃ i b, d.target = .socket i b) → x.sharedOffset = none ∧
    x.inputState = none) (hx : x.sharedOffset = none ∨ ∃ table' fd', s.links table' fd' = x)
    (hc : ∀ o, o.Seen full → s'.count o + s.view.slotHolds table fd o = s.count o + d.holds x o)
    (hk : full = true → Keeps s s') : s'.Inv full := by
  refine ⟨hu, hv ▸ h.tidy.put (fun _ ↦ ⟨hlive, hfd⟩) hbare hx, fun o ho ↦ ?_,
    fun hf ↦ (hk hf).whole (h.whole hf)⟩
  have hp := View.put_holders (v := s.view) (d := d) (x := x) (o := o) hlive hfd
  have := hc o ho
  have := h.count o ho
  rw [hv, waiting_seen hk ho]
  omega

theorem currentFiles_live (h : s.Inv full) (t : Slot) : s.taskFdTableRefs (s.currentFiles t) ≠ 0 :=
  h.tidy.currentFiles_live t

theorem links_of_free (h : s.Inv full) (hin : (s.taskFdTables table fd).inUse = false) :
    (s.links table fd).sharedOffset = none ∧ (s.links table fd).inputState = none :=
  h.tidy.bare table fd (.inl hin)

theorem slotHolds_le_count (h : s.Inv full) (hin : (s.taskFdTables table fd).inUse = true)
    (ho : o.Seen full) : s.view.slotHolds table fd o ≤ s.count o := by
  obtain ⟨hlive, hfd⟩ := h.tidy.live hin
  have h₁ := View.slotHolds_le_holders hlive hfd o
  rw [h.count o ho]
  omega

theorem count_pos (h : s.Inv full) (hin : (s.taskFdTables table fd).inUse = true)
    (ho : o.isSide = false) (hold : s.view.slotHolds table fd o ≠ 0) :
    s.count o ≠ 0 ∧ s.count o < 2 ^ 32 - 1 := by
  have h₁ := h.slotHolds_le_count hin (.of_not_side ho)
  have h₂ := s.view.holders_le o
  have h₃ := h.count o (.of_not_side ho)
  rw [s.waiting_of_not_side ho] at h₃
  omega

theorem side_pos (h : s.Inv full) (hf : full = true) {i : Fin 32} {b : Bool}
    (hin : (s.taskFdTables table fd).inUse = true)
    (ht : (s.taskFdTables table fd).target = .socket i b) : (s.unixSockets i).sideRefs b ≠ 0 := by
  have h₁ := h.slotHolds_le_count (o := .side i b) hin fun _ ↦ hf
  rw [slotHolds_of_inUse hin, ht, Target.endpoint, hits_self] at h₁
  change _ ≤ (s.unixSockets i).sideRefs b at h₁
  omega

theorem copyable (h : s.Inv full) (hin : (s.taskFdTables table fd).inUse = true) :
    s.Copyable (s.taskFdTables table fd) (s.links table fd) := by
  have hslot : ∀ o, s.view.slotHolds table fd o = _ := fun o ↦ slotHolds_of_inUse hin
  constructor
  case input =>
    intro o ho
    refine h.count_pos hin ?_ (by rw [hslot, ho, hits_self]; omega)
    cases hi : (s.links table fd).inputState
      <;> simp only [hi, Option.map, reduceCtorEq, Option.some.injEq] at ho
    rw [← ho]
    rfl
  case epoll =>
    intro o ho
    refine h.count_pos hin ?_ (by rw [hslot, ho, hits_self]; omega)
    cases ht : (s.taskFdTables table fd).target <;>
      simp only [ht, Target.epollObj, reduceCtorEq, Option.some.injEq] at ho
    rw [← ho]
    rfl
  case cell =>
    intro o ho
    refine h.count_pos hin ?_ (by rw [hslot, ho, hits_self]; omega)
    cases hi : (s.links table fd).sharedOffset
      <;> simp only [hi, Option.map, reduceCtorEq, Option.some.injEq] at ho
    rw [← ho]
    rfl

theorem keeps_dropTarget (h : s.Inv full) (hf : full = true)
    (hin : (s.taskFdTables table fd).inUse = true)
    (hs : ∀ i b, (s.taskFdTables table fd).target = .socket i b → s.Spares i 1)
    (he : s'.unixSockets = (s.toIo.dropTarget (s.taskFdTables table fd).target).unixSockets)
    (hh : s'.held = s.held) (hc : s'.shut = s.shut) : Keeps s s' := by
  cases ht : (s.taskFdTables table fd).target with
  | socket i b =>
    rw [ht] at he
    exact keeps_drop (h.side_pos hf hin ht) (hs i b ht) he hh hc
  | _ =>
    rw [ht] at he
    exact .same he hh hc

theorem closeFd (h : s.Inv full) (hin : (s.taskFdTables table fd).inUse = true)
    (hs : full = true → ∀ i b, (s.taskFdTables table fd).target = .socket i b → s.Spares i 1) :
    (s.closeFd table fd).Inv full := by
  obtain ⟨hlive, hfd⟩ := h.tidy.live hin
  obtain ⟨hu, hv, hc⟩ := closeFd_spec h.used hin
  have hk : full = true → Keeps s (s.closeFd table fd) := fun hf ↦ by
    obtain ⟨he, hh, hc⟩ := closeFd_sockets s table fd
    exact h.keeps_dropTarget hf hin (hs hf) he hh hc
  refine ⟨hu, hv ▸ h.tidy.put (fun _ ↦ ⟨hlive, hfd⟩) (fun _ ↦ ⟨rfl, rfl⟩) (.inl rfl), fun o ho ↦ ?_,
    fun hf ↦ (hk hf).whole (h.whole hf)⟩
  rw [waiting_seen hk ho]
  obtain hc | ⟨⟨p, hp⟩, hc⟩ := hc o
  · have hp := View.put_holders (v := s.view) (d := .free) (x := .none) (o := o) hlive hfd
    have := h.count o ho
    rw [FileDesc.holds_free rfl] at hp
    rw [hc, hv]
    omega
  · have hz : s.waiting o = 0 := s.waiting_of_not_side (by obtain rfl | rfl := hp <;> rfl)
    rw [hz, Nat.add_zero]
    exact hc

theorem sysClose (h : s.Inv full) (t : Slot) (fd : ℤ)
    (hs : full = true → ∀ i b, s.target? t fd = some (.socket i b) → s.Spares i 1) :
    (s.sysClose t fd).1.Inv full := by
  rw [Fds.sysClose]
  split_ifs with hv
  · exact h
  · have hv : s.fdValid t fd = true := Bool.not_eq_false _ ▸ hv
    exact h.closeFd (fdValid_iff.1 hv).2.2 fun hf i b ht ↦
      hs hf i b (by rw [target?, if_pos hv, files, ht])

end Inv

end Fds

end YabroOS
