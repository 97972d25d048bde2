import YabroOS.Fd.EndpointCalls

namespace YabroOS

open Function Errno UnixSocketState

theorem FileDesc.holds_bare {d : FileDesc} {x : FdLinks} {o : Obj}
    (hd : d.inUse = false ∨ ∃ i b, d.target = .socket i b)
    (hx : x.sharedOffset = none ∧ x.inputState = none) (ho : o.isSide = false) :
    d.holds x o = 0 := by
  obtain hd | ⟨i, b, hd⟩ := hd
  · exact holds_free hd x o
  · have hne : o ≠ .side i b := by
      rintro rfl
      cases ho
    simp [holds, hd, hx, Target.endpoint, Target.epollObj, hits_of_ne hne]

theorem FileDesc.holds_socket {i : Fin 32} {side : Bool} {flags : ℕ} {x : FdLinks}
    (hx : x.inputState = none) (o : Obj) :
    FileDesc.holds ⟨true, .socket i side, flags⟩ { x with sharedOffset := none } o =
      hits (some (.side i side)) o := by
  simp [holds, hx, Target.endpoint, Target.epollObj]

namespace Fds

variable {full : Bool} {s s₁ s' : Fds} {table li ni : Fin 32} {fd : ℕ} {d : FileDesc} {x : FdLinks}
  {o : Obj} {t : Slot} {i : Fin 32} {side : Bool} {g : UnixSocketState → UnixSocketState}

theorem socketOf_some {fd : ℤ} {i : Fin 32} {b : Bool} (h : s.socketOf t fd = some (i, b)) :
    s.fdValid t fd = true ∧ (s.files t fd.toNat).target = .socket i b := by
  rw [socketOf] at h
  split_ifs at h with hv
  split at h
  · next j side ht =>
    cases h
    exact ⟨hv, ht⟩
  · cases h

theorem sysAccept_cases (s : Fds) (t : Slot) (fd : ℤ) (blocks : Bool) (copied : Option Bool) :
    (s.sysAccept t fd blocks copied).1 = s ∨
      ∃ li side rest n, ∃ i : Fin 32, s.socketOf t fd = some (li, side) ∧
        (s.unixSockets li).listener = true ∧
        (s.unixSockets li).pending = (i : ℤ) :: rest ∧ (s.unixSockets i).refs ≠ 0 ∧
          s.findFreeFd t = some n ∧
        s.sysAccept t fd blocks copied =
          if copied = some false then (s.setSocketSlot t n i true 0, -efault)
          else (((s.setSocketSlot t n i true 0).modifySocket li
            (fun st ↦ { st with pending := rest })).modifySocket i
            (fun st ↦ { st with connected := true }), n) := by
  cases hs : s.socketOf t fd with
  | none => exact .inl (by rw [Fds.sysAccept, hs])
  | some p =>
  obtain ⟨li, side⟩ := p
  by_cases hl : (s.unixSockets li).listener = false
  · exact .inl (by simp only [Fds.sysAccept, hs, hl, if_true])
  have hl : (s.unixSockets li).listener = true := by simpa using hl
  cases hp : (s.unixSockets li).pending with
  | nil => exact .inl (by simp [Fds.sysAccept, hs, hl, hp])
  | cons si rest =>
  by_cases hsi : 0 ≤ si ∧ si < 32
  swap
  · exact .inl (by simp [Fds.sysAccept, hs, hl, hp, hsi])
  obtain ⟨i, rfl⟩ : ∃ i : Fin 32, (i : ℤ) = si := ⟨⟨si.toNat, by omega⟩, by simp; omega⟩
  by_cases hr : (s.unixSockets i).refs = 0
  · exact .inl (by simp [Fds.sysAccept, hs, hl, hp, hr])
  cases hn : s.findFreeFd t with
  | none => exact .inl (by simp [Fds.sysAccept, hs, hl, hp, hr, hn, hsi.2])
  | some n =>
    refine .inr ⟨li, side, rest, n, i, rfl, hl, hp, hr, rfl, ?_⟩
    simp [Fds.sysAccept, hs, hl, hp, hr, hn, hsi.2]

theorem waiting_of_ne (i : Fin 32)
    (h : ∀ k ≠ i, (s'.unixSockets k).pending = (s.unixSockets k).pending) (j : Fin 32) :
    s'.waiting (.side j true) + (s.unixSockets i).pending.count (j : ℤ) =
      s.waiting (.side j true) + (s'.unixSockets i).pending.count (j : ℤ) := by
  have h₁ := Finset.add_sum_erase Finset.univ (fun k ↦ (s'.unixSockets k).pending.count (j : ℤ))
    (Finset.mem_univ i)
  have h₂ := Finset.add_sum_erase Finset.univ (fun k ↦ (s.unixSockets k).pending.count (j : ℤ))
    (Finset.mem_univ i)
  have h₃ : ∑ k ∈ Finset.univ.erase i, (s'.unixSockets k).pending.count (j : ℤ) =
      ∑ k ∈ Finset.univ.erase i, (s.unixSockets k).pending.count (j : ℤ) :=
    Finset.sum_congr rfl fun k hk ↦ by rw [h k (Finset.ne_of_mem_erase hk)]
  rw [waiting, waiting]
  omega

theorem modifySocket_apply (s : Fds) (i : Fin 32) (g : UnixSocketState → UnixSocketState)
    (j : Fin 32) :
    (s.modifySocket i g).unixSockets j = if j = i then g (s.unixSockets j) else s.unixSockets j := by
  by_cases hj : j = i
  · subst hj
    rw [if_pos rfl]
    exact update_self ..
  · rw [if_neg hj]
    exact update_of_ne hj ..

def attach (s : Fds) (t : Slot) (fd : ℕ) (i : Fin 32) (side : Bool) (flags : ℕ) : Fds :=
  ((s.setSocketSlot t fd i side flags).setIo
    ((s.setSocketSlot t fd i side flags).toIo.retainTarget (.socket i side))).hold i side

theorem socketAllocEndpoint_cases (s : Fds) (t : Slot) (i : Fin 32) (side : Bool) (flags : ℕ) :
    s.findFreeFd t = none ∧ s.socketAllocEndpoint t i side flags = (s, none) ∨
      ∃ fd, s.findFreeFd t = some fd ∧
        s.socketAllocEndpoint t i side flags = (s.attach t fd i side flags, some fd) := by
  cases hfd : s.findFreeFd t with
  | none => exact .inl ⟨rfl, by rw [Fds.socketAllocEndpoint, hfd]⟩
  | some fd => exact .inr ⟨fd, rfl, by rw [Fds.socketAllocEndpoint, hfd]; rfl⟩

section Attach

variable (s t fd i side) (flags : ℕ)

theorem attach_view :
    (s.attach t fd i side flags).view =
      s.view.put (s.currentFiles t) fd ⟨true, .socket i side, flags⟩
    { s.links (s.currentFiles t) fd with sharedOffset := none } := rfl

theorem attach_files (fd' : ℕ) : (s.attach t fd i side flags).files t fd' =
    if fd' = fd then ⟨true, .socket i side, flags⟩ else s.files t fd' := by
  by_cases h : fd' = fd <;>
    simp [attach, files, currentFiles, Fds.hold, setIo, Io.retainTarget, Io.modifySocket,
      Fds.setSocketSlot, setSlot,
      Io.setFd, h]

theorem attach_sockets :
    (s.attach t fd i side flags).unixSockets = update s.unixSockets i { s.unixSockets i with
    refs := (s.unixSockets i).refs + 1
    sideRefs := update (s.unixSockets i).sideRefs side ((s.unixSockets i).sideRefs side + 1) } := rfl

theorem attach_held :
    (s.attach t fd i side flags).held = update s.held i (update (s.held i) side true) := rfl

theorem attach_shut : (s.attach t fd i side flags).shut = s.shut := rfl

end Attach

def detach (s : Fds) (t : Slot) (a : ℕ) (i : Fin 32) : Fds :=
  (s.setSlot (s.currentFiles t) a ⟨false, .closed, 0⟩ (s.links (s.currentFiles t) a)).modifySocket i
    (fun st ↦ { st with refs := 0, sideRefs := update st.sideRefs false 0 })

/-- A pair of sockets that is given up because its numbers cannot be written. -/
def unpair (s : Fds) (t : Slot) (a b : ℕ) (i : Fin 32) : Fds :=
  let s := s.setSlot (s.currentFiles t) a ⟨false, .socket i false, 0⟩ (s.links (s.currentFiles t) a)
  let s := s.setSlot (s.currentFiles t) b ⟨false, .socket i true, 0⟩ (s.links (s.currentFiles t) b)
  s.modifySocket i (fun st ↦ { st with refs := 0 })

/-- There is at most one free number in the table of a task. -/
def OneFree (s : Fds) (t : Slot) : Prop :=
  ∀ a b, a < maxFiles → b < maxFiles → (s.files t a).inUse = false →
    (s.files t b).inUse = false → a = b

theorem pairSlot_lt (s : Fds) : s.pairSi % 32 < 32 := Nat.mod_lt _ (by decide)

def pairSlot (s : Fds) : Fin 32 := ⟨s.pairSi % 32, pairSlot_lt s⟩

theorem sysSocketpair_cases (s : Fds) (t : Slot) (domain : ℤ) (type : ℕ) (sv copied : Bool) :
    (∃ n rc, s.sysSocketpair t domain type sv copied = ({ s with pairSi := n }, rc)) ∨
      ((domain = 1 ∧ type % 16 = 1) ∧ sv = true ∧ (s.unixSockets s.pairSlot).refs = 0 ∧
        ∃ s₀, s₀ = ({ s with pairSi := s.pairSi + 1 } : Fds).clearSocket s.pairSlot false ∧
        (s₀.findFreeFd t = none ∧ s.sysSocketpair t domain type sv copied = (s₀, -emfile) ∨
        ∃ a s₁, s₀.findFreeFd t = some a ∧ s₁ = s₀.attach t a s.pairSlot false 0 ∧
          (s₁.findFreeFd t = none ∧
            s.sysSocketpair t domain type sv copied = (s₁.detach t a s.pairSlot, -emfile) ∨
          ∃ b, s₁.findFreeFd t = some b ∧
            s.sysSocketpair t domain type sv copied =
              if copied then (s₁.attach t b s.pairSlot true 0, 0)
              else ((s₁.attach t b s.pairSlot true 0).unpair t a b s.pairSlot, -efault)))) := by
  by_cases h₁ : domain ≠ 1 ∨ type % 16 ≠ 1
  · exact .inl ⟨s.pairSi, _, by rw [Fds.sysSocketpair, if_pos h₁]⟩
  by_cases h₂ : sv = false
  · exact .inl ⟨s.pairSi, _, by rw [Fds.sysSocketpair, if_neg h₁, if_pos h₂]⟩
  have hslot : (⟨s.pairSi % 32, Nat.mod_lt _ (by decide)⟩ : Fin 32) = s.pairSlot := rfl
  by_cases h₃ : (s.unixSockets s.pairSlot).refs ≠ 0
  · refine .inl ⟨s.pairSi + 1, -emfile, ?_⟩
    rw [Fds.sysSocketpair, if_neg h₁, if_neg h₂]
    dsimp only
    rw [hslot, if_pos h₃]
  refine .inr ⟨by simpa using h₁, by simpa using h₂, not_not.1 h₃, _, rfl, ?_⟩
  set s₀ := ({ s with pairSi := s.pairSi + 1 } : Fds).clearSocket s.pairSlot false
  obtain ⟨hfd, hs⟩ | ⟨a, hfd, hs⟩ := s₀.socketAllocEndpoint_cases t s.pairSlot false 0
  · refine .inl ⟨hfd, ?_⟩
    rw [Fds.sysSocketpair, if_neg h₁, if_neg h₂]
    dsimp only
    rw [hslot, if_neg h₃, hs]
  refine .inr ⟨a, _, hfd, rfl, ?_⟩
  obtain ⟨hfd', hs'⟩ | ⟨b, hfd', hs'⟩ :=
    (s₀.attach t a s.pairSlot false 0).socketAllocEndpoint_cases t s.pairSlot true 0
  · refine .inl ⟨hfd', ?_⟩
    rw [Fds.sysSocketpair, if_neg h₁, if_neg h₂]
    dsimp only
    rw [hslot, if_neg h₃, hs]
    dsimp only
    rw [hs']
    rfl
  · refine .inr ⟨b, hfd', ?_⟩
    rw [Fds.sysSocketpair, if_neg h₁, if_neg h₂]
    dsimp only
    rw [hslot, if_neg h₃, hs]
    dsimp only
    rw [hs']
    rfl

def connectTo (s : Fds) (t : Slot) (fd : ℕ) (old : Fin 32) (side : Bool) (li ni : Fin 32) : Fds :=
  let s := ({ s with connectSi := (ni + 1) % 32 } : Fds).clearSocket ni false
  let s := s.modifySocket old (fun st ↦ st.dropRef side)
  let s := (s.setSocketSlot t fd ni false 0).modifySocket ni (fun st ↦
    { st with refs := 2, sideRefs := fun _ ↦ 1, connected := true })
  let s := (s.hold ni false).hold ni true
  s.modifySocket li (fun st ↦ { st with pending := st.pending ++ [(ni : ℤ)] })

theorem connectTo_new (s : Fds) (t : Slot) (fd : ℕ) (side : Bool) {old : Fin 32} (hni : ni ≠ li)
    (hold : ni ≠ old) :
    (s.connectTo t fd old side li ni).unixSockets ni =
      { UnixSocketState.zero with refs := 2, sideRefs := fun _ ↦ 1, connected := true } := by
  simp [connectTo, Fds.modifySocket, setIo, Io.modifySocket, hold, Fds.hold, Fds.setSocketSlot,
    setSlot, Io.setFd,
    clearSocket, hni]

theorem connectTo_of_ne (s : Fds) (t : Slot) (fd : ℕ) (old : Fin 32) (side : Bool) (li : Fin 32)
    {j : Fin 32} (hj : j ≠ ni) :
    (s.connectTo t fd old side li ni).unixSockets j =
      if j = li then { (s.modifySocket old (fun st ↦ st.dropRef side)).unixSockets j with
        pending := ((s.modifySocket old (fun st ↦ st.dropRef side)).unixSockets j).pending ++
          [(ni : ℤ)] }
      else (s.modifySocket old (fun st ↦ st.dropRef side)).unixSockets j := by
  have hbase : ((({ s with connectSi := (ni + 1) % 32 } : Fds).clearSocket ni false).modifySocket old
      (fun st ↦ st.dropRef side)).unixSockets j =
        (s.modifySocket old (fun st ↦ st.dropRef side)).unixSockets j := by
    rw [modifySocket_apply, modifySocket_apply]
    simp [clearSocket, Io.modifySocket, hj]
  have hmid : ∀ s₁ : Fds, ((((s₁.setSocketSlot t fd ni false 0).modifySocket ni (fun st ↦
      { st with refs := 2, sideRefs := fun _ ↦ 1, connected := true })).hold ni false).hold ni
        true).unixSockets j =
      s₁.unixSockets j := fun s₁ ↦ update_of_ne hj ..
  rw [connectTo, modifySocket_apply, hmid, hbase]

theorem connectTo_held (s : Fds) (t : Slot) (fd : ℕ) (old : Fin 32) (side : Bool) (li ni : Fin 32) :
    (s.connectTo t fd old side li ni).held = update s.held ni (fun _ ↦ true) := by
  have hboth : update (update (fun _ ↦ false) false true) true true = fun _ : Bool ↦ true := by
    funext b
    cases b <;> rfl
  simp [connectTo, Fds.modifySocket, setIo, Fds.hold, Fds.setSocketSlot, setSlot, clearSocket, hboth]

theorem sysConnect_cases (s : Fds) (t : Slot) (fd : ℤ) (addr : SockAddr) :
    (∃ rc, s.sysConnect t fd addr = (s, rc)) ∨
      ∃ old side path li ni, s.socketOf t fd = some (old, side) ∧ addr = .path path ∧
        s.socketFindListener path = some li ∧ (s.unixSockets li).pending.length < 4 ∧
        nextFree s.connectSi (fun j ↦ j ≠ li ∧ (s.unixSockets j).refs = 0) = some ni ∧
        s.sysConnect t fd addr = (s.connectTo t fd.toNat old side li ni, 0) := by
  cases hs : s.socketOf t fd with
  | none => exact .inl ⟨_, by rw [Fds.sysConnect, hs]⟩
  | some p =>
  obtain ⟨old, side⟩ := p
  cases addr with
  | bad e => exact .inl ⟨_, by rw [Fds.sysConnect, hs]⟩
  | path path =>
  cases hl : s.socketFindListener path with
  | none => exact .inl ⟨_, by rw [Fds.sysConnect, hs]; dsimp only; rw [hl]⟩
  | some li =>
  by_cases hp : 4 ≤ (s.unixSockets li).pending.length
  · exact .inl ⟨_, by rw [Fds.sysConnect, hs]; dsimp only; rw [hl]; exact if_pos hp⟩
  cases hn : nextFree s.connectSi (fun j ↦ j ≠ li ∧ (s.unixSockets j).refs = 0) with
  | none =>
    exact .inl ⟨_, by rw [Fds.sysConnect, hs]; dsimp only; rw [hl]; dsimp only; rw [if_neg hp, hn]⟩
  | some ni =>
    refine .inr ⟨old, side, path, li, ni, rfl, rfl, hl, by omega, hn, ?_⟩
    rw [Fds.sysConnect, hs]
    dsimp only
    rw [hl]
    dsimp only
    rw [if_neg hp, hn]
    rfl

theorem not_oneFree {s₀ : Fds} {a b : ℕ} (ha : s₀.findFreeFd t = some a)
    (hfiles : s₀.files t = s.files t) (hb : (s₀.attach t a i false 0).findFreeFd t = some b) :
    ¬s.OneFree t := by
  intro hone
  obtain ⟨hamax, hafree⟩ := findFreeFd_some ha
  obtain ⟨hbmax, hbfree⟩ := findFreeFd_some hb
  have hne : b ≠ a := by
    rintro rfl
    rw [← files, attach_files, if_pos rfl] at hbfree
    cases hbfree
  rw [← files, attach_files, if_neg hne, hfiles] at hbfree
  rw [← files, hfiles] at hafree
  exact hne (hone b a hbmax hamax hbfree hafree)

/-- What binding, listening and shutting down leave: the state before, or one socket that keeps its
references, and its queue as well unless it is one of `C` that listens. -/
inductive Adjusts (s : Fds) (C : Fin 32 → Prop) : Fds → Prop
  | same : Adjusts s C s
  | bound (i : Fin 32) (path : List UInt8 → List UInt8) :
      Adjusts s C (s.modifySocket i fun st ↦ { st with path := path st.path, bound := true })
  | listens {i : Fin 32} (hC : C i) :
      Adjusts s C (s.modifySocket i fun st ↦ { st with listener := true, pending := [] })
  | shuts (i : Fin 32) (side : Bool) :
      Adjusts s C { s with
        toIo := s.toIo.modifySocket i (fun st ↦ { st with closed := update st.closed side true })
        shut := update s.shut i (update (s.shut i) side true) }

theorem sysBind_adjusts (s : Fds) (t : Slot) (fd : ℤ) (addr : SockAddr) (node : SocketNode) :
    s.Adjusts (fun _ ↦ False) (s.sysBind t fd addr node).1 := by
  rw [sysBind]
  split
  · exact .same
  next i _ _ =>
  by_cases hb : (s.unixSockets i).bound ∨ (s.unixSockets i).connected
  · rw [if_pos hb]
    exact .same
  rw [if_neg hb]
  cases addr with
  | bad e => exact .same
  | path path =>
    dsimp only
    split_ifs
    · exact .bound i id
    · exact .same
    · exact .same
    · exact .same
    · exact .bound i fun _ ↦ path

theorem sysListen_adjusts {C : Fin 32 → Prop} (s : Fds) (t : Slot) (fd backlog : ℤ)
    (hC : ∀ i side, s.socketOf t fd = some (i, side) → 0 ≤ backlog →
      (s.unixSockets i).connected = false → (s.unixSockets i).bound = true → C i) :
    s.Adjusts C (s.sysListen t fd backlog).1 := by
  rw [sysListen]
  split
  · exact .same
  next i side hi =>
  split_ifs with h₁ h₂ h₃
  · exact .same
  · exact .same
  · exact .same
  · exact .listens (hC i side hi (by omega) (by simpa using h₂) (by simpa using h₃))

theorem sysShutdown_adjusts (s : Fds) (t : Slot) (fd how : ℤ) :
    s.Adjusts (fun _ ↦ False) (s.sysShutdown t fd how).1 := by
  rw [sysShutdown]
  split
  · exact .same
  next i side _ =>
  split_ifs
  · exact .same
  · exact .same
  · exact .shuts i side

theorem sysSocket_cases (s : Fds) (t : Slot) (domain : ℤ) (type : ℕ) (protocol : ℤ) :
    (∃ rc, s.sysSocket t domain type protocol = (s, rc)) ∨
      ∃ n m i netlink flags, (s.unixSockets i).refs = 0 ∧ s.sysSocket t domain type protocol =
        ({ s with socketSi := n, netlinkNi := m } : Fds).socketNew t i netlink flags := by
  rw [sysSocket]
  by_cases h₁ : domain = 1 ∧ type % 16 = 1
  · rw [if_pos h₁]
    split
    · exact .inl ⟨_, rfl⟩
    · next i hi => exact .inr ⟨(i + 1) % 32, s.netlinkNi, i, false, _, nextFree_some hi, rfl⟩
  rw [if_neg h₁]
  by_cases h₂ : domain = 16 ∧ type % 16 = 2 ∧ protocol = 15
  · rw [if_pos h₂]
    split
    · exact .inl ⟨_, rfl⟩
    · next i hi => exact .inr ⟨s.socketSi, (i + 1) % 32, i, true, _, nextFree_some hi, rfl⟩
  · rw [if_neg h₂]
    exact .inl ⟨_, rfl⟩

/-- The sockets after an accept: the listener's queue is shorter and the accepted socket connected.
-/
theorem accepted_socket (s : Fds) (t : Slot) (n : ℕ) (i li : Fin 32) (rest : List ℤ) (j : Fin 32) :
    (((s.setSocketSlot t n i true 0).modifySocket li
      (fun st ↦ { st with pending := rest })).modifySocket i
      (fun st ↦ { st with connected := true })).unixSockets j = { s.unixSockets j with
        pending := if j = li then rest else (s.unixSockets j).pending
        connected := if j = i then true else (s.unixSockets j).connected } := by
  rw [modifySocket_apply, modifySocket_apply]
  split_ifs <;> rfl

namespace Inv

theorem others (h : s.Inv full) (hv : s'.view = s.view) (hp : s'.pipes = s.pipes)
    (ht : s'.ptySlots = s.ptySlots) (he : s'.epolls = s.epolls)
    (hi : s'.inputOpenStates = s.inputOpenStates) (hc : s'.openDescs = s.openDescs)
    (hs : s'.unixSockets = s.unixSockets) (hh : s'.held = s.held) (hd : s'.shut = s.shut) :
    s'.Inv full := by
  refine h.same ⟨?_, ?_, ?_⟩ hv (fun o _ ↦ ?_) fun _ ↦ .same hs hh hd
  · rw [hc]
    exact h.used.cell
  · rw [hi]
    exact h.used.input
  · rw [he]
    exact h.used.epoll
  · cases o <;> simp only [Fds.count, hp, ht, he, hi, hc, hs]

theorem sockets (h : s.Inv false) (hv : s'.view = s.view) (hp : s'.pipes = s.pipes)
    (ht : s'.ptySlots = s.ptySlots) (he : s'.epolls = s.epolls)
    (hi : s'.inputOpenStates = s.inputOpenStates) (hc : s'.openDescs = s.openDescs) :
    s'.Inv false := by
  refine h.same ⟨?_, ?_, ?_⟩ hv (fun o ho ↦ ?_) nofun
  · rw [hc]
    exact h.used.cell
  · rw [hi]
    exact h.used.input
  · rw [he]
    exact h.used.epoll
  · cases o with
    | side => cases ho rfl
    | _ => simp only [Fds.count, hp, ht, he, hi, hc]

theorem modifySocket (h : s.Inv false) (i : Fin 32) (g : UnixSocketState → UnixSocketState) :
    (s.modifySocket i g).Inv false :=
  h.sockets rfl rfl rfl rfl rfl rfl

theorem hold (h : s.Inv false) (i : Fin 32) (side : Bool) : (s.hold i side).Inv false :=
  h.sockets rfl rfl rfl rfl rfl rfl

theorem setBare (h : s.Inv false) (hlive : s.taskFdTableRefs table ≠ 0) (hfd : fd < maxFiles)
    (hold : (s.taskFdTables table fd).inUse = false ∨
      ∃ i b, (s.taskFdTables table fd).target = .socket i b)
    (hd : d.inUse = false ∨ ∃ i b, d.target = .socket i b)
    (hx : x.sharedOffset = none ∧ x.inputState = none) : (s.setSlot table fd d x).Inv false := by
  have hw := writes_setSlot h.used table fd d x
  refine h.write hw.used hw.view hlive hfd (fun _ ↦ hx) (.inl hx.1) (fun o ho ↦ ?_) nofun
  have ho : o.isSide = false := by
    by_contra hc
    cases ho (by simpa using hc)
  have hslot : s.view.slotHolds table fd o = 0 :=
    FileDesc.holds_bare hold (h.tidy.bare table fd hold) ho
  rw [hw.count, hslot, FileDesc.holds_bare hd hx ho]

theorem setSocketSlot (h : s.Inv false) (t : Slot) (hfd : fd < maxFiles)
    (hold : (s.files t fd).inUse = false ∨ ∃ i b, (s.files t fd).target = .socket i b) (i : Fin 32)
    (side : Bool) (flags : ℕ) : (s.setSocketSlot t fd i side flags).Inv false :=
  h.setBare (h.currentFiles_live t) hfd hold (.inr ⟨i, side, rfl⟩)
    ⟨rfl, (h.tidy.bare (s.currentFiles t) fd hold).2⟩

theorem free_socket (h : s.Inv full) (hf : full = true) (hz : (s.unixSockets i).refs = 0) :
    (∀ b, (s.unixSockets i).sideRefs b = 0) ∧ (s.unixSockets i).pending = [] := by
  have hw := h.whole hf i
  have := hw.refs
  refine ⟨fun b ↦ by cases b <;> omega, not_not.1 fun hp ↦ ?_⟩
  exact (hw.pending hp).2 hz

theorem modifyKeep (h : s.Inv full) (i : Fin 32)
    (hside : (g (s.unixSockets i)).sideRefs = (s.unixSockets i).sideRefs)
    (hp : full = true → (g (s.unixSockets i)).pending = (s.unixSockets i).pending)
    (hw : (s.unixSockets i).Whole (s.held i) (s.shut i) →
      (g (s.unixSockets i)).Whole (s.held i) (s.shut i)) : (s.modifySocket i g).Inv full := by
  refine h.same ⟨h.used.cell, h.used.input, h.used.epoll⟩ rfl (fun o _ ↦ ?_) fun hf ↦
    ⟨fun j ↦ ?_, fun hall j ↦ ?_⟩
  · rw [Fds.modifySocket, count_socket, hside]
    split_ifs with h₁ h₂
    · rw [h₁]
      rfl
    · rw [h₂]
      rfl
    · rfl
  · by_cases hj : j = i
    · subst hj
      exact (congrArg UnixSocketState.pending (update_self ..)).trans (hp hf)
    · exact congrArg UnixSocketState.pending (update_of_ne hj ..)
  · by_cases hj : j = i
    · subst hj
      rw [show (s.modifySocket j g).unixSockets j = g (s.unixSockets j) from update_self ..]
      exact hw (hall j)
    · rw [show (s.modifySocket i g).unixSockets j = s.unixSockets j from update_of_ne hj ..]
      exact hall j

theorem clearFree (h : s.Inv full) (hz : (s.unixSockets i).refs = 0) (netlink : Bool) :
    (s.clearSocket i netlink).Inv full := by
  have hnew : (s.clearSocket i netlink).unixSockets i = .zero := update_self ..
  have hother : ∀ j ≠ i, (s.clearSocket i netlink).unixSockets j = s.unixSockets j :=
    fun j hj ↦ update_of_ne hj ..
  refine h.same ⟨h.used.cell, h.used.input, h.used.epoll⟩ rfl (fun o ho ↦ ?_) fun hf ↦
    ⟨fun j ↦ ?_, fun hall j ↦ ?_⟩
  · cases o with
    | side j b =>
      by_cases hj : j = i
      · subst hj
        simp only [Fds.count, hnew, (h.free_socket (ho rfl) hz).1]
        rfl
      · simp only [Fds.count, hother j hj]
    | _ => rfl
  · by_cases hj : j = i
    · subst hj
      rw [hnew, (h.free_socket hf hz).2]
      rfl
    · rw [hother j hj]
  · by_cases hj : j = i
    · subst hj
      rw [hnew]
      exact ⟨rfl, fun hc ↦ absurd rfl hc, fun _ hc ↦ absurd rfl hc, fun hc ↦ absurd rfl hc⟩
    · rw [hother j hj, show (s.clearSocket i netlink).held j = s.held j from update_of_ne hj ..,
        show (s.clearSocket i netlink).shut j = s.shut j from update_of_ne hj ..]
      exact hall j

theorem attach (h : s.Inv full) (t : Slot) (hmax : fd < maxFiles)
    (hfree : (s.files t fd).inUse = false) (i : Fin 32) (side : Bool) (flags : ℕ)
    (hw : full = true → Whole { s.unixSockets i with
        refs := (s.unixSockets i).refs + 1
        sideRefs := update (s.unixSockets i).sideRefs side ((s.unixSockets i).sideRefs side + 1) }
      (update (s.held i) side true) (s.shut i)) : (s.attach t fd i side flags).Inv full := by
  have hlinks := h.links_of_free hfree
  refine h.write ⟨h.used.cell, h.used.input, h.used.epoll⟩ (attach_view ..) (h.currentFiles_live t)
    hmax (fun _ ↦ ⟨rfl, hlinks.2⟩) (.inl rfl) (fun o _ ↦ ?_) fun hf ↦ ⟨fun j ↦ ?_, fun hall j ↦ ?_⟩
  · have ha := (adds_target h.used (.socket i side)).count o
    have hcount : (s.attach t fd i side flags).count o =
        (s.setIo (s.toIo.retainTarget (.socket i side))).count o := by
      cases o <;> rfl
    rw [hcount, ha, slotHolds_of_free hfree]
    exact congrArg (s.count o + ·) (FileDesc.holds_socket hlinks.2 o).symm
  · by_cases hj : j = i <;> simp [attach_sockets, hj]
  · by_cases hj : j = i
    · subst hj
      simpa [attach_sockets, attach_held, attach_shut] using hw hf
    · simpa [attach_sockets, attach_held, attach_shut, hj] using hall j

theorem attachFirst (h : s.Inv full) (t : Slot) (hz : (s.unixSockets i).refs = 0) (netlink : Bool)
    (flags : ℕ) (hfd : (s.clearSocket i netlink).findFreeFd t = some fd) :
    ((s.clearSocket i netlink).attach t fd i false flags).Inv full := by
  obtain ⟨hmax, hfree⟩ := findFreeFd_some hfd
  refine (h.clearFree hz netlink).attach t hmax hfree i false flags fun _ ↦ ?_
  have hnew : (s.clearSocket i netlink).unixSockets i = .zero := update_self ..
  have hheld : (s.clearSocket i netlink).held i = fun _ ↦ false := update_self ..
  have hshut : (s.clearSocket i netlink).shut i = fun _ ↦ false := update_self ..
  rw [hnew, hheld, hshut]
  refine ⟨rfl, fun hc ↦ absurd rfl hc, fun b hb ↦ ?_, fun _ b ↦ ?_⟩
  · cases b
    · rfl
    · exact absurd rfl hb
  · cases b <;> simp [UnixSocketState.zero]

theorem socketNew (h : s.Inv full) (t : Slot) (hz : (s.unixSockets i).refs = 0) (netlink : Bool)
    (flags : ℕ) : (s.socketNew t i netlink flags).1.Inv full := by
  rw [Fds.socketNew]
  obtain ⟨-, hs⟩ | ⟨fd, hfd, hs⟩ :=
    (s.clearSocket i netlink).socketAllocEndpoint_cases t i false flags
  · rw [hs]
    exact h.clearFree hz netlink
  · rw [hs]
    exact h.attachFirst t hz netlink flags hfd

theorem sysSocket (h : s.Inv full) (t : Slot) (domain : ℤ) (type : ℕ) (protocol : ℤ) :
    (s.sysSocket t domain type protocol).1.Inv full := by
  obtain ⟨rc, hs⟩ | ⟨n, m, i, netlink, flags, hz, hs⟩ := s.sysSocket_cases t domain type protocol
  · rwa [hs]
  · have hstart : ({ s with socketSi := n, netlinkNi := m } : Fds).Inv full :=
      h.others rfl rfl rfl rfl rfl rfl rfl rfl rfl
    rw [hs]
    exact hstart.socketNew t hz netlink flags

theorem adjusts {C : Fin 32 → Prop} (h : s.Inv full) (ha : s.Adjusts C s')
    (hC : full = true → ∀ i, C i → (s.unixSockets i).pending = []) : s'.Inv full := by
  cases ha with
  | same => exact h
  | bound i path =>
    exact h.modifyKeep i rfl (fun _ ↦ rfl) fun hw ↦ ⟨hw.refs, hw.pending, hw.side, hw.closed⟩
  | listens hi =>
    exact h.modifyKeep _ rfl (fun hf ↦ (hC hf _ hi).symm) fun hw ↦
      ⟨hw.refs, fun hc ↦ absurd rfl hc, hw.side, hw.closed⟩
  | shuts i side =>
    refine h.same ⟨h.used.cell, h.used.input, h.used.epoll⟩ rfl (fun o _ ↦ ?_) fun _ ↦
      ⟨fun j ↦ ?_, fun hall j ↦ ?_⟩
    · cases o with
      | side j b => by_cases hj : j = i <;> simp [Fds.count, Io.modifySocket, hj]
      | _ => rfl
    · by_cases hj : j = i <;> simp [Io.modifySocket, hj]
    · have hw := hall j
      by_cases hj : j = i
      · subst hj
        simp only [Io.modifySocket, update_self]
        refine ⟨hw.refs, hw.pending, hw.side, fun hr b ↦ ?_⟩
        by_cases hb : b = side
        · simp [hb]
        · simpa [hb] using hw.closed hr b
      · simpa [Io.modifySocket, hj] using hw

theorem accepted (h : s.Inv full) (t : Slot) {rest : List ℤ} {n : ℕ}
    (hp : (s.unixSockets li).pending = (i : ℤ) :: rest) (hn : s.findFreeFd t = some n) :
    (((s.setSocketSlot t n i true 0).modifySocket li
      (fun st ↦ { st with pending := rest })).modifySocket i
      (fun st ↦ { st with connected := true })).Inv full := by
  obtain ⟨hmax, hfree⟩ := findFreeFd_some hn
  have hlinks := h.links_of_free hfree
  set s' := ((s.setSocketSlot t n i true 0).modifySocket li
    (fun st ↦ { st with pending := rest })).modifySocket i
    (fun st ↦ { st with connected := true }) with hs'
  have hsock : ∀ j, s'.unixSockets j = _ := accepted_socket s t n i li rest
  have hview : s'.view = s.view.put (s.currentFiles t) n ⟨true, .socket i true, 0⟩
      { s.links (s.currentFiles t) n with sharedOffset := none } := rfl
  refine ⟨⟨h.used.cell, h.used.input, h.used.epoll⟩, ?_, fun o ho ↦ ?_, fun hf j ↦ ?_⟩
  · rw [hview]
    exact h.tidy.put (fun _ ↦ ⟨h.currentFiles_live t, hmax⟩) (fun _ ↦ ⟨rfl, hlinks.2⟩) (.inl rfl)
  · have hput := View.put_holders (v := s.view) (d := ⟨true, .socket i true, 0⟩)
      (x := { s.links (s.currentFiles t) n with sharedOffset := none }) (o := o)
        (h.currentFiles_live t) hmax
    rw [slotHolds_of_free hfree, FileDesc.holds_socket hlinks.2] at hput
    have hcount := h.count o ho
    have hsame : s'.count o = s.count o := by
      cases o with
      | side j b => simp only [Fds.count, hsock]
      | _ => rfl
    have hwait : s'.waiting o + hits (some (.side i true)) o = s.waiting o := by
      cases o with
      | side j b =>
        cases b with
        | false => simp [waiting, hits]
        | true =>
          have hq := waiting_of_ne (s := s) li (fun k hk ↦ by rw [hsock, if_neg hk]) j
          have hli : (s'.unixSockets li).pending = rest := by rw [hsock, if_pos rfl]
          rw [hli, hp] at hq
          by_cases hj : j = i
          · subst hj
            rw [List.count_cons_self] at hq
            rw [hits_self]
            omega
          · have hne : (i : ℤ) ≠ (j : ℤ) := fun hc ↦ hj (Fin.ext (by omega))
            have hside : Obj.side j true ≠ Obj.side i true := fun hc ↦ hj (by injection hc)
            rw [List.count_cons_of_ne hne] at hq
            rw [hits_of_ne hside]
            omega
      | _ => rfl
    rw [hview, hsame]
    omega
  · have hw := h.whole hf j
    rw [hsock]
    refine ⟨hw.refs, fun hne ↦ hw.pending ?_, hw.side, hw.closed⟩
    by_cases hj : j = li
    · rw [hj, hp]
      exact List.cons_ne_nil _ _
    · rwa [if_neg hj] at hne

theorem connectTo (h : s.Inv true) (t : Slot) {old : Fin 32} (hin : (s.files t fd).inUse = true)
    (htarget : (s.files t fd).target = .socket old side)
    (hlisten : (s.unixSockets li).listener = true ∧ (s.unixSockets li).refs ≠ 0) (hni : ni ≠ li)
    (hz : (s.unixSockets ni).refs = 0)
    (hc : 1 < (s.unixSockets old).refs ∨ (s.unixSockets old).pending = [] ∧ old ≠ li) :
    (s.connectTo t fd old side li ni).Inv true := by
  have hmax := (h.tidy.live hin).2
  have hbare : (s.links (s.currentFiles t) fd).sharedOffset = none ∧
      (s.links (s.currentFiles t) fd).inputState = none :=
    h.tidy.bare (s.currentFiles t) fd (.inr ⟨old, side, htarget⟩)
  obtain ⟨hzside, hzpend⟩ := h.free_socket rfl hz
  have hpos : (s.unixSockets old).sideRefs side ≠ 0 := h.side_pos rfl hin htarget
  have hold : ni ≠ old := by
    rintro rfl
    exact hpos (hzside side)
  have hspares : s.Spares old 1 := hc.elim .inr fun hc ↦ .inl hc.1
  have hkeep : s.Keeps (s.modifySocket old (fun st ↦ st.dropRef side)) :=
    keeps_drop hpos hspares rfl rfl rfl
  have hnew := s.connectTo_new t fd side hni hold
  have hother := fun j (hj : j ≠ ni) ↦ s.connectTo_of_ne t fd old side li hj
  have hheld := s.connectTo_held t fd old side li ni
  set s' := s.connectTo t fd old side li ni with hs'
  have hpend : ∀ j ≠ li, (s'.unixSockets j).pending = (s.unixSockets j).pending := by
    intro j hj
    by_cases hn : j = ni
    · rw [hn, hnew, hzpend]
      rfl
    · rw [hother j hn, if_neg hj, hkeep.pending j]
  have hpendLi : (s'.unixSockets li).pending = (s.unixSockets li).pending ++ [(ni : ℤ)] := by
    rw [hother li (Ne.symm hni), if_pos rfl, hkeep.pending li]
  have hshut : s'.shut = update s.shut ni (fun _ ↦ false) := rfl
  have hview : s'.view = s.view.put (s.currentFiles t) fd ⟨true, .socket ni false, 0⟩
      { s.links (s.currentFiles t) fd with sharedOffset := none } := rfl
  refine ⟨⟨h.used.cell, h.used.input, h.used.epoll⟩, ?_, fun o ho ↦ ?_, fun _ j ↦ ?_⟩
  · rw [hview]
    exact h.tidy.put (fun _ ↦ ⟨h.currentFiles_live t, hmax⟩) (fun _ ↦ ⟨rfl, hbare.2⟩) (.inl rfl)
  · have hput := View.put_holders (v := s.view) (d := ⟨true, .socket ni false, 0⟩)
      (x := { s.links (s.currentFiles t) fd with sharedOffset := none }) (o := o)
        (h.currentFiles_live t) hmax
    have hslot : s.view.slotHolds (s.currentFiles t) fd o = hits (some (.side old side)) o := by
      rw [slotHolds_of_inUse hin, show (s.taskFdTables (s.currentFiles t) fd).target =
        _ from htarget, hbare.1, hbare.2]
      rfl
    have hcount := h.count o ho
    -- The new socket gets both of its holders, and the old one loses one.
    have hside : s'.count o + hits (some (.side old side)) o =
        s.count o + hits (some (.side ni false)) o + hits (some (.side ni true)) o := by
      cases o with
      | side j b =>
        by_cases hn : j = ni
        · subst hn
          have hne : Obj.side j b ≠ .side old side := fun hc ↦ hold (by injection hc)
          have hzero : s.count (.side j b) = 0 := hzside b
          have hone : s'.count (.side j b) = 1 := by simp only [Fds.count, hnew]
          rw [hone, hzero, hits_of_ne hne]
          cases b <;> simp [hits]
        · have h₁ : Obj.side j b ≠ .side ni false := fun hc ↦ hn (by injection hc)
          have h₂ : Obj.side j b ≠ .side ni true := fun hc ↦ hn (by injection hc)
          have hdrop := (drops_target h.used (.socket old side)).count (.side j b)
          have hsame : s'.count (.side j b) = (s.setIo (s.toIo.dropTarget (.socket old side))).count
              (.side j b) := by
            change (s'.unixSockets j).sideRefs b =
              ((s.modifySocket old (fun st ↦ st.dropRef side)).unixSockets j).sideRefs b
            rw [hother j hn]
            split_ifs <;> rfl
          have hle : hits (some (.side old side)) (.side j b) ≤ s.count (.side j b) := by
            by_cases he : Obj.side j b = .side old side
            · rw [he, hits_self]
              exact Nat.one_le_iff_ne_zero.2 hpos
            · rw [hits_of_ne he]
              exact Nat.zero_le _
          rw [hits_of_ne h₁, hits_of_ne h₂, hsame, hdrop]
          change s.count (.side j b) - hits (some (.side old side)) (.side j b) + _ = _
          omega
      | _ => rfl
    have hwait : s'.waiting o = s.waiting o + hits (some (.side ni true)) o := by
      cases o with
      | side j b =>
        cases b with
        | false => simp [waiting, hits]
        | true =>
          have hq := waiting_of_ne (s := s) li hpend j
          rw [hpendLi, List.count_append] at hq
          by_cases hj : j = ni
          · subst hj
            rw [List.count_singleton_self] at hq
            rw [hits_self]
            omega
          · have hne : (ni : ℤ) ≠ (j : ℤ) := fun hc ↦ hj (Fin.ext (by omega))
            rw [List.count_cons_of_ne hne, List.count_nil] at hq
            rw [hits_of_ne fun hc ↦ hj (by injection hc)]
            omega
      | _ => rfl
    rw [hslot, FileDesc.holds_socket hbare.2] at hput
    rw [hview]
    omega
  · have hw := hkeep.whole (h.whole rfl) j
    by_cases hn : j = ni
    · subst hn
      rw [hnew, hheld, hshut, update_self, update_self]
      exact ⟨rfl, fun hc ↦ absurd rfl hc, fun _ _ ↦ rfl, fun _ b ↦ by simp [UnixSocketState.zero]⟩
    · rw [hother j hn, hheld, hshut, update_of_ne hn, update_of_ne hn]
      split_ifs with hj
      · subst hj
        refine ⟨hw.refs, fun _ ↦ ?_, hw.side, hw.closed⟩
        rw [modifySocket_apply]
        split_ifs with hj
        · have hr : 1 < (s.unixSockets j).refs := hj ▸ hc.resolve_right fun hc ↦ hc.2 hj.symm
          rw [UnixSocketState.dropRef_listener, UnixSocketState.dropRef_refs, if_neg (by omega)]
          exact ⟨hlisten.1, by omega⟩
        · exact hlisten
      · exact hw

theorem sysAccept (h : s.Inv full) (t : Slot) (fd : ℤ) (blocks : Bool) (copied : Option Bool)
    (hc : full = true → copied = some false → ∀ li side, s.socketOf t fd = some (li, side) →
      (s.unixSockets li).pending = [] ∨ s.findFreeFd t = none) :
    (s.sysAccept t fd blocks copied).1.Inv full := by
  obtain hs | ⟨li, side, rest, n, i, hli, -, hp, -, hn, hs⟩ := s.sysAccept_cases t fd blocks copied
  · rwa [hs]
  · obtain ⟨hmax, hfree⟩ := findFreeFd_some hn
    rw [hs]
    split_ifs with hcopied
    · cases full with
      | false => exact h.setSocketSlot t hmax (.inl hfree) i true 0
      | true =>
        have := hc rfl hcopied li side hli
        simp [hp, hn] at this
    · exact h.accepted t hp hn

theorem sysConnect (h : s.Inv full) (t : Slot) (fd : ℤ) (addr : SockAddr)
    (hc : full = true → ∀ old side path li ni, s.socketOf t fd = some (old, side) →
      addr = .path path →
      s.socketFindListener path = some li → (s.unixSockets li).pending.length < 4 →
      nextFree s.connectSi (fun j ↦ j ≠ li ∧ (s.unixSockets j).refs = 0) = some ni →
      1 < (s.unixSockets old).refs ∨ (s.unixSockets old).pending = [] ∧ old ≠ li) :
    (s.sysConnect t fd addr).1.Inv full := by
  obtain ⟨rc, hs⟩ | ⟨old, side, path, li, ni, hold, ha, hl, hp, hn, hs⟩ :=
    s.sysConnect_cases t fd addr
  · rwa [hs]
  obtain ⟨hv, htarget⟩ := socketOf_some hold
  obtain ⟨hpos, hmax, hin⟩ := fdValid_iff.1 hv
  have hfree := nextFree_some hn
  rw [hs]
  cases full with
  | false =>
    have h₁ : ({ s with connectSi := (ni + 1) % 32 } : Fds).Inv false :=
      h.sockets rfl rfl rfl rfl rfl rfl
    have h₂ := (h₁.clearFree hfree.2 false).modifySocket old (fun st ↦ st.dropRef side)
    have h₃ := h₂.setSocketSlot t (by omega) (.inr ⟨old, side, htarget⟩) ni false 0
    exact (((h₃.modifySocket ..).hold ni false).hold ni true).modifySocket ..
  | true =>
    have hlisten := firstFree_decide hl
    exact h.connectTo t hin htarget ⟨hlisten.2.1, hlisten.1⟩ hfree.1 hfree.2
      (hc rfl old side path li ni hold ha hl hp hn)

theorem unpair (h : s.Inv false) (t : Slot) {a b : ℕ} (ha : a < maxFiles) (hb : b < maxFiles)
    (hfa : ∃ side, (s.files t a).target = .socket i side)
    (hfb : ∃ side, (s.files t b).target = .socket i side) : (s.unpair t a b i).Inv false := by
  obtain ⟨sa, hsa⟩ := hfa
  obtain ⟨sb, hsb⟩ := hfb
  have hlive := h.currentFiles_live t
  have habare : (s.taskFdTables (s.currentFiles t) a).inUse = false ∨
      ∃ i b, (s.taskFdTables (s.currentFiles t) a).target = .socket i b := .inr ⟨i, sa, hsa⟩
  have h₁ := h.setBare (d := ⟨false, .socket i false, 0⟩) hlive ha habare (.inl rfl)
    (h.tidy.bare _ a habare)
  have hbbare : ((s.setSlot (s.currentFiles t) a ⟨false, .socket i false, 0⟩
      (s.links (s.currentFiles t) a)).taskFdTables (s.currentFiles t) b).inUse = false ∨
      ∃ i' b', ((s.setSlot (s.currentFiles t) a ⟨false, .socket i false, 0⟩
        (s.links (s.currentFiles t) a)).taskFdTables (s.currentFiles t) b).target =
          .socket i' b' := by
    by_cases hab : b = a
    · exact .inl (by simp [setSlot, Io.setFd, hab])
    · exact .inr ⟨i, sb, by rw [(setSlot_of_ne _ hab).1]; exact hsb⟩
  exact (h₁.setBare hlive hb hbbare (.inl rfl) (h₁.tidy.bare _ b hbbare)).modifySocket ..

theorem attachSecond (h : s.Inv full) (t : Slot) (hmax : fd < maxFiles)
    (hfree : (s.files t fd).inUse = false)
    (hst : s.unixSockets i =
      { UnixSocketState.zero with refs := 1, sideRefs := update (fun _ ↦ 0) false 1 })
    (hheld : s.held i = update (fun _ ↦ false) false true) (hshut : s.shut i = fun _ ↦ false) :
    (s.attach t fd i true 0).Inv full := by
  refine h.attach t hmax hfree i true 0 fun _ ↦ ?_
  rw [hst, hheld, hshut]
  refine ⟨rfl, fun hc ↦ absurd rfl hc, fun b _ ↦ ?_, fun _ b ↦ ?_⟩
  · cases b <;> rfl
  · cases b <;> simp [UnixSocketState.zero]

theorem detachFirst (h : s.Inv full) (hin : (s.taskFdTables table fd).inUse = true)
    (htarget : (s.taskFdTables table fd).target = .socket i false)
    (hst : s.unixSockets i =
      { UnixSocketState.zero with refs := 1, sideRefs := update (fun _ ↦ 0) false 1 }) :
    ((s.setSlot table fd ⟨false, .closed, 0⟩ (s.links table fd)).modifySocket i
      (fun st ↦ { st with refs := 0, sideRefs := update st.sideRefs false 0 })).Inv full := by
  obtain ⟨hlive, hmax⟩ := h.tidy.live hin
  have hbare : (s.links table fd).sharedOffset = none ∧ (s.links table fd).inputState = none :=
    h.tidy.bare table fd (.inr ⟨i, false, htarget⟩)
  have hsock : ∀ j, ((s.setSlot table fd ⟨false, .closed, 0⟩ (s.links table fd)).modifySocket i
      (fun st ↦ { st with refs := 0, sideRefs := update st.sideRefs false 0 })).unixSockets j =
      if j = i then
        { s.unixSockets j with refs := 0, sideRefs := update (s.unixSockets j).sideRefs false 0 }
      else s.unixSockets j := fun j ↦ modifySocket_apply ..
  refine h.write ⟨h.used.cell, h.used.input, h.used.epoll⟩ rfl hlive hmax (fun _ ↦ hbare)
    (.inl hbare.1) (fun o _ ↦ ?_) fun _ ↦ ⟨fun j ↦ ?_, fun hall j ↦ ?_⟩
  · have hslot : s.view.slotHolds table fd o = hits (some (.side i false)) o := by
      rw [slotHolds_of_inUse hin, htarget, hbare.1, hbare.2]
      rfl
    rw [hslot, FileDesc.holds_free rfl]
    cases o with
    | side j b =>
      by_cases hj : j = i
      · subst hj
        simp only [Fds.count, hsock, if_true, hst]
        cases b <;> simp [hits]
      · rw [hits_of_ne fun hc ↦ hj (by injection hc)]
        simp only [Fds.count, hsock, if_neg hj]
    | _ => rfl
  · rw [hsock]
    split_ifs <;> rfl
  · rw [hsock]
    split_ifs with hj
    · subst hj
      change UnixSocketState.Whole { s.unixSockets j with refs := 0, sideRefs := _ } _ _
      rw [hst]
      refine ⟨rfl, fun hc ↦ absurd rfl hc, fun b hb ↦ ?_, fun hc ↦ absurd rfl hc⟩
      cases b
      · exact absurd rfl hb
      · exact absurd rfl hb
    · exact hall j

theorem sysSocketpair (h : s.Inv full) (t : Slot) (domain : ℤ) (type : ℕ) (sv copied : Bool)
    (hc : full = true → copied = false → domain = 1 → type % 16 = 1 → sv = true →
      (s.unixSockets s.pairSlot).refs = 0 →
      s.OneFree t) : (s.sysSocketpair t domain type sv copied).1.Inv full := by
  obtain ⟨n, rc, hs⟩ | ⟨hdom, hsv, hz, s₀, hs₀, hcases⟩ :=
    s.sysSocketpair_cases t domain type sv copied
  · rw [hs]
    exact h.others rfl rfl rfl rfl rfl rfl rfl rfl rfl
  have hnext : ({ s with pairSi := s.pairSi + 1 } : Fds).Inv full :=
    h.others rfl rfl rfl rfl rfl rfl rfl rfl rfl
  obtain ⟨-, hs⟩ | ⟨a, s₁, ha, hs₁, hcases⟩ := hcases
  · rw [hs, hs₀]
    exact hnext.clearFree hz false
  have h₁ : s₁.Inv full := by
    rw [hs₁, hs₀]
    exact hnext.attachFirst t hz false 0 (hs₀ ▸ ha)
  have hst : s₁.unixSockets s.pairSlot =
      { UnixSocketState.zero with refs := 1, sideRefs := update (fun _ ↦ 0) false 1 } := by
    rw [hs₁, hs₀, attach_sockets, update_self]
    simp [Fds.clearSocket, Io.modifySocket, UnixSocketState.zero]
  obtain ⟨hamax, hafree⟩ := findFreeFd_some ha
  have hslot : s₁.files t a = ⟨true, .socket s.pairSlot false, 0⟩ := by
    rw [hs₁, attach_files, if_pos rfl]
  obtain ⟨-, hs⟩ | ⟨b, hb, hs⟩ := hcases
  · rw [hs]
    exact h₁.detachFirst (by rw [← files, hslot]) (by rw [← files, hslot]) hst
  · obtain ⟨hbmax, hbfree⟩ := findFreeFd_some hb
    have h₂ : (s₁.attach t b s.pairSlot true 0).Inv full := by
      refine h₁.attachSecond t hbmax hbfree hst ?_ ?_
      · rw [hs₁, hs₀, attach_held, update_self]
        simp [Fds.clearSocket]
      · rw [hs₁, hs₀, attach_shut]
        simp [Fds.clearSocket]
    rw [hs]
    split_ifs with hcopied
    · exact h₂
    · cases full with
      | false =>
        refine h₂.unpair t hamax hbmax ?_ ⟨true, by rw [attach_files, if_pos rfl]⟩
        rw [attach_files]
        split_ifs
        · exact ⟨true, rfl⟩
        · exact ⟨false, by rw [hslot]⟩
      | true =>
        rw [hs₁] at hb
        have hone := hc rfl (by simpa using hcopied) hdom.1 hdom.2 hsv hz
        exact absurd hone (not_oneFree ha (by rw [hs₀]; rfl) hb)

end Inv

end Fds

end YabroOS
