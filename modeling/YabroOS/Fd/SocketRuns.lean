import YabroOS.Fd.Atomic
import YabroOS.Lib.Runs

namespace YabroOS

open Function Errno

namespace Fds

variable {s s₁ s' : Fds} {table : Fin 32} {fd : ℕ} {t : Slot} {i : Fin 32}

theorem Atomic.of_fst {r : Fds × ℤ} (h : r.1 = s) : Atomic s r := fun _ ↦ by
  rw [h]
  exact .refl s

theorem untouched_clearSocket (h : s.Inv true) (hz : (s.unixSockets i).refs = 0) (netlink : Bool) :
    Untouched s (s.clearSocket i netlink) := by
  refine untouched_of_inv h (h.clearFree hz netlink) (fun _ _ ↦ .rfl) (fun _ _ _ ↦ rfl) fun j ↦ ?_
  by_cases hj : j = i
  · subst hj
    rw [show (s.clearSocket j netlink).unixSockets j = .zero from update_self ..,
      (h.free_socket rfl hz).2]
    rfl
  · rw [show (s.clearSocket i netlink).unixSockets j = s.unixSockets j from update_of_ne hj ..]

theorem atomic_socketNew (h : s.Inv true) (t : Slot) (hz : (s.unixSockets i).refs = 0)
    (netlink : Bool) (flags : ℕ) : Atomic s (s.socketNew t i netlink flags) := by
  obtain ⟨-, hs⟩ | ⟨fd, -, hs⟩ := (s.clearSocket i netlink).socketAllocEndpoint_cases t i false flags
  · rw [socketNew, hs]
    exact fun _ ↦ untouched_clearSocket h hz netlink
  · rw [socketNew, hs]
    exact .of_nonneg (Int.natCast_nonneg _)

theorem atomic_socket (h : s.Inv true) (t : Slot) (domain : ℤ) (type : ℕ) (protocol : ℤ) :
    Atomic s (s.sysSocket t domain type protocol) := by
  obtain ⟨rc, hs⟩ | ⟨n, m, i, netlink, flags, hz, hs⟩ := s.sysSocket_cases t domain type protocol
  · rw [hs]
    exact .refl s _
  · have hstart : ({ s with socketSi := n, netlinkNi := m } : Fds).Inv true :=
      h.others rfl rfl rfl rfl rfl rfl rfl rfl rfl
    rw [hs]
    exact fun hlt ↦ (atomic_socketNew hstart t hz netlink flags hlt).of_start rfl rfl

theorem detach_view (s : Fds) (t : Slot) (a : ℕ) (i : Fin 32) :
    ((s.attach t a i false 0).detach t a i).view =
      s.view.put (s.currentFiles t) a ⟨false, .closed, 0⟩
      ((s.attach t a i false 0).links (s.currentFiles t) a) := by
  have hback : ((s.attach t a i false 0).detach t a i).view = (s.attach t a i false 0).view.put
      (s.currentFiles t) a
      ⟨false, .closed, 0⟩ ((s.attach t a i false 0).links (s.currentFiles t) a) := rfl
  rw [hback, attach_view, View.put_put]

theorem atomic_socketpair (h : s.Inv true) (t : Slot) (domain : ℤ) (type : ℕ) (sv copied : Bool)
    (hc : copied = false → domain = 1 → type % 16 = 1 → sv = true →
      (s.unixSockets s.pairSlot).refs = 0 →
      s.OneFree t) : Atomic s (s.sysSocketpair t domain type sv copied) := by
  have hfull := h.sysSocketpair t domain type sv copied fun _ ↦ hc
  obtain ⟨n, rc, hs⟩ | ⟨hdom, hsv, hz, s₀, hs₀, hcases⟩ :=
    s.sysSocketpair_cases t domain type sv copied
  · rw [hs]
    exact fun _ ↦ .of_eq rfl rfl
  have hnext : ({ s with pairSi := s.pairSi + 1 } : Fds).Inv true :=
    h.others rfl rfl rfl rfl rfl rfl rfl rfl rfl
  have hclear := untouched_clearSocket hnext hz false
  obtain ⟨-, hs⟩ | ⟨a, s₁, ha, hs₁, hcases⟩ := hcases
  · rw [hs, hs₀]
    exact fun _ ↦ hclear.of_start rfl rfl
  obtain ⟨hamax, hafree⟩ := findFreeFd_some ha
  obtain ⟨-, hs⟩ | ⟨b, hb, hs⟩ := hcases
  · rw [hs] at hfull ⊢
    have hview : (s₁.detach t a s.pairSlot).view =
        s.view.put (s.currentFiles t) a ⟨false, .closed, 0⟩ (s₁.links (s₀.currentFiles t) a) := by
      rw [hs₁, detach_view, hs₀]
      rfl
    rw [hs₀] at hafree
    have hslots := Untouched.slots_of_put (s := s) hview hafree rfl
    refine fun _ ↦ untouched_of_inv h hfull (fun table fd ↦ (hslots table fd).1)
      (fun table fd ↦ (hslots table fd).2) fun j ↦ ?_
    have hback : ((s₁.detach t a s.pairSlot).unixSockets j).pending =
        (s₁.unixSockets j).pending := by
      rw [detach, modifySocket_apply]
      split_ifs <;> rfl
    have hstart : (s₁.unixSockets j).pending = (s₀.unixSockets j).pending := by
      rw [hs₁, attach_sockets]
      by_cases hj : j = s.pairSlot
      · rw [hj, update_self]
      · rw [update_of_ne hj]
    rw [hback, hstart, hs₀, hclear.pending]
  · have hcopied : copied = true := by
      by_contra hcopied
      rw [hs₁] at hb
      exact not_oneFree ha (by rw [hs₀]; rfl) hb (hc (by simpa using hcopied) hdom.1 hdom.2 hsv hz)
    rw [hs, if_pos hcopied]
    exact .of_nonneg le_rfl

theorem atomic_bind (s : Fds) (t : Slot) (fd : ℤ) (addr : SockAddr) (node : SocketNode) :
    Atomic s (s.sysBind t fd addr node) := by
  rw [sysBind]
  split
  · exact .refl s _
  next i _ _ =>
  by_cases hb : (s.unixSockets i).bound ∨ (s.unixSockets i).connected
  · rw [if_pos hb]
    exact .refl s _
  rw [if_neg hb]
  cases addr with
  | bad e => exact .refl s _
  | path path =>
    dsimp only
    split_ifs
    · exact .of_nonneg le_rfl
    · exact .refl s _
    · exact .refl s _
    · exact .refl s _
    · exact .of_nonneg le_rfl

theorem atomic_listen (s : Fds) (t : Slot) (fd backlog : ℤ) :
    Atomic s (s.sysListen t fd backlog) := by
  rw [sysListen]
  split
  · exact .refl s _
  split_ifs
  · exact .refl s _
  · exact .refl s _
  · exact .refl s _
  · exact .of_nonneg le_rfl

theorem atomic_connect (s : Fds) (t : Slot) (fd : ℤ) (addr : SockAddr) :
    Atomic s (s.sysConnect t fd addr) := by
  obtain ⟨rc, hs⟩ | ⟨old, side, path, li, ni, -, -, -, -, -, hs⟩ := s.sysConnect_cases t fd addr
  · rw [hs]
    exact .refl s _
  · rw [hs]
    exact .of_nonneg le_rfl

theorem atomic_accept (s : Fds) (t : Slot) (fd : ℤ) (blocks : Bool) (copied : Option Bool)
    (hc : copied = some false → ∀ li side, s.socketOf t fd = some (li, side) →
      (s.unixSockets li).pending = [] ∨ s.findFreeFd t = none) : Atomic s
        (s.sysAccept t fd blocks copied) := by
  obtain hs | ⟨li, side, rest, n, i, hli, -, hp, -, hn, hs⟩ := s.sysAccept_cases t fd blocks copied
  · exact .of_fst hs
  · have hcopied : copied ≠ some false := by
      intro hfalse
      have := hc hfalse li side hli
      simp [hp, hn] at this
    rw [hs, if_neg hcopied]
    exact .of_nonneg (Int.natCast_nonneg n)

theorem atomic_shutdown (s : Fds) (t : Slot) (fd how : ℤ) : Atomic s (s.sysShutdown t fd how) := by
  rw [sysShutdown]
  split
  · exact .refl s _
  split_ifs
  · exact .refl s _
  · exact .refl s _
  · exact .of_nonneg le_rfl

theorem atomic_eventfd2 (s : Fds) (t : Slot) (initval flags : ℕ) :
    Atomic s (s.sysEventfd2 t initval flags) := by
  rw [sysEventfd2]
  split
  · exact .refl s _
  split
  · exact .refl s _
  · exact .of_nonneg (Int.natCast_nonneg _)

theorem atomic_timerfdCreate (s : Fds) (t : Slot) (clockid : ℤ) (flags : ℕ) :
    Atomic s (s.sysTimerfdCreate t clockid flags) := by
  rw [sysTimerfdCreate]
  split_ifs
  · exact .refl s _
  split
  · exact .refl s _
  split
  · exact .refl s _
  · exact .of_nonneg (Int.natCast_nonneg _)

theorem Atomic.of_eq {r : Fds × ℤ} (hv : r.1.view = s.view) (hs : r.1.unixSockets = s.unixSockets) :
    Atomic s r :=
  fun _ ↦ .of_eq hv hs

theorem atomic_eventfdWrite (s : Fds) (t : Slot) (fd : ℤ) (v : ℕ) :
    Atomic s (s.eventfdWrite t fd v) := by
  rw [eventfdWrite]
  split
  · split_ifs <;> exact .of_eq rfl rfl
  · exact .refl s _

theorem atomic_eventfdRead (s : Fds) (t : Slot) (fd : ℤ) (copied : Bool) :
    Atomic s (s.eventfdRead t fd copied) := by
  rw [eventfdRead]
  split
  · split_ifs <;> exact .of_eq rfl rfl
  · exact .refl s _

theorem atomic_timerfdSettime (s : Fds) (t : Slot) (fd : ℤ) (now value interval : ℕ) :
    Atomic s (s.sysTimerfdSettime t fd now value interval) := by
  rw [sysTimerfdSettime]
  split <;> exact .of_eq rfl rfl

theorem atomic_timerfdRead (s : Fds) (t : Slot) (fd : ℤ) (now : ℕ) (copied : Bool) :
    Atomic s (s.timerfdRead t fd now copied) := by
  simp only [timerfdRead]
  split
  · split_ifs <;> exact .of_eq rfl rfl
  · exact .refl s _

theorem atomic_pipeWrite (s : Fds) (t : Slot) (fd : ℤ) (data : List UInt8) :
    Atomic s (s.pipeWrite t fd data) := by
  simp only [pipeWrite]
  split
  · split_ifs <;> exact .of_eq rfl rfl
  · exact .refl s _

theorem atomic_pipeRead (s : Fds) (t : Slot) (fd : ℤ) (n : ℕ) : Atomic s (s.pipeRead t fd n) := by
  rw [pipeRead]
  split <;> exact .of_eq rfl rfl

theorem atomic_ptyLock (s : Fds) (t : Slot) (fd : ℤ) (lock : ℕ) :
    Atomic s (s.ptyLock t fd lock) := by
  rw [ptyLock]
  split <;> exact .of_eq rfl rfl

/-- A run of such calls from the start. -/
def Admitted (l : List (Slot × FdOp)) : Prop :=
  Lib.Along (fun s p ↦ (s.exec p.1 p.2).1) (fun s p ↦ s.Admits p.1 p.2) init l

theorem atomic_exec (h : s.Inv true) (t : Slot) (op : FdOp) (hc : s.Admits t op) :
    Atomic s (s.exec t op) := by
  cases op with
  | «open» path flags => exact atomic_open h t path flags
  | close fd => exact atomic_close s t fd
  | pipe copied => exact atomic_pipe s t copied
  | pipe2 copied flags => exact atomic_pipe2 s t copied flags
  | dup oldfd => exact atomic_dupInternal s t (fun _ ↦ true) oldfd 0 false
  | dup2 oldfd newfd => exact atomic_dup2 s t oldfd newfd
  | dup3 oldfd newfd flags => exact atomic_dup3 s t oldfd newfd flags
  | fcntl outside fd cmd arg => exact atomic_fcntl s t outside fd cmd arg
  | epollCreate1 flags => exact atomic_epollCreate1 s t flags
  | clone shareFiles copied => exact atomic_clone h t shareFiles copied
  | fork cloned => exact atomic_fork h t cloned
  | execve =>
    dsimp only [Fds.exec]
    exact .of_nonneg le_rfl
  | exit =>
    dsimp only [Fds.exec]
    exact .of_nonneg le_rfl
  | reap child => exact .of_nonneg le_rfl
  | socket domain type protocol => exact atomic_socket h t domain type protocol
  | socketpair domain type sv copied => exact atomic_socketpair h t domain type sv copied hc
  | bind fd addr node => exact atomic_bind s t fd addr node
  | listen fd backlog => exact atomic_listen s t fd backlog
  | connect fd addr => exact atomic_connect s t fd addr
  | accept fd blocks copied => exact atomic_accept s t fd blocks copied hc
  | shutdown fd how => exact atomic_shutdown s t fd how
  | eventfd2 initval flags => exact atomic_eventfd2 s t initval flags
  | timerfdCreate clockid flags => exact atomic_timerfdCreate s t clockid flags
  | eventfdWrite fd v => exact atomic_eventfdWrite s t fd v
  | eventfdRead fd copied => exact atomic_eventfdRead s t fd copied
  | timerfdSettime fd now value interval => exact atomic_timerfdSettime s t fd now value interval
  | timerfdRead fd now copied => exact atomic_timerfdRead s t fd now copied
  | pipeWrite fd data => exact atomic_pipeWrite s t fd data
  | pipeRead fd n => exact atomic_pipeRead s t fd n
  | ptyLock fd lock => exact atomic_ptyLock s t fd lock

theorem inv_run {l : List (Slot × FdOp)} (h : Admitted l) : (init.run l).Inv true :=
  h.invariant (fun _ p hi hc ↦ hi.exec p.1 p.2 fun _ ↦ hc) (inv_init true)

def queued (s : Fds) (i : Fin 32) : ℕ :=
  ∑ li : Fin 32, if (s.unixSockets li).listener = true ∧ (s.unixSockets li).refs ≠ 0 then
    (s.unixSockets li).pending.count (i : ℤ) else 0

def sideHolders (s : Fds) (i : Fin 32) (b : Bool) : ℕ :=
  s.view.holders (.side i b) + if b then s.queued i else 0

structure SocketsCounted (s : Fds) : Prop where
  refs : ∀ i, (s.unixSockets i).refs = s.view.holders (.side i false) +
    s.view.holders (.side i true) + s.queued i
  sideRefs : ∀ i b, (s.unixSockets i).sideRefs b = s.sideHolders i b
  closed : ∀ i, (s.unixSockets i).refs ≠ 0 → ∀ b,
    ((s.unixSockets i).closed b = true ↔ s.held i b = true ∧ s.sideHolders i b = 0 ∨
      s.shut i b = true)

theorem queued_eq_waiting
    (hq : ∀ i, (s.unixSockets i).pending ≠ [] → (s.unixSockets i).listener = true ∧
    (s.unixSockets i).refs ≠ 0) (i : Fin 32) : s.queued i = s.waiting (.side i true) := by
  refine Finset.sum_congr rfl fun li _ ↦ ?_
  split_ifs with hl
  · rfl
  · have hp : (s.unixSockets li).pending = [] := not_not.1 fun hp ↦ hl (hq li hp)
    rw [hp, List.count_nil]

theorem Inv.sideRefs_eq (h : s.Inv true) (i : Fin 32) (b : Bool) :
    (s.unixSockets i).sideRefs b = s.sideHolders i b := by
  have hcount : (s.unixSockets i).sideRefs b = _ := h.count (.side i b) fun _ ↦ rfl
  rw [hcount, sideHolders]
  cases b with
  | false => rfl
  | true => rw [if_pos rfl, queued_eq_waiting fun li ↦ (h.whole rfl li).pending]

theorem Inv.counted (h : s.Inv true) : s.SocketsCounted where
  refs i := by
    rw [(h.whole rfl i).refs, h.sideRefs_eq, h.sideRefs_eq]
    simp [sideHolders, Nat.add_assoc]
  sideRefs := h.sideRefs_eq
  closed i hr b := by rw [(h.whole rfl i).closed hr b, h.sideRefs_eq]

/-- After every run of admitted calls the sockets are counted right, and an admitted call that fails
leaves the descriptors, the queues and the counts as they were. -/
theorem socket_references (l : List (Slot × FdOp)) (h : Admitted l) :
    (init.run l).SocketsCounted ∧
      ∀ t op, (init.run l).Admits t op → Atomic (init.run l) ((init.run l).exec t op) :=
  ⟨(inv_run h).counted, fun t op hc ↦ atomic_exec (inv_run h) t op hc⟩

def waitingClient : List (Slot × FdOp) :=
  [(0, .socket 1 1 0), (0, .bind 3 (.path [0x40, 0x61]) .ok), (0, .listen 3 4), (0, .socket 1 1 0),
    (0, .connect 4 (.path [0x40, 0x61]))]

theorem socket_references_accepted :
    let l := waitingClient ++ [(0, .accept 3 false none), (0, .close 5)]
    ((init.run l).unixSockets 2).refs = 1 ∧ ((init.run l).unixSockets 2).closed true = true ∧
      (init.run l).SocketsCounted ∧ ((init.run l).exec 0 (.accept 3 false (some false))).2 < 0 ∧
      Untouched (init.run l) ((init.run l).exec 0 (.accept 3 false (some false))).1 := by
  have hadmitted : Admitted (waitingClient ++ [(0, .accept 3 false none), (0, .close 5)]) := by
    refine ⟨trivial, trivial, ?_, trivial, ?_, ?_, ?_, trivial⟩
    · unfold Admits
      decide +kernel
    · unfold Admits SparesConnect
      decide +kernel
    · unfold Admits
      decide +kernel
    · unfold Admits SparesAt Spares
      decide +kernel
  have hlater := (socket_references _ hadmitted).2 0 (.accept 3 false (some false)) (by
    unfold Admits
    decide +kernel)
  have hfails : ((init.run (waitingClient ++ [(0, .accept 3 false none), (0, .close 5)])).exec 0
      (.accept 3 false (some false))).2 < 0 := by decide +kernel
  exact ⟨by decide +kernel, by decide +kernel, (socket_references _ hadmitted).1, hfails,
    hlater hfails⟩

/-- The listener is closed before it has accepted the client: the connection keeps two references
for its one descriptor, and its other side is not closed. -/
theorem unaccepted_client_after_close :
    let s := init.run (waitingClient ++ [(0, .close 3)])
    (s.unixSockets 2).refs = 2 ∧ s.view.holders (.side 2 false) = 1 ∧
      s.view.holders (.side 2 true) = 0 ∧
      s.queued 2 = 0 ∧ (s.unixSockets 2).closed true = false ∧ ¬s.SocketsCounted := by
  intro s
  have hrefs : (s.unixSockets 2).refs = 2 := by decide +kernel
  have hfirst : s.view.holders (.side 2 false) = 1 := by decide +kernel
  have hsecond : s.view.holders (.side 2 true) = 0 := by decide +kernel
  have hqueued : s.queued 2 = 0 := by decide +kernel
  refine ⟨hrefs, hfirst, hsecond, hqueued, by decide +kernel, fun h ↦ ?_⟩
  have := h.refs 2
  omega

end Fds

end YabroOS
