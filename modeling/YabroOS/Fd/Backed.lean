import YabroOS.Fd.Survive

namespace YabroOS

open Function Errno

def Target.socket? : Target → Option (Fin 32)
  | .socket i _ => some i
  | _ => none

def Target.names (d : Target) (i : Fin 32) : ℕ := if d.socket? = some i then 1 else 0

theorem Target.names_socket (i : Fin 32) (b : Bool) (j : Fin 32) :
    (Target.socket i b).names j = if j = i then 1 else 0 := by
  by_cases hj : j = i
  · rw [if_pos hj]
    exact if_pos (congrArg some hj.symm)
  · rw [if_neg hj]
    exact if_neg fun hc ↦ hj (Option.some.inj hc).symm

theorem Target.names_eq (d : Target) (i : Fin 32) :
    d.names i = hits d.endpoint (.side i false) + hits d.endpoint (.side i true) := by
  cases d with
  | socket j b =>
    by_cases hj : j = i
    · cases b <;> simp [names, socket?, endpoint, hits, hj]
    · simp [names, socket?, endpoint, hits, hj]
  | _ => rfl

def FileDesc.names (d : FileDesc) (x : FdLinks) (i : Fin 32) : ℕ :=
  d.holds x (.side i false) + d.holds x (.side i true)

theorem FileDesc.names_eq (d : FileDesc) (x : FdLinks) (i : Fin 32) :
    d.names x i = if d.inUse then d.target.names i else 0 := by
  have hepoll : ∀ b, hits d.target.epollObj (.side i b) = 0 := fun b ↦ by cases d.target <;> rfl
  have hcell : ∀ b, hits (x.sharedOffset.map .cell) (.side i b) = 0 := fun b ↦ by
    cases x.sharedOffset <;> rfl
  have hinput : ∀ b, hits (x.inputState.map .input) (.side i b) = 0 := fun b ↦ by
    cases x.inputState <;> rfl
  rw [names, holds, holds, Target.names_eq]
  split_ifs
  · simp only [hepoll, hcell, hinput, Nat.add_zero]
  · rfl

section Targets

variable {io : Io} {d : Target} {i : Fin 32}

theorem Io.dropTarget_of_ne (h : d.socket? ≠ some i) :
    (io.dropTarget d).unixSockets i = io.unixSockets i := by
  cases d with
  | socket j b => exact update_of_ne (fun hc ↦ h (by rw [hc]; rfl)) _ _
  | _ => rfl

theorem Io.dropTarget_of_eq (io : Io) (h : d.socket? = some i) :
    ∃ b, (io.dropTarget d).unixSockets i = (io.unixSockets i).dropRef b := by
  cases d with
  | socket j b =>
    obtain rfl := Option.some.inj h
    exact ⟨b, update_self _ _ _⟩
  | _ => cases h

theorem Io.dropTarget_refs (io : Io) (d : Target) (i : Fin 32) :
    ((io.dropTarget d).unixSockets i).refs = (io.unixSockets i).refs - d.names i := by
  by_cases h : d.socket? = some i
  · obtain ⟨b, hb⟩ := Io.dropTarget_of_eq io h
    rw [hb, UnixSocketState.dropRef_refs, Target.names, if_pos h]
  · rw [Io.dropTarget_of_ne h, Target.names, if_neg h, Nat.sub_zero]

theorem Io.dropTarget_queue (io : Io)
    (hs : d.socket? = some i → (io.unixSockets i).pending = [] ∨ 1 < (io.unixSockets i).refs)
    (hq : (io.unixSockets i).pending ≠ [] → (io.unixSockets i).listener = true ∧
      (io.unixSockets i).refs ≠ 0) :
    ((io.dropTarget d).unixSockets i).pending = (io.unixSockets i).pending ∧
      ((io.unixSockets i).pending ≠ [] →
        ((io.dropTarget d).unixSockets i).listener = true ∧
          ((io.dropTarget d).unixSockets i).refs ≠ 0) := by
  by_cases h : d.socket? = some i
  · obtain ⟨b, hb⟩ := Io.dropTarget_of_eq io h
    rw [hb, UnixSocketState.dropRef_pending, UnixSocketState.dropRef_listener,
      UnixSocketState.dropRef_refs]
    rcases hs h with hempty | hmore
    · rw [hempty, ite_self]
      exact ⟨rfl, fun hc ↦ absurd rfl hc⟩
    · have hz : (io.unixSockets i).refs - 1 ≠ 0 := by omega
      rw [if_neg hz, if_neg hz]
      exact ⟨rfl, fun hp ↦ ⟨(hq hp).1, hz⟩⟩
  · rw [Io.dropTarget_of_ne h]
    exact ⟨rfl, hq⟩

theorem Io.retainTarget_socket (io : Io) (d : Target) (i : Fin 32) :
    ((io.retainTarget d).unixSockets i).refs = (io.unixSockets i).refs + d.names i ∧
      ((io.retainTarget d).unixSockets i).pending = (io.unixSockets i).pending ∧
      ((io.retainTarget d).unixSockets i).listener = (io.unixSockets i).listener := by
  cases d with
  | socket j b =>
    by_cases hj : i = j
    · subst hj
      simp [Io.retainTarget, Io.modifySocket, Target.names, Target.socket?]
    · simp [Io.retainTarget, Io.modifySocket, Target.names, Target.socket?, hj, Ne.symm hj]
  | _ => exact ⟨rfl, rfl, rfl⟩

end Targets

theorem FileDesc.names_socket (i : Fin 32) (b : Bool) (flags : ℕ) (x : FdLinks) (j : Fin 32) :
    (⟨true, .socket i b, flags⟩ : FileDesc).names x j = if j = i then 1 else 0 :=
  (names_eq _ x j).trans (Target.names_socket i b j)

theorem count_index (i j : Fin 32) : ([(i : ℤ)]).count (j : ℤ) = if j = i then 1 else 0 := by
  by_cases hj : j = i
  · rw [if_pos hj, hj, List.count_singleton_self]
  · have hne : (i : ℤ) ≠ (j : ℤ) := fun hc ↦ hj (Fin.ext (by omega))
    rw [if_neg hj, List.count_cons_of_ne hne, List.count_nil]

namespace Fds

variable {full : Bool} {s s₁ s' : Fds} {table : Fin 32} {fd : ℕ} {d : FileDesc} {x : FdLinks}
  {t : Slot} {i : Fin 32} {l : List ℕ}

def View.named (v : View) (i : Fin 32) : ℕ := v.holders (.side i false) + v.holders (.side i true)

/-- A socket has at most as many references as there are descriptors and entries of queues for it,
and a queue belongs to a listener. -/
structure Backed (s : Fds) : Prop where
  refs : ∀ i, (s.unixSockets i).refs ≤ s.view.named i + s.waiting (.side i true)
  queue : ∀ i, (s.unixSockets i).pending ≠ [] → (s.unixSockets i).listener = true ∧
    (s.unixSockets i).refs ≠ 0

theorem Stays.holders_le (h : Stays (fun _ _ ↦ False) s s') (i : Fin 32) (b : Bool) :
    s.view.holders (.side i b) ≤ s'.view.holders (.side i b) := by
  refine Finset.sum_le_sum fun table _ ↦ ?_
  by_cases hr : s.view.refs table = 0
  · rw [if_pos hr]
    exact Nat.zero_le _
  rw [if_neg hr]
  by_cases hr' : s'.view.refs table = 0
  · -- A table that goes had no descriptor.
    rw [if_pos hr', Nat.le_zero]
    refine Finset.sum_eq_zero fun fd hfd ↦ slotHolds_of_free ?_
    by_contra hin
    exact (h table fd ⟨hr, Finset.mem_range.1 hfd, by simpa using hin⟩ not_false).1.1 hr'
  · rw [if_neg hr']
    refine Finset.sum_le_sum fun fd hfd ↦ ?_
    cases hin : (s.taskFdTables table fd).inUse with
    | false =>
      rw [slotHolds_of_free hin]
      exact Nat.zero_le _
    | true =>
      obtain ⟨hl, ht⟩ := h table fd ⟨hr, Finset.mem_range.1 hfd, hin⟩ not_false
      have hother : ∀ (d : Target) (x : FdLinks), hits d.epollObj (.side i b) +
          hits (x.sharedOffset.map .cell) (.side i b) +
          hits (x.inputState.map .input) (.side i b) = 0 := by
        intro d x
        cases d <;> cases x.sharedOffset <;> cases x.inputState <;> rfl
      have h₁ := hother (s.taskFdTables table fd).target (s.links table fd)
      rw [slotHolds_of_inUse hin, slotHolds_of_inUse hl.2.2, ht]
      omega

theorem Stays.named_le (h : Stays (fun _ _ ↦ False) s s') (i : Fin 32) :
    s.view.named i ≤ s'.view.named i :=
  Nat.add_le_add (h.holders_le i false) (h.holders_le i true)

theorem View.put_named {v : View} (hlive : v.refs table ≠ 0) (hfd : fd < maxFiles) (i : Fin 32) :
    (v.put table fd d x).named i + (v.tables table fd).names (v.links table fd) i =
      v.named i + d.names x i := by
  have h₁ := View.put_holders (d := d) (x := x) (o := .side i false) hlive hfd
  have h₂ := View.put_holders (d := d) (x := x) (o := .side i true) hlive hfd
  rw [named, named, FileDesc.names, FileDesc.names]
  rw [slotHolds] at h₁ h₂
  omega

theorem View.put_named_of_dead {v : View} (hdead : v.refs table = 0) (i : Fin 32) :
    (v.put table fd d x).named i = v.named i := by
  have hold : ∀ o, (v.put table fd d x).holders o = v.holders o := by
    intro o
    refine Finset.sum_congr rfl fun table' _ ↦ ?_
    by_cases ht : table' = table
    · rw [ht, if_pos hdead, if_pos (show (v.put table fd d x).refs table = 0 from hdead)]
    · rw [View.put_tableHolds_of_ne ht]
      rfl
  rw [View.named, View.named, hold, hold]

namespace Backed

theorem grow (h : s.Backed) (hs : Stays (fun _ _ ↦ False) s s')
    (hr : ∀ j, (s'.unixSockets j).refs ≤ (s.unixSockets j).refs)
    (hp : ∀ j, (s'.unixSockets j).pending = (s.unixSockets j).pending)
    (hq : ∀ j, (s.unixSockets j).pending ≠ [] → (s'.unixSockets j).listener = true ∧
      (s'.unixSockets j).refs ≠ 0) :
    s'.Backed := by
  refine ⟨fun j ↦ ?_, fun j hj ↦ hq j (hp j ▸ hj)⟩
  have hwait : s'.waiting (.side j true) = s.waiting (.side j true) :=
    Finset.sum_congr rfl fun li _ ↦ by rw [hp]
  have := h.refs j
  have := hr j
  have := hs.named_le j
  omega

theorem same (h : s.Backed) (hs : Stays (fun _ _ ↦ False) s s')
    (he : s'.unixSockets = s.unixSockets) : s'.Backed :=
  h.grow hs (fun j ↦ by rw [he]) (fun j ↦ by rw [he]) fun j hj ↦ by
    rw [he]
    exact h.queue j hj

theorem quiet (h : s.Backed) (hq : Quiet (fun _ _ ↦ False) s s') : s'.Backed :=
  h.same hq.stays hq.sockets

theorem put (h : s.Backed) (hv : s'.view = s.view.put table fd d x)
    (hlive : s.taskFdTableRefs table ≠ 0) (hfd : fd < maxFiles)
    (hr : ∀ j, (s'.unixSockets j).refs = 0 ∨
      (s'.unixSockets j).refs + (s.taskFdTables table fd).names (s.links table fd) j ≤
      (s.unixSockets j).refs + d.names x j)
    (hp : ∀ j, (s'.unixSockets j).pending = (s.unixSockets j).pending)
    (hq : ∀ j, (s.unixSockets j).pending ≠ [] → (s'.unixSockets j).listener = true ∧
      (s'.unixSockets j).refs ≠ 0) :
    s'.Backed := by
  refine ⟨fun j ↦ ?_, fun j hj ↦ hq j (hp j ▸ hj)⟩
  have hwait : s'.waiting (.side j true) = s.waiting (.side j true) :=
    Finset.sum_congr rfl fun li _ ↦ by rw [hp]
  have hnamed := View.put_named (v := s.view) (d := d) (x := x) hlive hfd j
  change _ + (s.taskFdTables table fd).names (s.links table fd) j = _ at hnamed
  have := h.refs j
  rw [hv, hwait]
  obtain hr | hr := hr j <;> omega

theorem closeFd (h : s.Backed) (hi : s.Inv full) (hin : (s.taskFdTables table fd).inUse = true)
    (hs : ∀ i b, (s.taskFdTables table fd).target = .socket i b → s.Spares i 1) :
    (s.closeFd table fd).Backed := by
  obtain ⟨hlive, hfd⟩ := hi.tidy.live hin
  obtain ⟨he, -, -⟩ := closeFd_sockets s table fd
  have hspare : ∀ j, (s.taskFdTables table fd).target.socket? = some j → s.Spares j 1 := by
    intro j hj
    cases ht : (s.taskFdTables table fd).target with
    | socket i b =>
      rw [ht] at hj
      obtain rfl := Option.some.inj hj
      exact hs i b ht
    | _ =>
      rw [ht] at hj
      cases hj
  have hqueue := fun j ↦ Io.dropTarget_queue s.toIo (hspare j) (h.queue j)
  refine h.put (closeFd_spec hi.used hin).2.1 hlive hfd (fun j ↦ ?_)
    (fun j ↦ by rw [he]; exact (hqueue j).1)
    fun j hj ↦ by rw [he]; exact (hqueue j).2 hj
  rw [he, Io.dropTarget_refs, FileDesc.names_eq, FileDesc.names_eq, if_pos hin]
  change _ ∨ _ ≤ _ + 0
  omega

theorem sysClose (h : s.Backed) (hi : s.Inv full) (t : Slot) (fd : ℤ) (hs : s.SparesAt t fd) :
    (s.sysClose t fd).1.Backed := by
  rw [Fds.sysClose]
  split_ifs with hv
  · exact h
  · have hv : s.fdValid t fd = true := Bool.not_eq_false _ ▸ hv
    exact h.closeFd hi (fdValid_iff.1 hv).2.2 fun i b ht ↦
      hs i b (by rw [target?, if_pos hv, files, ht])

theorem dup (h : s.Backed) (hi : s.Inv full) {src dst : ℕ}
    (hin : (s.taskFdTables table src).inUse = true)
    (hfree : (s.taskFdTables table dst).inUse = false) (hdst : dst < maxFiles) (flags : ℕ → ℕ) :
    ((s.fdCopyScalar table src dst flags).fdRetainEndpointRef table dst).Backed := by
  have hw := dupFd_spec hi.used table src dst flags hin (hi.copyable hin)
  have he : ((s.fdCopyScalar table src dst flags).fdRetainEndpointRef table dst).unixSockets =
      (s.toIo.retainTarget (s.taskFdTables table src).target).unixSockets :=
    congrArg Objects.unixSockets (hi.dup_objects hin dst flags)
  have hsock := fun j ↦ Io.retainTarget_socket s.toIo (s.taskFdTables table src).target j
  refine h.put hw.view (hi.tidy.live hin).1 hdst (fun j ↦ .inr ?_)
    (fun j ↦ by rw [he]; exact (hsock j).2.1) fun j hj ↦ ?_
  · rw [he, (hsock j).1, FileDesc.names_eq, FileDesc.names_eq, if_neg (by simp [hfree])]
    exact le_of_eq (congrArg (fun n ↦ (s.unixSockets j).refs + n) (if_pos hin).symm)
  · rw [he, (hsock j).1, (hsock j).2.2]
    exact ⟨(h.queue j hj).1, by have := (h.queue j hj).2; omega⟩

theorem duplicates {C : ℤ → Prop} (h : s.Backed) (hi : s.Inv false) (hd : Duplicates s t C s')
    (hs : ∀ fd, C fd → s.SparesAt t fd) : s'.Backed := by
  cases hd with
  | same => exact h
  | flags fd g => exact h.same (calm_setFlags s (s.currentFiles t) fd g).stays rfl
  | copy hin hfree hdst f => exact h.dup hi hin hfree hdst f
  | @closing _ _ newfd hC hv hr hin hfree f =>
    subst hr
    have hbusy := fdValid_iff.1 hv
    refine (h.closeFd hi hbusy.2.2 fun i b ht ↦ hs newfd hC i b ?_).dup (hi.closeFd hbusy.2.2 nofun)
      hin hfree (by omega) f
    rw [target?, if_pos hv, files, ht]

theorem closeOnExec_loop (h : s.Backed) (hi : s.Inv false) (t : Slot) (hl : l.Nodup)
    (hs : ∀ i, s.Spares i ((l.map (execSlot s t i)).sum)) :
    (l.foldl (fun s fd ↦
      if (s.files t fd).inUse ∧ isCloexec (s.files t fd).flags then (s.sysClose t fd).1 else s)
        s).Backed := by
  induction l generalizing s with
  | nil => exact h
  | cons fd l ih =>
    obtain ⟨hfd, hl⟩ := List.nodup_cons.1 hl
    simp only [List.map_cons, List.sum_cons] at hs
    rw [List.foldl_cons]
    split_ifs with hc
    · have hin : (s.taskFdTables (s.currentFiles t) fd).inUse = true := hc.1
      have hnames : ∀ i, execSlot s t i fd =
          (s.taskFdTables (s.currentFiles t) fd).target.names i := by
        intro i
        rw [execSlot, if_pos hc]
        exact (FileDesc.names_eq _ _ i).trans (if_pos hin)
      have hone : ∀ i b, (s.taskFdTables (s.currentFiles t) fd).target = .socket i b →
          s.Spares i 1 := by
        intro i b ht
        have hname : execSlot s t i fd = 1 := by
          rw [hnames, ht]
          exact if_pos rfl
        refine (hs i).imp id fun hlt ↦ ?_
        omega
      rw [sysClose_inUse hi.tidy hin]
      refine ih (h.closeFd hi hin hone) (hi.closeFd hin fun hf ↦ absurd hf Bool.false_ne_true) hl
        fun i ↦ ?_
      have hrest : l.map (execSlot (s.closeFd (s.currentFiles t) fd) t i) = l.map (execSlot s t i) :=
        List.map_congr_left fun fd' h' ↦
          Inv.execSlot_closeFd hi.used hin (by rintro rfl; exact hfd h') i
      obtain ⟨he, -, -⟩ := closeFd_sockets s (s.currentFiles t) fd
      have hspare : (s.taskFdTables (s.currentFiles t) fd).target.socket? = some i →
          (s.unixSockets i).pending = [] ∨ 1 < (s.unixSockets i).refs := by
        intro hj
        refine (hs i).imp id fun hlt ↦ ?_
        have hname : execSlot s t i fd = 1 := by rw [hnames, Target.names, if_pos hj]
        omega
      rw [Spares, hrest, he, Io.dropTarget_refs, (Io.dropTarget_queue s.toIo hspare (h.queue i)).1]
      refine (hs i).imp id fun hlt ↦ ?_
      rw [hnames] at hlt
      omega
    · refine ih h hi hl fun i ↦ (hs i).imp id fun hlt ↦ ?_
      omega

theorem releaseFd_sockets (table : Fin 32) (fd : ℕ)
    (hq : ∀ i, (s.unixSockets i).pending ≠ [] → (s.unixSockets i).listener = true ∧
      (s.unixSockets i).refs ≠ 0)
    (hs : ∀ i, (s.taskFdTables table fd).names (s.links table fd) i = 1 → s.Spares i 1) :
    (∀ i, ((s.releaseFd table fd).unixSockets i).refs =
        (s.unixSockets i).refs - (s.taskFdTables table fd).names (s.links table fd) i) ∧
      (∀ i, ((s.releaseFd table fd).unixSockets i).pending = (s.unixSockets i).pending) ∧
      ∀ i, (s.unixSockets i).pending ≠ [] →
        ((s.releaseFd table fd).unixSockets i).listener = true ∧
          ((s.releaseFd table fd).unixSockets i).refs ≠ 0 := by
  have ho := releaseFd_objects s table fd
  cases hin : (s.taskFdTables table fd).inUse with
  | false =>
    rw [if_neg (by simp [hin])] at ho
    have he : (s.releaseFd table fd).unixSockets = s.unixSockets := congrArg Objects.unixSockets ho
    have hnone : ∀ i, (s.taskFdTables table fd).names (s.links table fd) i = 0 := fun i ↦ by
      rw [FileDesc.names_eq, if_neg (by simp [hin])]
    refine ⟨fun i ↦ ?_, fun i ↦ by rw [he], fun i hp ↦ by rw [he]; exact hq i hp⟩
    rw [he, hnone, Nat.sub_zero]
  | true =>
    rw [if_pos hin] at ho
    have he : (s.releaseFd table fd).unixSockets =
        (s.toIo.dropTarget (s.taskFdTables table fd).target).unixSockets :=
      congrArg Objects.unixSockets ho
    have hname : ∀ i, (s.taskFdTables table fd).names (s.links table fd) i =
        (s.taskFdTables table fd).target.names i :=
      fun i ↦ by rw [FileDesc.names_eq, if_pos hin]
    have hqueue := fun i ↦ Io.dropTarget_queue (d := (s.taskFdTables table fd).target) s.toIo
      (fun hj ↦ hs i (by rw [hname, Target.names, if_pos hj])) (hq i)
    refine ⟨fun i ↦ ?_, fun i ↦ by rw [he]; exact (hqueue i).1,
      fun i hp ↦ by rw [he]; exact (hqueue i).2 hp⟩
    rw [he, hname, Io.dropTarget_refs]

theorem releaseLoop (hu : s.Used) (hdead : s.taskFdTableRefs table = 0) (hl : l.Nodup)
    (hr : ∀ i, (s.unixSockets i).refs ≤ s.view.named i + s.waiting (.side i true) +
      (l.map fun fd ↦ (s.taskFdTables table fd).names (s.links table fd) i).sum)
    (hq : ∀ i, (s.unixSockets i).pending ≠ [] → (s.unixSockets i).listener = true ∧
      (s.unixSockets i).refs ≠ 0)
    (hs : ∀ i, s.Spares i
      (l.map fun fd ↦ (s.taskFdTables table fd).names (s.links table fd) i).sum) :
    (l.foldl (releaseFd table) s).Backed := by
  induction l generalizing s with
  | nil => exact ⟨by simpa using hr, hq⟩
  | cons fd l ih =>
    obtain ⟨hfd, hl⟩ := List.nodup_cons.1 hl
    obtain ⟨hu', ⟨d, x, hv, -, -⟩, -⟩ := releaseFd_spec hu table fd
    simp only [List.map_cons, List.sum_cons] at hr hs
    obtain ⟨hrefs, hpending, hqueue⟩ := releaseFd_sockets table fd hq fun i hname ↦
      (hs i).imp id fun hlt ↦ by omega
    have hrest : ∀ i, (l.map fun fd' ↦ ((s.releaseFd table fd).taskFdTables table fd').names
        ((s.releaseFd table fd).links table fd') i) = l.map fun fd' ↦
          (s.taskFdTables table fd').names (s.links table fd') i := by
      refine fun i ↦ List.map_congr_left fun fd' h' ↦ ?_
      have hne : ¬(table = table ∧ fd' = fd) := by
        rintro ⟨-, rfl⟩
        exact hfd h'
      rw [tables_of_put hv, links_of_put hv, if_neg hne, if_neg hne]
    have hwait : ∀ i, (s.releaseFd table fd).waiting (.side i true) = s.waiting (.side i true) :=
      fun i ↦ Finset.sum_congr rfl fun li _ ↦ by rw [hpending]
    have hdead' : (s.releaseFd table fd).taskFdTableRefs table = 0 :=
      (congrFun (congrArg View.refs hv) table).trans hdead
    refine ih hu' hdead' hl (fun i ↦ ?_) (fun i hp ↦ hqueue i (hpending i ▸ hp)) fun i ↦ ?_
    · have := hr i
      rw [hrest, hwait, hv, View.put_named_of_dead hdead, hrefs]
      omega
    · rw [Spares, hrest, hpending, hrefs]
      refine (hs i).imp id fun hlt ↦ ?_
      omega

theorem sum_range_names (v : View) (table : Fin 32) (i : Fin 32) :
    ((List.range maxFiles).map fun fd ↦ (v.tables table fd).names (v.links table fd) i).sum =
      v.socketHolds table i := by
  rw [View.socketHolds, ← sum_range_slotHolds, ← sum_range_slotHolds, ← List.sum_map_add]
  rfl

theorem named_leaving (i : Slot) (hr : s.taskFdTableRefs table = 1) (j : Fin 32) :
    s.view.named j = (s.leaving i table).view.named j + s.view.socketHolds table j := by
  have hside : ∀ o, s.view.holders o = (s.leaving i table).view.holders o +
      s.view.tableHolds table o := by
    intro o
    have hgone : (s.leaving i table).view.refs table = 0 := by
      change update s.taskFdTableRefs table (s.taskFdTableRefs table - 1) table = 0
      rw [update_self, hr]
    have hlive : s.view.refs table ≠ 0 := by
      change s.taskFdTableRefs table ≠ 0
      omega
    rw [View.holders_eq s.view table, View.holders_eq (s.leaving i table).view table, if_pos hgone,
      if_neg hlive, Nat.zero_add,
      Nat.add_comm]
    refine congrArg (· + _) (Finset.sum_congr rfl fun table' ht ↦ ?_)
    have hsame : (s.leaving i table).view.refs table' = s.view.refs table' :=
      update_of_ne (Finset.ne_of_mem_erase ht) _ _
    rw [hsame]
    rfl
  rw [View.named, View.named, View.socketHolds, hside, hside]
  omega

theorem taskFdTableRelease (h : s.Backed) (hi : s.Inv false) (i : Slot) (hs : s.SparesTable i) :
    (s.taskFdTableRelease i).Backed := by
  cases hid : s.taskFdTableId i with
  | none => rwa [taskFdTableRelease_none hid]
  | some table =>
    have hlive : s.taskFdTableRefs table ≠ 0 := hi.tidy.owned.live hid
    by_cases hr : s.taskFdTableRefs table = 1
    · obtain ⟨s', hs'⟩ : ∃ s', s' = (List.range maxFiles).foldl (releaseFd table)
          (s.leaving i table) := ⟨_, rfl⟩
      have hdead : (s.leaving i table).taskFdTableRefs table = 0 := by
        change update s.taskFdTableRefs table (s.taskFdTableRefs table - 1) table = 0
        rw [update_self, hr]
      have hsum : ∀ j, ((List.range maxFiles).map fun fd ↦
          ((s.leaving i table).taskFdTables table fd).names ((s.leaving i table).links table fd)
            j).sum =
          s.view.socketHolds table j := sum_range_names s.view table
      have hloop : s'.Backed := by
        rw [hs']
        have hu : (s.leaving i table).Used := ⟨hi.used.cell, hi.used.input, hi.used.epoll⟩
        refine releaseLoop hu hdead List.nodup_range (fun j ↦ ?_) h.queue fun j ↦ ?_
        · have hwait : (s.leaving i table).waiting (.side j true) = s.waiting (.side j true) := rfl
          have hsock : (s.leaving i table).unixSockets = s.unixSockets := rfl
          have hrefs := h.refs j
          rw [named_leaving i hr j] at hrefs
          rw [hsum, hwait, hsock]
          omega
        · rw [hsum]
          exact hs table hid hr j
      rw [taskFdTableRelease_last hid hr, ← hs']
      split_ifs with ht
      · refine hloop.same (.of_eq (fun table' hne ↦ ?_) fun _ _ _ _ ↦ rfl) rfl
        by_cases ht : table' = 0
        · simp [rejoin, setIo, ht]
        · simpa [rejoin, setIo, ht] using hne
      · exact hloop
    · have hcalm : Calm (fun _ _ ↦ False) s (s.taskFdTableRelease i) :=
        calm_release hi i fun table' fd hid' hr' ↦ by
        obtain rfl := Option.some.inj (hid.symm.trans hid')
        exact hr hr'
      have he : (s.taskFdTableRelease i).unixSockets = s.unixSockets := by
        rw [taskFdTableRelease_shared hid (by omega)]
        split_ifs <;> rfl
      exact h.same hcalm.stays he

theorem cloneFd (h : s.Backed) (hi : s.Inv false) (source : Fin 32) {destination : Fin 32}
    (hlive : s.taskFdTableRefs destination ≠ 0) (hfd : fd < maxFiles)
    (hfree : (s.taskFdTables destination fd).inUse = false) :
    (s.cloneFd source destination fd).Backed ∧
      (∀ j, ((s.cloneFd source destination fd).unixSockets j).refs =
        (s.unixSockets j).refs + (s.taskFdTables source fd).names (s.links source fd) j) ∧
      ∀ j, ((s.cloneFd source destination fd).unixSockets j).pending = (s.unixSockets j).pending := by
  have hw := cloneFd_spec hi.used source destination fd hi.copyable
  have ho := cloneFd_objects s source destination fd
  have hsock : ∀ j, ((s.cloneFd source destination fd).unixSockets j).refs =
        (s.unixSockets j).refs + (s.taskFdTables source fd).names (s.links source fd) j ∧
      ((s.cloneFd source destination fd).unixSockets j).pending = (s.unixSockets j).pending ∧
      ((s.cloneFd source destination fd).unixSockets j).listener = (s.unixSockets j).listener := by
    intro j
    rw [FileDesc.names_eq]
    split_ifs at ho ⊢ with hin
    · have he : (s.cloneFd source destination fd).unixSockets =
          (s.toIo.retainTarget (s.taskFdTables source fd).target).unixSockets :=
            congrArg Objects.unixSockets ho
      rw [he]
      exact Io.retainTarget_socket s.toIo _ j
    · have he : (s.cloneFd source destination fd).unixSockets = s.unixSockets :=
        congrArg Objects.unixSockets ho
      rw [he]
      exact ⟨rfl, rfl, rfl⟩
  refine ⟨h.put hw.view hlive hfd (fun j ↦ .inr ?_) (fun j ↦ (hsock j).2.1) fun j hj ↦ ?_,
    fun j ↦ (hsock j).1,
    fun j ↦ (hsock j).2.1⟩
  · have hnone : (s.taskFdTables destination fd).names (s.links destination fd) j = 0 := by
      rw [FileDesc.names_eq, if_neg (by simp [hfree])]
    rw [(hsock j).1, hnone, Nat.add_zero]
  · rw [(hsock j).1, (hsock j).2.2]
    exact ⟨(h.queue j hj).1, by have := (h.queue j hj).2; omega⟩

theorem cloneLoop (h : s.Backed) (hi : s.Inv false) {source destination : Fin 32}
    (hne : source ≠ destination) (hlive : s.taskFdTableRefs destination ≠ 0) (hl : l.Nodup)
    (hmax : ∀ fd ∈ l, fd < maxFiles)
    (hfree : ∀ fd ∈ l, (s.taskFdTables destination fd).inUse = false) :
    (l.foldl (Fds.cloneFd source destination) s).Backed ∧
      (∀ j, ((l.foldl (Fds.cloneFd source destination) s).unixSockets j).refs =
        (s.unixSockets j).refs +
          (l.map fun fd ↦ (s.taskFdTables source fd).names (s.links source fd) j).sum) ∧
      ∀ j, ((l.foldl (Fds.cloneFd source destination) s).unixSockets j).pending =
        (s.unixSockets j).pending := by
  induction l generalizing s with
  | nil => exact ⟨h, fun _ ↦ rfl, fun _ ↦ rfl⟩
  | cons fd l ih =>
    obtain ⟨hfd, hl⟩ := List.nodup_cons.1 hl
    obtain ⟨hstep, hrefs, hpending⟩ :=
      h.cloneFd hi source hlive (hmax fd (.head _)) (hfree fd (.head _))
    have hinv :=
      (hi.cloneLoop hne hlive (List.nodup_singleton fd) (fun fd' h' ↦ hmax fd' (by simp_all))
      fun fd' h' ↦ hfree fd' (by simp_all)).1
    have hview := (cloneFd_spec hi.used source destination fd hi.copyable).view
    have hrefs' : (s.cloneFd source destination fd).taskFdTableRefs = s.taskFdTableRefs :=
      congrArg View.refs hview
    have htables := tables_of_put hview
    have hlinks := links_of_put hview
    obtain ⟨hloop, hr, hp⟩ :=
      ih hstep hinv (by rwa [hrefs']) hl (fun fd' h' ↦ hmax fd' (.tail _ h')) fun fd' h' ↦ by
      rw [htables, if_neg (by rintro ⟨-, rfl⟩; exact hfd h')]
      exact hfree fd' (.tail _ h')
    refine ⟨hloop, fun j ↦ ?_, fun j ↦ (hp j).trans (hpending j)⟩
    have hsource : (l.map fun fd' ↦ ((s.cloneFd source destination fd).taskFdTables source fd').names
        ((s.cloneFd source destination fd).links source fd') j) =
        l.map fun fd' ↦ (s.taskFdTables source fd').names (s.links source fd') j := by
      refine List.map_congr_left fun fd' _ ↦ ?_
      rw [htables, hlinks, if_neg fun hc ↦ hne hc.1, if_neg fun hc ↦ hne hc.1]
    rw [List.foldl_cons, hr, hrefs, hsource, List.map_cons, List.sum_cons, Nat.add_assoc]

theorem copied (h : s.Backed) (hi : s.Inv false) {parent child : Slot} {source : Fin 32}
    (hs : s.taskFdTableClone parent child false = some s')
    (hid : s.taskFdTableId parent = some source) :
    s'.Backed ∧ (∀ j, (s'.unixSockets j).refs = (s.unixSockets j).refs +
      s.view.socketHolds source j) ∧
      ∀ j, (s'.unixSockets j).pending = (s.unixSockets j).pending := by
  rw [Fds.taskFdTableClone, hid] at hs
  dsimp only at hs
  split_ifs at hs with hr hshare
  · exact hshare.elim
  split at hs
  · cases hs
  next destination hd =>
  obtain ⟨-, hz⟩ : destination ≠ 0 ∧ s.taskFdTableRefs destination = 0 := by
    simpa using firstFree_some hd
  have hne : source ≠ destination := by
    rintro rfl
    exact hr hz
  have hfree : ∀ fd, (s.taskFdTables destination fd).inUse = false :=
    fun fd ↦ hi.tidy.closed destination fd (.inl hz)
  have ho := hi.tidy.owned.join child destination
  rw [show s.view.refs destination = 0 from hz] at ho
  have hcounted := hi.setRefs ho fun table hz ↦ by
    by_cases ht : table = destination
    · exact fun fd _ ↦ ht ▸ hfree fd
    · rw [update_of_ne ht] at hz
      exact fun fd _ ↦ hi.tidy.closed table fd (.inl (or_self_iff.1 hz))
  obtain ⟨s₀, hs₀⟩ : ∃ s₀, s₀ = s.setIo { s.toIo with
    taskFdTableId := update s.taskFdTableId child (some destination)
    taskFdTableRefs := update s.taskFdTableRefs destination 1 } := ⟨_, rfl⟩
  have hs : (List.range maxFiles).foldl (Fds.cloneFd source destination) s₀ = s' := by
    rw [hs₀]
    exact Option.some.inj hs
  have hback : s₀.Backed := by
    rw [hs₀]
    refine h.same (.of_eq (fun table hr ↦ ?_) fun _ _ _ _ ↦ rfl) rfl
    have ht : table ≠ destination := fun hc ↦ hr (hc ▸ hz)
    simpa [setIo, ht] using hr
  obtain ⟨hloop, hrefs, hpending⟩ := hback.cloneLoop (hs₀ ▸ hcounted) hne (by simp [hs₀, setIo])
    List.nodup_range (fun fd hfd ↦ List.mem_range.1 hfd) fun fd _ ↦ by rw [hs₀]; exact hfree fd
  have hsum : ∀ j, ((List.range maxFiles).map fun fd ↦ (s₀.taskFdTables source fd).names
      (s₀.links source fd) j).sum =
      s.view.socketHolds source j := by
    rw [hs₀]
    exact sum_range_names s.view source
  rw [hs] at hloop hrefs hpending
  refine ⟨hloop, fun j ↦ ?_, fun j ↦ ?_⟩
  · rw [hrefs, hsum, hs₀]
    rfl
  · rw [hpending, hs₀]
    rfl

theorem taskFdTableClone (h : s.Backed) (hi : s.Inv false) {parent child : Slot} {shareFiles : Bool}
    (hs : s.taskFdTableClone parent child shareFiles = some s') :
    s'.Backed ∧ s'.SparesTable child := by
  obtain ⟨-, -, source, hid, hlive, ⟨-, rfl⟩ | ⟨hshare, destination, hne, hd0, hz, hcopy⟩⟩ :=
    hi.taskFdTableClone hs
  · refine ⟨h.same (stays_clone hi hs) rfl, fun table hid' hr' ↦ ?_⟩
    simp only [setIo, update_self, Option.some.injEq] at hid'
    subst hid'
    simp only [setIo, update_self] at hr'
    omega
  · obtain ⟨hback, hrefs, hpending⟩ := h.copied hi (hshare ▸ hs) hid
    refine ⟨hback, fun table hid' hr' j ↦ ?_⟩
    have hids : s'.taskFdTableId = update s.taskFdTableId child (some destination) := hcopy.ids
    obtain rfl : destination = table := by simpa [hids] using hid'
    have hholds : s'.view.socketHolds destination j = s.view.socketHolds source j := by
      rw [← sum_range_names, ← sum_range_names]
      refine congrArg List.sum (List.map_congr_left fun fd hfd ↦ ?_)
      rw [hcopy.tables, hcopy.links, if_pos ⟨rfl, hfd⟩, if_pos ⟨rfl, hfd⟩]
    rw [Spares, hholds, hpending, hrefs]
    by_cases hp : (s.unixSockets j).pending = []
    · exact .inl hp
    · have := (h.queue j hp).2
      exact .inr (by omega)

theorem sysClone (h : s.Backed) (hi : s.Inv false) (t : Slot) (shareFiles copied : Bool) :
    (s.sysClone t shareFiles copied).1.Backed := by
  obtain ⟨n, rc, hs⟩ | ⟨child, s', hs', hs⟩ := s.sysClone_cases t shareFiles copied
  · rw [hs]
    exact h.same (.of_view rfl) rfl
  · have hi₁ : ({ s with nextPid := s.nextPid + 1 } : Fds).Inv false :=
      hi.tasks (s.nextPid + 1) s.used
    have h₁ : ({ s with nextPid := s.nextPid + 1 } : Fds).Backed := h.same (.of_view rfl) rfl
    obtain ⟨h₂, hback⟩ := h₁.taskFdTableClone hi₁ hs'
    rw [hs]
    cases copied with
    | true => exact h₂.same (.of_view rfl) rfl
    | false => exact h₂.taskFdTableRelease (hi₁.taskFdTableClone hs').1 child hback

theorem reap (h : s.Backed) (hi : s.Inv false) (child : Slot) (hs : s.SparesTable child) :
    (s.reap child).Backed :=
  (h.taskFdTableRelease hi child hs).same (.of_tables rfl rfl) rfl

theorem sysFork (h : s.Backed) (hi : s.Inv false) (t : Slot) (cloned : Bool) :
    (s.sysFork t cloned).1.Backed := by
  obtain ⟨n, rc, hs⟩ | ⟨child, s', hs', hs⟩ := s.sysClone_cases t false true
  · rw [Fds.sysFork, hs]
    exact h.same (.of_view rfl) rfl
  · have hi₁ : ({ s with nextPid := s.nextPid + 1 } : Fds).Inv false :=
      hi.tasks (s.nextPid + 1) s.used
    have h₁ : ({ s with nextPid := s.nextPid + 1 } : Fds).Backed := h.same (.of_view rfl) rfl
    obtain ⟨h₂, hback⟩ := h₁.taskFdTableClone hi₁ hs'
    have h₃ : ({ s' with used := update s'.used child true } : Fds).Backed :=
      h₂.same (.of_view rfl) rfl
    have hi₃ := (hi₁.taskFdTableClone hs').1.tasks s'.nextPid (update s'.used child true)
    rw [Fds.sysFork, hs]
    cases cloned with
    | true => exact h₃
    | false => exact h₃.reap hi₃ child hback

theorem empty_of_free (h : s.Backed) (hz : (s.unixSockets i).refs = 0) :
    (s.unixSockets i).pending = [] :=
  not_not.1 fun hp ↦ (h.queue i hp).2 hz

theorem giveUp (h : s.Backed) (hz : (s.unixSockets i).refs = 0) (hs : Stays (fun _ _ ↦ False) s s')
    (hnew : (s'.unixSockets i).refs = 0 ∧ (s'.unixSockets i).pending = [])
    (hother : ∀ j ≠ i, s'.unixSockets j = s.unixSockets j) : s'.Backed := by
  refine h.grow hs (fun j ↦ ?_) (fun j ↦ ?_) fun j hj ↦ ?_
  · by_cases hj : j = i
    · rw [hj, hnew.1]
      exact Nat.zero_le _
    · rw [hother j hj]
  · by_cases hj : j = i
    · rw [hj, hnew.2, h.empty_of_free hz]
    · rw [hother j hj]
  · have hne : j ≠ i := by
      rintro rfl
      exact hj (h.empty_of_free hz)
    rw [hother j hne]
    exact h.queue j hj

theorem clearSocket (h : s.Backed) (hz : (s.unixSockets i).refs = 0) (netlink : Bool) :
    (s.clearSocket i netlink).Backed := by
  have hnew : (s.clearSocket i netlink).unixSockets i = .zero := update_self ..
  refine h.giveUp hz (calm_clearSocket s i netlink).stays ?_ fun j hj ↦ update_of_ne hj ..
  rw [hnew]
  exact ⟨rfl, rfl⟩

theorem setSocketSlot (h : s.Backed) (hi : s.Inv false) (t : Slot) (hmax : fd < maxFiles)
    (hfree : (s.files t fd).inUse = false)
    (i : Fin 32) (side : Bool) (flags : ℕ) (hv : s'.view = (s.setSocketSlot t fd i side flags).view)
    (hr : ∀ j, (s'.unixSockets j).refs ≤ (s.unixSockets j).refs + if j = i then 1 else 0)
    (hp : ∀ j, (s'.unixSockets j).pending = (s.unixSockets j).pending)
    (hq : ∀ j, (s.unixSockets j).pending ≠ [] → (s'.unixSockets j).listener = true ∧
      (s'.unixSockets j).refs ≠ 0) :
    s'.Backed := by
  refine h.put hv (hi.currentFiles_live t) hmax (fun j ↦ .inr ?_) hp hq
  have hnone : (s.taskFdTables (s.currentFiles t) fd).names (s.links (s.currentFiles t) fd)
      j = 0 := by
    rw [FileDesc.names_eq, ← files, if_neg (by simp [hfree])]
  rw [hnone, FileDesc.names_socket]
  exact hr j

theorem attach (h : s.Backed) (hi : s.Inv false) (t : Slot) (hfd : s.findFreeFd t = some fd)
    (i : Fin 32) (side : Bool) (flags : ℕ) : (s.attach t fd i side flags).Backed := by
  obtain ⟨hmax, hfree⟩ := findFreeFd_some hfd
  refine h.setSocketSlot hi t hmax hfree i side flags rfl (fun j ↦ ?_) (fun j ↦ ?_) fun j hj ↦ ?_
  · rw [attach_sockets]
    by_cases hj : j = i
    · subst hj
      simp
    · simp [hj]
  · rw [attach_sockets]
    by_cases hj : j = i
    · subst hj
      simp
    · simp [hj]
  · rw [attach_sockets]
    by_cases he : j = i
    · subst he
      simpa using (h.queue j hj).1
    · simpa [he] using h.queue j hj

theorem socketNew (h : s.Backed) (hi : s.Inv false) (t : Slot) (hz : (s.unixSockets i).refs = 0)
    (netlink : Bool) (flags : ℕ) : (s.socketNew t i netlink flags).1.Backed := by
  rw [Fds.socketNew]
  obtain ⟨-, hs⟩ | ⟨fd, hfd, hs⟩ :=
    (s.clearSocket i netlink).socketAllocEndpoint_cases t i false flags
  · rw [hs]
    exact h.clearSocket hz netlink
  · rw [hs]
    exact (h.clearSocket hz netlink).attach (hi.clearFree hz netlink) t hfd i false flags

theorem sysSocket (h : s.Backed) (hi : s.Inv false) (t : Slot) (domain : ℤ) (type : ℕ)
    (protocol : ℤ) : (s.sysSocket t domain type protocol).1.Backed := by
  obtain ⟨rc, hs⟩ | ⟨n, m, i, netlink, flags, hz, hs⟩ := s.sysSocket_cases t domain type protocol
  · rwa [hs]
  · have hstart : ({ s with socketSi := n, netlinkNi := m } : Fds).Backed :=
      h.same (.of_view rfl) rfl
    rw [hs]
    exact hstart.socketNew (hi.others rfl rfl rfl rfl rfl rfl rfl rfl rfl) t hz netlink flags

theorem sysSocketpair (h : s.Backed) (hi : s.Inv false) (t : Slot) (domain : ℤ) (type : ℕ)
    (sv copied : Bool) : (s.sysSocketpair t domain type sv copied).1.Backed := by
  obtain ⟨n, rc, hs⟩ | ⟨-, -, hz, s₀, hs₀, hcases⟩ := s.sysSocketpair_cases t domain type sv copied
  · rw [hs]
    exact h.same (.of_view rfl) rfl
  have hnext : ({ s with pairSi := s.pairSi + 1 } : Fds).Backed := h.same (.of_view rfl) rfl
  have hinext : ({ s with pairSi := s.pairSi + 1 } : Fds).Inv false :=
    hi.others rfl rfl rfl rfl rfl rfl rfl rfl rfl
  have h₀ : s₀.Backed := hs₀ ▸ hnext.clearSocket hz false
  have hi₀ : s₀.Inv false := hs₀ ▸ hinext.clearFree hz false
  have hzero : s₀.unixSockets s.pairSlot = .zero := by
    rw [hs₀]
    exact update_self ..
  have hz₀ : (s₀.unixSockets s.pairSlot).refs = 0 := by rw [hzero]; rfl
  obtain ⟨-, hs⟩ | ⟨a, s₁, ha, hs₁, hcases⟩ := hcases
  · rwa [hs]
  obtain ⟨-, hs⟩ | ⟨b, hb, hs⟩ := hcases
  · rw [hs, hs₁]
    refine h₀.giveUp hz₀ (.of_free (detach_view s₀ t a s.pairSlot) (findFreeFd_some ha).2) ?_
      fun j hj ↦ ?_
    · rw [detach, modifySocket_apply, if_pos rfl]
      simp [setSlot, Io.setFd, attach_sockets, hzero, UnixSocketState.zero]
    · rw [detach, modifySocket_apply, if_neg hj]
      simp [setSlot, Io.setFd, attach_sockets, hj]
  · have h₁ : s₁.Backed := hs₁ ▸ h₀.attach hi₀ t ha s.pairSlot false 0
    have hi₁ : s₁.Inv false := by
      rw [hs₁, hs₀]
      exact hinext.attachFirst t hz false 0 (hs₀ ▸ ha)
    rw [hs]
    split_ifs
    · exact h₁.attach hi₁ t hb s.pairSlot true 0
    · rw [hs₁] at hb ⊢
      refine h₀.giveUp hz₀ (stays_unpair ha hb) ?_ fun j hj ↦ ?_
      · rw [unpair, modifySocket_apply, if_pos rfl]
        simp [setSlot, Io.setFd, attach_sockets, hzero, UnixSocketState.zero]
      · rw [unpair, modifySocket_apply, if_neg hj]
        simp [setSlot, Io.setFd, attach_sockets, hj]

theorem modifySocket (h : s.Backed) (i : Fin 32) {g : UnixSocketState → UnixSocketState}
    (hr : (g (s.unixSockets i)).refs = (s.unixSockets i).refs)
    (hp : (g (s.unixSockets i)).pending = (s.unixSockets i).pending)
    (hl : (s.unixSockets i).listener = true → (g (s.unixSockets i)).listener = true) :
    (s.modifySocket i g).Backed := by
  refine h.grow (.of_view rfl) (fun j ↦ ?_) (fun j ↦ ?_) fun j hj ↦ ?_
  · rw [modifySocket_apply]
    split_ifs with he
    · rw [he, hr]
    · exact le_rfl
  · rw [modifySocket_apply]
    split_ifs with he
    · rw [he, hp]
    · rfl
  · rw [modifySocket_apply]
    obtain ⟨hlisten, hrefs⟩ := h.queue j hj
    split_ifs with he
    · subst he
      exact ⟨hl hlisten, by rwa [hr]⟩
    · exact ⟨hlisten, hrefs⟩

theorem adjusts {C : Fin 32 → Prop} (h : s.Backed) (ha : s.Adjusts C s')
    (hC : ∀ i, C i → (s.unixSockets i).pending = []) : s'.Backed := by
  cases ha with
  | same => exact h
  | bound i path => exact h.modifySocket i rfl rfl id
  | listens hi => exact h.modifySocket _ rfl (hC _ hi).symm fun _ ↦ rfl
  | shuts i side =>
    have hmod :=
      h.modifySocket i (g := fun st ↦ { st with closed := update st.closed side true }) rfl rfl id
    exact hmod.same (.of_view rfl) rfl

/-- The entry of a queue becomes a descriptor; if the call fails after that, the descriptor is there
all the same. -/
theorem sysAccept (h : s.Backed) (hi : s.Inv false) (t : Slot) (fd : ℤ) (blocks : Bool)
    (copied : Option Bool) : (s.sysAccept t fd blocks copied).1.Backed := by
  obtain hs | ⟨li, side, rest, n, i, -, hlisten, hp, -, hn, hs⟩ :=
    s.sysAccept_cases t fd blocks copied
  · rwa [hs]
  obtain ⟨hmax, hfree⟩ := findFreeFd_some hn
  rw [hs]
  split_ifs
  · exact h.setSocketSlot hi t hmax hfree i true 0 rfl (fun j ↦ Nat.le_add_right _ _)
      (fun _ ↦ rfl) h.queue
  set s' := ((s.setSocketSlot t n i true 0).modifySocket li
    (fun st ↦ { st with pending := rest })).modifySocket i
    (fun st ↦ { st with connected := true }) with hs'
  change s'.Backed
  have hsock : ∀ j, s'.unixSockets j = _ := accepted_socket s t n i li rest
  have hview : s'.view = s.view.put (s.currentFiles t) n ⟨true, .socket i true, 0⟩
      { s.links (s.currentFiles t) n with sharedOffset := none } := rfl
  have hnone : ∀ j, (s.taskFdTables (s.currentFiles t) n).names (s.links (s.currentFiles t) n) j =
      0 := fun j ↦ by
    rw [FileDesc.names_eq, if_neg (by simp [hfree])]
  refine ⟨fun j ↦ ?_, fun j hj ↦ ?_⟩
  · have hnamed := View.put_named (v := s.view) (d := ⟨true, .socket i true, 0⟩)
      (x := { s.links (s.currentFiles t) n with sharedOffset := none })
        (hi.currentFiles_live t) hmax j
    change _ + (s.taskFdTables (s.currentFiles t) n).names (s.links (s.currentFiles t) n) j =
      _ at hnamed
    rw [hnone, FileDesc.names_socket] at hnamed
    have hwait := @waiting_of_ne s s' li (fun k hk ↦ by rw [hsock, if_neg hk]) j
    have hli : (s'.unixSockets li).pending = rest := by rw [hsock, if_pos rfl]
    have hrefs := h.refs j
    rw [hli, hp] at hwait
    rw [hview, hsock]
    -- What the queue loses the table gains.
    have hmoved : ((i : ℤ) :: rest).count (j : ℤ) = (if j = i then 1 else 0) +
        rest.count (j : ℤ) := by
      rw [← count_index, ← List.count_append]
      rfl
    generalize (if j = i then 1 else 0) = one at hnamed hmoved
    change (s.unixSockets j).refs ≤ _
    omega
  · rw [hsock] at hj ⊢
    refine h.queue j ?_
    dsimp only at hj
    split_ifs at hj with he
    · rw [he, hp]
      exact List.cons_ne_nil _ _
    · exact hj

theorem connectTo (h : s.Backed) (hi : s.Inv false) (t : Slot) {old li ni : Fin 32} {side : Bool}
    (hin : (s.files t fd).inUse = true) (htarget : (s.files t fd).target = .socket old side)
    (hlisten : (s.unixSockets li).listener = true ∧ (s.unixSockets li).refs ≠ 0) (hni : ni ≠ li)
    (hz : (s.unixSockets ni).refs = 0)
    (hc : 1 < (s.unixSockets old).refs ∨ (s.unixSockets old).pending = [] ∧ old ≠ li) :
    (s.connectTo t fd old side li ni).Backed := by
  have hmax := (hi.tidy.live hin).2
  set s' := s.connectTo t fd old side li ni with hs'
  -- The new socket may be the old one, where a descriptor was left on a free slot.
  have hnew : (s'.unixSockets ni).refs = 2 ∧ (s'.unixSockets ni).pending = [] := by
    by_cases ho : ni = old
    · subst ho
      simp [hs', Fds.connectTo, Fds.modifySocket, setIo, Io.modifySocket, Fds.hold,
        Fds.setSocketSlot, setSlot, Io.setFd,
        Fds.clearSocket, hni, UnixSocketState.zero, UnixSocketState.dropRef]
    · rw [hs', connectTo_new s t fd side hni ho]
      exact ⟨rfl, rfl⟩
  have hdrop : ∀ j, (s.modifySocket old (fun st ↦ st.dropRef side)).unixSockets j =
      (s.toIo.dropTarget (.socket old side)).unixSockets j := fun _ ↦ rfl
  have hqueue := fun j ↦ Io.dropTarget_queue (d := .socket old side) (i := j) s.toIo
    (fun hj ↦ by
      obtain rfl := Option.some.inj hj
      exact hc.elim .inr fun hc ↦ .inl hc.1) (h.queue j)
  have hother : ∀ j ≠ ni, s'.unixSockets j = if j = li then
      { (s.toIo.dropTarget (.socket old side)).unixSockets j with
      pending := ((s.toIo.dropTarget (.socket old side)).unixSockets j).pending ++ [(ni : ℤ)] }
      else (s.toIo.dropTarget (.socket old side)).unixSockets j := fun j hj ↦ by
    rw [hs', connectTo_of_ne s t fd old side li hj]
    simp only [hdrop]
  have hpend : ∀ j ≠ li, (s'.unixSockets j).pending = (s.unixSockets j).pending := by
    intro j hj
    by_cases hn : j = ni
    · rw [hn, hnew.2, h.empty_of_free hz]
    · rw [hother j hn, if_neg hj, (hqueue j).1]
  have hpendLi : (s'.unixSockets li).pending = (s.unixSockets li).pending ++ [(ni : ℤ)] := by
    rw [hother li (Ne.symm hni), if_pos rfl, (hqueue li).1]
  have hview : s'.view = s.view.put (s.currentFiles t) fd ⟨true, .socket ni false, 0⟩
      { s.links (s.currentFiles t) fd with sharedOffset := none } := rfl
  refine ⟨fun j ↦ ?_, fun j hj ↦ ?_⟩
  · have hnamed := View.put_named (v := s.view) (d := ⟨true, .socket ni false, 0⟩)
      (x := { s.links (s.currentFiles t) fd with sharedOffset := none })
        (hi.currentFiles_live t) hmax j
    change _ + (s.taskFdTables (s.currentFiles t) fd).names (s.links (s.currentFiles t) fd) j =
      _ at hnamed
    have hold : (s.taskFdTables (s.currentFiles t) fd).names (s.links (s.currentFiles t) fd) j =
        (Target.socket old side).names j := by
      rw [FileDesc.names_eq, ← files, if_pos hin, htarget]
    rw [hold, FileDesc.names_socket] at hnamed
    have hwait := @waiting_of_ne s s' li hpend j
    rw [hpendLi, List.count_append] at hwait
    rw [count_index] at hwait
    have hrefs := h.refs j
    rw [hview]
    by_cases hn : j = ni
    · -- The descriptor and the entry of the queue.
      have hheld :=
        View.slotHolds_le_holders (v := s.view.put (s.currentFiles t) fd ⟨true, .socket ni false, 0⟩
        { s.links (s.currentFiles t) fd with sharedOffset := none }) (hi.currentFiles_live t) hmax
          (.side ni false)
      rw [View.put_slotHolds, if_pos ⟨rfl, rfl⟩] at hheld
      have hone : 1 ≤ FileDesc.holds ⟨true, .socket ni false, 0⟩
          { s.links (s.currentFiles t) fd with sharedOffset := none } (.side ni false) := by
        rw [FileDesc.holds, if_pos rfl, Target.endpoint, hits_self]
        omega
      rw [if_pos hn] at hwait
      rw [hn, hnew.1, View.named]
      rw [hn] at hwait
      omega
    · rw [if_neg hn] at hnamed hwait
      have hafter : (s'.unixSockets j).refs = (s.unixSockets j).refs -
          (Target.socket old side).names j := by
        rw [hother j hn]
        split_ifs <;> exact Io.dropTarget_refs s.toIo _ j
      omega
  · by_cases hn : j = ni
    · exact absurd (hn ▸ hnew.2) hj
    rw [hother j hn]
    split_ifs with he
    · subst he
      by_cases hold : old = j
      · have hmore : 1 < (s.unixSockets j).refs := hold ▸ hc.resolve_right fun hc ↦ hc.2 hold
        obtain ⟨b, hb⟩ :=
          Io.dropTarget_of_eq (d := .socket old side) (i := j) s.toIo (congrArg some hold)
        rw [hb, UnixSocketState.dropRef_listener, UnixSocketState.dropRef_refs, if_neg (by omega)]
        exact ⟨hlisten.1, by omega⟩
      · rw [Io.dropTarget_of_ne
          (fun hc ↦ hold (Option.some.inj hc) : (Target.socket old side).socket? ≠ some j)]
        exact hlisten
    · refine (hqueue j).2 fun hp ↦ hj ?_
      rw [hpend j he, hp]

theorem sysConnect (h : s.Backed) (hi : s.Inv false) (t : Slot) (fd : ℤ) (addr : SockAddr)
    (hc : ∀ path, addr = .path path → s.SparesConnect t fd path) :
    (s.sysConnect t fd addr).1.Backed := by
  obtain ⟨rc, hs⟩ | ⟨old, side, path, li, ni, hold, ha, hl, hp, hn, hs⟩ :=
    s.sysConnect_cases t fd addr
  · rwa [hs]
  · obtain ⟨hv, htarget⟩ := socketOf_some hold
    obtain ⟨-, -, hin⟩ := fdValid_iff.1 hv
    have hlisten := firstFree_decide hl
    have hfree := nextFree_some hn
    have hspares := hc path ha old side li hold hl hp (ne_of_eq_of_ne hn (Option.some_ne_none ni))
    rw [hs]
    exact h.connectTo hi t hin htarget ⟨hlisten.2.1, hlisten.1⟩ hfree.1 hfree.2 hspares

end Backed

/-- The condition for the sockets to stay backed: no queue goes with the entries in it. A result
that cannot be written is no matter. -/
def KeepsQueues (s : Fds) (t : Slot) : FdOp → Prop
  | .socketpair _ _ _ _ => True
  | .accept _ _ _ => True
  | op => s.Admits t op

theorem Backed.exec (h : s.Backed) (hi : s.Inv false) (t : Slot) (op : FdOp)
    (hc : s.KeepsQueues t op) : (s.exec t op).1.Backed := by
  cases op with
  | «open» path flags => exact h.quiet (quiet_open hi.used t path flags)
  | close fd => exact h.sysClose hi t fd hc
  | pipe copied => exact h.quiet (quiet_pipe s t copied)
  | pipe2 copied flags => exact h.quiet (quiet_pipe2 s t copied flags)
  | dup oldfd =>
    exact h.duplicates hi (s.sysDupInternal_duplicates t (fun _ ↦ true) oldfd 0 false) fun _ ↦
      False.elim
  | dup2 oldfd newfd =>
    exact h.duplicates hi (sysDup2_duplicates (C := s.SparesAt t) hi.used t oldfd newfd hc)
      fun _ hf ↦ hf
  | dup3 oldfd newfd flags =>
    exact h.duplicates hi (sysDup3_duplicates (C := s.SparesAt t) hi.used t oldfd newfd flags hc)
      fun _ hf ↦ hf
  | fcntl outside fd cmd arg =>
    exact h.duplicates hi (s.sysFcntl_duplicates t outside fd cmd arg) fun _ ↦ False.elim
  | epollCreate1 flags => exact h.quiet (quiet_epollCreate1 s t flags)
  | clone shareFiles copied => exact h.sysClone hi t shareFiles copied
  | fork cloned => exact h.sysFork hi t cloned
  | execve =>
    dsimp only [Fds.exec]
    exact h.closeOnExec_loop hi t List.nodup_range hc
  | exit =>
    dsimp only [Fds.exec]
    exact h.taskFdTableRelease hi t hc
  | reap child => exact h.reap hi child hc
  | socket domain type protocol => exact h.sysSocket hi t domain type protocol
  | socketpair domain type sv copied => exact h.sysSocketpair hi t domain type sv copied
  | bind fd addr node => exact h.adjusts (s.sysBind_adjusts t fd addr node) fun _ ↦ False.elim
  | listen fd backlog => exact h.adjusts (s.sysListen_adjusts t fd backlog hc) fun _ hi ↦ hi
  | connect fd addr =>
    refine h.sysConnect hi t fd addr fun path ha ↦ ?_
    subst ha
    exact hc
  | accept fd blocks copied => exact h.sysAccept hi t fd blocks copied
  | shutdown fd how => exact h.adjusts (s.sysShutdown_adjusts t fd how) fun _ ↦ False.elim
  | eventfd2 initval flags =>
    refine h.same (stays_eventfd2 s t initval flags _) ?_
    simp only [Fds.exec, Fds.sysEventfd2]
    split
    · rfl
    · split <;> rfl
  | timerfdCreate clockid flags =>
    refine h.same (stays_timerfdCreate s t clockid flags _) ?_
    simp only [Fds.exec, Fds.sysTimerfdCreate]
    split_ifs
    · rfl
    · split
      · rfl
      · split <;> rfl
  | eventfdWrite fd v =>
    simp only [Fds.exec, Fds.eventfdWrite]
    split
    · split_ifs
      · exact h
      · exact h
      · exact h.same (.of_view rfl) rfl
    · exact h
  | eventfdRead fd copied =>
    simp only [Fds.exec, Fds.eventfdRead]
    split
    · split_ifs
      · exact h
      · exact h.same (.of_view rfl) rfl
      · exact h.same (.of_view rfl) rfl
    · exact h
  | timerfdSettime fd now value interval =>
    simp only [Fds.exec, Fds.sysTimerfdSettime]
    split
    · exact h.same (.of_view rfl) rfl
    · exact h
  | timerfdRead fd now copied =>
    simp only [Fds.exec, Fds.timerfdRead]
    split
    · split_ifs <;> exact h.same (.of_view rfl) rfl
    · exact h
  | pipeWrite fd data =>
    simp only [Fds.exec, Fds.pipeWrite]
    split
    · split_ifs <;> exact h.same (.of_view rfl) rfl
    · exact h
  | pipeRead fd n =>
    simp only [Fds.exec, Fds.pipeRead]
    split
    · exact h.same (.of_view rfl) rfl
    · exact h
  | ptyLock fd lock =>
    simp only [Fds.exec, Fds.ptyLock]
    split
    · exact h.same (.of_view rfl) rfl
    · exact h

end Fds

end YabroOS
