import YabroOS.Fd.Counts

namespace YabroOS

open Function

namespace Fds

variable {s s' : Fds} {table : Fin 32} {fd : ℕ} {o : Obj}

theorem fdValid_iff {t : Slot} {fd : ℤ} :
    s.fdValid t fd = true ↔ 0 ≤ fd ∧ fd < maxFiles ∧ (s.files t fd.toNat).inUse = true := by
  simp [fdValid]

structure Objects where
  pipes : Fin 8 → PipeState
  unixSockets : Fin 32 → UnixSocketState
  ptySlots : Fin 8 → PtyState
  eventfds : Fin 8 → ℕ
  eventfdFlags : Fin 8 → ℕ
  timerfds : Fin 8 → TimerfdState
  held : Fin 32 → Bool → Bool
  shut : Fin 32 → Bool → Bool

def objects (s : Fds) : Objects :=
  ⟨s.pipes, s.unixSockets, s.ptySlots, s.eventfds, s.eventfdFlags, s.timerfds, s.held, s.shut⟩

@[simp] theorem setSlot_objects (d : FileDesc) (x : FdLinks) :
    (s.setSlot table fd d x).objects = s.objects := rfl

@[simp] theorem releaseOpenOffset_objects (c : Option (Fin 512)) :
    (s.releaseOpenOffset c).objects = s.objects := by
  cases c with
  | none => rfl
  | some c =>
    simp only [releaseOpenOffset]
    split_ifs <;> rfl

@[simp] theorem retainOpenOffset_objects (c : Option (Fin 512)) :
    (s.retainOpenOffset c).objects = s.objects := by
  cases c <;> rfl

@[simp] theorem inputStateRelease_objects (i : Option (Fin 32768)) :
    (s.inputStateRelease i).objects = s.objects := by
  cases i with
  | none => rfl
  | some i =>
    simp only [inputStateRelease]
    split_ifs <;> rfl

@[simp] theorem inputStateRetain_objects (i : Option (Fin 32768)) :
    (s.inputStateRetain i).objects = s.objects := by
  cases i with
  | none => rfl
  | some i =>
    simp only [inputStateRetain]
    split_ifs <;> rfl

@[simp] theorem epollReleaseFile_objects (d : Target) :
    (s.epollReleaseFile d).objects = s.objects := by
  cases d with
  | epoll e =>
    simp only [epollReleaseFile]
    split_ifs <;> rfl
  | _ => rfl

@[simp] theorem epollRetainFile_objects (d : Target) :
    (s.epollRetainFile d).objects = s.objects := by
  cases d with
  | epoll e =>
    simp only [epollRetainFile]
    split_ifs <;> rfl
  | _ => rfl

@[simp] theorem fdMarkClosed_objects : (s.fdMarkClosed table fd).objects = s.objects := by
  simp [fdMarkClosed]

@[simp] theorem taskFdRelease_objects : (s.taskFdRelease table fd).objects = s.objects := by
  simp only [taskFdRelease]
  split_ifs <;> simp

@[simp] theorem closeRest_objects : (s.closeRest table fd).objects = s.objects := by
  simp [closeRest, fdDropResources]

@[simp] theorem fdCopyScalar_objects (src dst : ℕ) (flags : ℕ → ℕ) :
    (s.fdCopyScalar table src dst flags).objects = s.objects := by
  simp only [fdCopyScalar]
  split_ifs <;> simp

theorem objects_retainTarget (h : s'.objects = s.objects) (d : Target) :
    (s'.setIo (s'.toIo.retainTarget d)).objects = (s.setIo (s.toIo.retainTarget d)).objects := by
  simp only [objects, Objects.mk.injEq] at h
  obtain ⟨h₁, h₂, h₃, h₄, h₅, h₆, h₇, h₈⟩ := h
  cases d <;>
    simp [objects, setIo, Io.retainTarget, Io.modifyPipe, Io.modifyPty, Io.modifySocket, h₁, h₂, h₃,
      h₄, h₅, h₆, h₇, h₈]

theorem slotHolds_pipe {target : Target} (ht : ∃ p, target = .pipeR p ∨ target = .pipeW p)
    (ho : target.endpoint = some o) (s : Fds) (table : Fin 32) (fd : ℕ) :
    s.view.slotHolds table fd o =
      if (s.taskFdTables table fd).inUse ∧ (s.taskFdTables table fd).target = target then 1
        else 0 := by
  have hend : ∀ d : Target, hits d.endpoint o = if d = target then 1 else 0 := by
    obtain ⟨p, rfl | rfl⟩ := ht <;> cases ho <;> intro d <;> cases d <;> simp [hits, Target.endpoint]
  have hepoll : ∀ d : Target, hits d.epollObj o = 0 := by
    obtain ⟨p, rfl | rfl⟩ := ht <;> cases ho <;> intro d <;> cases d <;> simp [hits, Target.epollObj]
  have hcell : ∀ c : Option (Fin 512), hits (c.map .cell) o = 0 := by
    obtain ⟨p, rfl | rfl⟩ := ht <;> cases ho <;> intro c <;> cases c <;> simp [hits]
  have hinput : ∀ i : Option (Fin 32768), hits (i.map .input) o = 0 := by
    obtain ⟨p, rfl | rfl⟩ := ht <;> cases ho <;> intro i <;> cases i <;> simp [hits]
  cases hin : (s.taskFdTables table fd).inUse with
  | false => rw [slotHolds_of_free hin, if_neg (by simp)]
  | true =>
    rw [slotHolds_of_inUse hin, hend, hepoll, hcell, hinput]
    simp

theorem liveEnds_eq {target : Target} (ht : ∃ p, target = .pipeR p ∨ target = .pipeW p)
    (ho : target.endpoint = some o) (s : Fds) : s.liveEnds target = s.view.holders o := by
  rw [liveEnds, View.holders]
  refine Finset.sum_congr rfl fun table _ ↦ ?_
  by_cases hr : s.taskFdTableRefs table = 0
  · rw [if_pos hr, if_pos (show s.view.refs table = 0 from hr)]
  · rw [if_neg hr, if_neg (show ¬ s.view.refs table = 0 from hr)]
    exact Finset.sum_congr rfl fun fd _ ↦ (slotHolds_pipe ht ho s table fd).symm

theorem closeFd_spec (h : s.Used) (hin : (s.taskFdTables table fd).inUse = true) :
    (s.closeFd table fd).Used ∧ (s.closeFd table fd).view = s.view.put table fd .free .none ∧
      ∀ o, (s.closeFd table fd).count o = s.count o - s.view.slotHolds table fd o ∨
        (∃ p, o = .reader p ∨ o = .writer p) ∧
          (s.closeFd table fd).count o = (s.closeFd table fd).view.holders o := by
  have hd := drops_target h (s.taskFdTables table fd).target
  have hrest := hd.writes (writes_closeRest hd.used table fd)
  rw [hd.links] at hrest
  -- Everything but the references to an epoll instance, which `closeRest` does not drop.
  have hcount : (s.taskFdTables table fd).target.epollObj = none → ∀ o,
      ((s.setIo (s.toIo.dropTarget (s.taskFdTables table fd).target)).closeRest table fd).count o =
        s.count o - s.view.slotHolds table fd o := by
    intro he o
    rw [hrest.count, slotHolds_of_inUse hin, he, hits_none]
    omega
  simp only [closeFd]
  cases ht : (s.taskFdTables table fd).target with
  | epoll e =>
    have hw := writes_taskFdRelease h hin
    refine ⟨hw.used, hw.view, fun o ↦ .inl ?_⟩
    rw [hw.count, slotHolds_of_inUse hin, ht]
    simp only [Target.endpoint, hits_none]
    omega
  | ptySlave p =>
    rw [ht] at hrest hcount
    dsimp only
    split_ifs
    · let s₁ := s.setIo (s.toIo.dropTarget (.ptySlave p))
      -- The flag that is reset is not counted.
      have hm : Moves s₁
          (s₁.setIo (s₁.toIo.modifyPty p (fun st ↦ { st with outputStopped := false })))
          (fun _ n ↦ n) := by
        refine ⟨⟨h.cell, h.input, h.epoll⟩, rfl, fun o ↦ ?_⟩
        rw [count_pty]
        by_cases h₁ : o = .master p
        · rw [if_pos h₁, h₁]
          rfl
        · by_cases h₂ : o = .slave p
          · rw [if_neg h₁, if_pos h₂, h₂]
            rfl
          · rw [if_neg h₁, if_neg h₂]
      rw [ht] at hd
      have hw := (hd.trans hm).writes (writes_closeRest hm.used table fd)
      refine ⟨hw.used, hw.view, fun o ↦ .inl ?_⟩
      rw [hw.count, slotHolds_of_inUse hin, ht, hm.links, hd.links]
      simp only [Target.epollObj, hits_none]
      omega
    · exact ⟨hrest.used, hrest.view, fun o ↦ .inl (hcount rfl o)⟩
  | pipeR p =>
    rw [ht] at hrest hcount
    refine ⟨⟨hrest.used.cell, hrest.used.input, hrest.used.epoll⟩, hrest.view, fun o ↦ ?_⟩
    dsimp only [modifyPipe]
    rw [count_pipe]
    by_cases h₁ : o = .reader p
    · rw [if_pos h₁]
      exact .inr ⟨⟨p, .inl h₁⟩, liveEnds_eq ⟨p, .inl rfl⟩ (h₁ ▸ rfl) _⟩
    · rw [if_neg h₁]
      refine .inl ((ite_eq_right_iff.2 fun h₂ ↦ ?_).trans (hcount rfl o))
      rw [h₂]
      rfl
  | pipeW p =>
    rw [ht] at hrest hcount
    refine ⟨⟨hrest.used.cell, hrest.used.input, hrest.used.epoll⟩, hrest.view, fun o ↦ ?_⟩
    dsimp only [modifyPipe]
    rw [count_pipe]
    by_cases h₁ : o = .reader p
    · rw [if_pos h₁]
      refine .inl ((hcount rfl o).symm ▸ ?_)
      rw [h₁]
      rfl
    · by_cases h₂ : o = .writer p
      · rw [if_neg h₁, if_pos h₂]
        exact .inr ⟨⟨p, .inr h₂⟩, liveEnds_eq ⟨p, .inr rfl⟩ (h₂ ▸ rfl) _⟩
      · rw [if_neg h₁, if_neg h₂]
        exact .inl (hcount rfl o)
  | _ =>
    rw [ht] at hrest hcount
    exact ⟨hrest.used, hrest.view, fun o ↦ .inl (hcount rfl o)⟩

theorem closeFd_sockets (s : Fds) (table : Fin 32) (fd : ℕ) :
    (s.closeFd table fd).unixSockets =
      (s.toIo.dropTarget (s.taskFdTables table fd).target).unixSockets ∧
      (s.closeFd table fd).held = s.held ∧ (s.closeFd table fd).shut = s.shut := by
  have hrest : ∀ s₁ : Fds, (s₁.closeRest table fd).unixSockets = s₁.unixSockets ∧
      (s₁.closeRest table fd).held = s₁.held ∧ (s₁.closeRest table fd).shut = s₁.shut := by
    intro s₁
    have h : (s₁.closeRest table fd).objects = s₁.objects := closeRest_objects
    exact ⟨congrArg Objects.unixSockets h, congrArg Objects.held h, congrArg Objects.shut h⟩
  simp only [closeFd]
  cases ht : (s.taskFdTables table fd).target with
  | epoll e =>
    have h : (s.taskFdRelease table fd).objects = s.objects := taskFdRelease_objects
    exact ⟨congrArg Objects.unixSockets h, congrArg Objects.held h, congrArg Objects.shut h⟩
  | ptySlave p =>
    dsimp only
    split_ifs <;> exact hrest _
  | _ => exact hrest _

end Fds

section Owners

variable {ids : Slot → Option (Fin 32)} {refs : Fin 32 → ℕ} {i : Slot} {table table' : Fin 32}
    {a : Option (Fin 32)}

def owners (ids : Slot → Option (Fin 32)) (table : Fin 32) : ℕ :=
  ∑ i, if ids i = some table then 1 else 0

theorem owners_update (ids : Slot → Option (Fin 32)) (i : Slot) (a : Option (Fin 32))
    (table : Fin 32) :
    owners (update ids i a) table + (if ids i = some table then 1 else 0) =
      owners ids table + if a = some table then 1 else 0 := by
  have h₁ := Finset.add_sum_erase Finset.univ
    (fun j ↦ if update ids i a j = some table then 1 else 0) (Finset.mem_univ i)
  have h₂ := Finset.add_sum_erase Finset.univ (fun j ↦ if ids j = some table then 1 else 0)
    (Finset.mem_univ i)
  have h₃ : ∑ j ∈ Finset.univ.erase i, (if update ids i a j = some table then 1 else 0) =
      ∑ j ∈ Finset.univ.erase i, if ids j = some table then 1 else 0 := by
    refine Finset.sum_congr rfl fun j hj ↦ ?_
    rw [update_of_ne (Finset.ne_of_mem_erase hj)]
  simp only [update_self] at h₁
  rw [owners, owners]
  omega

theorem owners_pos (h : ids i = some table) : owners ids table ≠ 0 := by
  have := owners_update ids i none table
  rw [if_pos h, if_neg (by simp)] at this
  omega

/-- A table is counted at least for the tasks that use it, and the first one for the first task. -/
structure Owned (ids : Slot → Option (Fin 32)) (refs : Fin 32 → ℕ) : Prop where
  owners_le : ∀ table, owners ids table ≤ refs table
  root : ids 0 = some 0 ∨ owners ids 0 < refs 0

namespace Owned

theorem live (h : Owned ids refs) (hi : ids i = some table) : refs table ≠ 0 := by
  have := h.owners_le table
  have := owners_pos hi
  omega

theorem root_live (h : Owned ids refs) : refs 0 ≠ 0 := by
  obtain h' | h' := h.root
  · exact h.live h'
  · omega

theorem join (h : Owned ids refs) (i : Slot) (table : Fin 32) :
    Owned (update ids i (some table)) (update refs table (refs table + 1)) := by
  have hle := h.owners_le
  constructor
  · intro table'
    have hu := owners_update ids i (some table) table'
    specialize hle table'
    by_cases ht : table' = table
    · subst ht
      rw [update_self]
      simp only [if_true] at hu
      omega
    · rw [update_of_ne ht]
      rw [if_neg fun hc ↦ ht (Option.some.inj hc).symm] at hu
      omega
  · have hu := owners_update ids i (some table) 0
    specialize hle 0
    by_cases ht : table = 0
    · subst ht
      by_cases hi : i = 0
      · exact .inl (by rw [hi, update_self])
      · rw [update_of_ne (Ne.symm hi), update_self]
        obtain h' | h' := h.root
        · exact .inl h'
        · simp only [if_true] at hu
          exact .inr (by omega)
    · rw [update_of_ne (Ne.symm ht)]
      rw [if_neg fun hc ↦ ht (Option.some.inj hc)] at hu
      by_cases hi : i = 0
      · subst hi
        obtain h' | h' := h.root
        · rw [if_pos h'] at hu
          exact .inr (by omega)
        · exact .inr (by omega)
      · rw [update_of_ne (Ne.symm hi)]
        obtain h' | h' := h.root
        · exact .inl h'
        · exact .inr (by omega)

theorem leave (h : Owned ids refs) (hi : ids i = some table) (hr : i = 0 → table ≠ 0) :
    Owned (update ids i none) (update refs table (refs table - 1)) := by
  have hle := h.owners_le
  constructor
  · intro table'
    have hu := owners_update ids i none table'
    specialize hle table'
    by_cases ht : table' = table
    · subst ht
      rw [update_self]
      rw [if_pos hi] at hu
      simp only [reduceCtorEq, if_false] at hu
      omega
    · rw [update_of_ne ht]
      simp only [reduceCtorEq, if_false] at hu
      omega
  · have hu := owners_update ids i none 0
    simp only [reduceCtorEq, if_false] at hu
    have hroot := h.root
    by_cases hi0 : i = 0
    · subst hi0
      have ht : table ≠ 0 := hr rfl
      rw [update_of_ne (Ne.symm ht)]
      rw [hi] at hroot
      obtain h' | h' := hroot
      · exact absurd (Option.some.inj h') ht
      · exact .inr (by omega)
    · rw [update_of_ne (Ne.symm hi0)]
      obtain h' | h' := hroot
      · exact .inl h'
      · by_cases ht : table = 0
        · subst ht
          rw [if_pos hi] at hu
          rw [update_self]
          exact .inr (by omega)
        · rw [update_of_ne (Ne.symm ht)]
          exact .inr (by omega)

theorem rejoin (h : Owned ids refs) (hi : ids 0 = some table) (hr : refs table ≠ 0) :
    Owned (update (update ids 0 none) 0 (some 0))
      (update (update refs table (refs table - 1)) 0 (update refs table (refs table - 1) 0 + 1)) := by
  by_cases ht : table = 0
  · subst ht
    have hback : refs 0 - 1 + 1 = refs 0 := by omega
    rw [update_idem, update_idem, update_self, hback, update_eq_self, ← hi, update_eq_self]
    exact h
  · exact (h.leave hi fun _ ↦ ht).join 0 0

end Owned

end Owners

/-- What the tables look like whatever the counts are: where there is no descriptor, or one of a
socket, there is no pointer to a counted thing, the descriptors stand in live tables, and an offset
cell stands for one `open`. -/
structure Fds.View.Tidy (v : Fds.View) : Prop where
  bare : ∀ table fd, (v.tables table fd).inUse = false ∨
    (∃ i b, (v.tables table fd).target = .socket i b) →
    (v.links table fd).sharedOffset = none ∧ (v.links table fd).inputState = none
  closed : ∀ table fd, v.refs table = 0 ∨ maxFiles ≤ fd → (v.tables table fd).inUse = false
  owned : Owned v.ids v.refs
  opened : ∀ table fd, (v.links table fd).sharedOffset ≠ none → (v.links table fd).opened < v.opens
  cells : ∀ table fd table' fd', (v.links table fd).sharedOffset ≠ none →
    (v.links table' fd').sharedOffset ≠ none →
    ((v.links table fd).sharedOffset = (v.links table' fd').sharedOffset ↔
      (v.links table fd).opened = (v.links table' fd').opened)

namespace Fds

variable {s s₁ s' : Fds} {table : Fin 32} {fd : ℕ} {d : FileDesc} {x : FdLinks} {o : Obj} {t : Slot}

namespace View

variable {v : View}

def putNew (v : View) (table : Fin 32) (fd : ℕ) (d : FileDesc) (x : FdLinks) : View :=
  { v.put table fd d { x with opened := v.opens } with opens := v.opens + 1 }

theorem putNew_tables (v : View) (table : Fin 32) (fd : ℕ) (d : FileDesc) (x : FdLinks)
    (table' : Fin 32) (fd' : ℕ) :
    (v.putNew table fd d x).tables table' fd' =
      if table' = table ∧ fd' = fd then d else v.tables table' fd' :=
  put_tables v table fd d { x with opened := v.opens } table' fd'

theorem putNew_links (v : View) (table : Fin 32) (fd : ℕ) (d : FileDesc) (x : FdLinks)
    (table' : Fin 32) (fd' : ℕ) :
    (v.putNew table fd d x).links table' fd' =
      if table' = table ∧ fd' = fd then { x with opened := v.opens } else v.links table' fd' :=
  put_links v table fd d { x with opened := v.opens } table' fd'

theorem putNew_holders (v : View) (table : Fin 32) (fd : ℕ) (d : FileDesc) (x : FdLinks) (o : Obj) :
    (v.putNew table fd d x).holders o = (v.put table fd d x).holders o := by
  refine Finset.sum_congr rfl fun table' _ ↦ ?_
  have hslot : ∀ fd', (v.putNew table fd d x).slotHolds table' fd' o =
      (v.put table fd d x).slotHolds table' fd' o := by
    intro fd'
    rw [slotHolds, putNew_tables, putNew_links, put_slotHolds]
    split_ifs <;> rfl
  rw [tableHolds, tableHolds, Finset.sum_congr rfl fun fd' _ ↦ hslot fd']
  rfl

namespace Tidy

theorem inUse_of_cell (h : v.Tidy) (hc : (v.links table fd).sharedOffset ≠ none) :
    (v.tables table fd).inUse = true := by
  by_contra hin
  exact hc (h.bare table fd (.inl (by simpa using hin))).1

theorem live (h : v.Tidy) (hin : (v.tables table fd).inUse = true) :
    v.refs table ≠ 0 ∧ fd < maxFiles := by
  by_contra hc
  have := h.closed table fd (by omega)
  simp [this] at hin

theorem currentFiles_live (h : v.Tidy) (t : Slot) : v.refs ((v.ids t).getD 0) ≠ 0 := by
  cases ht : v.ids t with
  | none => exact h.owned.root_live
  | some table => exact h.owned.live ht

theorem put (h : v.Tidy) (hlive : d.inUse = true → v.refs table ≠ 0 ∧ fd < maxFiles)
    (hbare : d.inUse = false ∨ (∃ i b, d.target = .socket i b) → x.sharedOffset = none ∧
    x.inputState = none) (hx : x.sharedOffset = none ∨ ∃ table' fd', v.links table' fd' = x) :
    (v.put table fd d x).Tidy := by
  -- A slot with a cell has its links from the old tables.
  have hold : ∀ table' fd', ((v.put table fd d x).links table' fd').sharedOffset ≠ none →
      ∃ table₁ fd₁, (v.put table fd d x).links table' fd' = v.links table₁ fd₁ := by
    intro table' fd' hc
    rw [put_links] at hc ⊢
    split_ifs at hc ⊢ with ht
    · obtain hx | ⟨table₁, fd₁, hx⟩ := hx
      · exact absurd hx hc
      · exact ⟨table₁, fd₁, hx.symm⟩
    · exact ⟨table', fd', rfl⟩
  constructor
  case bare =>
    intro table' fd' hb
    rw [put_tables] at hb
    rw [put_links]
    split_ifs at hb ⊢ with ht
    · exact hbare hb
    · exact h.bare table' fd' hb
  case closed =>
    intro table' fd' hc
    rw [put_tables]
    split_ifs with ht
    · obtain ⟨rfl, rfl⟩ := ht
      by_contra hin
      obtain ⟨h₁, h₂⟩ := hlive (by simpa using hin)
      exact hc.elim h₁ (by omega)
    · exact h.closed table' fd' hc
  case owned => exact h.owned
  case opened =>
    intro table' fd' hc
    obtain ⟨table₁, fd₁, he⟩ := hold table' fd' hc
    rw [he] at hc ⊢
    exact h.opened table₁ fd₁ hc
  case cells =>
    intro table₁ fd₁ table₂ fd₂ h₁ h₂
    obtain ⟨table₃, fd₃, h₃⟩ := hold table₁ fd₁ h₁
    obtain ⟨table₄, fd₄, h₄⟩ := hold table₂ fd₂ h₂
    rw [h₃] at h₁ ⊢
    rw [h₄] at h₂ ⊢
    exact h.cells table₃ fd₃ table₄ fd₄ h₁ h₂

theorem putNew (h : v.Tidy) (hlive : v.refs table ≠ 0) (hfd : fd < maxFiles) (hd : d.inUse = true)
    (ht : ∀ i b, d.target ≠ .socket i b)
    (hx : x.sharedOffset = none ∨ ∀ table' fd', (v.links table' fd').sharedOffset ≠ x.sharedOffset) :
    (v.putNew table fd d x).Tidy := by
  constructor
  case bare =>
    intro table' fd' hb
    rw [putNew_tables] at hb
    rw [putNew_links]
    split_ifs at hb ⊢ with hc
    · obtain hb | ⟨i, b, hb⟩ := hb
      · simp [hd] at hb
      · exact absurd hb (ht i b)
    · exact h.bare table' fd' hb
  case closed =>
    intro table' fd' hc
    rw [putNew_tables]
    split_ifs with he
    · obtain ⟨rfl, rfl⟩ := he
      exact absurd hc (not_or.2 ⟨hlive, by omega⟩)
    · exact h.closed table' fd' hc
  case owned => exact h.owned
  case opened =>
    intro table' fd' hc
    change ((v.putNew table fd d x).links table' fd').opened < v.opens + 1
    rw [putNew_links] at hc ⊢
    split_ifs at hc ⊢
    · exact Nat.lt_succ_self _
    · exact (h.opened table' fd' hc).trans (Nat.lt_succ_self _)
  case cells =>
    intro table₁ fd₁ table₂ fd₂ h₁ h₂
    rw [putNew_links] at h₁ h₂
    rw [putNew_links, putNew_links]
    -- The new cell is nobody's, and neither is the new number.
    have hnew : ∀ table' fd', x.sharedOffset ≠ none → (v.links table' fd').sharedOffset ≠ none →
        (v.links table' fd').sharedOffset ≠ x.sharedOffset ∧
          (v.links table' fd').opened ≠ v.opens := by
      intro table' fd' hc hc'
      have := h.opened table' fd' hc'
      exact ⟨hx.resolve_left hc table' fd', by omega⟩
    split_ifs at h₁ h₂ ⊢
    · simp
    · obtain ⟨h₃, h₄⟩ := hnew table₂ fd₂ h₁ h₂
      exact iff_of_false h₃.symm h₄.symm
    · obtain ⟨h₃, h₄⟩ := hnew table₁ fd₁ h₂ h₁
      exact iff_of_false h₃ h₄
    · exact h.cells table₁ fd₁ table₂ fd₂ h₁ h₂

end Tidy

theorem holders_congr {v' : View} (hr : v'.refs = v.refs)
    (h : ∀ table fd, v'.slotHolds table fd o = v.slotHolds table fd o) :
    v'.holders o = v.holders o := by
  refine Finset.sum_congr rfl fun table _ ↦ ?_
  rw [hr, tableHolds, tableHolds, Finset.sum_congr rfl fun fd _ ↦ h table fd]

end View

end Fds

end YabroOS
