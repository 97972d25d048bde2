import YabroOS.Fd.Inv

namespace YabroOS

open Function

namespace Fds

variable {s s' : Fds} {table : Fin 32} {fd : ℕ} {d : FileDesc} {x : FdLinks} {o : Obj} {t i : Slot}
  {l : List ℕ} {v : View}

section Clone

variable {full : Bool}

theorem Inv.keeps_retainTarget (h : s.Inv full) (hf : full = true)
    (hin : (s.taskFdTables table fd).inUse = true)
    (he : s'.unixSockets = (s.toIo.retainTarget (s.taskFdTables table fd).target).unixSockets)
    (hh : s'.held = s.held) (hc : s'.shut = s.shut) : Keeps s s' := by
  cases ht : (s.taskFdTables table fd).target with
  | socket i b =>
    rw [ht] at he
    exact keeps_retain (h.side_pos hf hin ht) he hh hc
  | _ =>
    rw [ht] at he
    exact .same he hh hc

theorem cloneFd_objects (s : Fds) (source destination : Fin 32) (fd : ℕ) :
    (s.cloneFd source destination fd).objects =
      if (s.taskFdTables source fd).inUse = true
      then (s.setIo (s.toIo.retainTarget (s.taskFdTables source fd).target)).objects
        else s.objects := by
  simp only [cloneFd]
  cases hin : (s.taskFdTables source fd).inUse with
  | false => simp
  | true =>
    simp only [Bool.true_eq_false, if_false, if_true]
    exact objects_retainTarget (by simp) _

theorem Inv.keeps_cloneFd (h : s.Inv full) (hf : full = true) (source destination : Fin 32)
    (fd : ℕ) : Keeps s (s.cloneFd source destination fd) := by
  have ho := cloneFd_objects s source destination fd
  split_ifs at ho with hin
  · exact h.keeps_retainTarget hf hin (congrArg Objects.unixSockets ho) (congrArg Objects.held ho)
      (congrArg Objects.shut ho)
  · exact .same (congrArg Objects.unixSockets ho) (congrArg Objects.held ho)
      (congrArg Objects.shut ho)

structure Copied (v v' : View) (source destination : Fin 32) (l : List ℕ) : Prop where
  refs : v'.refs = v.refs
  ids : v'.ids = v.ids
  opens : v'.opens = v.opens
  tables : ∀ table fd, v'.tables table fd =
    if table = destination ∧ fd ∈ l then v.tables source fd else v.tables table fd
  links : ∀ table fd, v'.links table fd =
    if table = destination ∧ fd ∈ l then v.links source fd else v.links table fd

theorem Inv.cloneLoop {source destination : Fin 32} (h : s.Inv full) (hne : source ≠ destination)
    (hlive : s.taskFdTableRefs destination ≠ 0) (hl : l.Nodup) (hmax : ∀ fd ∈ l, fd < maxFiles)
    (hfree : ∀ fd ∈ l, (s.taskFdTables destination fd).inUse = false) :
    (l.foldl (cloneFd source destination) s).Inv full ∧
      (full = true → Keeps s (l.foldl (cloneFd source destination) s)) ∧
      Copied s.view (l.foldl (cloneFd source destination) s).view source destination l := by
  induction l generalizing s with
  | nil => exact ⟨h, fun _ ↦ .same rfl rfl rfl, ⟨rfl, rfl, rfl, by simp, by simp⟩⟩
  | cons fd l ih =>
    obtain ⟨hfd, hl⟩ := List.nodup_cons.1 hl
    have hw := cloneFd_spec h.used source destination fd h.copyable
    have hstep : (s.cloneFd source destination fd).Inv full := by
      refine h.write hw.used hw.view hlive (hmax fd (.head _)) (h.tidy.bare source fd)
        (.inr ⟨source, fd, rfl⟩) ?_ (fun hf ↦ h.keeps_cloneFd hf source destination fd)
      intro o _
      rw [hw.count, slotHolds_of_free (hfree fd (.head _))]
      rfl
    have hrefs : (s.cloneFd source destination fd).taskFdTableRefs = s.taskFdTableRefs :=
      congrArg View.refs hw.view
    obtain ⟨hinv, hkeep, hcopy⟩ :=
      ih hstep (by rwa [hrefs]) hl (fun fd' h' ↦ hmax fd' (.tail _ h')) fun fd' h' ↦ by
      rw [tables_of_put hw.view, if_neg (by rintro ⟨-, rfl⟩; exact hfd h')]
      exact hfree fd' (.tail _ h')
    rw [hw.view] at hcopy
    refine ⟨hinv, fun hf ↦ (h.keeps_cloneFd hf source destination fd).trans (hkeep hf), hcopy.refs,
      hcopy.ids, hcopy.opens,
      fun table fd' ↦ ?_, fun table fd' ↦ ?_⟩
    · have hsource :=
        View.put_tables s.view destination fd (s.taskFdTables source fd) (s.links source fd)
          source fd'
      rw [if_neg fun hc ↦ hne hc.1] at hsource
      rw [List.foldl_cons, hcopy.tables, hsource, View.put_tables]
      by_cases ht : table = destination <;> by_cases he : fd' = fd <;> simp [ht, he, hfd]
      rfl
    · have hsource :=
        View.put_links s.view destination fd (s.taskFdTables source fd) (s.links source fd)
          source fd'
      rw [if_neg fun hc ↦ hne hc.1] at hsource
      rw [List.foldl_cons, hcopy.links, hsource, View.put_links]
      by_cases ht : table = destination <;> by_cases he : fd' = fd <;> simp [ht, he, hfd]
      rfl

theorem Inv.setRefs (h : s.Inv full) {ids : Slot → Option (Fin 32)} {refs : Fin 32 → ℕ}
    (ho : Owned ids refs)
    (hr : ∀ table, refs table = 0 ∨ s.taskFdTableRefs table = 0 →
      ∀ fd < maxFiles, (s.taskFdTables table fd).inUse = false) :
    (s.setIo { s.toIo with taskFdTableId := ids, taskFdTableRefs := refs }).Inv full := by
  refine ⟨⟨h.used.cell, h.used.input, h.used.epoll⟩, ?_, fun o hs ↦ ?_, h.whole⟩
  · refine ⟨h.tidy.bare, fun table fd hc ↦ ?_, ho, h.tidy.opened, h.tidy.cells⟩
    by_cases hfd : fd < maxFiles
    · exact hr table (.inl (hc.resolve_right (by omega))) fd hfd
    · exact h.tidy.closed table fd (.inr (by omega))
  · refine (h.count o hs).trans (congrArg (· + s.waiting o) (Finset.sum_congr rfl fun table _ ↦ ?_))
    by_cases hz : refs table = 0 ∨ s.taskFdTableRefs table = 0
    · have hempty : s.view.tableHolds table o = 0 :=
        Finset.sum_eq_zero fun fd hfd ↦ slotHolds_of_free (hr table hz fd (Finset.mem_range.1 hfd))
      change (if s.taskFdTableRefs table = 0 then 0 else s.view.tableHolds table o) =
        if refs table = 0 then 0 else s.view.tableHolds table o
      rw [hempty, ite_self, ite_self]
    · obtain ⟨h₁, h₂⟩ := not_or.1 hz
      change (if s.taskFdTableRefs table = 0 then 0 else s.view.tableHolds table o) =
        if refs table = 0 then 0 else s.view.tableHolds table o
      rw [if_neg h₁, if_neg h₂]

theorem Inv.taskFdTableClone (h : s.Inv full) {parent child : Slot} {shareFiles : Bool}
    (hs : s.taskFdTableClone parent child shareFiles = some s') :
    s'.Inv full ∧ (full = true → Keeps s s') ∧ ∃ source, s.taskFdTableId parent = some source ∧
      s.taskFdTableRefs source ≠ 0 ∧ ((shareFiles = true ∧ s' = s.setIo { s.toIo with
          taskFdTableId := update s.taskFdTableId child (some source)
          taskFdTableRefs := update s.taskFdTableRefs source (s.taskFdTableRefs source + 1) }) ∨
        shareFiles = false ∧ ∃ destination, source ≠ destination ∧ destination ≠ 0 ∧
          s.taskFdTableRefs destination = 0 ∧
          Copied { s.view with
            ids := update s.taskFdTableId child (some destination)
            refs := update s.taskFdTableRefs destination 1 } s'.view source destination
              (List.range maxFiles)) := by
  rw [Fds.taskFdTableClone] at hs
  split at hs
  · cases hs
  · next source hid =>
    split_ifs at hs with hr hshare
    · cases hs
      refine ⟨h.setRefs (h.tidy.owned.join child source) fun table hz ↦ ?_,
        fun _ ↦ .same rfl rfl rfl, source, hid, hr,
        .inl ⟨hshare, rfl⟩⟩
      by_cases ht : table = source
      · subst ht
        simp [hr] at hz
      · rw [update_of_ne ht, or_self] at hz
        exact fun fd _ ↦ h.tidy.closed table fd (.inl hz)
    · split at hs
      · cases hs
      · next destination hd =>
        obtain ⟨hd0, hd⟩ : destination ≠ 0 ∧ s.taskFdTableRefs destination = 0 := by
          simpa using firstFree_some hd
        have hfree : ∀ fd, (s.taskFdTables destination fd).inUse = false :=
          fun fd ↦ h.tidy.closed destination fd (.inl hd)
        have hne : source ≠ destination := by
          rintro rfl
          exact hr hd
        have ho := h.tidy.owned.join child destination
        rw [show s.view.refs destination = 0 from hd] at ho
        have hcounted := h.setRefs ho fun table hz ↦ by
          by_cases ht : table = destination
          · exact fun fd _ ↦ ht ▸ hfree fd
          · rw [update_of_ne ht] at hz
            exact fun fd _ ↦ h.tidy.closed table fd (.inl (or_self_iff.1 hz))
        obtain ⟨s₀, hs₀⟩ : ∃ s₀, s₀ = s.setIo { s.toIo with
          taskFdTableId := update s.taskFdTableId child (some destination)
          taskFdTableRefs := update s.taskFdTableRefs destination 1 } := ⟨_, rfl⟩
        have hs : (List.range maxFiles).foldl (cloneFd source destination) s₀ = s' := by
          rw [hs₀]
          exact Option.some.inj hs
        have hkeep₀ : Keeps s s₀ := by
          rw [hs₀]
          exact .same rfl rfl rfl
        obtain ⟨hinv, hkeep, hcopy⟩ :=
          (show s₀.Inv full from hs₀ ▸ hcounted).cloneLoop hne (by simp [hs₀, setIo])
          List.nodup_range (fun fd hfd ↦ List.mem_range.1 hfd)
            (fun fd _ ↦ by rw [hs₀]; exact hfree fd)
        rw [hs] at hinv hkeep hcopy
        rw [hs₀] at hcopy
        exact ⟨hinv, fun hf ↦ hkeep₀.trans (hkeep hf), source, hid, hr,
          .inr ⟨by simpa using hshare, destination, hne, hd0, hd, hcopy⟩⟩

theorem View.two_tables_le_holders {table table' : Fin 32} (hne : table' ≠ table)
    (h₁ : v.refs table ≠ 0) (h₂ : v.refs table' ≠ 0) (o : Obj) :
    v.tableHolds table o + v.tableHolds table' o ≤ v.holders o := by
  rw [View.holders_eq v table, if_neg h₁]
  refine Nat.add_le_add_left ?_ _
  have hle := Finset.single_le_sum (s := Finset.univ.erase table)
    (f := fun table' ↦ if v.refs table' = 0 then 0 else v.tableHolds table' o)
      (fun _ _ ↦ Nat.zero_le _)
    (Finset.mem_erase.2 ⟨hne, Finset.mem_univ table'⟩)
  simpa [h₂] using hle

end Clone

/-- What the loop of `task_fd_table_release` leaves of the tables. -/
structure Cleared (v v' : View) (table : Fin 32) (l : List ℕ) : Prop where
  refs : v'.refs = v.refs
  ids : v'.ids = v.ids
  opens : v'.opens = v.opens
  other : ∀ table' fd, table' ≠ table ∨ fd ∉ l →
    v'.tables table' fd = v.tables table' fd ∧ v'.links table' fd = v.links table' fd
  slot : ∀ fd ∈ l, (v'.tables table fd).inUse = false ∧
    (v'.links table fd = .none ∨ v'.links table fd = v.links table fd ∧
      (v.tables table fd).inUse = false)

theorem releaseLoop_spec (h : s.Used) (table : Fin 32) (hl : l.Nodup) :
    (l.foldl (releaseFd table) s).Used ∧ Cleared s.view (l.foldl (releaseFd table) s).view table l ∧
      ∀ o, (l.foldl (releaseFd table) s).count o =
        s.count o - (l.map (fun fd ↦ s.view.slotHolds table fd o)).sum := by
  induction l generalizing s with
  | nil => exact ⟨h, ⟨rfl, rfl, rfl, fun _ _ _ ↦ ⟨rfl, rfl⟩, by simp⟩, fun o ↦ rfl⟩
  | cons fd l ih =>
    obtain ⟨hfd, hl⟩ := List.nodup_cons.1 hl
    obtain ⟨hu, ⟨d, x, hv, hd, hx⟩, hc⟩ := releaseFd_spec h table fd
    obtain ⟨hu', hv', hc'⟩ := ih hu hl
    rw [hv] at hv'
    refine ⟨hu', ⟨hv'.refs, hv'.ids, hv'.opens, fun table' fd' hne ↦ ?_, fun fd' hmem ↦ ?_⟩,
      fun o ↦ ?_⟩
    · have hne' : ¬ (table' = table ∧ fd' = fd) := by
        rintro ⟨rfl, rfl⟩
        simp at hne
      have hrest : table' ≠ table ∨ fd' ∉ l := hne.imp id fun hc hm ↦ hc (.tail _ hm)
      obtain ⟨h₁, h₂⟩ := hv'.other table' fd' hrest
      rw [View.put_tables, if_neg hne'] at h₁
      rw [View.put_links, if_neg hne'] at h₂
      exact ⟨h₁, h₂⟩
    · by_cases he : fd' = fd
      · subst he
        obtain ⟨h₁, h₂⟩ := hv'.other table fd' (.inr hfd)
        rw [View.put_tables, if_pos ⟨rfl, rfl⟩] at h₁
        rw [View.put_links, if_pos ⟨rfl, rfl⟩] at h₂
        rw [List.foldl_cons, h₁, h₂]
        exact ⟨hd, hx⟩
      · have hslot := hv'.slot fd' (List.mem_of_ne_of_mem he hmem)
        rwa [View.put_tables, View.put_links, if_neg fun hc ↦ he hc.2, if_neg fun hc ↦ he hc.2]
          at hslot
    · have hsum : (l.map (fun fd' ↦ (s.view.put table fd d x).slotHolds table fd' o)).sum =
          (l.map (fun fd' ↦ s.view.slotHolds table fd' o)).sum := by
        refine congrArg List.sum (List.map_congr_left fun fd' h' ↦ ?_)
        rw [View.put_slotHolds, if_neg (by rintro ⟨-, rfl⟩; exact hfd h')]
      rw [List.foldl_cons, hc', hc, hv, hsum, List.map_cons, List.sum_cons]
      omega

theorem sum_range_slotHolds (v : View) (table : Fin 32) (o : Obj) :
    ((List.range maxFiles).map (fun fd ↦ v.slotHolds table fd o)).sum = v.tableHolds table o :=
  (Multiset.sum_coe _).symm

def leaving (s : Fds) (i : Slot) (table : Fin 32) : Fds :=
  s.setIo { s.toIo with
    taskFdTableId := update s.taskFdTableId i none
    taskFdTableRefs := update s.taskFdTableRefs table (s.taskFdTableRefs table - 1) }

def rejoin (s : Fds) (n : ℕ) : Fds :=
  s.setIo { s.toIo with
    taskFdTableId := update s.taskFdTableId 0 (some 0)
    taskFdTableRefs := update s.taskFdTableRefs 0 n }

theorem taskFdTableRelease_none (hid : s.taskFdTableId i = none) : s.taskFdTableRelease i = s := by
  simp [taskFdTableRelease, hid]

theorem taskFdTableRelease_shared (hid : s.taskFdTableId i = some table)
    (hr : 1 < s.taskFdTableRefs table) :
    s.taskFdTableRelease i =
      if i = 0 then (s.leaving i table).rejoin ((s.leaving i table).taskFdTableRefs 0 + 1)
        else s.leaving i table := by
  have h₁ : s.taskFdTableRefs table ≠ 0 := by omega
  have h₂ : s.taskFdTableRefs table - 1 ≠ 0 := by omega
  simp only [taskFdTableRelease, hid, setIo, h₁, update_self, ne_eq, h₂, not_false_eq_true, if_true,
    if_false]
  rfl

theorem taskFdTableRelease_last (hid : s.taskFdTableId i = some table)
    (hr : s.taskFdTableRefs table = 1) :
    s.taskFdTableRelease i =
      if table = 0 then ((List.range maxFiles).foldl (releaseFd table) (s.leaving i table)).rejoin 1
      else (List.range maxFiles).foldl (releaseFd table) (s.leaving i table) := by
  have h₁ : s.taskFdTableRefs table ≠ 0 := by omega
  have h₂ : s.taskFdTableRefs table - 1 = 0 := by omega
  rw [Fds.taskFdTableRelease]
  generalize List.range maxFiles = l
  simp only [hid, setIo, h₁, update_self, ne_eq, h₂, not_true_eq_false, if_false, leaving, rejoin]

/-- A table whose descriptors are all gone, next to the tables that are as before. -/
structure Emptied (v v' : View) (table : Fin 32) : Prop where
  opens : v'.opens = v.opens
  refs : ∀ table' ≠ table, v'.refs table' = v.refs table'
  other : ∀ table' fd, table' ≠ table ∨ maxFiles ≤ fd →
    v'.tables table' fd = v.tables table' fd ∧ v'.links table' fd = v.links table' fd
  slot : ∀ fd < maxFiles, (v'.tables table fd).inUse = false ∧
    (v'.links table fd = .none ∨ v'.links table fd = v.links table fd ∧
      (v.tables table fd).inUse = false)

theorem Emptied.tidy {v' : View} (he : Emptied v v' table) (h : v.Tidy)
    (ho : Owned v'.ids v'.refs) : v'.Tidy := by
  have hcases : ∀ table' fd, (table' ≠ table ∨ maxFiles ≤ fd) ∨ table' = table ∧ fd < maxFiles := by
    intro table' fd
    by_cases ht : table' = table
    · by_cases hfd : fd < maxFiles
      · exact .inr ⟨ht, hfd⟩
      · exact .inl (.inr (by omega))
    · exact .inl (.inl ht)
  -- The slots with a cell are as before.
  have hold : ∀ table' fd, (v'.links table' fd).sharedOffset ≠ none →
      v'.links table' fd = v.links table' fd := by
    intro table' fd hc
    obtain hother | ⟨rfl, hfd⟩ := hcases table' fd
    · exact (he.other table' fd hother).2
    · obtain hx | ⟨hx, -⟩ := (he.slot fd hfd).2
      · simp [hx, FdLinks.none] at hc
      · exact hx
  refine ⟨fun table' fd hb ↦ ?_, fun table' fd hc ↦ ?_, ho, fun table' fd hc ↦ ?_,
    fun table₁ fd₁ table₂ fd₂ h₁ h₂ ↦ ?_⟩
  · obtain hother | ⟨rfl, hfd⟩ := hcases table' fd
    · obtain ⟨h₁, h₂⟩ := he.other table' fd hother
      rw [h₁] at hb
      rw [h₂]
      exact h.bare table' fd hb
    · obtain hx | ⟨hx, hin⟩ := (he.slot fd hfd).2
      · rw [hx]
        exact ⟨rfl, rfl⟩
      · rw [hx]
        exact h.bare table' fd (.inl hin)
  · obtain hother | ⟨rfl, hfd⟩ := hcases table' fd
    · rw [(he.other table' fd hother).1]
      by_cases ht : table' = table
      · exact h.closed table' fd (.inr (hother.resolve_left (not_not.2 ht)))
      · rw [he.refs table' ht] at hc
        exact h.closed table' fd hc
    · exact (he.slot fd hfd).1
  · have hx := hold table' fd hc
    rw [hx] at hc ⊢
    rw [he.opens]
    exact h.opened table' fd hc
  · have hx₁ := hold table₁ fd₁ h₁
    have hx₂ := hold table₂ fd₂ h₂
    rw [hx₁] at h₁ ⊢
    rw [hx₂] at h₂ ⊢
    exact h.cells table₁ fd₁ table₂ fd₂ h₁ h₂

theorem Emptied.holders {v' : View} (he : Emptied v v' table) (hlive : v.refs table ≠ 0) (o : Obj) :
    v.holders o = v.tableHolds table o + v'.holders o := by
  have hempty : v'.tableHolds table o = 0 :=
    Finset.sum_eq_zero fun fd hfd ↦ FileDesc.holds_free (he.slot fd (Finset.mem_range.1 hfd)).1 _ o
  have hrest : ∑ table' ∈ Finset.univ.erase table, (if v'.refs table' = 0 then 0
      else v'.tableHolds table' o) =
      ∑ table' ∈ Finset.univ.erase table, if v.refs table' = 0 then 0 else v.tableHolds table' o := by
    refine Finset.sum_congr rfl fun table' ht ↦ ?_
    have ht := Finset.ne_of_mem_erase ht
    have hslots : v'.tableHolds table' o = v.tableHolds table' o := by
      refine Finset.sum_congr rfl fun fd _ ↦ ?_
      obtain ⟨h₁, h₂⟩ := he.other table' fd (.inl ht)
      rw [View.slotHolds, View.slotHolds, h₁, h₂]
    rw [he.refs table' ht, hslots]
  rw [View.holders_eq v table, View.holders_eq v' table, hempty, ite_self, hrest, if_neg hlive,
    Nat.zero_add]

theorem releaseAll_spec (h : s.Used) (i : Slot) (table : Fin 32)
    (hs : s' = (List.range maxFiles).foldl (releaseFd table) (s.leaving i table)) :
    s'.Used ∧ Emptied s.view s'.view table ∧ s'.taskFdTableId = update s.taskFdTableId i none ∧
      s'.taskFdTableRefs = update s.taskFdTableRefs table (s.taskFdTableRefs table - 1) ∧
      ∀ o, s'.count o = s.count o - s.view.tableHolds table o := by
  obtain ⟨hu, hv, hc⟩ :=
    releaseLoop_spec (s := s.leaving i table) ⟨h.cell, h.input, h.epoll⟩ table List.nodup_range
  rw [← hs] at hu hv hc
  refine ⟨hu, ⟨hv.opens, fun table' ht ↦ ?_, fun table' fd ho ↦ ?_, fun fd hfd ↦ ?_⟩, hv.ids,
    hv.refs, fun o ↦ ?_⟩
  · rw [hv.refs]
    exact update_of_ne ht ..
  · refine hv.other table' fd (ho.imp id fun hge hm ↦ ?_)
    have := List.mem_range.1 hm
    omega
  · exact hv.slot fd (List.mem_range.2 hfd)
  · rw [hc o, sum_range_slotHolds]
    cases o <;> rfl

theorem releaseFd_objects (s : Fds) (table : Fin 32) (fd : ℕ) :
    (s.releaseFd table fd).objects =
      if (s.taskFdTables table fd).inUse = true
      then (s.setIo (s.toIo.dropTarget (s.taskFdTables table fd).target)).objects else s.objects := by
  simp only [releaseFd]
  cases hin : (s.taskFdTables table fd).inUse <;> simp

def View.socketHolds (v : View) (table : Fin 32) (i : Fin 32) : ℕ :=
  v.tableHolds table (.side i false) + v.tableHolds table (.side i true)

theorem keeps_releaseLoop (hw : ∀ i, (s.unixSockets i).Whole (s.held i) (s.shut i)) (hu : s.Used)
    (hl : l.Nodup)
    (hc : ∀ i b, (l.map (fun fd ↦ s.view.slotHolds table fd (.side i b))).sum ≤
      (s.unixSockets i).sideRefs b)
    (hs : ∀ i, s.Spares i ((l.map (fun fd ↦ s.view.slotHolds table fd (.side i false))).sum +
      (l.map (fun fd ↦ s.view.slotHolds table fd (.side i true))).sum)) :
    Keeps s (l.foldl (releaseFd table) s) := by
  induction l generalizing s with
  | nil => exact .same rfl rfl rfl
  | cons fd l ih =>
    obtain ⟨hfd, hl⟩ := List.nodup_cons.1 hl
    obtain ⟨hu', ⟨d, x, hv, -, -⟩, hcount⟩ := releaseFd_spec hu table fd
    have hcount : ∀ i b, ((s.releaseFd table fd).unixSockets i).sideRefs b =
        (s.unixSockets i).sideRefs b - s.view.slotHolds table fd (.side i b) :=
          fun i b ↦ hcount (.side i b)
    simp only [List.map_cons, List.sum_cons] at hc hs
    have hstep : Keeps s (s.releaseFd table fd) := by
      have ho := releaseFd_objects s table fd
      split_ifs at ho with hin
      · have he := congrArg Objects.unixSockets ho
        have hh := congrArg Objects.held ho
        have hsh := congrArg Objects.shut ho
        cases ht : (s.taskFdTables table fd).target with
        | socket i b =>
          rw [ht] at he
          have hone : s.view.slotHolds table fd (.side i b) ≠ 0 := by
            rw [slotHolds_of_inUse hin, ht, Target.endpoint, hits_self]
            omega
          refine keeps_drop ?_ ((hs i).imp id fun hlt ↦ ?_) he hh hsh
          · have := hc i b
            omega
          · cases b <;> omega
        | _ =>
          rw [ht] at he
          exact .same he hh hsh
      · exact .same (congrArg Objects.unixSockets ho) (congrArg Objects.held ho)
          (congrArg Objects.shut ho)
    have hrest : ∀ o, (l.map (fun fd' ↦ (s.releaseFd table fd).view.slotHolds table fd' o)).sum =
        (l.map (fun fd' ↦ s.view.slotHolds table fd' o)).sum := by
      intro o
      refine congrArg List.sum (List.map_congr_left fun fd' h' ↦ ?_)
      rw [hv, View.put_slotHolds, if_neg (by rintro ⟨-, rfl⟩; exact hfd h')]
    have hw' := hstep.whole hw
    refine hstep.trans (ih hw' hu' hl (fun i b ↦ ?_) fun i ↦ ?_)
    · have := hc i b
      rw [hrest, hcount]
      omega
    · have h₁ := (hw i).refs
      have h₂ := (hw' i).refs
      have h₃ := hc i false
      have h₄ := hc i true
      rw [hcount, hcount] at h₂
      rw [hrest, hrest, Spares, hstep.pending i]
      refine (hs i).imp id fun hlt ↦ ?_
      omega

theorem Inv.keeps_releaseAll {full : Bool} (h : s.Inv full) (hf : full = true)
    (hlive : s.taskFdTableRefs table ≠ 0)
    (hs : s' = (List.range maxFiles).foldl (releaseFd table) (s.leaving i table))
    (hsp : ∀ j, s.Spares j (s.view.socketHolds table j)) : Keeps s s' := by
  have hside : ∀ j b, s.view.tableHolds table (.side j b) ≤ (s.unixSockets j).sideRefs b := by
    intro j b
    have h₁ := h.count (.side j b) fun _ ↦ hf
    have h₂ := View.holders_eq s.view table (.side j b)
    rw [if_neg (show s.view.refs table ≠ 0 from hlive)] at h₂
    change s.view.tableHolds table (.side j b) ≤ s.count (.side j b)
    omega
  have hloop : Keeps (s.leaving i table) s' := by
    rw [hs]
    refine keeps_releaseLoop (s := s.leaving i table) (h.whole hf) ⟨h.used.cell, h.used.input,
      h.used.epoll⟩
      List.nodup_range (fun j b ↦ ?_) fun j ↦ ?_
    · rw [sum_range_slotHolds]
      exact hside j b
    · rw [sum_range_slotHolds, sum_range_slotHolds]
      exact hsp j
  have hleave : s.Keeps (s.leaving i table) := .same rfl rfl rfl
  exact hleave.trans hloop

theorem Inv.keeps_taskFdTableRelease {full : Bool} (h : s.Inv full) (hf : full = true) (i : Slot)
    (hs : ∀ table, s.taskFdTableId i = some table → s.taskFdTableRefs table = 1 →
      ∀ j, s.Spares j (s.view.socketHolds table j)) : Keeps s (s.taskFdTableRelease i) := by
  cases hid : s.taskFdTableId i with
  | none =>
    rw [taskFdTableRelease_none hid]
    exact .same rfl rfl rfl
  | some table =>
    have hlive : s.taskFdTableRefs table ≠ 0 := h.tidy.owned.live hid
    by_cases hr : 1 < s.taskFdTableRefs table
    · rw [taskFdTableRelease_shared hid hr]
      split_ifs <;> exact .same rfl rfl rfl
    · have hr : s.taskFdTableRefs table = 1 := by omega
      obtain ⟨s', hs'⟩ : ∃ s', s' = (List.range maxFiles).foldl (releaseFd table)
          (s.leaving i table) := ⟨_, rfl⟩
      have hk : Keeps s s' := h.keeps_releaseAll hf hlive hs' (hs table hid hr)
      rw [taskFdTableRelease_last hid hr, ← hs']
      split_ifs
      · exact hk.trans (.same rfl rfl rfl)
      · exact hk

theorem Inv.taskFdTableRelease {full : Bool} (h : s.Inv full) (i : Slot)
    (hs : full = true → ∀ table, s.taskFdTableId i = some table → s.taskFdTableRefs table = 1 →
      ∀ j, s.Spares j (s.view.socketHolds table j)) : (s.taskFdTableRelease i).Inv full := by
  have ho := h.tidy.owned
  cases hid : s.taskFdTableId i with
  | none => rwa [taskFdTableRelease_none hid]
  | some table =>
    have hlive : s.taskFdTableRefs table ≠ 0 := ho.live hid
    by_cases hr : 1 < s.taskFdTableRefs table
    · have hstill : ∀ table', update s.taskFdTableRefs table (s.taskFdTableRefs table - 1) table' =
          0 → s.taskFdTableRefs table' = 0 := by
        intro table' hz
        by_cases ht : table' = table
        · subst ht
          rw [update_self] at hz
          omega
        · rwa [update_of_ne ht] at hz
      rw [taskFdTableRelease_shared hid hr]
      split_ifs with hi
      · subst hi
        refine h.setRefs (ho.rejoin hid hlive) fun table' hz fd _ ↦ ?_
        refine h.tidy.closed table' fd (.inl (hz.elim (fun hz ↦ hstill table' ?_) id))
        by_cases ht : table' = 0
        · rw [ht, update_self] at hz
          omega
        · rwa [update_of_ne ht] at hz
      · refine h.setRefs (ho.leave hid fun hc ↦ absurd hc hi) fun table' hz fd _ ↦ ?_
        exact h.tidy.closed table' fd (.inl (hz.elim (hstill table') id))
    · have hr : s.taskFdTableRefs table = 1 := by omega
      obtain ⟨s', hs'⟩ : ∃ s', s' = (List.range maxFiles).foldl (releaseFd table)
          (s.leaving i table) := ⟨_, rfl⟩
      obtain ⟨hu, he, hids, hrefs, hc⟩ := releaseAll_spec h.used i table hs'
      have hk : full = true → Keeps s s' :=
        fun hf ↦ h.keeps_releaseAll hf hlive hs' (hs hf table hid hr)
      rw [taskFdTableRelease_last hid hr, ← hs']
      split_ifs with ht
      · subst ht
        have hi : i = 0 := by
          by_contra hi
          have := (ho.leave hid fun hc ↦ absurd hc hi).root_live
          rw [update_self, show s.view.refs 0 = 1 from hr] at this
          exact this rfl
        subst hi
        have he' : Emptied s.view (s'.rejoin 1).view 0 :=
          ⟨he.opens, fun table' ht ↦ (update_of_ne ht ..).trans (he.refs table' ht), he.other,
            he.slot⟩
        have hk' : full = true → Keeps s (s'.rejoin 1) := fun hf ↦ (hk hf).trans (.same rfl rfl rfl)
        refine ⟨⟨hu.cell, hu.input, hu.epoll⟩, he'.tidy h.tidy ?_, fun o hs ↦ ?_,
          fun hf ↦ (hk' hf).whole (h.whole hf)⟩
        · have hback := ho.rejoin hid hlive
          rw [update_self, show s.view.refs 0 = 1 from hr] at hback
          change Owned (update s'.taskFdTableId 0 (some 0)) (update s'.taskFdTableRefs 0 1)
          rw [hids, hrefs, hr]
          exact hback
        · have := he'.holders hlive o
          have := h.count o hs
          have hsame : (s'.rejoin 1).count o = s'.count o := by cases o <;> rfl
          rw [hsame, hc o, waiting_seen hk' hs]
          omega
      · refine ⟨hu, he.tidy h.tidy ?_, fun o hs ↦ ?_, fun hf ↦ (hk hf).whole (h.whole hf)⟩
        · change Owned s'.taskFdTableId s'.taskFdTableRefs
          rw [hids, hrefs]
          exact ho.leave hid fun _ ↦ ht
        · have := he.holders hlive o
          have := h.count o hs
          rw [hc o, waiting_seen hk hs]
          omega

end Fds

end YabroOS
