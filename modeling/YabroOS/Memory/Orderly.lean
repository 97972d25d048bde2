import YabroOS.Memory.Frames

namespace YabroOS.Memory

open Lib Function

structure UserTask.Fit (t : UserTask) : Prop where
  lazy_le : ∀ r ∈ t.lazyMmaps, r.stop ≤ t.mmapNext
  next_le : t.mmapNext ≤ userTop
  heapBase_lt : t.heapBase < userHeapMax
  heapEnd_lt : t.heapEnd < userHeapMax

/-- Two tasks describe the same address space; `heaps` says whether the heap counts. -/
structure UserTask.Same (heaps : Prop) (t t' : UserTask) : Prop where
  lazyMmaps : t.lazyMmaps = t'.lazyMmaps
  heap : heaps → t.heapBase = t'.heapBase ∧ t.heapEnd = t'.heapEnd

theorem UserTask.Same.refl (heaps : Prop) (t : UserTask) : t.Same heaps t :=
  ⟨rfl, fun _ ↦ ⟨rfl, rfl⟩⟩

theorem UserTask.Same.symm {heaps : Prop} {t t' : UserTask} (h : t.Same heaps t') :
    t'.Same heaps t :=
  ⟨h.lazyMmaps.symm, fun hh ↦ ⟨(h.heap hh).1.symm, (h.heap hh).2.symm⟩⟩

namespace Mm

variable {heaps : Prop} {m m' : Mm} {l : List Slot} {t : UserTask} {i : Slot}
  {f : UserTask → UserTask} {next : ℕ}

structure Orderly (heaps : Prop) (m : Mm) : Prop where
  framed : m.vmm.Framed
  rooted : ∀ i, (m.tasks i).used = true → (m.tasks i).cr3 ≠ 0 ∧
    (m.vmm.spaces.get? (m.tasks i).cr3).isSome = true
  fit : ∀ i, (m.tasks i).used = true → (m.tasks i).Fit
  same : ∀ i j, (m.tasks i).used = true → (m.tasks j).used = true →
    (m.tasks i).cr3 = (m.tasks j).cr3 → (m.tasks i).Same heaps (m.tasks j)

structure Running (heaps : Prop) (m : Mm) : Prop extends Orderly heaps m where
  used : m.task.used = true

theorem Orderly.setVmm (h : m.Orderly heaps) {v : Vmm} (hk : m.vmm.Keeps v) :
    { m with vmm := v }.Orderly heaps where
  framed := hk.framed h.framed
  rooted i hi := ⟨(h.rooted i hi).1, (hk.roots _).trans (h.rooted i hi).2⟩
  fit := h.fit
  same := h.same

theorem Orderly.setUser (h : m.Orderly heaps) (u : Option ℕ) (c : Slot) :
    ({ m with vmm := { m.vmm with user := u }, current := c } : Mm).Orderly heaps :=
  ⟨h.framed, h.rooted, h.fit, h.same⟩

theorem Orderly.activateRoot (h : m.Orderly heaps) (root : ℕ) (c : Slot) :
    ({ m with vmm := (m.vmm.vmmUserActivate root).1, current := c } : Mm).Orderly heaps := by
  unfold Vmm.vmmUserActivate
  split
  · exact h.setUser _ c
  · exact h.setUser _ c

theorem activate_some (ha : m.activate = some m') :
    m' = { m with vmm := { m.vmm with user := some m.task.cr3 } } := by
  unfold Mm.activate at ha
  split_ifs at ha with hbad
  cases ha
  simp only [Vmm.vmmUserActivate] at hbad ⊢
  split_ifs at hbad ⊢ with htab
  · rfl
  · exact absurd (.inr (by simp)) hbad

theorem Orderly.activate (h : m.Orderly heaps) (ha : m.activate = some m') : m'.Orderly heaps := by
  rw [activate_some ha]
  exact h.setUser _ m.current

theorem activate_task (ha : m.activate = some m') : m'.task = m.task := by
  rw [activate_some ha]
  rfl

theorem Running.setVmm (h : m.Running heaps) {v : Vmm} (hk : m.vmm.Keeps v) :
    { m with vmm := v }.Running heaps :=
  ⟨h.toOrderly.setVmm hk, h.used⟩

theorem Running.activate (h : m.Running heaps) (ha : m.activate = some m') : m'.Running heaps :=
  ⟨h.toOrderly.activate ha, by rw [activate_task ha]; exact h.used⟩

theorem Running.shares_iff (h : m.Running heaps) (i : Slot) :
    m.shares i = true ↔ (m.tasks i).used = true ∧ (m.tasks i).cr3 = m.task.cr3 := by
  have hroot := (h.rooted m.current h.used).1
  simp only [shares, Bool.and_eq_true, Bool.or_eq_true, decide_eq_true_eq]
  constructor
  · rintro ⟨hused, hi | ⟨-, hcr3⟩⟩
    · subst hi
      exact ⟨hused, rfl⟩
    · exact ⟨hused, hcr3⟩
  · rintro ⟨hused, hcr3⟩
    exact ⟨hused, .inr ⟨hroot, hcr3⟩⟩

theorem Running.shares_current (h : m.Running heaps) : m.shares m.current = true :=
  (h.shares_iff _).2 ⟨h.used, rfl⟩

theorem Running.lazy_current (h : m.Running heaps) (hi : m.shares i = true) :
    (m.tasks i).lazyMmaps = m.task.lazyMmaps := by
  obtain ⟨hused, hcr3⟩ := (h.shares_iff i).1 hi
  exact (h.same i m.current hused h.used hcr3).lazyMmaps

theorem updateShared_task (hs : m.shares m.current = true) (f : UserTask → UserTask) :
    (m.updateShared f).task = f m.task := by
  simp only [task, Mm.updateShared, hs, if_true]

theorem updateShared_shares (hs : m.shares m.current = true) (hused : ∀ t, (f t).used = t.used)
    (hcr3 : ∀ t, (f t).cr3 = t.cr3) (i : Slot) : (m.updateShared f).shares i = m.shares i := by
  have htask := updateShared_task hs f
  have hfield : ((m.updateShared f).tasks i).used = (m.tasks i).used ∧
      ((m.updateShared f).tasks i).cr3 = (m.tasks i).cr3 := by
    simp only [Mm.updateShared]
    split_ifs
    · exact ⟨hused _, hcr3 _⟩
    · exact ⟨rfl, rfl⟩
  have hcurrent : (m.updateShared f).current = m.current := rfl
  unfold Mm.shares
  rw [htask, hfield.1, hfield.2, hcr3, hcurrent]

theorem updateShared_comp (hs : m.shares m.current = true) {g : UserTask → UserTask}
    (hused : ∀ t, (f t).used = t.used) (hcr3 : ∀ t, (f t).cr3 = t.cr3) :
    (m.updateShared f).updateShared g = m.updateShared (g ∘ f) := by
  have hshares := updateShared_shares hs hused hcr3
  have htasks : ∀ i, ((m.updateShared f).updateShared g).tasks i =
      (m.updateShared (g ∘ f)).tasks i := by
    intro i
    show (if (m.updateShared f).shares i then g ((m.updateShared f).tasks i)
      else (m.updateShared f).tasks i) = _
    rw [hshares]
    simp only [Mm.updateShared, comp_apply]
    split_ifs
    · rfl
    · rfl
  have : ((m.updateShared f).updateShared g).tasks = (m.updateShared (g ∘ f)).tasks := funext htasks
  simp only [Mm.updateShared] at this ⊢
  rw [this]

theorem Running.updateShared (h : m.Running heaps) (hused : ∀ t, (f t).used = t.used)
    (hcr3 : ∀ t, (f t).cr3 = t.cr3) (hfit : ∀ i, m.shares i = true → (f (m.tasks i)).Fit)
    (hsame : ∀ t t', t.Same heaps t' → (f t).Same heaps (f t')) :
    (m.updateShared f).Running heaps := by
  have hfield : ∀ i, ((m.updateShared f).tasks i).used = (m.tasks i).used ∧
      ((m.updateShared f).tasks i).cr3 = (m.tasks i).cr3 := by
    intro i
    simp only [Mm.updateShared]
    split_ifs
    · exact ⟨hused _, hcr3 _⟩
    · exact ⟨rfl, rfl⟩
  refine ⟨⟨h.framed, fun i hi ↦ ?_, fun i hi ↦ ?_, fun i j hi hj hij ↦ ?_⟩, ?_⟩
  · rw [(hfield i).1] at hi
    rw [(hfield i).2]
    exact h.rooted i hi
  · rw [(hfield i).1] at hi
    simp only [Mm.updateShared]
    split_ifs with hs
    · exact hfit i hs
    · exact h.fit i hi
  · rw [(hfield i).1] at hi
    rw [(hfield j).1] at hj
    rw [(hfield i).2, (hfield j).2] at hij
    have hsm := h.same i j hi hj hij
    have hiff : m.shares i = m.shares j := by
      rw [Bool.eq_iff_iff, h.shares_iff, h.shares_iff, hij]
      exact and_congr_left (fun _ ↦ iff_of_true hi hj)
    simp only [Mm.updateShared, hiff]
    split_ifs
    · exact hsame _ _ hsm
    · exact hsm
  · rw [updateShared_task h.shares_current, hused]
    exact h.used

theorem foldl_max_le {a top : ℕ} {s : Slot → Bool} {n : Slot → ℕ} (ha : a ≤ top)
    (hn : ∀ i, s i = true → n i ≤ top) :
    l.foldl (fun h i ↦ if s i then max h (n i) else h) a ≤ top := by
  induction l generalizing a with
  | nil => exact ha
  | cons i l ih =>
    refine ih ?_
    dsimp only
    split_ifs with hi
    · exact max_le ha (hn i hi)
    · exact ha

theorem le_foldl_max {a : ℕ} {s : Slot → Bool} {n : Slot → ℕ} :
    a ≤ l.foldl (fun h i ↦ if s i then max h (n i) else h) a ∧
      ∀ i ∈ l, s i = true → n i ≤ l.foldl (fun h i ↦ if s i then max h (n i) else h) a := by
  induction l generalizing a with
  | nil => exact ⟨le_rfl, fun _ h ↦ by cases h⟩
  | cons i l ih =>
    have hstart : a ≤ if s i then max a (n i) else a := by
      split_ifs
      · exact le_max_left _ _
      · exact le_rfl
    refine ⟨hstart.trans ih.1, fun j hj hs ↦ ?_⟩
    rcases List.mem_cons.1 hj with rfl | hj
    · refine le_trans ?_ ih.1
      dsimp only
      rw [if_pos hs]
      exact le_max_right _ _
    · exact ih.2 j hj hs

theorem cursor_snd (m : Mm) : m.taskSharedMmapCursor.2 =
    (List.finRange 64).foldl
    (fun h i ↦ if m.shares i then max h (m.tasks i).mmapNext else h) userMmapMin := rfl

theorem cursor_le (h : m.Running heaps) : m.taskSharedMmapCursor.2 ≤ userTop := by
  rw [cursor_snd]
  refine foldl_max_le (by decide) (fun i hi ↦ ?_)
  exact (h.fit i ((h.shares_iff i).1 hi).1).next_le

theorem le_cursor (hi : m.shares i = true) : (m.tasks i).mmapNext ≤ m.taskSharedMmapCursor.2 := by
  rw [cursor_snd]
  exact (le_foldl_max (s := m.shares) (n := fun i ↦ (m.tasks i).mmapNext)).2 i
    (List.mem_finRange i) hi

theorem cursor_fst (m : Mm) : m.taskSharedMmapCursor.1 =
    m.updateShared (fun t ↦ { t with mmapNext := m.taskSharedMmapCursor.2 }) := rfl

theorem advance_eq (hs : m.shares m.current = true) (next : ℕ) :
    m.taskSharedMmapCursorAdvance next =
    m.updateShared (fun t ↦ { t with mmapNext := max m.taskSharedMmapCursor.2 next }) := by
  unfold taskSharedMmapCursorAdvance
  rw [cursor_fst]
  exact updateShared_comp (f := fun t ↦ { t with mmapNext := m.taskSharedMmapCursor.2 }) hs
    (fun _ ↦ rfl) (fun _ ↦ rfl)

theorem Running.raise (h : m.Running heaps) (hle : next ≤ userTop)
    (hge : ∀ i, m.shares i = true → (m.tasks i).mmapNext ≤ next) :
    (m.updateShared (fun t ↦ { t with mmapNext := next })).Running heaps := by
  refine h.updateShared (fun _ ↦ rfl) (fun _ ↦ rfl) (fun i hi ↦ ?_)
    (fun _ _ hs ↦ ⟨hs.lazyMmaps, hs.heap⟩)
  have hfit := h.fit i ((h.shares_iff i).1 hi).1
  exact ⟨fun r hr ↦ (hfit.lazy_le r hr).trans (hge i hi), hle, hfit.heapBase_lt, hfit.heapEnd_lt⟩

theorem Running.cursor (h : m.Running heaps) : m.taskSharedMmapCursor.1.Running heaps :=
  h.raise (cursor_le h) (fun _ hi ↦ le_cursor hi)

theorem Running.advance (h : m.Running heaps) (hle : next ≤ userTop) :
    (m.taskSharedMmapCursorAdvance next).Running heaps := by
  rw [advance_eq (h.shares_current)]
  exact h.raise (max_le (cursor_le h) hle) (fun i hi ↦ (le_cursor hi).trans (le_max_left _ _))

theorem Running.heapSync (h : m.Running heaps) {base stop : ℕ} (hbase : base < userHeapMax)
    (hstop : stop < userHeapMax) : (m.taskSharedHeapSync base stop).Running heaps := by
  refine h.updateShared (fun _ ↦ rfl) (fun _ ↦ rfl) (fun i hi ↦ ?_)
    (fun _ _ hs ↦ ⟨hs.lazyMmaps, fun _ ↦ ⟨rfl, rfl⟩⟩)
  have hfit := h.fit i ((h.shares_iff i).1 hi).1
  exact ⟨hfit.lazy_le, hfit.next_le, hbase, hstop⟩

section Lazy

variable {start stop prot : ℕ} {op : LazyOp} {L out : List LazyMmap}

theorem lazyLoop_error {ts : Slot → UserTask} {rc : ℤ}
    (he : taskLazyMmapTransform L start stop op prot = .error rc) (hl : l ≠ [])
    (hL : ∀ i ∈ l, (ts i).lazyMmaps = L) : lazyLoop start stop op prot l ts = (ts, rc) := by
  cases l with
  | nil => exact absurd rfl hl
  | cons i l => simp only [lazyLoop, hL i (.head _), he]

theorem lazyLoop_ok {ts : Slot → UserTask}
    (he : taskLazyMmapTransform L start stop op prot = .ok out) (hl : l.Nodup)
    (hL : ∀ i ∈ l, (ts i).lazyMmaps = L) :
    lazyLoop start stop op prot l ts =
      (fun i ↦ if i ∈ l then { ts i with lazyMmaps := out } else ts i, 0) := by
  induction l generalizing ts with
  | nil => simp [lazyLoop]
  | cons i l ih =>
    obtain ⟨hi, hl⟩ := List.nodup_cons.1 hl
    simp only [lazyLoop, hL i (.head _), he]
    rw [ih hl]
    · congr 1
      funext j
      by_cases hj : j = i
      · subst hj
        simp [hi]
      · simp [hj]
    · intro j hj
      have hne : j ≠ i := fun hji ↦ hi (hji ▸ hj)
      rw [update_of_ne hne]
      exact hL j (.tail _ hj)

theorem Running.transform_eq (h : m.Running heaps) :
    m.taskLazyMmapTransformShared start stop op prot =
      match taskLazyMmapTransform m.task.lazyMmaps start stop op prot with
      | .error rc => (m, rc)
      | .ok out => (m.updateShared (fun t ↦ { t with lazyMmaps := out }), 0) := by
  have hL : ∀ i ∈ (List.finRange 64).filter m.shares, (m.tasks i).lazyMmaps = m.task.lazyMmaps := by
    intro i hi
    exact h.lazy_current (List.mem_filter.1 hi).2
  unfold taskLazyMmapTransformShared
  cases he : taskLazyMmapTransform m.task.lazyMmaps start stop op prot with
  | error rc =>
    have hcur : m.current ∈ (List.finRange 64).filter m.shares :=
      List.mem_filter.2 ⟨List.mem_finRange _, h.shares_current⟩
    rw [lazyLoop_error he (List.ne_nil_of_mem hcur) hL]
  | ok out =>
    rw [lazyLoop_ok he ((List.nodup_finRange 64).filter _) hL]
    simp only [Mm.updateShared, List.mem_filter, List.mem_finRange, true_and]

theorem pieces_stop_le {q r : LazyMmap} (h : r ∈ q.pieces start stop op prot) :
    r.stop ≤ q.stop := by
  unfold LazyMmap.pieces at h
  split at h
  · cases h
  split at h
  · rw [List.mem_singleton.1 h]
  next hover =>
  rcases List.mem_append.1 h with h | h
  · rcases List.mem_append.1 h with h | h
    · split_ifs at h
      · rw [List.mem_singleton.1 h]
        show start ≤ q.stop
        omega
      · cases h
    · split_ifs at h
      · rw [List.mem_singleton.1 h]
        exact min_le_left _ _
      · cases h
  · split_ifs at h
    · rw [List.mem_singleton.1 h]
    · cases h

theorem transform_out (he : taskLazyMmapTransform L start stop op prot = .ok out) :
    out = L.flatMap (LazyMmap.pieces start stop op prot) ++
      if op = .replace then [⟨start, stop, prot⟩] else [] := by
  unfold taskLazyMmapTransform at he
  generalize L.flatMap (LazyMmap.pieces start stop op prot) ++ (if op = .replace then _ else _) =
    all at he ⊢
  dsimp only at he
  split_ifs at he
  exact (Except.ok.inj he).symm

theorem transform_le {top : ℕ} (he : taskLazyMmapTransform L start stop op prot = .ok out)
    (hL : ∀ r ∈ L, r.stop ≤ top) (hnew : op = .replace → stop ≤ top) : ∀ r ∈ out, r.stop ≤ top := by
  rw [transform_out he]
  intro r hr
  rcases List.mem_append.1 hr with hr | hr
  · obtain ⟨q, hq, hr⟩ := List.mem_flatMap.1 hr
    exact (pieces_stop_le hr).trans (hL q hq)
  · split_ifs at hr with hop
    · rw [List.mem_singleton.1 hr]
      exact hnew hop
    · cases hr

theorem Running.transform (h : m.Running heaps) (start stop : ℕ) {op : LazyOp} (prot : ℕ)
    (hop : op ≠ .replace) : (m.taskLazyMmapTransformShared start stop op prot).1.Running heaps := by
  rw [h.transform_eq]
  split
  · exact h
  · next out he =>
    show (m.updateShared (fun t ↦ { t with lazyMmaps := out })).Running heaps
    refine h.updateShared (fun _ ↦ rfl) (fun _ ↦ rfl) (fun i hi ↦ ?_) (fun _ _ hs ↦ ⟨rfl, hs.heap⟩)
    have hfit := h.fit i ((h.shares_iff i).1 hi).1
    refine ⟨transform_le he ?_ (fun hr ↦ absurd hr hop), hfit.next_le, hfit.heapBase_lt,
      hfit.heapEnd_lt⟩
    rw [← h.lazy_current hi]
    exact hfit.lazy_le

theorem Running.reserve (h : m.Running heaps)
    (he : taskLazyMmapTransform m.task.lazyMmaps start stop .replace prot = .ok out)
    (hstop : stop ≤ next) (hle : next ≤ userTop)
    (hge : ∀ i, m.shares i = true → (m.tasks i).mmapNext ≤ next) :
    (m.updateShared (fun t ↦ { t with lazyMmaps := out, mmapNext := next })).Running heaps := by
  refine h.updateShared (fun _ ↦ rfl) (fun _ ↦ rfl) (fun i hi ↦ ?_) (fun _ _ hs ↦ ⟨rfl, hs.heap⟩)
  have hfit := h.fit i ((h.shares_iff i).1 hi).1
  refine ⟨transform_le he ?_ (fun _ ↦ hstop), hle, hfit.heapBase_lt, hfit.heapEnd_lt⟩
  rw [← h.lazy_current hi]
  exact fun r hr ↦ (hfit.lazy_le r hr).trans (hge i hi)

end Lazy

theorem Orderly.setTask (h : m.Orderly heaps) (i : Slot)
    (ht : t.used = true → t.Fit ∧ t.cr3 ≠ 0 ∧ (m.vmm.spaces.get? t.cr3).isSome = true ∧ ∀ j, j ≠ i →
      (m.tasks j).used = true → (m.tasks j).cr3 = t.cr3 → t.Same heaps (m.tasks j)) :
    (m.setTask i t).Orderly heaps := by
  have hne : ∀ {j}, j ≠ i → (m.setTask i t).tasks j = m.tasks j := fun hj ↦ update_of_ne hj _ _
  have hself : (m.setTask i t).tasks i = t := update_self _ _ _
  refine ⟨h.framed, fun j hj ↦ ?_, fun j hj ↦ ?_, fun j k hj hk hjk ↦ ?_⟩
  · by_cases hji : j = i
    · subst hji
      rw [hself] at hj ⊢
      exact ⟨(ht hj).2.1, (ht hj).2.2.1⟩
    · rw [hne hji] at hj ⊢
      exact h.rooted j hj
  · by_cases hji : j = i
    · subst hji
      rw [hself] at hj ⊢
      exact (ht hj).1
    · rw [hne hji] at hj ⊢
      exact h.fit j hj
  · by_cases hji : j = i
    · subst hji
      by_cases hkj : k = j
      · rw [hkj]
        exact .refl heaps _
      · rw [hself] at hj hjk ⊢
        rw [hne hkj] at hk hjk ⊢
        exact (ht hj).2.2.2 k hkj hk hjk.symm
    · by_cases hki : k = i
      · subst hki
        rw [hself] at hk hjk ⊢
        rw [hne hji] at hj hjk ⊢
        exact ((ht hk).2.2.2 j hji hj hjk).symm
      · rw [hne hji] at hj hjk ⊢
        rw [hne hki] at hk hjk ⊢
        exact h.same j k hj hk hjk

theorem Orderly.dropTask (h : m.Orderly heaps) (i : Slot) (ht : t.used = false) :
    (m.setTask i t).Orderly heaps :=
  h.setTask i (fun hu ↦ by rw [ht] at hu; cases hu)

theorem Orderly.destroy (h : m.Orderly heaps) {root : ℕ}
    (hother : ∀ j, j ≠ i → (m.tasks j).used = true → (m.tasks j).cr3 ≠ root)
    (ht : t.used = true → t.Fit ∧ t.cr3 ≠ 0 ∧ t.cr3 ≠ root ∧
      (m.vmm.spaces.get? t.cr3).isSome = true ∧ ∀ j, j ≠ i → (m.tasks j).used = true →
        (m.tasks j).cr3 = t.cr3 → t.Same heaps (m.tasks j)) :
    ({ m with vmm := (m.vmm.vmmUserSpaceDestroy root).1 }.setTask i t).Orderly heaps := by
  have hframed : (m.vmm.vmmUserSpaceDestroy root).1.Framed := by
    have hk := Vmm.kept_destroy h.framed (show m.vmm.vmmUserSpaceDestroy root = (_, _) from rfl)
    refine Vmm.framed_of_kept ?_ ?_ hk
    all_goals
      unfold Vmm.vmmUserSpaceDestroy
      split
      · rfl
      · split
        · rfl
        · rfl
  have hroots : ∀ r, r ≠ root →
      ((m.vmm.vmmUserSpaceDestroy root).1.spaces.get? r).isSome = (m.vmm.spaces.get? r).isSome := by
    intro r hr
    unfold Vmm.vmmUserSpaceDestroy
    split
    · rfl
    · split
      · simp only [Slots.get?_erase_of_ne _ hr]
      · rfl
  have hne : ∀ {j}, j ≠ i → (m.setTask i t).tasks j = m.tasks j := fun hj ↦ update_of_ne hj _ _
  have hself : (m.setTask i t).tasks i = t := update_self _ _ _
  have hset := h.setTask i (fun hu ↦ ⟨(ht hu).1, (ht hu).2.1, (ht hu).2.2.2⟩)
  refine ⟨hframed, fun j hj ↦ ?_, hset.fit, hset.same⟩
  have hj' : ((m.setTask i t).tasks j).used = true := hj
  refine ⟨(hset.rooted j hj').1, (hroots _ ?_).trans (hset.rooted j hj').2⟩
  show ((m.setTask i t).tasks j).cr3 ≠ root
  by_cases hji : j = i
  · subst hji
    rw [hself] at hj' ⊢
    exact (ht hj').2.2.1
  · rw [hne hji] at hj' ⊢
    exact hother j hji hj'

end Mm

end YabroOS.Memory
