import YabroOS.Memory.Space

namespace YabroOS.Memory

namespace LazyMmap

variable {l : List LazyMmap} {r r' : LazyMmap} {start stop prot a : ℕ} {op : LazyOp}

def Has (r : LazyMmap) (a : ℕ) : Prop := r.start ≤ a ∧ a < r.stop

instance (r : LazyMmap) (a : ℕ) : Decidable (r.Has a) := inferInstanceAs (Decidable (_ ∧ _))

def Apart (r r' : LazyMmap) : Prop := ∀ a, r.Has a → ¬ r'.Has a

def protection (l : List LazyMmap) (a : ℕ) : Option ℕ :=
  (l.find? (fun r ↦ r.Has a)).map LazyMmap.prot

theorem isSome_protection : (protection l a).isSome = true ↔ ∃ r ∈ l, r.Has a := by
  simp [protection]

theorem protection_eq_some (hd : l.Pairwise Apart) {p : ℕ} :
    protection l a = some p ↔ ∃ r ∈ l, r.Has a ∧ r.prot = p := by
  induction l with
  | nil => simp [protection]
  | cons r l ih =>
    obtain ⟨hr, hl⟩ := List.pairwise_cons.1 hd
    by_cases ha : r.Has a
    · have hnone : ∀ r' ∈ l, ¬ r'.Has a := fun r' hr' ↦ hr r' hr' a ha
      simp only [protection, List.find?_cons, ha, decide_true, Option.map_some, Option.some.injEq,
        List.mem_cons,
        exists_eq_or_imp, true_and, iff_self_or]
      rintro ⟨r', hr', ha', -⟩
      exact absurd ha' (hnone r' hr')
    · have hcons : protection (r :: l) a = protection l a := by
        simp [protection, ha]
      simp [hcons, ih hl, ha]

/-- The addresses of the pieces of a reservation: those outside the range keep their protection, and
those inside stay only if it is set. -/
theorem mem_pieces (hlt : start < stop) {p : ℕ} :
    (∃ r' ∈ r.pieces start stop op prot, r'.Has a ∧ r'.prot = p) ↔
      r.Has a ∧ if start ≤ a ∧ a < stop then op = .setProt ∧ prot = p else r.prot = p := by
  unfold pieces Has
  split_ifs <;> simp <;> grind

theorem piece_spec (h : r' ∈ r.pieces start stop op prot) (ha : r'.Has a) : r.Has a := by
  revert h ha
  unfold pieces Has
  split_ifs <;> simp <;> grind

theorem pieces_apart (hlt : start < stop) :
    (r.pieces start stop op prot).Pairwise Apart ∧
      ∀ r' ∈ r.pieces start stop op prot, r'.start < r'.stop := by
  unfold pieces
  split_ifs <;> simp [Apart, Has] <;> grind

theorem protection_flatMap (hd : l.Pairwise Apart) (hlt : start < stop) :
    (l.flatMap (pieces start stop op prot)).Pairwise Apart ∧
      ∀ a, protection (l.flatMap (pieces start stop op prot)) a =
      if start ≤ a ∧ a < stop then if op = .setProt then (protection l a).map (fun _ ↦ prot)
        else none
      else protection l a := by
  have hflat : (l.flatMap (pieces start stop op prot)).Pairwise Apart := by
    refine List.pairwise_flatMap.2 ⟨fun r _ ↦ (pieces_apart hlt).1,
      hd.imp fun hr x hx y hy a hxa hya ↦ ?_⟩
    exact hr a (piece_spec hx hxa) (piece_spec hy hya)
  refine ⟨hflat, fun a ↦ Option.ext fun p ↦ ?_⟩
  have hmem : (∃ r' ∈ l.flatMap (pieces start stop op prot), r'.Has a ∧ r'.prot = p) ↔
      ∃ r ∈ l, ∃ r' ∈ r.pieces start stop op prot, r'.Has a ∧ r'.prot = p := by
    simp only [List.mem_flatMap]
    grind
  rw [protection_eq_some hflat, hmem]
  simp only [mem_pieces hlt]
  by_cases hin : start ≤ a ∧ a < stop
  · simp only [if_pos hin]
    split_ifs with hop
    · simp only [hop, true_and, Option.map_eq_some_iff]
      constructor
      · rintro ⟨r, hr, ha, rfl⟩
        exact ⟨r.prot, (protection_eq_some hd).2 ⟨r, hr, ha, rfl⟩, rfl⟩
      · rintro ⟨q, hq, rfl⟩
        obtain ⟨r, hr, ha, -⟩ := (protection_eq_some hd).1 hq
        exact ⟨r, hr, ha, rfl⟩
    · simp [hop]
  · simp only [if_neg hin]
    exact (protection_eq_some hd).symm

theorem protection_flatMap_outside (hlt : start < stop) (ha : ¬ (start ≤ a ∧ a < stop)) :
    protection (l.flatMap (pieces start stop op prot)) a = protection l a := by
  induction l with
  | nil => rfl
  | cons r l ih =>
    have hpiece : ∀ p, (∃ r' ∈ r.pieces start stop op prot, r'.Has a ∧ r'.prot = p) ↔ r.Has a ∧
        r.prot = p := by
      intro p
      rw [mem_pieces hlt, if_neg ha]
    unfold protection at ih ⊢
    rw [List.flatMap_cons, List.find?_append, List.find?_cons]
    by_cases hr : r.Has a
    · obtain ⟨r', hr', hhas, hp⟩ := (hpiece r.prot).2 ⟨hr, rfl⟩
      have hsome : ((r.pieces start stop op prot).find? (fun r ↦ decide (r.Has a))).isSome = true :=
        List.find?_isSome.2 ⟨r', hr', decide_eq_true hhas⟩
      obtain ⟨q, hq⟩ := Option.isSome_iff_exists.1 hsome
      have hqp := (hpiece q.prot).1 ⟨q, List.mem_of_find?_eq_some hq,
        by simpa using List.find?_some hq, rfl⟩
      simp [hq, hr, hqp.2]
    · have hnone : (r.pieces start stop op prot).find? (fun r ↦ decide (r.Has a)) = none := by
        refine List.find?_eq_none.2 fun r' hr' hhas ↦ hr ?_
        exact piece_spec hr' (by simpa using hhas)
      simpa [hnone, hr] using ih

end LazyMmap

def LazyOp.protection (op : LazyOp) (prot : ℕ) (old : Option ℕ) : Option ℕ :=
  match op with
  | .remove => none
  | .setProt => old.map (fun _ ↦ prot)
  | .replace => some prot

namespace LazyMmap

variable {l out : List LazyMmap} {start stop prot : ℕ} {op : LazyOp}

theorem transform_pieces (hlt : start < stop)
    (h : taskLazyMmapTransform l start stop op prot = .ok out) :
    out = l.flatMap (pieces start stop op prot) ++
      if op = .replace then [⟨start, stop, prot⟩] else [] := by
  unfold taskLazyMmapTransform at h
  generalize l.flatMap (pieces start stop op prot) ++ (if op = .replace then [⟨start, stop, prot⟩]
    else []) = out' at h ⊢
  simp only [if_neg (not_le.2 hlt)] at h
  split_ifs at h
  exact (Except.ok.inj h).symm

theorem transform_error (hlt : start < stop) {rc : ℤ}
    (h : taskLazyMmapTransform l start stop op prot = .error rc) : rc = -12 := by
  unfold taskLazyMmapTransform at h
  generalize l.flatMap (pieces start stop op prot) ++ (if op = .replace then [⟨start, stop, prot⟩]
    else []) = out at h
  simp only [if_neg (not_le.2 hlt)] at h
  split_ifs at h
  exact (Except.error.inj h).symm

theorem transform_nonempty (hlt : start < stop)
    (h : taskLazyMmapTransform l start stop op prot = .ok out) : ∀ r ∈ out, r.start < r.stop := by
  rw [transform_pieces hlt h]
  intro r hr
  rcases List.mem_append.1 hr with hr | hr
  · obtain ⟨r₀, -, hr⟩ := List.mem_flatMap.1 hr
    exact (pieces_apart hlt).2 r hr
  · split_ifs at hr
    · obtain rfl := List.mem_singleton.1 hr
      exact hlt
    · cases hr

theorem transform_protection (hd : l.Pairwise Apart) (hlt : start < stop)
    (h : taskLazyMmapTransform l start stop op prot = .ok out) :
    out.Pairwise Apart ∧ ∀ a, protection out a =
      if start ≤ a ∧ a < stop then op.protection prot (protection l a) else protection l a := by
  obtain ⟨hflat, hprot⟩ : (l.flatMap (pieces start stop op prot)).Pairwise Apart ∧ _ :=
    protection_flatMap hd hlt
  rw [transform_pieces hlt h]
  cases op with
  | remove =>
    simp only [reduceCtorEq, if_false, List.append_nil]
    exact ⟨hflat, fun a ↦ (hprot a).trans (by simp [LazyOp.protection])⟩
  | setProt =>
    simp only [reduceCtorEq, if_false, List.append_nil]
    exact ⟨hflat, fun a ↦ (hprot a).trans (by simp [LazyOp.protection])⟩
  | replace =>
    rw [if_pos rfl]
    -- the pieces leave the range to the new reservation
    have hout : ∀ r ∈ l.flatMap (pieces start stop .replace prot), ∀ a, start ≤ a ∧ a < stop →
        ¬ r.Has a := by
      intro r hr a hin ha
      have hsome := isSome_protection.2 ⟨r, hr, ha⟩
      rw [hprot a, if_pos hin] at hsome
      cases hsome
    refine ⟨List.pairwise_append.2 ⟨hflat, List.pairwise_singleton _ _,
      fun r hr r' hr' a ha ha' ↦ ?_⟩, fun a ↦ ?_⟩
    · obtain rfl := List.mem_singleton.1 hr'
      exact hout r hr a ha' ha
    · have happend : protection
          (l.flatMap (pieces start stop .replace prot) ++ [⟨start, stop, prot⟩]) a =
          (protection (l.flatMap (pieces start stop .replace prot)) a).or
            (protection [⟨start, stop, prot⟩] a) := by
        simp only [protection, List.find?_append]
        cases List.find? (fun r ↦ decide (r.Has a)) (l.flatMap (pieces start stop .replace prot))
          <;> rfl
      rw [happend, hprot a]
      by_cases hin : start ≤ a ∧ a < stop <;> simp [hin, LazyOp.protection, protection, Has]

theorem protection_transform_remove (hlt : start < stop)
    (h : taskLazyMmapTransform l start stop .remove prot = .ok out)
    (hnone : ∀ r ∈ l, ∀ a, start ≤ a → a < stop → ¬ r.Has a) (a : ℕ) :
    protection out a = protection l a := by
  rw [transform_pieces hlt h, if_neg (by decide), List.append_nil]
  by_cases ha : start ≤ a ∧ a < stop
  · have hbefore : protection l a = none := by
      rw [← Option.not_isSome_iff_eq_none, isSome_protection]
      rintro ⟨r, hr, hhas⟩
      exact hnone r hr a ha.1 ha.2 hhas
    rw [hbefore, ← Option.not_isSome_iff_eq_none, isSome_protection]
    rintro ⟨r', hr', hhas⟩
    obtain ⟨r, hr, hpiece⟩ := List.mem_flatMap.1 hr'
    exact hnone r hr a ha.1 ha.2 (piece_spec hpiece hhas)
  · exact protection_flatMap_outside hlt ha

def reachFrom (cursor stop : ℕ) (l : List LazyMmap) (next : ℕ) : ℕ :=
  l.foldl (fun next r ↦ if r.start ≤ cursor ∧ next < r.stop then min r.stop stop else next) next

theorem reachFrom_spec {cursor next : ℕ} (hc : cursor ≤ next) (hn : next ≤ stop) :
    next ≤ reachFrom cursor stop l next ∧ reachFrom cursor stop l next ≤ stop ∧
      ∀ a, next ≤ a → a < reachFrom cursor stop l next → ∃ r ∈ l, r.Has a := by
  induction l generalizing next with
  | nil => exact ⟨le_rfl, hn, fun a ha hlt ↦ absurd hlt (not_lt.2 ha)⟩
  | cons r l ih =>
    simp only [reachFrom, List.foldl_cons]
    split_ifs with hr
    · obtain ⟨h₁, h₂, h₃⟩ := ih (show cursor ≤ min r.stop stop by omega) (by omega)
      refine ⟨le_trans (by omega) h₁, h₂, fun a ha hlt ↦ ?_⟩
      by_cases hin : a < min r.stop stop
      · exact ⟨r, List.mem_cons_self, by omega, by omega⟩
      · obtain ⟨r', hr', hhas⟩ := h₃ a (not_lt.1 hin) hlt
        exact ⟨r', List.mem_cons_of_mem r hr', hhas⟩
    · obtain ⟨h₁, h₂, h₃⟩ := ih hc hn
      refine ⟨h₁, h₂, fun a ha hlt ↦ ?_⟩
      obtain ⟨r', hr', hhas⟩ := h₃ a ha hlt
      exact ⟨r', List.mem_cons_of_mem r hr', hhas⟩

theorem lt_reachFrom {cursor next : ℕ} (hc : cursor ≤ next) (hn : next ≤ stop) (hlt : cursor < stop)
    {r : LazyMmap} (hr : r ∈ l) (hhas : r.Has cursor) : cursor < reachFrom cursor stop l next := by
  induction l generalizing next with
  | nil => cases hr
  | cons r' l ih =>
    have hmono := fun n (h : cursor ≤ n) (h' : n ≤ stop) ↦ (reachFrom_spec (l := l) h h').1
    simp only [reachFrom, List.foldl_cons]
    rcases List.mem_cons.1 hr with rfl | hr
    · have hcur := hhas.2
      split_ifs with hb
      · exact lt_of_lt_of_le (by omega) (hmono (min r.stop stop) (by omega) (by omega))
      · exact lt_of_lt_of_le (by have := hhas.1; omega) (hmono next hc hn)
    · split_ifs with hb
      · exact ih (by omega) (by omega) hr
      · exact ih hc hn hr

def coveredFrom (l : List LazyMmap) (stop cursor : ℕ) : Bool :=
  if cursor < stop then
    if reachFrom cursor stop l cursor = cursor then false
    else coveredFrom l stop (reachFrom cursor stop l cursor)
  else true
termination_by stop - cursor
decreasing_by
  have hreach := reachFrom_spec (l := l) (le_refl cursor) (show cursor ≤ stop by omega)
  omega

theorem coveredFrom_iff (l : List LazyMmap) (stop cursor : ℕ) :
    coveredFrom l stop cursor = true ↔ ∀ a, cursor ≤ a → a < stop → ∃ r ∈ l, r.Has a := by
  induction cursor using coveredFrom.induct l stop with
  | case1 cursor hlt hreach =>
    rw [coveredFrom, if_pos hlt, if_pos hreach]
    refine ⟨nofun, fun h ↦ ?_⟩
    obtain ⟨r, hr, hhas⟩ := h cursor le_rfl hlt
    exact absurd hreach (ne_of_gt (lt_reachFrom le_rfl hlt.le hlt hr hhas))
  | case2 cursor hlt hreach ih =>
    obtain ⟨hge, hle, hcov⟩ := reachFrom_spec (l := l) (le_refl cursor) hlt.le
    rw [coveredFrom, if_pos hlt, if_neg hreach, ih]
    refine ⟨fun h a ha has ↦ ?_, fun h a ha has ↦ h a (hge.trans ha) has⟩
    by_cases hin : a < reachFrom cursor stop l cursor
    · exact hcov a ha hin
    · exact h a (not_lt.1 hin) has
  | case3 cursor hlt =>
    rw [coveredFrom, if_neg hlt]
    exact ⟨fun _ a ha has ↦ absurd (ha.trans_lt has) hlt, fun _ ↦ rfl⟩

end LazyMmap

open LazyMmap

def taskLazyMmapRangeCovered (t : UserTask) (start stop : ℕ) : Bool :=
  if stop ≤ start then false else coveredFrom t.lazyMmaps stop start

def UserTask.lazyTransform (t : UserTask) (start stop : ℕ) (op : LazyOp) (prot : ℕ) :
    UserTask × ℤ :=
  match taskLazyMmapTransform t.lazyMmaps start stop op prot with
  | .error rc => (t, rc)
  | .ok out => ({ t with lazyMmaps := out }, 0)

theorem taskLazyMmapProtection_eq (t : UserTask) (a : ℕ) :
    Mm.taskLazyMmapProtection t a = LazyMmap.protection t.lazyMmaps a := rfl

/-- The lazy regions of a task as a function from addresses to protections. -/
theorem lazy_region_algebra (t : UserTask) (hd : t.lazyMmaps.Pairwise Apart) {start stop : ℕ}
    (hlt : start < stop) (op : LazyOp) (prot : ℕ) :
    ((t.lazyTransform start stop op prot).2 = 0 →
      (t.lazyTransform start stop op prot).1.lazyMmaps.Pairwise Apart ∧
      (∀ r ∈ (t.lazyTransform start stop op prot).1.lazyMmaps, r.start < r.stop) ∧
      ∀ a, Mm.taskLazyMmapProtection (t.lazyTransform start stop op prot).1 a =
        if start ≤ a ∧ a < stop then op.protection prot (Mm.taskLazyMmapProtection t a)
        else Mm.taskLazyMmapProtection t a) ∧
    ((t.lazyTransform start stop op prot).2 ≠ 0 →
      (t.lazyTransform start stop op prot).2 = -12 ∧ (t.lazyTransform start stop op prot).1 = t) ∧
    (taskLazyMmapRangeCovered t start stop = true ↔
      ∀ a, start ≤ a → a < stop → (Mm.taskLazyMmapProtection t a).isSome = true) := by
  refine ⟨?_, ?_, ?_⟩
  · intro hrc
    unfold UserTask.lazyTransform at hrc ⊢
    cases h : taskLazyMmapTransform t.lazyMmaps start stop op prot with
    | error rc =>
      rw [h] at hrc
      rw [transform_error hlt h] at hrc
      cases hrc
    | ok out =>
      obtain ⟨hapart, hprot⟩ := transform_protection hd hlt h
      exact ⟨hapart, transform_nonempty hlt h, hprot⟩
  · intro hrc
    unfold UserTask.lazyTransform at hrc ⊢
    cases h : taskLazyMmapTransform t.lazyMmaps start stop op prot with
    | error rc => exact ⟨transform_error hlt h, rfl⟩
    | ok out =>
      rw [h] at hrc
      exact absurd rfl hrc
  · rw [taskLazyMmapRangeCovered, if_neg (not_le.2 hlt), coveredFrom_iff]
    simp only [taskLazyMmapProtection_eq, isSome_protection]

/-- A protection is set across the hole between two regions. -/
theorem lazy_region_algebra_two :
    let t : UserTask := ⟨true, false, 1, 0, 0, 0, [⟨0, 100, 1⟩, ⟨200, 300, 1⟩]⟩
    (t.lazyTransform 50 250 .setProt 3).1.lazyMmaps.Pairwise Apart ∧
      Mm.taskLazyMmapProtection (t.lazyTransform 50 250 .setProt 3).1 60 = some 3 ∧
      Mm.taskLazyMmapProtection (t.lazyTransform 50 250 .setProt 3).1 150 = none := by
  intro t
  have hapart : t.lazyMmaps.Pairwise Apart := by
    simp only [t, List.pairwise_cons, List.mem_singleton, forall_eq, Apart, Has]
    exact ⟨fun a h h' ↦ by omega, by simp, List.Pairwise.nil⟩
  obtain ⟨hp, -, hprot⟩ :=
    (lazy_region_algebra t hapart (show 50 < 250 by decide) .setProt 3).1 (by decide)
  exact ⟨hp, (hprot 60).trans (by decide), (hprot 150).trans (by decide)⟩

end YabroOS.Memory
