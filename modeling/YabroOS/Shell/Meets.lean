import YabroOS.Shell.Lists

namespace YabroOS.Shell

variable {w : Commands} {last : Word → Word} {place off : ℕ} {c c' d : Word}
    {l : List (Logic × Word)} {s : Status} {op : Logic}

section Follows

variable (last : Word → Word) (w : Commands)

/-- Within an and-or list whose first command is run: `parse` does not miss the blanks that are cut
off before an operator, a command fails without an exit status only after one that was not zero, and
behind an operator that stops the next command all operators are of its kind. `off` is where the
first command ends. -/
def Follows : ℕ → ℕ → Word → List (Logic × Word) → Status → Prop
  | place, _, c, [], _ => parse (w.value place) (last c) = parse (w.value place) c
  | place, off, c, (op, d) :: l, s =>
    let s := (execute w place c s).2
    parse (w.value place) (trimEnd c) = parse (w.value place) c ∧ (s.failed = true → s.kept ≠ 0) ∧
      if op.permits s = true then
        Follows (off + op.text.length + (d.takeWhile isBlank).length)
          (off + op.text.length + d.length) d l s
      else ∀ x ∈ l, x.1 = op

/-- The same along a line, at whose end no failure comes after a status of zero. -/
def FollowsLine : ℕ → ℕ → AndOr → List AndOr → Status → Prop
  | place, off, a, [], s =>
    Follows id w place (off + a.first.length) a.first a.rest s ∧
      ((a.read w place off s).2.failed = true → (a.read w place off s).2.kept ≠ 0)
  | place, off, a, b :: l, s =>
    Follows trimEnd w place (off + a.first.length) a.first a.rest s ∧
      FollowsLine (off + a.text.length + 1 + (b.first.takeWhile isBlank).length)
        (off + a.text.length + 1) b l (a.read w place off s).2

instance decidableFollows : ∀ place off c l s, Decidable (Follows last w place off c l s)
  | place, _, c, [], _ =>
    inferInstanceAs (Decidable (parse (w.value place) (last c) = parse (w.value place) c))
  | place, off, c, (op, d) :: l, s =>
    have := decidableFollows (off + op.text.length + (d.takeWhile isBlank).length)
      (off + op.text.length + d.length) d l (execute w place c s).2
    inferInstanceAs (Decidable (parse (w.value place) (trimEnd c) = parse (w.value place) c ∧
      ((execute w place c s).2.failed = true → (execute w place c s).2.kept ≠ 0) ∧
      if op.permits (execute w place c s).2 = true then
        Follows last w (off + op.text.length + (d.takeWhile isBlank).length)
          (off + op.text.length + d.length) d l
          (execute w place c s).2
      else ∀ x ∈ l, x.1 = op))

instance decidableFollowsLine : ∀ place off a l s, Decidable (FollowsLine w place off a l s)
  | place, off, a, [], s =>
    inferInstanceAs (Decidable (Follows id w place (off + a.first.length) a.first a.rest s ∧
      ((a.read w place off s).2.failed = true → (a.read w place off s).2.kept ≠ 0)))
  | place, off, a, b :: l, s =>
    have := decidableFollowsLine (off + a.text.length + 1 + (b.first.takeWhile isBlank).length)
      (off + a.text.length + 1) b l (a.read w place off s).2
    inferInstanceAs (Decidable (Follows trimEnd w place (off + a.first.length) a.first a.rest s ∧
      FollowsLine w (off + a.text.length + 1 + (b.first.takeWhile isBlank).length)
        (off + a.text.length + 1) b l (a.read w place off s).2))

end Follows

/-- `run_line` has run what the standard reading selects, and `last_status` is that of the last
command: zero only if it did not fail. -/
structure Meets (code : List Ran × ℤ) (standard : List Ran × Status) : Prop where
  ran : code.1 = standard.1
  status : if standard.2.failed = true then code.2 ≠ 0 else code.2 = standard.2.kept

theorem op_length (op : Logic) : op.text.length = 2 := by
  cases op <;> rfl

theorem runSimple_execute (h : parse (w.value place) c' = parse (w.value place) c) :
    runSimple w place false c' s.kept = ((execute w place c s).1, (execute w place c s).2.kept) := by
  rw [runSimple, execute, h]
  dsimp only
  rcases parse (w.value place) c with _ | _ | ⟨stage, stages⟩
  · rfl
  · rfl
  · dsimp only
    cases w.exits place (stage :: stages) with
    | none => rfl
    | some exit => simp

theorem permits_eq_passes (h : s.failed = true → s.kept ≠ 0) : op.permits s = op.passes s.kept := by
  have hok : s.ok = decide (s.kept = 0) := by
    rw [Status.ok]
    cases hf : s.failed with
    | false => simp
    | true => simp [h hf]
  cases op <;> simp [Logic.permits, Logic.passes, hok]

theorem passes_of_failed (h : s.failed = true) (hk : s.kept = 0) :
    op.passes s.kept = !op.permits s := by
  cases op <;> simp [Logic.permits, Logic.passes, Status.ok, h, hk]

theorem joined_length (c d : Word) :
    (joined id c ((op, d) :: l)).length = c.length + op.text.length + (joined id d l).length := by
  rw [joined, List.length_append, List.length_append]

theorem readRest_places (w : Commands) (off : ℕ) (l : List (Logic × Word)) (s : Status) :
    ∀ r ∈ (readRest w off l s).1, off < r.place ∧
      r.place + c.length ≤ off + (joined id c l).length := by
  induction l generalizing off s c with
  | nil => simp [readRest]
  | cons y l ih =>
    obtain ⟨op, d⟩ := y
    have hblank := (List.takeWhile_sublist isBlank (l := d)).length_le
    have hd : d.length ≤ (joined id d l).length := by
      cases l with
      | nil => exact le_rfl
      | cons y l =>
        obtain ⟨op, e⟩ := y
        rw [joined_length]
        omega
    have hop := op_length op
    rw [readRest, joined_length]
    dsimp only
    split_ifs
    · intro r hr
      rcases List.mem_append.1 hr with hr | hr
      · obtain rfl := List.mem_singleton.1 hr
        dsimp only
        omega
      · have := ih (c := d) _ _ r hr
        omega
    · intro r hr
      have := ih (c := d) _ _ r hr
      omega

theorem readRest_stopped (hop : op.permits s = false) :
    ((readRest w off l s).1 = [] ↔ ∀ x ∈ l, x.1 = op) ∧
      ((∀ x ∈ l, x.1 = op) → (readRest w off l s).2 = s) := by
  induction l generalizing off with
  | nil => simp [readRest]
  | cons y l ih =>
    obtain ⟨op', d⟩ := y
    by_cases he : op' = op
    · subst he
      rw [readRest, if_neg (by simp [hop])]
      obtain ⟨h₁, h₂⟩ := @ih (off + op'.text.length + d.length)
      exact ⟨h₁.trans (by simp), fun h ↦ h₂ fun x hx ↦ h x (List.mem_cons_of_mem _ hx)⟩
    · have hpermits : op'.permits s = true := by
        cases op <;> cases op' <;> simp_all [Logic.permits]
      rw [readRest, if_pos hpermits]
      refine ⟨iff_of_false (by simp [execute]) fun h ↦ he (h _ List.mem_cons_self),
        fun h ↦ absurd (h _ List.mem_cons_self) he⟩

theorem runRest_head (last : Word → Word) (w : Commands) (place : ℕ) (c : Word)
    (l : List (Logic × Word)) (status : ℤ) :
    ∃ stages more, (runRest last w place c l status).1 = ⟨place, false, stages⟩ :: more := by
  cases l with
  | nil => exact ⟨_, _, rfl⟩
  | cons y l =>
    obtain ⟨op, d⟩ := y
    rw [runRest]
    dsimp only
    split_ifs
    · exact ⟨_, _, rfl⟩
    · exact ⟨_, _, rfl⟩

theorem runRest_follows (hl : Trims last) (h : joins c l = true)
    (hc : c' = c ∨ c' = c.dropWhile isBlank) (hoff : off = place + c'.length) (s : Status) :
    ((runRest last w place c' l s.kept).1 = (execute w place c s).1 ++
      (readRest w off l (execute w place c s).2).1 ↔
        Follows last w place off c l s) ∧
      (Follows last w place off c l s →
        (runRest last w place c' l s.kept).2 =
          (readRest w off l (execute w place c s).2).2.kept) := by
  have hparse : ∀ {last : Word → Word}, Trims last →
      parse (w.value place) (last c') = parse (w.value place) (last c) := by
    intro last hl
    rcases hc with rfl | rfl
    · rfl
    · rw [hl.dropBlank (simple_iff.1 (joins_simple h)).2.2, parse_dropBlank]
  induction l generalizing c c' place off s with
  | nil =>
    rw [runRest, Follows, readRest, List.append_nil]
    by_cases he : parse (w.value place) (last c) = parse (w.value place) c
    · rw [runSimple_execute ((hparse hl).trans he)]
      exact ⟨iff_of_true rfl he, fun _ ↦ rfl⟩
    · refine ⟨iff_of_false (fun hlog ↦ he ?_) he, fun h ↦ absurd h he⟩
      rw [← hparse hl]
      simpa [runSimple, execute] using hlog
  | cons y l ih =>
    obtain ⟨op, d⟩ := y
    obtain ⟨-, -, hd⟩ := joins_cons h
    have hany := (simple_iff.1 (joins_simple hd)).2.2
    rw [runRest, Follows]
    dsimp only
    by_cases he : parse (w.value place) (trimEnd c) = parse (w.value place) c
    swap
    · refine ⟨iff_of_false (fun hlog ↦ he ?_) fun h ↦ he h.1, fun h ↦ absurd h.1 he⟩
      rw [← hparse trims_trimEnd]
      split_ifs at hlog
      · exact (Ran.mk.inj (List.cons.inj hlog).1).2.2
      · exact (Ran.mk.inj (List.cons.inj hlog).1).2.2
    rw [runSimple_execute ((hparse trims_trimEnd).trans he), and_iff_right he]
    dsimp only
    have hplace : place + c'.length + op.text.length = off + op.text.length := by rw [hoff]
    have hblank := congrArg List.length (List.takeWhile_append_dropWhile (p := isBlank) (l := d))
    rw [List.length_append] at hblank
    rw [hplace]
    generalize (execute w place c s).1 = ran
    generalize (execute w place c s).2 = s
    by_cases hfail : s.failed = true → s.kept ≠ 0
    · rw [← permits_eq_passes hfail, and_iff_right hfail]
      by_cases hpermits : op.permits s = true
      · rw [if_pos hpermits, if_pos hpermits, readRest, if_pos hpermits]
        dsimp only
        rw [List.append_cancel_left_eq]
        refine ih hd (.inr rfl) (by omega) s ?_
        intro last hl
        rw [hl.dropBlank hany, parse_dropBlank]
      · obtain ⟨h₁, h₂⟩ := @readRest_stopped w (off + op.text.length + d.length) l _ _
          (Bool.eq_false_iff.2 hpermits)
        rw [if_neg hpermits, if_neg hpermits, readRest, if_neg hpermits]
        refine ⟨?_, fun h ↦ by rw [h₂ h]⟩
        rw [← h₁, List.self_eq_append_right]
    · have hfail' := hfail
      push Not at hfail'
      refine ⟨iff_of_false (fun hlog ↦ ?_) fun h ↦ hfail h.1, fun h ↦ absurd h.1 hfail⟩
      rw [passes_of_failed hfail'.1 hfail'.2, readRest] at hlog
      by_cases hpermits : op.permits s = true
      · rw [hpermits] at hlog
        simp [execute] at hlog
      · rw [Bool.eq_false_iff.2 hpermits] at hlog
        simp only [Bool.not_false, if_true, Bool.false_eq_true, if_false,
          List.append_cancel_left_eq] at hlog
        obtain ⟨stages, more, hhead⟩ :=
          runRest_head last w (off + op.text.length + (d.takeWhile isBlank).length)
          (d.dropWhile isBlank) l s.kept
        have hmem : ⟨off + op.text.length + (d.takeWhile isBlank).length, false, stages⟩ ∈
            (readRest w (off + op.text.length + d.length) l s).1 := by
          rw [← hlog, hhead]
          exact List.mem_cons_self
        have := readRest_places (c := d) w _ l s _ hmem
        dsimp only at this
        omega

theorem first_length (a : AndOr) : a.first.length ≤ a.text.length := by
  rw [AndOr.text]
  cases a.rest with
  | nil => exact le_rfl
  | cons y l =>
    obtain ⟨op, d⟩ := y
    rw [joined_length]
    omega

theorem read_places (w : Commands) (a : AndOr) (s : Status) (hoff : place ≤ off + a.first.length) :
    ∀ r ∈ (a.read w place off s).1, place ≤ r.place ∧ r.place ≤ off + a.text.length := by
  have hlen := first_length a
  intro r hr
  rcases List.mem_append.1 hr with hr | hr
  · obtain rfl := List.mem_singleton.1 hr
    dsimp only
    omega
  · have := readRest_places (c := a.first) w _ _ _ r hr
    rw [AndOr.text]
    omega

theorem readLists_places (w : Commands) (a : AndOr) (l : List AndOr) (s : Status)
    (hoff : place ≤ off + a.first.length) :
    ∀ r ∈ (readLists w place off a l s).1, place ≤ r.place := by
  induction l generalizing a place off s with
  | nil => exact fun r hr ↦ (read_places w a s hoff r hr).1
  | cons b l ih =>
    have hlen := first_length a
    have hblank := (List.takeWhile_sublist isBlank (l := b.first)).length_le
    intro r hr
    rcases List.mem_append.1 hr with hr | hr
    · exact (read_places w a s hoff r hr).1
    · have := @ih (off + a.text.length + 1 + (b.first.takeWhile isBlank).length)
        (off + a.text.length + 1) b (a.read w place off s).2 (by omega) r hr
      omega

theorem append_places {l₁ l₂ m₁ m₂ : List Ran} {n : ℕ} (h : l₁ ++ l₂ = m₁ ++ m₂)
    (hl₁ : ∀ r ∈ l₁, r.place < n) (hl₂ : ∀ r ∈ l₂, n ≤ r.place) (hm₁ : ∀ r ∈ m₁, r.place < n)
    (hm₂ : ∀ r ∈ m₂, n ≤ r.place) : l₁ = m₁ ∧ l₂ = m₂ := by
  have hfilter := congrArg (List.filter fun r ↦ r.place < n) h
  have hrest := congrArg (List.filter fun r ↦ n ≤ r.place) h
  rw [List.filter_append, List.filter_append] at hfilter hrest
  rw [List.filter_eq_self.2 (by simpa using hl₁), List.filter_eq_nil_iff.2 (by simpa using hl₂),
    List.filter_eq_self.2 (by simpa using hm₁), List.filter_eq_nil_iff.2 (by simpa using hm₂)]
      at hfilter
  rw [List.filter_eq_nil_iff.2 (by simpa using hl₁), List.filter_eq_self.2 (by simpa using hl₂),
    List.filter_eq_nil_iff.2 (by simpa using hm₁), List.filter_eq_self.2 (by simpa using hm₂)]
      at hrest
  simpa using And.intro hfilter hrest

theorem joined_trimEnd (h : joins c l = true) : trimEnd (joined id c l) = joined trimEnd c l := by
  induction l generalizing c with
  | nil => rfl
  | cons y l ih =>
    obtain ⟨op, d⟩ := y
    have hd := (joins_cons h).2.2
    have hne : trimEnd (joined id d l) ≠ [] := by
      rw [ih hd]
      exact joined_ne_nil trims_trimEnd hd
    rw [joined, joined, trimEnd_append_of_ne_nil hne, ih hd]

theorem lineText_dropBlank {a : AndOr} {l : List AndOr} (h : joins a.first a.rest = true) :
    (lineText a l).dropWhile isBlank = lineText ⟨a.first.dropWhile isBlank, a.rest⟩ l ∧
      (lineText a l).takeWhile isBlank = a.first.takeWhile isBlank ∧
        (lineText a l).dropWhile isBlank ≠ [] := by
  obtain ⟨hdrop, htake⟩ := joined_dropBlank trims_id h
  have hne : (joined id a.first a.rest).dropWhile isBlank ≠ [] := by
    rw [hdrop]
    exact joined_ne_nil trims_id (joins_dropBlank h)
  cases l with
  | nil => exact ⟨hdrop, htake, hne⟩
  | cons b l =>
    have hany : (joined id a.first a.rest).any (!isBlank ·) = true := by
      by_contra hall
      refine hne (List.dropWhile_eq_nil_iff.2 fun x hx ↦ ?_)
      simp only [List.any_eq_true, not_exists, not_and] at hall
      simpa using hall x hx
    refine ⟨(dropBlank_append hany).trans (by rw [hdrop]; rfl),
      (takeBlank_append hany).trans htake, ?_⟩
    rw [lineText, AndOr.text, dropBlank_append hany]
    simp

theorem lineText_last (a b : AndOr) (l : List AndOr)
    (h : ∀ x ∈ a :: b :: l, joins x.first x.rest = true) :
    ∃ pre, ∃ z ∈ b :: l, lineText a (b :: l) = pre ++ joined id z.first z.rest ∧
      (∃ p, pre = p ++ [';'] ∧ Quoting.bare.after p = .bare) ∧
      ∀ t, ∃ y, findControl .bare 0 (pre ++ t) none = some y := by
  have ha : joins a.first a.rest = true := h a List.mem_cons_self
  have hfind : ∀ t, ∃ y, findControl .bare 0 (a.text ++ ';' :: t) none = some y :=
    fun t ↦ ⟨_, findControl_joined_seq ha⟩
  induction l generalizing a b with
  | nil =>
    refine ⟨a.text ++ [';'], b, List.mem_cons_self, ?_, ⟨a.text, rfl, joined_after ha⟩, fun t ↦ ?_⟩
    · rw [lineText, lineText, List.append_assoc]
      rfl
    · rw [List.append_assoc]
      exact hfind t
  | cons e l ih =>
    have hrest : ∀ x ∈ b :: e :: l, joins x.first x.rest = true :=
      fun x hx ↦ h x (List.mem_cons_of_mem a hx)
    have hb := hrest b List.mem_cons_self
    obtain ⟨pre, z, hz, htext, ⟨p, hp, hafter⟩, -⟩ :=
      ih b e hrest hb fun t ↦ ⟨_, findControl_joined_seq hb⟩
    refine ⟨a.text ++ ';' :: pre, z, List.mem_cons_of_mem b hz, ?_,
      ⟨a.text ++ ';' :: p, by rw [hp]; simp, ?_⟩,
      fun t ↦ ?_⟩
    · rw [lineText, htext, List.append_assoc]
      rfl
    · rw [after_append, AndOr.text, joined_after ha]
      exact hafter
    · rw [List.append_assoc]
      exact hfind _

theorem runLine_lists {a : AndOr} {l : List AndOr} (h : ∀ x ∈ a :: l, joins x.first x.rest = true)
    (hc : c' = a.first ∨ c' = a.first.dropWhile isBlank)
    (hoff : off + a.first.length = place + c'.length)
    (hlen : (lineText ⟨c', a.rest⟩ l).length ≤ 511) (s : Status) :
    Meets (runLine w place (lineText ⟨c', a.rest⟩ l) s.kept) (readLists w place off a l s) ↔
      (∀ x ∈ a :: l, hides x.rest = false) ∧ FollowsLine w place off a l s := by
  have ha : joins a.first a.rest = true := h a List.mem_cons_self
  have ha' : joins c' a.rest = true := by
    rcases hc with rfl | rfl
    · exact ha
    · exact joins_dropBlank ha
  -- The first command of the reading is in the foreground.
  have hfront : ∀ code : List Ran × ℤ, (∀ r ∈ code.1, r.background = true) →
      code.1 ≠ (a.read w place off s).1 := by
    intro code hall he
    have := hall ⟨place, false, parse (w.value place) a.first⟩ (by rw [he]; exact List.mem_cons_self)
    cases this
  induction l generalizing a c' place off s with
  | nil =>
    rw [lineText, FollowsLine, readLists, AndOr.text, List.forall_mem_singleton]
    by_cases hhides : hides a.rest = true
    · have hback := @runLine_hides _ _ _ w place s.kept [] trims_id ha' hhides (.inl rfl)
      exact iff_of_false (fun hm ↦ hfront _ hback hm.ran) fun hh ↦ by
        rw [hh.1] at hhides; cases hhides
    · have hvis := Bool.eq_false_iff.2 hhides
      obtain ⟨hiff, hkept⟩ := runRest_follows (w := w) trims_id ha hc hoff s
      rw [runLine_joined trims_id ha' hvis hlen, and_iff_right hvis]
      constructor
      · rintro ⟨hran, hstatus⟩
        have hfollows := hiff.1 hran
        refine ⟨hfollows, fun hfailed ↦ ?_⟩
        rw [if_pos hfailed, hkept hfollows] at hstatus
        exact hstatus
      · rintro ⟨hfollows, hfailed⟩
        refine ⟨hiff.2 hfollows, ?_⟩
        rw [hkept hfollows]
        split_ifs with hf
        · exact hfailed hf
        · rfl
  | cons b l ih =>
    have hrest : ∀ x ∈ b :: l, joins x.first x.rest = true :=
      fun x hx ↦ h x (List.mem_cons_of_mem a hx)
    have hb : joins b.first b.rest = true := hrest b List.mem_cons_self
    obtain ⟨pre, z, hz, htext, hpre, hfind⟩ := lineText_last ⟨c', a.rest⟩ b l fun x hx ↦ by
      rcases List.mem_cons.1 hx with rfl | hx
      · exact ha'
      · exact hrest x hx
    have hjz := hrest z hz
    by_cases hhz : hides z.rest = true
    · have hback := @runLine_hides _ _ id w place s.kept _ trims_id hjz hhz
        (.inr ⟨hpre, hfind⟩)
      rw [← htext] at hback
      refine iff_of_false (fun hm ↦ ?_) fun hh ↦ by
        rw [hh.1 z (List.mem_cons_of_mem a hz)] at hhz
        cases hhz
      have hmem : (⟨place, false, parse (w.value place) a.first⟩ : Ran) ∈
          (runLine w place (lineText ⟨c', a.rest⟩ (b :: l)) s.kept).1 := by
        rw [hm.ran]
        exact List.mem_cons_self
      cases hback _ hmem
    -- The line is split at the semicolon after its first and-or list.
    have hstrip := @stripBackground_joined _ _ id _ trims_id (.inr hpre) hjz
    rw [if_neg hhz, ← htext] at hstrip
    have hsplit := @findControl_joined_seq 0 _ (lineText b l) none _ ha'
    rw [Nat.zero_add] at hsplit
    obtain ⟨hdrop, htake, hne⟩ := lineText_dropBlank (l := l) hb
    have hplace : place + (joined id c' a.rest).length = off + a.text.length := by
      rw [AndOr.text]
      cases a.rest with
      | nil => exact hoff.symm
      | cons y m =>
        obtain ⟨op, d⟩ := y
        rw [joined_length, joined_length]
        omega
    have hsemi : lineText ⟨c', a.rest⟩ (b :: l) = joined id c' a.rest ++ Control.seq.text ++
        lineText b l := by
      rw [lineText, List.append_assoc]
      rfl
    rw [hsemi] at hstrip hlen ⊢
    have hsplit : findControl .bare 0 (joined id c' a.rest ++ Control.seq.text ++ lineText b l)
        none = some ((joined id c' a.rest).length, .seq) := by
      rw [List.append_assoc]
      exact hsplit
    have htrim := joined_trimEnd ha'
    rw [runLine_split hstrip hsplit hlen (by rw [htrim]; exact joined_ne_nil trims_trimEnd ha') hne,
      if_pos (.inl rfl), hdrop, htake, htrim, hplace]
    simp only [List.length_append] at hlen
    have hblank :=
      congrArg List.length (List.takeWhile_append_dropWhile (p := isBlank) (l := b.first))
    rw [List.length_append] at hblank
    have hshort : (joined trimEnd c' a.rest).length ≤ (joined id c' a.rest).length := by
      rw [← htrim]
      exact trimEnd_length _
    have hlong : (lineText ⟨b.first.dropWhile isBlank, b.rest⟩ l).length ≤
        (lineText b l).length := by
      rw [← hdrop]
      exact (List.dropWhile_sublist isBlank).length_le
    have hseq : Control.seq.text.length = 1 := rfl
    rw [hseq] at hlen ⊢
    have hread : readLists w place off a (b :: l) s = ((a.read w place off s).1 ++
        (readLists w (off + a.text.length + 1 + (b.first.takeWhile isBlank).length)
          (off + a.text.length + 1) b l
          (a.read w place off s).2).1,
        (readLists w (off + a.text.length + 1 + (b.first.takeWhile isBlank).length)
          (off + a.text.length + 1) b l
          (a.read w place off s).2).2) := rfl
    rw [hread, FollowsLine, List.forall_mem_cons]
    have hinj := fun status ↦ @append_places
      (runLine w place (joined trimEnd c' a.rest) s.kept).1
      (runLine w (off + a.text.length + 1 + (b.first.takeWhile isBlank).length)
        (lineText ⟨b.first.dropWhile isBlank, b.rest⟩ l) status).1
      (a.read w place off s).1
      (readLists w (off + a.text.length + 1 + (b.first.takeWhile isBlank).length)
        (off + a.text.length + 1) b l
        (a.read w place off s).2).1
      (off + a.text.length + 1)
    replace hinj := fun status he ↦ hinj status he
      (fun r hr ↦ by have := runLine_places w _ _ _ r hr; omega)
      (fun r hr ↦ by have := runLine_places w _ _ _ r hr; omega)
      (fun r hr ↦ by have := (read_places w a s (by omega) r hr).2; omega)
      (fun r hr ↦ by have := readLists_places w b l _ (by omega) r hr; omega)
    by_cases hhides : hides a.rest = true
    · have hback := @runLine_hides _ _ _ w place s.kept [] trims_trimEnd ha' hhides (.inl rfl)
      refine iff_of_false (fun hm ↦ hfront _ hback (hinj _ hm.ran).1) fun hh ↦ ?_
      rw [hh.1.1] at hhides
      cases hhides
    · have hvis := Bool.eq_false_iff.2 hhides
      obtain ⟨hiff, hkept⟩ := runRest_follows (w := w) trims_trimEnd ha hc hoff s
      rw [← runLine_joined trims_trimEnd ha' hvis (by omega)] at hiff hkept
      have hnext :=
        @ih (off + a.text.length + 1 + (b.first.takeWhile isBlank).length) (off + a.text.length + 1)
        (b.first.dropWhile isBlank) b hrest (.inr rfl) (by omega) (by omega)
        (a.read w place off s).2 hb (joins_dropBlank hb) (fun code hall he ↦ by
          have := hall ⟨_, false, parse (w.value _) b.first⟩ (by rw [he]; exact List.mem_cons_self)
          cases this)
      rw [and_iff_right hvis]
      constructor
      · rintro ⟨hran, hstatus⟩
        obtain ⟨h₁, h₂⟩ := hinj _ hran
        have hfollows := hiff.1 h₁
        have hk := hkept hfollows
        dsimp only at h₂ hstatus
        rw [hk] at h₂ hstatus
        obtain ⟨hvis, hline⟩ := hnext.1 ⟨h₂, hstatus⟩
        exact ⟨hvis, hfollows, hline⟩
      · rintro ⟨hvis, hfollows, hline⟩
        obtain ⟨h₂, hstatus⟩ := hnext.2 ⟨hvis, hline⟩
        have hk := hkept hfollows
        rw [hk]
        exact ⟨congrArg₂ (· ++ ·) (hiff.2 hfollows) h₂, hstatus⟩

/-- Every line of commands and operators, whatever the commands do: `run_line` agrees with the
standard reading exactly if no and-or list hides its last command and the line follows. -/
theorem runLine_reads_iff (w : Commands) (a : AndOr) (l : List AndOr) (status : ℤ)
    (hcommands : ∀ x ∈ a :: l, joins x.first x.rest = true) (hlen : (lineText a l).length ≤ 511) :
    Meets (runLine w 0 (lineText a l) status) (readLists w 0 0 a l ⟨status, false⟩) ↔
      (∀ x ∈ a :: l, hides x.rest = false) ∧ FollowsLine w 0 0 a l ⟨status, false⟩ :=
  runLine_lists hcommands (.inl rfl) rfl hlen ⟨status, false⟩

def firstFails : Commands where
  value _ _ := []
  exits place _ := some (if place = 0 then 1 else 0)

theorem runLine_reads_semicolon :
    Meets (runLine firstFails 0
      (lineText ⟨"false ".toList, [(.and, " ls".toList)]⟩ [⟨" pwd".toList, []⟩]) 0)
      (readLists firstFails 0 0 ⟨"false ".toList, [(.and, " ls".toList)]⟩ [⟨" pwd".toList, []⟩]
        ⟨0, false⟩) := by
  have hline : FollowsLine firstFails 0 0 ⟨"false ".toList, [(.and, " ls".toList)]⟩
      [⟨" pwd".toList, []⟩] ⟨0, false⟩ := by
    decide +kernel
  exact (runLine_reads_iff firstFails ⟨"false ".toList, [(.and, " ls".toList)]⟩
    [⟨" pwd".toList, []⟩] 0 (by decide)
    (by decide)).2 ⟨by decide, hline⟩

/-- `false && ls || pwd` has to run `pwd`. -/
theorem not_runLine_reads :
    ¬ ∀ (w : Commands) (a : AndOr) (l : List AndOr) (status : ℤ),
      (∀ x ∈ a :: l, joins x.first x.rest = true) →
      (lineText a l).length ≤ 511 →
        Meets (runLine w 0 (lineText a l) status) (readLists w 0 0 a l ⟨status, false⟩) := by
  intro h
  have hmeets :=
    h firstFails ⟨"false ".toList, [(.and, " ls ".toList), (.or, " pwd".toList)]⟩ [] 0 (by decide)
      (by decide)
  have hcode : runLine firstFails 0
      (joined id "false ".toList [(.and, " ls ".toList), (.or, " pwd".toList)]) 0 =
      runRest id firstFails 0 "false ".toList [(.and, " ls ".toList), (.or, " pwd".toList)] 0 :=
    runLine_joined trims_id (by decide) (by decide) (by decide)
  have hran := hmeets.ran
  rw [lineText, AndOr.text, hcode] at hran
  have hdiffer :
      (runRest id firstFails 0 "false ".toList [(.and, " ls ".toList), (.or, " pwd".toList)] 0).1 ≠
      (readLists firstFails 0 0 ⟨"false ".toList, [(.and, " ls ".toList), (.or, " pwd".toList)]⟩ []
        ⟨0, false⟩).1 := by
    decide +kernel
  exact hdiffer hran

end YabroOS.Shell
