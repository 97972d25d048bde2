import YabroOS.Shell.RunLine
import Mathlib.Data.Bool.AllAny

namespace YabroOS.Shell

variable {q : Quoting} {i : ℕ} {c d s t : Word} {logic : Option (ℕ × Logic)} {x : ℕ × Logic}
    {op : Logic} {l : List (Logic × Word)}

def Quoting.after (q : Quoting) (s : Word) : Quoting := s.foldl (fun q c ↦ (q.next c).1) q

@[grind =]
def free : Quoting → Word → Bool
  | _, [] => true
  | q, c :: s =>
    (!(q.next c).2 || (c ≠ ';' && c ≠ '&' && !(c = '|' && s.head? = some '|'))) &&
      free (q.next c).1 s

@[grind =]
def visible : Quoting → Word → Bool
  | _, [] => false
  | q, c :: s => (q.next c).2 && c ∉ [' ', '\t', '\n', '\r'] || visible (q.next c).1 s

def simple (c : Word) : Bool := free .bare c && Quoting.bare.after c = .bare && c.any (!isBlank ·)

/-- Commands joined by `&&` and `||`. A command does not end in the first half of a `||`. -/
def joins : Word → List (Logic × Word) → Bool
  | c, [] => simple c
  | c, (op, d) :: l => simple c && (op ≠ .or || free .bare (c ++ ['|'])) && joins d l

def joined (last : Word → Word) : Word → List (Logic × Word) → Word
  | c, [] => last c
  | c, (op, d) :: l => c ++ op.text ++ joined last d l

structure AndOr where
  first : Word
  rest : List (Logic × Word)

def AndOr.text (a : AndOr) : Word := joined id a.first a.rest

def lineText : AndOr → List AndOr → Word
  | a, [] => a.text
  | a, b :: l => a.text ++ ';' :: lineText b l

section Reading

/-- The status in the standard reading: that of the last command with an exit status, and whether a
command has failed without one since then. -/
structure Status where
  kept : ℤ
  failed : Bool

def Status.ok (s : Status) : Bool := s.kept = 0 && !s.failed

def Logic.permits : Logic → Status → Bool
  | and, s => s.ok
  | or, s => !s.ok

variable (w : Commands)

def execute (place : ℕ) (c : Word) (s : Status) : List Ran × Status :=
  let stages := parse (w.value place) c
  ([⟨place, false, stages⟩],
    match stages with
    | none => { s with failed := true }
    | some [] => { s with failed := false }
    | some stages =>
      match w.exits place stages with
      | none => { s with failed := true }
      | some exit => ⟨exit, false⟩)

def readRest : ℕ → List (Logic × Word) → Status → List Ran × Status
  | _, [], s => ([], s)
  | off, (op, d) :: l, s =>
    if op.permits s then
      let (ran, s) := execute w (off + op.text.length + (d.takeWhile isBlank).length) d s
      let (more, s) := readRest (off + op.text.length + d.length) l s
      (ran ++ more, s)
    else readRest (off + op.text.length + d.length) l s

def AndOr.read (place off : ℕ) (a : AndOr) (s : Status) : List Ran × Status :=
  let (ran, s) := execute w place a.first s
  let (more, s) := readRest w (off + a.first.length) a.rest s
  (ran ++ more, s)

def readLists : ℕ → ℕ → AndOr → List AndOr → Status → List Ran × Status
  | place, off, a, [], s => a.read w place off s
  | place, off, a, b :: l, s =>
    let (ran, s) := a.read w place off s
    let off := off + a.text.length + 1
    let (more, s) := readLists (off + (b.first.takeWhile isBlank).length) off b l s
    (ran ++ more, s)

end Reading

theorem after_append : q.after (s ++ t) = (q.after s).after t := List.foldl_append

theorem free_append_left (h : free q (s ++ t) = true) : free q s = true := by
  induction s generalizing q with
  | nil => rfl
  | cons c s ih =>
    simp only [List.cons_append, free, Bool.and_eq_true] at h ⊢
    refine ⟨?_, ih h.2⟩
    cases s with
    | nil =>
      have := h.1
      simp only [List.head?_nil, List.nil_append, Bool.or_eq_true, Bool.and_eq_true] at this ⊢
      exact this.imp_right fun h ↦ ⟨h.1, by simp⟩
    | cons d s => exact h.1

theorem visible_append : visible q (s ++ t) = (visible q s || visible (q.after s) t) := by
  induction s generalizing q with
  | nil => simp [visible, Quoting.after]
  | cons c s ih => simp [visible, ih, Quoting.after, Bool.or_assoc]

theorem lastNonspace_append {last : Option ℕ} :
    lastNonspace q i (s ++ t) last = lastNonspace (q.after s)
    (i + s.length) t (lastNonspace q i s last) := by
  induction s generalizing q i last with
  | nil => rfl
  | cons c s ih =>
    rw [List.cons_append, lastNonspace, ih, lastNonspace, List.length_cons, Nat.add_assoc i 1,
      Nat.add_comm 1]
    rfl

theorem lastNonspace_of_not_visible {last : Option ℕ} (h : visible q s = false) :
    lastNonspace q i s last = last := by
  induction s generalizing q i last with
  | nil => rfl
  | cons c s ih =>
    simp only [visible, Bool.or_eq_false_iff, Bool.and_eq_false_iff, decide_eq_false_iff_not] at h
    rw [lastNonspace, ih h.2, if_neg]
    rintro ⟨h₁, h₂⟩
    rcases h.1 with h | h
    · rw [h₁] at h
      cases h
    · exact h h₂

theorem lastNonspace_of_visible {last : Option ℕ} (hv : visible q s = true) (hf : free q s = true) :
    ∃ j, lastNonspace q i s last = some (i + j) ∧ j < s.length ∧ s[j]? ≠ some '&' := by
  induction s generalizing q i last with
  | nil => cases hv
  | cons c s ih =>
    simp only [visible, free, Bool.or_eq_true, Bool.and_eq_true] at hv hf
    by_cases hs : visible (q.next c).1 s = true
    · obtain ⟨j, h₁, h₂, h₃⟩ :=
        @ih _ (i + 1) (if (q.next c).2 ∧ c ∉ [' ', '\t', '\n', '\r'] then some i else last) hs hf.2
      refine ⟨j + 1, ?_, by rw [List.length_cons]; omega, h₃⟩
      rw [lastNonspace, h₁, Nat.add_assoc, Nat.add_comm 1]
    · obtain ⟨h₁, h₂⟩ := hv.resolve_right hs
      refine ⟨0, ?_, by simp, ?_⟩
      · rw [lastNonspace, lastNonspace_of_not_visible (Bool.eq_false_iff.2 hs),
          if_pos ⟨h₁, of_decide_eq_true h₂⟩]
        rfl
      · rw [h₁] at hf
        have hamp : c ≠ '&' := by
          rcases hf.1 with h | h
          · cases h
          · exact of_decide_eq_true h.1.2
        simpa using hamp

theorem findControl_append (hf : free q s = true)
    (ht : t.head? = some '|' → free q (s ++ ['|']) = true) :
    findControl q i (s ++ t) logic = findControl (q.after s) (i + s.length) t logic := by
  induction s generalizing q i with
  | nil => rfl
  | cons c s ih =>
    have hrec := ih (q := (q.next c).1) (i := i + 1)
    simp only [List.cons_append, free, Bool.and_eq_true] at hf ht
    replace hrec := hrec hf.2 (fun h ↦ (ht h).2)
    have hrec : findControl (q.next c).1 (i + 1) (s ++ t) logic =
        findControl (q.after (c :: s)) (i + (c :: s).length) t logic := by
      rw [hrec, List.length_cons, Nat.add_assoc i 1, Nat.add_comm 1]
      rfl
    rw [List.cons_append, findControl.eq_def]
    dsimp only
    split_ifs with h₁ h₂
    · exact hrec
    · rw [h₂] at h₁ hf
      have hc := hf.1
      simp [h₁] at hc
    · have hshown : (q.next c).2 = true := by simpa using h₁
      have hc := hf.1
      rw [hshown] at hc ht
      split
      · simp at hc
      · next he _ =>
        exfalso
        cases s with
        | cons d s =>
          have hd : d = '|' := (List.cons.inj he).1
          rw [hd] at hc
          simp at hc
        | nil =>
          have hhead : t.head? = some '|' := by
            rw [List.nil_append] at he
            rw [he]
            rfl
          have := (ht hhead).1
          simp at this
      · exact hrec

theorem findControl_none (hf : free q s = true) : findControl q i s none = none := by
  have h := @findControl_append _ i _ [] none hf (fun h ↦ by cases h)
  rw [List.append_nil] at h
  rw [h]
  rfl

theorem findControl_op :
    findControl .bare i (op.text ++ t) none = findControl .bare (i + 2) t (some (i, op)) := by
  cases op <;> rfl

theorem findControl_later :
    findControl .bare i (op.text ++ t) (some x) = findControl .bare (i + 2) t (some x) := by
  cases op <;> rfl

theorem findControl_seq : findControl .bare i (';' :: t) logic = some (i, .seq) := by
  rw [findControl.eq_def]
  rfl

theorem isBlank_iff {b : Char} : isBlank b = true ↔ b = ' ' ∨ b = '\t' := by
  rw [isBlank, decide_eq_true_eq]

theorem trimEnd_append (s : Word) : ∃ b, s = trimEnd s ++ b ∧ ∀ a ∈ b, isBlank a = true :=
  ⟨s.rtakeWhile isBlank, (List.rdropWhile_append_rtakeWhile (p := isBlank)).symm,
    fun _ ↦ List.mem_rtakeWhile_imp⟩

theorem trimEnd_ne_nil (h : s.any (!isBlank ·) = true) : trimEnd s ≠ [] := by
  intro he
  obtain ⟨b, hs, hb⟩ := trimEnd_append s
  obtain ⟨a, ha, hn⟩ := List.any_eq_true.1 h
  rw [hs, he] at ha
  rw [hb a ha] at hn
  cases hn

theorem trimEnd_append_of_ne_nil (h : trimEnd t ≠ []) : trimEnd (s ++ t) = s ++ trimEnd t := by
  rw [trimEnd, List.rdropWhile] at h
  rw [trimEnd, trimEnd, List.rdropWhile, List.rdropWhile, List.reverse_append,
    List.dropWhile_append, if_neg (by simpa using h),
    List.reverse_append, List.reverse_reverse]

theorem dropBlank_append (h : s.any (!isBlank ·) = true) :
    (s ++ t).dropWhile isBlank = s.dropWhile isBlank ++ t := by
  rw [List.dropWhile_append, if_neg]
  rw [List.isEmpty_iff, List.dropWhile_eq_nil_iff]
  intro hall
  obtain ⟨a, ha, hn⟩ := List.any_eq_true.1 h
  rw [hall a ha] at hn
  cases hn

theorem takeBlank_append (h : s.any (!isBlank ·) = true) :
    (s ++ t).takeWhile isBlank = s.takeWhile isBlank := by
  obtain ⟨a, ha, hn⟩ := List.any_eq_true.1 h
  induction s with
  | nil => cases ha
  | cons c s ih =>
    by_cases hc : isBlank c = true
    · have hs : a ∈ s := (List.mem_cons.1 ha).resolve_left fun he ↦ by
        rw [he, hc] at hn
        cases hn
      rw [List.cons_append, List.takeWhile_cons_of_pos hc, List.takeWhile_cons_of_pos hc,
        ih (List.any_eq_true.2 ⟨a, hs, hn⟩) hs]
    · rw [List.cons_append, List.takeWhile_cons_of_neg hc, List.takeWhile_cons_of_neg hc]

theorem bare_next_blank {b : Char} (h : isBlank b = true) :
    Quoting.bare.next b = (.bare, true) := by
  rcases isBlank_iff.1 h with rfl | rfl <;> rfl

theorem dropBlank_bare (c : Word) :
    Quoting.bare.after (c.dropWhile isBlank) = Quoting.bare.after c ∧
    free .bare (c.dropWhile isBlank) = free .bare c ∧
      visible .bare (c.dropWhile isBlank) = visible .bare c := by
  induction c with
  | nil => exact ⟨rfl, rfl, rfl⟩
  | cons b s ih =>
    by_cases hb : isBlank b = true
    · rw [List.dropWhile_cons_of_pos hb]
      have hstep := bare_next_blank hb
      refine ⟨?_, ?_, ?_⟩
      · rw [ih.1, Quoting.after, Quoting.after, List.foldl_cons, hstep]
      · rw [ih.2.1, free, hstep]
        rcases isBlank_iff.1 hb with rfl | rfl <;> simp
      · rw [ih.2.2, visible, hstep]
        rcases isBlank_iff.1 hb with rfl | rfl <;> simp
    · rw [List.dropWhile_cons_of_neg hb]
      exact ⟨rfl, rfl, rfl⟩

theorem visible_trimEnd : visible q (trimEnd s) = visible q s := by
  obtain ⟨b, hs, hb⟩ := trimEnd_append s
  conv_rhs => rw [hs, visible_append]
  have hblank : ∀ q, visible q b = false := by
    clear hs
    induction b with
    | nil => exact fun _ ↦ rfl
    | cons a b ih =>
      intro q
      rw [visible, ih (fun x hx ↦ hb x (List.mem_cons_of_mem a hx))]
      rcases isBlank_iff.1 (hb a List.mem_cons_self) with rfl | rfl <;> simp
  rw [hblank, Bool.or_false]

theorem free_trimEnd (h : free q s = true) : free q (trimEnd s) = true := by
  obtain ⟨b, hs, -⟩ := trimEnd_append s
  rw [hs] at h
  exact free_append_left h

theorem parse_dropBlank (value : Word → Word) (c : Word) :
    parse value (c.dropWhile isBlank) = parse value c := by
  induction c with
  | nil => rfl
  | cons b s ih =>
    by_cases hb : isBlank b = true
    · rw [List.dropWhile_cons_of_pos hb, ih, parse, parse, List.length_cons,
        parseLoop.eq_def value (s.length + 1)]
      rcases isBlank_iff.1 hb with rfl | rfl <;> simp
    · rw [List.dropWhile_cons_of_neg hb]

theorem trimEnd_dropBlank (h : s.any (!isBlank ·) = true) :
    trimEnd (s.dropWhile isBlank) = (trimEnd s).dropWhile isBlank := by
  induction s with
  | nil => rfl
  | cons b s ih =>
    by_cases hb : isBlank b = true
    · have hs : s.any (!isBlank ·) = true := by simpa [hb] using h
      have hcons : trimEnd (b :: s) = b :: trimEnd s :=
        trimEnd_append_of_ne_nil (s := [b]) (trimEnd_ne_nil hs)
      rw [List.dropWhile_cons_of_pos hb, ih hs, hcons, List.dropWhile_cons_of_pos hb]
    · have hne : trimEnd (b :: s) ≠ [] := trimEnd_ne_nil h
      rw [List.dropWhile_cons_of_neg hb]
      obtain ⟨t, ht, -⟩ := trimEnd_append (b :: s)
      cases he : trimEnd (b :: s) with
      | nil => exact absurd he hne
      | cons a u =>
        rw [he] at ht
        obtain ⟨rfl, -⟩ := List.cons.inj ht
        rw [List.dropWhile_cons_of_neg hb]

theorem trimEnd_takeBlank (h : s.any (!isBlank ·) = true) :
    (trimEnd s).takeWhile isBlank = s.takeWhile isBlank := by
  obtain ⟨b, hs, hb⟩ := trimEnd_append s
  obtain ⟨a, ha, hn⟩ := List.any_eq_true.1 h
  have hmem : a ∈ trimEnd s := by
    rw [hs, List.mem_append] at ha
    refine ha.resolve_right fun hab ↦ ?_
    rw [hb a hab] at hn
    cases hn
  conv_rhs => rw [hs, takeBlank_append (List.any_eq_true.2 ⟨a, hmem, hn⟩)]

section Joined

variable {last : Word → Word} {pre : Word}

/-- What becomes of the last command of a list: it loses the blanks at its end, or nothing. -/
structure Trims (last : Word → Word) : Prop where
  free : ∀ {d}, free .bare d = true → Shell.free .bare (last d) = true
  visible : ∀ d, Shell.visible .bare (last d) = Shell.visible .bare d
  ne_nil : ∀ {d : Word}, d.any (!isBlank ·) = true → last d ≠ []
  dropBlank : ∀ {d : Word}, d.any (!isBlank ·) = true →
    last (d.dropWhile isBlank) = (last d).dropWhile isBlank
  takeBlank : ∀ {d : Word}, d.any (!isBlank ·) = true →
    (last d).takeWhile isBlank = d.takeWhile isBlank

theorem trims_id : Trims id where
  free := id
  visible _ := rfl
  ne_nil h he := by rw [id] at he; rw [he] at h; cases h
  dropBlank _ := rfl
  takeBlank _ := rfl

theorem trims_trimEnd : Trims trimEnd where
  free := free_trimEnd
  visible _ := visible_trimEnd
  ne_nil := trimEnd_ne_nil
  dropBlank := trimEnd_dropBlank
  takeBlank := trimEnd_takeBlank

theorem simple_iff :
    simple c = true ↔ free .bare c = true ∧ Quoting.bare.after c = .bare ∧
      c.any (!isBlank ·) = true := by
  rw [simple, Bool.and_eq_true, Bool.and_eq_true, decide_eq_true_eq, and_assoc]

theorem joins_simple (h : joins c l = true) : simple c = true := by
  cases l with
  | nil => exact h
  | cons x l =>
    simp only [joins, Bool.and_eq_true] at h
    exact h.1.1

theorem joins_cons (h : joins c ((op, d) :: l) = true) :
    simple c = true ∧ (op = .or → free .bare (c ++ ['|']) = true) ∧ joins d l = true := by
  simp only [joins, Bool.and_eq_true, Bool.or_eq_true, decide_eq_true_eq] at h
  exact ⟨h.1.1, fun ho ↦ h.1.2.resolve_left (fun hn ↦ hn ho), h.2⟩

theorem simple_dropBlank (h : simple c = true) : simple (c.dropWhile isBlank) = true := by
  obtain ⟨hf, ha, hb⟩ := simple_iff.1 h
  obtain ⟨h₁, h₂, -⟩ := dropBlank_bare c
  refine simple_iff.2 ⟨h₂.trans hf, h₁.trans ha, ?_⟩
  obtain ⟨a, hmem, hn⟩ := List.any_eq_true.1 hb
  rw [← List.takeWhile_append_dropWhile (p := isBlank) (l := c), List.mem_append] at hmem
  refine List.any_eq_true.2 ⟨a, hmem.resolve_left fun ht ↦ ?_, hn⟩
  rw [List.mem_takeWhile_imp ht] at hn
  cases hn

theorem joins_dropBlank (h : joins c l = true) : joins (c.dropWhile isBlank) l = true := by
  cases l with
  | nil => exact simple_dropBlank h
  | cons x l =>
    obtain ⟨op, d⟩ := x
    obtain ⟨hs, ho, hd⟩ := joins_cons h
    simp only [joins, Bool.and_eq_true, Bool.or_eq_true, decide_eq_true_eq]
    refine ⟨⟨simple_dropBlank hs, or_iff_not_imp_left.2 fun hn ↦ ?_⟩, hd⟩
    rw [← dropBlank_append (simple_iff.1 hs).2.2, (dropBlank_bare _).2.1]
    exact ho (not_not.1 hn)

theorem op_head (h : (op.text ++ t).head? = some '|') : op = .or := by
  cases op
  · cases h
  · rfl

theorem after_op : Quoting.bare.after op.text = .bare := by
  cases op <;> rfl

theorem joined_after (h : joins c l = true) : Quoting.bare.after (joined id c l) = .bare := by
  induction l generalizing c with
  | nil => exact (simple_iff.1 h).2.1
  | cons x l ih =>
    obtain ⟨op, d⟩ := x
    obtain ⟨hs, -, hd⟩ := joins_cons h
    rw [joined, after_append, after_append, (simple_iff.1 hs).2.1, after_op, ih hd]

theorem joined_concat (l : List (Logic × Word)) :
    joined last c (l ++ [(op, d)]) = joined id c l ++ op.text ++ last d := by
  induction l generalizing c with
  | nil => rfl
  | cons x l ih =>
    rw [List.cons_append, joined, ih, joined]
    simp only [List.append_assoc]

theorem joins_concat (h : joins c (l ++ [(op, d)]) = true) :
    joins c l = true ∧ simple d = true := by
  induction l generalizing c with
  | nil => exact ⟨(joins_cons h).1, (joins_cons h).2.2⟩
  | cons x l ih =>
    obtain ⟨op', d'⟩ := x
    obtain ⟨hs, ho, hd⟩ := joins_cons h
    refine ⟨?_, (ih hd).2⟩
    simp only [joins, Bool.and_eq_true, Bool.or_eq_true, decide_eq_true_eq]
    exact ⟨⟨hs, or_iff_not_imp_left.2 fun hn ↦ ho (not_not.1 hn)⟩, (ih hd).1⟩

theorem findControl_last_later (hf : free .bare s = true) :
    findControl .bare i s (some x) = some (x.1, .logic x.2) := by
  have h := @findControl_append _ i _ [] (some x) hf (fun h ↦ by cases h)
  rw [List.append_nil] at h
  rw [h]
  rfl

theorem findControl_joined_later
    (hlast : ∀ d i, simple d = true →
      findControl .bare i (last d) (some x) = some (x.1, .logic x.2))
    (h : joins c l = true) : findControl .bare i (joined last c l)
    (some x) = some (x.1, .logic x.2) := by
  induction l generalizing c i with
  | nil => exact hlast c i h
  | cons y l ih =>
    obtain ⟨op, d⟩ := y
    obtain ⟨hs, ho, hd⟩ := joins_cons h
    obtain ⟨hf, ha, -⟩ := simple_iff.1 hs
    rw [joined, List.append_assoc, findControl_append hf (fun he ↦ ho (op_head he)), ha,
      findControl_later, ih hd]

theorem findControl_joined (hnil : ∀ d, simple d = true → findControl .bare 0 (last d) none = none)
    (hlast : ∀ x d i, simple d = true →
      findControl .bare i (last d) (some x) = some (x.1, .logic x.2))
    (h : joins c l = true) :
    findControl .bare 0 (joined last c l) none = l.head?.map fun x ↦ (c.length, .logic x.1) := by
  cases l with
  | nil => exact hnil c h
  | cons y l =>
    obtain ⟨op, d⟩ := y
    obtain ⟨hs, ho, hd⟩ := joins_cons h
    obtain ⟨hf, ha, -⟩ := simple_iff.1 hs
    rw [joined, List.append_assoc, findControl_append hf (fun he ↦ ho (op_head he)), ha,
      findControl_op,
      findControl_joined_later (hlast _) hd, Nat.zero_add]
    rfl

theorem findControl_joined_seq (h : joins c l = true) :
    findControl .bare i (joined id c l ++ ';' :: t) logic =
      some (i + (joined id c l).length, .seq) := by
  induction l generalizing c i logic with
  | nil =>
    obtain ⟨hf, ha, -⟩ := simple_iff.1 h
    rw [joined, id, findControl_append hf (fun he ↦ by cases he), ha, findControl_seq]
  | cons y l ih =>
    obtain ⟨op, d⟩ := y
    obtain ⟨hs, ho, hd⟩ := joins_cons h
    obtain ⟨hf, ha, -⟩ := simple_iff.1 hs
    have hop : op.text.length = 2 := by cases op <;> rfl
    rw [joined, List.append_assoc, List.append_assoc,
      findControl_append hf (fun he ↦ ho (op_head he)), ha]
    cases logic with
    | none =>
      rw [findControl_op, ih hd]
      simp only [List.length_append, hop, Nat.add_assoc]
    | some x =>
      rw [findControl_later, ih hd]
      simp only [List.length_append, hop, Nat.add_assoc]

/-- The last command of a list comes after `&&` and has no unquoted character. -/
def hides (l : List (Logic × Word)) : Bool :=
  match l.getLast? with
  | some (.and, d) => !visible .bare d
  | _ => false

theorem stripBackground_visible (ha : Quoting.bare.after s = .bare) (hv : visible .bare t = true)
    (hf : free .bare t = true) :
    stripBackground (s ++ t) = (s ++ t, false) := by
  obtain ⟨j, hj, hlt, hne⟩ :=
    @lastNonspace_of_visible _ (0 + s.length) _ (lastNonspace .bare 0 s none) hv hf
  rw [stripBackground, lastNonspace_append, ha, hj]
  dsimp only
  rw [if_neg]
  rwa [Nat.zero_add, List.getElem?_append_right (Nat.le_add_right _ _), Nat.add_sub_cancel_left]

theorem stripBackground_hidden (ha : Quoting.bare.after s = .bare) (hv : visible .bare t = false)
    {a : Char}
    (hshown : a ∉ [' ', '\t', '\n', '\r']) (hbare : Quoting.bare.next a = (.bare, true)) :
    stripBackground (s ++ a :: t) = if a = '&' then (s, true) else (s ++ a :: t, false) := by
  rw [stripBackground, lastNonspace_append, ha, lastNonspace, hbare, lastNonspace_of_not_visible hv,
    if_pos ⟨rfl, hshown⟩, Nat.zero_add]
  simp

theorem stripBackground_joined (hl : Trims last) (hpre : pre = [] ∨ ∃ p, pre = p ++ [';'] ∧
    Quoting.bare.after p = .bare) (h : joins c l = true) :
    stripBackground (pre ++ joined last c l) =
      if hides l then (pre ++ joined (· ++ ['&']) c l.dropLast, true) else (pre ++ joined last c l,
        false) := by
  have ha : Quoting.bare.after pre = .bare := by
    rcases hpre with rfl | ⟨p, rfl, hp⟩
    · rfl
    · rw [after_append, hp]
      rfl
  rcases List.eq_nil_or_concat l with rfl | ⟨l, ⟨op, d⟩, rfl⟩
  · have hf := hl.free (simple_iff.1 h).1
    rw [joined, hides, List.getLast?_nil, if_neg (by simp)]
    by_cases hv : visible .bare (last c) = true
    · exact stripBackground_visible ha hv hf
    · have hv := Bool.eq_false_iff.2 hv
      rcases hpre with rfl | ⟨p, rfl, hp⟩
      · rw [stripBackground, List.nil_append, lastNonspace_of_not_visible hv]
      · rw [List.append_assoc, List.singleton_append, stripBackground_hidden hp hv (by decide) rfl,
          if_neg (by decide)]
  · rw [List.concat_eq_append] at h ⊢
    obtain ⟨hj, hd⟩ := joins_concat h
    have hf := hl.free (simple_iff.1 hd).1
    have hvis := hl.visible d
    rw [joined_concat, hides, List.getLast?_concat, List.dropLast_concat]
    have hfront : Quoting.bare.after (pre ++ joined id c l) = .bare := by
      rw [after_append, ha, joined_after hj]
    by_cases hv : visible .bare d = true
    · have hshow : stripBackground ((pre ++ joined id c l ++ op.text) ++ last d) =
          ((pre ++ joined id c l ++ op.text) ++ last d, false) :=
        stripBackground_visible (by rw [after_append, hfront, after_op]) (hvis.trans hv) hf
      simp only [List.append_assoc] at hshow ⊢
      rw [hshow]
      cases op <;> simp [hv]
    · have hv := Bool.eq_false_iff.2 hv
      cases op with
      | and =>
        have hhide := stripBackground_hidden (s := pre ++ joined id c l ++ ['&']) (a := '&')
          (by rw [after_append, hfront]; rfl) (hvis.trans hv) (by decide) rfl
        have hamp : ∀ l : List (Logic × Word), ∀ c, joined (· ++ ['&']) c l = joined id c l ++
            ['&'] := by
          intro l
          induction l with
          | nil => exact fun _ ↦ rfl
          | cons x l ih =>
            intro c
            simp only [joined, ih, List.append_assoc]
        simp only [Logic.text, List.append_assoc, List.cons_append, List.nil_append] at hhide ⊢
        rw [hhide, hamp]
        simp [hv]
      | or =>
        have hhide := stripBackground_hidden (s := pre ++ joined id c l ++ ['|']) (a := '|')
          (by rw [after_append, hfront]; rfl) (hvis.trans hv) (by decide) rfl
        simp only [Logic.text, List.append_assoc, List.cons_append, List.nil_append] at hhide ⊢
        rw [hhide]
        simp

end Joined

section Runs

variable {last : Word → Word} {w : Commands} {place : ℕ} {line : Word} {status : ℤ}
    {background : Bool}

theorem runLine_single (hstrip : stripBackground line = (t, background))
    (hfind : findControl .bare 0 t none = none) :
    runLine w place line status = runSimple w place background t status := by
  rw [runLine]
  simp only [hstrip]
  split
  · rfl
  · next he =>
    rw [hstrip, hfind] at he
    cases he

theorem runLine_refused {y : ℕ × Control} (hstrip : stripBackground line = (t, true))
    (hfind : findControl .bare 0 t none = some y) : runLine w place line status = ([], 2) := by
  rw [runLine]
  simp only [hstrip]
  split
  · next he =>
    rw [hstrip, hfind] at he
    cases he
  · rfl

theorem runLine_split {op : Control}
    (hstrip : stripBackground (s ++ op.text ++ t) = (s ++ op.text ++ t, false))
    (hfind : findControl .bare 0 (s ++ op.text ++ t) none = some (s.length, op))
    (hlen : (s ++ op.text ++ t).length ≤ 511)
    (hs : trimEnd s ≠ []) (ht : t.dropWhile isBlank ≠ []) :
    runLine w place (s ++ op.text ++ t) status =
      if op = .seq ∨ op = .logic .and ∧ (runLine w place (trimEnd s) status).2 = 0 ∨
          op = .logic .or ∧ (runLine w place (trimEnd s) status).2 ≠ 0 then
        ((runLine w place (trimEnd s) status).1 ++
            (runLine w (place + s.length + op.text.length + (t.takeWhile isBlank).length)
              (t.dropWhile isBlank)
              (runLine w place (trimEnd s) status).2).1,
          (runLine w (place + s.length + op.text.length + (t.takeWhile isBlank).length)
            (t.dropWhile isBlank)
              (runLine w place (trimEnd s) status).2).2)
      else runLine w place (trimEnd s) status := by
  simp only [List.length_append] at hlen
  have hleft : ((s ++ op.text ++ t).take s.length).take 511 = s := by
    rw [List.append_assoc, List.take_left, List.take_of_length_le (by omega)]
  have hright : ((s ++ op.text ++ t).drop (s.length + op.text.length)).take 511 = t := by
    rw [← List.length_append, List.drop_left, List.take_of_length_le (by omega)]
  rw [runLine]
  simp only [hstrip]
  split
  · next he =>
    rw [hstrip, hfind] at he
    cases he
  · next pos op' he =>
    rw [hstrip, hfind] at he
    obtain ⟨rfl, rfl⟩ := Prod.mk.inj (Option.some.inj he)
    simp only [hleft, hright, Bool.false_eq_true, if_false, hs, ht, or_self]

def Logic.passes : Logic → ℤ → Bool
  | and, status => status = 0
  | or, status => status ≠ 0

/-- What `run_line` makes of an and-or list: it goes on after an operator that lets the next command
through, and is done with the list at one that does not. -/
def runRest (last : Word → Word) (w : Commands) : ℕ → Word → List (Logic × Word) → ℤ → List Ran × ℤ
  | place, c, [], status => runSimple w place false (last c) status
  | place, c, (op, d) :: l, status =>
    let (ran, status) := runSimple w place false (trimEnd c) status
    if op.passes status then
      let (more, status) :=
        runRest last w (place + c.length + op.text.length + (d.takeWhile isBlank).length)
        (d.dropWhile isBlank) l status
      (ran ++ more, status)
    else (ran, status)

theorem runLine_simple (hl : Trims last) (h : simple c = true) :
    runLine w place (last c) status = runSimple w place false (last c) status := by
  have hs := @stripBackground_joined _ [] _ [] hl (.inl rfl) h
  exact runLine_single hs (findControl_none (hl.free (simple_iff.1 h).1))

theorem joined_dropBlank (hl : Trims last) (h : joins c l = true) :
    (joined last c l).dropWhile isBlank = joined last (c.dropWhile isBlank) l ∧
      (joined last c l).takeWhile isBlank = c.takeWhile isBlank := by
  have hany := (simple_iff.1 (joins_simple h)).2.2
  cases l with
  | nil => exact ⟨(hl.dropBlank hany).symm, hl.takeBlank hany⟩
  | cons x l =>
    obtain ⟨op, d⟩ := x
    rw [joined, joined, List.append_assoc, List.append_assoc]
    exact ⟨dropBlank_append hany, takeBlank_append hany⟩

theorem joined_ne_nil (hl : Trims last) (h : joins c l = true) : joined last c l ≠ [] := by
  cases l with
  | nil => exact hl.ne_nil (simple_iff.1 h).2.2
  | cons x l =>
    obtain ⟨op, d⟩ := x
    intro he
    simp only [joined, List.append_eq_nil_iff] at he
    have := (simple_iff.1 (joins_simple h)).2.2
    rw [he.1.1] at this
    cases this

theorem hides_cons {y : Logic × Word} (h : l ≠ []) : hides (y :: l) = hides l := by
  rw [hides, List.getLast?_cons_of_ne_nil h]
  rfl

theorem runLine_joined (hl : Trims last) (h : joins c l = true) (hvis : hides l = false)
    (hlen : (joined last c l).length ≤ 511) :
    runLine w place (joined last c l) status = runRest last w place c l status := by
  induction l generalizing c place status with
  | nil => exact runLine_simple hl h
  | cons y l ih =>
    obtain ⟨op, d⟩ := y
    obtain ⟨hs, -, hd⟩ := joins_cons h
    have hstrip := @stripBackground_joined _ _ _ [] hl (.inl rfl) h
    rw [hvis, if_neg (by decide), List.nil_append] at hstrip
    have hfind := findControl_joined (fun d hd ↦ findControl_none (hl.free (simple_iff.1 hd).1))
      (fun x d i hd ↦ findControl_last_later (hl.free (simple_iff.1 hd).1)) h
    have hdrop := joined_dropBlank hl hd
    have hvis' : hides l = false := by
      cases l with
      | nil => rfl
      | cons z l => rwa [hides_cons (List.cons_ne_nil z l)] at hvis
    have hlen' : (joined last (d.dropWhile isBlank) l).length ≤ 511 := by
      have := (List.dropWhile_sublist isBlank (l := joined last d l)).length_le
      rw [hdrop.1] at this
      simp only [joined, List.length_append] at hlen
      omega
    have hjoin := joins_dropBlank hd
    rw [joined] at hstrip hfind hlen ⊢
    show runLine w place (c ++ (Control.logic op).text ++ joined last d l) status = _
    rw [@runLine_split _ _ _ _ _ (.logic op) hstrip hfind hlen (trimEnd_ne_nil (simple_iff.1 hs).2.2)
      (by rw [hdrop.1]; exact joined_ne_nil hl hjoin), runLine_simple trims_trimEnd hs, hdrop.1,
      hdrop.2,
      ih hjoin hvis' hlen', runRest]
    cases op with
    | and => simp [Logic.passes, Control.text]
    | or => simp [Logic.passes, Control.text]

theorem runLine_hides {pre : Word} (hl : Trims last) (h : joins c l = true)
    (hhides : hides l = true)
    (hpre : pre = [] ∨ (∃ p, pre = p ++ [';'] ∧ Quoting.bare.after p = .bare) ∧
      ∀ t, ∃ y, findControl .bare 0 (pre ++ t) none = some y) :
    ∀ r ∈ (runLine w place (pre ++ joined last c l) status).1, r.background = true := by
  have hstrip := stripBackground_joined hl (hpre.imp_right And.left) h
  rw [hhides, if_pos rfl] at hstrip
  rcases hpre with rfl | ⟨-, hfind⟩
  · have hjoins : joins c l.dropLast = true := by
      rcases List.eq_nil_or_concat l with rfl | ⟨l, ⟨op, d⟩, rfl⟩
      · exact h
      · rw [List.concat_eq_append] at h ⊢
        rw [List.dropLast_concat]
        exact (joins_concat h).1
    have hamp : ∀ d, simple d = true → ∀ i logic,
        findControl .bare i (d ++ ['&']) logic = findControl .bare (i + d.length) ['&'] logic := by
      intro d hd i logic
      rw [findControl_append (simple_iff.1 hd).1 (fun he ↦ by cases he), (simple_iff.1 hd).2.1]
    have hfind := @findControl_joined _ _ (· ++ ['&']) (fun d hd ↦ by rw [hamp d hd]; rfl)
      (fun x d i hd ↦ by rw [hamp d hd]; rfl) hjoins
    cases hd : l.dropLast with
    | nil =>
      rw [hd] at hfind hstrip
      rw [runLine_single hstrip hfind]
      simp [runSimple]
    | cons y l =>
      rw [hd] at hfind hstrip
      rw [runLine_refused hstrip hfind]
      simp
  · obtain ⟨y, hy⟩ := hfind (joined (· ++ ['&']) c l.dropLast)
    rw [runLine_refused hstrip hy]
    simp

theorem runLine_places (w : Commands) (place : ℕ) (line : Word) (status : ℤ) :
    ∀ r ∈ (runLine w place line status).1, place ≤ r.place ∧ r.place ≤ place + line.length := by
  induction hn : line.length using Nat.strong_induction_on generalizing place line status with
  | _ n ih =>
    subst hn
    have htext := stripBackground_length line
    rw [runLine]
    dsimp only
    split
    · intro r hr
      obtain rfl := List.mem_singleton.1 hr
      exact ⟨le_rfl, Nat.le_add_right _ _⟩
    · next pos op he =>
      have hpos := findControl_lt he (fun _ hx ↦ by cases hx)
      have hop : 0 < op.text.length := by
        rcases op with _ | _ | _ <;> decide
      generalize (stripBackground line).1 = text at *
      have hleft : (trimEnd ((text.take pos).take 511)).length ≤ pos := by
        refine (trimEnd_length _).trans ?_
        rw [List.length_take, List.length_take]
        omega
      have hright := congrArg List.length
        (List.takeWhile_append_dropWhile (p := isBlank)
          (l := (text.drop (pos + op.text.length)).take 511))
      rw [List.length_append, List.length_take, List.length_drop] at hright
      split_ifs with _ hempty
      · simp
      · simp
      · have hmore : 0 < (((text.drop (pos + op.text.length)).take 511).dropWhile isBlank).length :=
          List.length_pos_of_ne_nil fun he ↦ hempty (.inr he)
        intro r hr
        rcases List.mem_append.1 hr with hr | hr
        · have := ih _ (by omega) _ _ _ rfl r hr
          omega
        · have := ih _ (by omega) _ _ _ rfl r hr
          omega
      · intro r hr
        have := ih _ (by omega) _ _ _ rfl r hr
        omega

end Runs

end YabroOS.Shell
