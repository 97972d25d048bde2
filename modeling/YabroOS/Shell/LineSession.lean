import YabroOS.Shell.LineEditing

namespace YabroOS.Shell

open Lib LineEditor

variable {first : Char} {e e' : LineEditor} {s t : TwoLists} {history : List Word}
    {offers : Word → Word → List (Word × Bool)} {h k : ℕ}

section Completion

variable {a b c rep : Word} {set : List (Word × Bool)} {typed n : ℕ} {atEnd space : Bool}

theorem prefixLength_le : prefixLength a b ≤ a.length := by
  induction a generalizing b with
  | nil => exact Nat.zero_le _
  | cons x a ih =>
    cases b with
    | nil => exact Nat.zero_le _
    | cons y b =>
      rw [prefixLength]
      split
      · exact Nat.succ_le_succ ih
      · exact Nat.zero_le _

theorem take_prefixLength : a.take (prefixLength a b) <+: b := by
  induction a generalizing b with
  | nil => exact List.nil_prefix
  | cons x a ih =>
    cases b with
    | nil => exact List.nil_prefix
    | cons y b =>
      rw [prefixLength]
      split
      · next heq =>
        subst heq
        exact List.prefix_cons_inj x |>.2 ih
      · exact List.nil_prefix

theorem common_spec (set : List (Word × Bool)) (n : ℕ) :
    set.foldl (fun n d ↦ prefixLength (c.take n) d.1) n ≤ n ∧
      ∀ d ∈ set, c.take (set.foldl (fun n d ↦ prefixLength (c.take n) d.1) n) <+: d.1 := by
  induction set generalizing n with
  | nil => exact ⟨Nat.le_refl n, fun _ hd ↦ nomatch hd⟩
  | cons x set ih =>
    obtain ⟨hle, hshared⟩ := ih (prefixLength (c.take n) x.1)
    have hx : prefixLength (c.take n) x.1 ≤ n := prefixLength_le.trans (List.length_take_le _ _)
    refine ⟨hle.trans hx, List.forall_mem_cons.2 ⟨?_, hshared⟩⟩
    have htake := take_prefixLength (a := c.take n) (b := x.1)
    rw [List.take_take, Nat.min_eq_left hx] at htake
    exact (List.take_prefix_take_left hle).trans htake

theorem replacement_shared (h : replacement typed atEnd set = some (rep, space)) :
    (∀ c ∈ set, rep <+: c.1) ∧ set ≠ [] ∧ (space = true → set.length = 1) := by
  match set with
  | [] => exact nomatch h
  | [c] =>
    obtain ⟨rfl, -⟩ := Prod.mk.inj (Option.some.inj h)
    exact ⟨fun d hd ↦ List.mem_singleton.1 hd ▸ List.prefix_rfl, List.cons_ne_nil _ _, fun _ ↦ rfl⟩
  | c :: d :: cs =>
    rw [replacement] at h
    · split_ifs at h
      obtain ⟨rfl, rfl⟩ := Prod.mk.inj (Option.some.inj h)
      refine ⟨List.forall_mem_cons.2 ⟨List.take_prefix _ _, ?_⟩, List.cons_ne_nil _ _, nofun⟩
      exact (common_spec (d :: cs) c.1.length).2
    · exact fun hcs ↦ nomatch hcs

end Completion

structure TwoLists.AtEntry (history : List Word) (t : TwoLists) (h : ℕ) : Prop where
  pos : t.past.pos = some h
  before : t.before = (history.getD h []).take 511
  after : t.after = []

theorem down_up_atEntry (ht : t.AtEntry history (h + 1)) (hlt : h + 1 < history.length) :
    (t.up history).AtEntry history h ∧ (t.up history).down history = t := by
  have hne : history ≠ [] := List.ne_nil_of_length_pos (Nat.lt_of_le_of_lt (Nat.zero_le _) hlt)
  have hup : t.up history = { t with past := { t.past with pos := some h } }.loadEntry
    history h := by
    rw [TwoLists.up, if_neg hne, ht.pos]
  constructor
  · rw [hup]
    exact ⟨rfl, rfl, rfl⟩
  · obtain ⟨before, after, ⟨pos, draft, draftPos, active⟩⟩ := t
    obtain ⟨rfl, rfl, rfl⟩ := ht
    rw [hup, TwoLists.down]
    exact if_pos hlt

/-- Up keys that each move in the history. -/
def Climbs (history : List Word) (offers : Word → Word → List (Word × Bool)) :
    ℕ → LineEditor → LineEditor → Prop
  | 0, e, e' => e' = e
  | k + 1, e, e' =>
    ∃ m, e.key history offers .up = some m ∧ m.past.pos ≠ e.past.pos ∧ Climbs history offers k m e'

def downs (history : List Word) (offers : Word → Word → List (Word × Bool)) :
    ℕ → LineEditor → Option LineEditor
  | 0, e => some e
  | k + 1, e => (downs history offers k e).bind (key history offers · .down)

theorem down_up (hr : t.past.Fits history) (hmoves : (t.up history).past.pos ≠ t.past.pos) :
    (∃ h, (t.up history).AtEntry history h) ∧
      (t.past.pos = none → ((t.up history).down history).before = t.before ∧
        ((t.up history).down history).after = t.after) ∧
      ∀ h ∈ t.past.pos, ((t.up history).down history).AtEntry history h := by
  by_cases hempty : history = []
  · exact absurd (by rw [TwoLists.up, if_pos hempty]) hmoves
  have hlength := List.length_pos_iff.2 hempty
  cases hp : t.past.pos with
  | none =>
    have hup : t.up history =
        { t with past := ⟨some (history.length - 1), t.before ++ t.after, t.before.length,
          true⟩ }.loadEntry history
          (history.length - 1) := by
      rw [TwoLists.up, if_neg hempty, hp]
    have hdown : (t.up history).down history =
        ⟨(t.before ++ t.after).take t.before.length, (t.before ++ t.after).drop t.before.length,
          ⟨none, t.before ++ t.after, t.before.length, false⟩⟩ := by
      rw [hup, TwoLists.down]
      dsimp only [TwoLists.loadEntry]
      rw [if_neg (by omega)]
      rfl
    refine ⟨⟨history.length - 1, by rw [hup]; exact ⟨rfl, rfl, rfl⟩⟩, fun _ ↦ ?_,
      fun _ hnone ↦ absurd hnone (Option.not_mem_none _)⟩
    rw [hdown]
    exact ⟨List.take_left, List.drop_left⟩
  | some h =>
    cases h with
    | zero => exact absurd (by rw [TwoLists.up, if_neg hempty, hp]; exact hp) hmoves
    | succ h =>
      have hlt := hr.pos _ hp
      have hup : t.up history = { t with past := { t.past with pos := some h } }.loadEntry
        history h := by
        rw [TwoLists.up, if_neg hempty, hp]
      refine ⟨⟨h, by rw [hup]; exact ⟨rfl, rfl, rfl⟩⟩,
        fun hnone ↦ absurd hnone (Option.some_ne_none _), ?_⟩
      rintro _ ⟨⟩
      rw [hup, TwoLists.down]
      dsimp only [TwoLists.loadEntry]
      rw [if_pos hlt]
      exact ⟨rfl, rfl, rfl⟩

theorem downs_climbs_atEntry (hs : Shows first e s) (hr : s.past.Fits history)
    (he : s.AtEntry history h) (hclimb : Climbs history offers k e e') :
    ∃ e'', downs history offers k e' = some e'' ∧ Shows first e'' s := by
  induction k generalizing e s h with
  | zero => exact ⟨e, congrArg some hclimb, hs⟩
  | succ k ih =>
    obtain ⟨m, hkey, hmoves, hrest⟩ := hclimb
    obtain ⟨m', hkey', hshows, hr'⟩ := @key_up _ _ _ _ offers hs hr
    obtain rfl : m' = m := Option.some.inj (hkey'.symm.trans hkey)
    have hmoves' : (s.up history).past.pos ≠ s.past.pos := by
      rw [← hs.past]
      exact hshows.past ▸ hmoves
    cases h with
    | zero =>
      refine absurd ?_ hmoves'
      rw [TwoLists.up, he.pos]
      split_ifs <;> exact he.pos
    | succ h =>
      obtain ⟨hentry, hdown⟩ := down_up_atEntry he (hr.pos _ he.pos)
      obtain ⟨e₁, hdowns, hs₁⟩ := ih hshows hr' hentry hrest
      obtain ⟨e₂, hkey₂, hs₂, -⟩ := @key_down _ _ _ _ offers hs₁ hr'
      refine ⟨e₂, ?_, ?_⟩
      · rw [downs, hdowns]
        exact hkey₂
      · change Shows first e₂ ((s.up history).down history) at hs₂
        rwa [hdown] at hs₂

theorem downs_climbs (hs : Shows first e t) (hr : t.past.Fits history)
    (hclimb : Climbs history offers (k + 1) e e') :
    ∃ e'', downs history offers (k + 1) e' = some e'' ∧
      Shows first e'' ((t.up history).down history) ∧ (t.up history).past.pos ≠ t.past.pos := by
  obtain ⟨m, hkey, hmoves, hrest⟩ := hclimb
  obtain ⟨m', hkey', hshows, hr'⟩ := @key_up _ _ _ _ offers hs hr
  obtain rfl : m' = m := Option.some.inj (hkey'.symm.trans hkey)
  have hmoves' : (t.up history).past.pos ≠ t.past.pos := by
    rw [← hs.past]
    exact hshows.past ▸ hmoves
  obtain ⟨⟨h, hentry⟩, -⟩ := down_up hr hmoves'
  obtain ⟨e₁, hdowns, hs₁⟩ := downs_climbs_atEntry hshows hr' hentry hrest
  obtain ⟨e₂, hkey₂, hs₂, -⟩ := @key_down _ _ _ _ offers hs₁ hr'
  refine ⟨e₂, ?_, hs₂, hmoves'⟩
  rw [downs, hdowns]
  exact hkey₂

/-- The tab key replaces the token around the cursor, or leaves the line and the cursor as they are.
-/
def Completes (offers : Word → Word → List (Word × Bool)) (e e' : LineEditor) : Prop :=
  e'.text = e.text ∧ e'.pos = e.pos ∨
    ∃ front token tail rep blank, e.text = front ++ (token ++ tail) ∧ front.length ≤ e.pos ∧
      e.pos ≤ (front ++ token).length ∧
      (∀ c ∈ token, !tokenEnd c) ∧ (∀ c ∈ front.getLast?, tokenEnd c) ∧
        (∀ c ∈ tail.head?, tokenEnd c) ∧
      (∀ c ∈ (offers front token).foldl completionAdd [], rep <+: c.1) ∧
        (offers front token).foldl completionAdd [] ≠ [] ∧
      (blank = [] ∨ blank = [' '] ∧ ((offers front token).foldl completionAdd []).length = 1) ∧
      e'.text = front ++ (rep ++ blank) ++ tail ∧ e'.pos = (front ++ (rep ++ blank)).length

/-- What holds of the editor after the keys of a prompt, with the two lists after the same keys. -/
structure Edited (history : List Word) (offers : Word → Word → List (Word × Bool)) (first : Char)
    (t : TwoLists) (e : LineEditor) : Prop where
  pos_le : e.pos ≤ e.len
  len_le : e.len ≤ 511
  ends : e.line e.len = '\x00' ∨ e.len = 0 ∧ e.line 0 = first
  before : e.text.take e.pos = t.before
  after : e.text.drop e.pos = t.after
  entry : ∀ h ∈ e.past.pos, h < history.length
  completes : ∃ e', e.key history offers .tab = some e' ∧ Completes offers e e'
  restores : ∀ k e', Climbs history offers (k + 1) e e' → ∃ e'', downs history offers (k + 1) e' =
    some e'' ∧ (e.past.pos = none → e''.text = e.text ∧ e''.pos = e.pos) ∧
    ∀ h ∈ e.past.pos, e''.text = (history.getD h []).take 511 ∧ e''.pos = e''.len

theorem complete_cases (offers : Word → Word → List (Word × Bool)) (t : TwoLists) :
    t.complete offers = t ∨
      ∃ rep blank, (∀ c ∈ (offers t.token.1 t.token.2.1).foldl completionAdd [], rep <+: c.1) ∧
        (offers t.token.1 t.token.2.1).foldl completionAdd [] ≠ [] ∧
        (blank = [] ∨ blank = [' '] ∧
          ((offers t.token.1 t.token.2.1).foldl completionAdd []).length = 1) ∧
        t.complete offers =
          { t with before := t.token.1 ++ (rep ++ blank), after := t.token.2.2 } := by
  rw [TwoLists.complete]
  rcases t.token with ⟨front, token, tail⟩
  dsimp only
  split_ifs
  · exact .inl rfl
  cases hrep : replacement token.length (tail = []) ((offers front token).foldl completionAdd [])
    with
  | none => exact .inl rfl
  | some rs =>
    obtain ⟨rep, space⟩ := rs
    obtain ⟨hshared, hne, hone⟩ := replacement_shared hrep
    have hblank : (if space then [' '] else []) = [] ∨
        (if space then [' '] else []) = [' '] ∧
          ((offers front token).foldl completionAdd []).length = 1 := by
      cases space with
      | true => exact .inr ⟨rfl, hone rfl⟩
      | false => exact .inl rfl
    dsimp only
    generalize (if space then [' '] else []) = blank at hblank ⊢
    split
    · exact .inl rfl
    · exact .inr ⟨rep, blank, hshared, hne, hblank, rfl⟩

theorem token_ends (t : TwoLists) :
    (∀ c ∈ t.token.2.1, !tokenEnd c) ∧ (∀ c ∈ t.token.1.getLast?, tokenEnd c) ∧
      ∀ c ∈ t.token.2.2.head?, tokenEnd c := by
  refine ⟨fun c hc ↦ ?_, fun c hc ↦ ?_, fun c hc ↦ ?_⟩
  · rcases List.mem_append.1 hc with hc | hc
    · exact List.mem_rtakeWhile_imp (p := (!tokenEnd ·)) hc
    · exact List.mem_takeWhile_imp (p := (!tokenEnd ·)) hc
  · have hne : t.before.rdropWhile (!tokenEnd ·) ≠ [] := List.ne_nil_of_mem (List.mem_of_getLast? hc)
    have hlast := List.rdropWhile_last_not (!tokenEnd ·) t.before hne
    rw [Option.some.inj ((List.getLast?_eq_some_getLast hne).symm.trans hc)] at hlast
    simpa using hlast
  · have := List.head?_dropWhile_not (!tokenEnd ·) t.after
    rw [show (t.after.dropWhile (!tokenEnd ·)).head? = some c from hc] at this
    simpa using this

theorem Shows.completes (h : Shows first e t) :
    ∃ e', e.key history offers .tab = some e' ∧ Completes offers e e' := by
  obtain ⟨e', hkey, hshows⟩ := @key_tab _ _ _ history offers h
  change Shows first e' (t.complete offers) at hshows
  refine ⟨e', hkey, ?_⟩
  rcases complete_cases offers t with heq | ⟨rep, blank, hshared, hne, hblank, heq⟩
  · rw [heq] at hshows
    exact .inl ⟨hshows.text.trans h.text.symm, hshows.pos.trans h.pos.symm⟩
  · rw [heq] at hshows
    obtain ⟨htoken, hfront, htail⟩ := token_ends t
    have hbefore :=
      congrArg List.length (List.rdropWhile_append_rtakeWhile (p := (!tokenEnd ·)) (l := t.before))
    rw [List.length_append] at hbefore
    refine .inr ⟨_, _, _, rep, blank, h.text.trans (token_text t), ?_, ?_, htoken, hfront, htail,
      hshared, hne, hblank,
      hshows.text, hshows.pos⟩
    · rw [h.pos, ← hbefore]
      exact Nat.le_add_right _ _
    · rw [h.pos, ← hbefore, TwoLists.token, List.length_append, List.length_append, ← Nat.add_assoc]
      exact Nat.le_add_right _ _

theorem Shows.edited (h : Shows first e t) (hr : t.past.Fits history) :
    Edited history offers first t e where
  pos_le := by
    rw [h.pos, h.len]
    exact Nat.le_add_right _ _
  len_le := h.fits
  ends := h.ends
  before := by rw [h.text, h.pos, List.take_left]
  after := by rw [h.text, h.pos, List.drop_left]
  entry := by
    rw [h.past]
    exact hr.pos
  completes := h.completes
  restores := by
    intro k e' hclimb
    obtain ⟨e'', hdowns, hshows, hmoves⟩ := downs_climbs h hr hclimb
    obtain ⟨-, hdraft, hentry⟩ := down_up hr hmoves
    rw [h.past]
    refine ⟨e'', hdowns, fun hnone ↦ ?_, fun i hi ↦ ?_⟩
    · obtain ⟨hb, ha⟩ := hdraft hnone
      rw [hshows.text, hshows.pos, h.text, h.pos, hb, ha]
      exact ⟨rfl, rfl⟩
    · have hat := hentry i hi
      rw [hshows.text, hshows.pos, hshows.len, hat.after, hat.before, List.append_nil]
      exact ⟨rfl, rfl⟩

theorem atPrompt_shows (line : ℕ → Char) (draft : Word) (draftPos : ℕ) :
    Shows (line 0) (atPrompt line draft draftPos) ⟨[], [], ⟨none, draft, draftPos, false⟩⟩ :=
  ⟨rfl, rfl, Nat.zero_le _, holds_nil, .inr ⟨rfl, rfl⟩, rfl⟩

/-- After every sequence of keys at a prompt. -/
theorem run_edited (history : List Word) (offers : Word → Word → List (Word × Bool))
    (line : ℕ → Char) (draft : Word) (draftPos : ℕ) (codes : List ℕ) :
    ∃ e, (atPrompt line draft draftPos).run history offers codes = some e ∧
      Edited history offers (line 0)
    (TwoLists.run history offers ⟨[], [], ⟨none, draft, draftPos, false⟩⟩ codes) e := by
  obtain ⟨e, hrun, hshows, hr⟩ :=
    @run_shows _ _ _ history offers codes (atPrompt_shows line draft draftPos) ⟨nofun, nofun⟩
  exact ⟨e, hrun, hshows.edited hr⟩

/-- The buffer of the line before is not cleared at a prompt, and from within the history the cursor
of a recalled entry is not restored. -/
theorem not_restores :
    (¬ ∀ history offers line draft draftPos codes e, (atPrompt line draft draftPos).run history
      offers codes = some e →
      e.line e.len = '\x00') ∧
    ¬ ∀ history offers line draft draftPos codes e k e' e'', (atPrompt line draft draftPos).run
      history offers codes = some e →
      Climbs history offers k e e' → downs history offers k e' = some e'' → e''.text = e.text ∧
        e''.pos = e.pos := by
  constructor
  · intro h
    have := h [] (fun _ _ ↦ []) (fun _ ↦ 'x') [] 0 [2] _ rfl
    exact absurd this (by decide)
  · intro h
    have := h [['a'], ['b']] (fun _ _ ↦ []) (fun _ ↦ '\x00') [] 0 [0x80, 2] _ 1 _ _ rfl
      ⟨_, rfl, by decide, rfl⟩ rfl
    exact absurd this.2 (by decide)

end YabroOS.Shell
