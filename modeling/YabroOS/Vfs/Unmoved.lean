import YabroOS.Vfs.Acts

namespace YabroOS.Vfs

open Fat Function

namespace Tree

variable {t t' : Tree} {x y z p q cur : ℕ} {l : List ℕ} {name c : List UInt8}
    {parts parts' : List (List UInt8)}

def Misses (t : Tree) (x : ℕ) : ℕ → List (List UInt8) → Prop
  | _, [] => True
  | cur, part :: rest =>
    if part.take vfsNameMax = dot then Misses t x cur rest
    else if part.take vfsNameMax = dotdot then Misses t x (t.up cur) rest
    else ∀ z, t.pick (t.mr cur) (part.take vfsNameMax) = some z → z ≠ x ∧ t.mr z ≠ x ∧
      Misses t x (t.mr z) rest

structure Holds (t t' : Tree) (l : List ℕ) : Prop where
  mounted : ∀ y ∉ l, t'.mounted y = t.mounted y
  parent : ∀ y ∉ l, t'.parent y = t.parent y
  pick : ∀ q c z, t.pick q c = some z → z ∉ l → t'.pick q c = some z

theorem Holds.mr (h : t.Holds t' l) (hy : y ∉ l) : t'.mr y = t.mr y := by
  rw [Tree.mr, Tree.mr, h.mounted y hy]

theorem Sited.not_above_mr (h : t.Sited) (hne : t.mr z ≠ x) (hz : ¬ t.Above x z) :
    ¬ t.Above x (t.mr z) := by
  unfold Tree.mr at hne ⊢
  cases hm : t.mounted z with
  | none => exact hz
  | some r =>
    rw [hm] at hne
    intro habove
    cases habove with
    | self => exact hne rfl
    | child hp habove =>
      obtain rfl := Option.some.inj (hp.symm.trans (h.mount z _ hm).1)
      exact hz habove

theorem not_above_up (hcur : ¬ t.Above x cur) : ¬ t.Above x (t.up cur) := by
  unfold Tree.up
  cases hp : t.parent cur with
  | none => exact hcur
  | some p =>
    have hp' : ¬ t.Above x p := fun habove ↦ hcur (.child hp habove)
    dsimp only
    split_ifs with hm
    · cases hq : t.parent p with
      | none => exact hp'
      | some q => exact fun habove ↦ hp' (.child hq habove)
    · exact hp'

theorem Holds.up (h : t.Holds t' l) (hcur : ∀ x ∈ l, ¬ t.Above x cur) : t'.up cur = t.up cur := by
  have hcurl : cur ∉ l := fun hmem ↦ hcur cur hmem .self
  unfold Tree.up
  rw [h.parent cur hcurl]
  cases hp : t.parent cur with
  | none => rfl
  | some p =>
    have hpl : p ∉ l := fun hmem ↦ hcur p hmem (.child hp .self)
    dsimp only
    rw [h.mounted p hpl, h.parent p hpl]

theorem Sited.not_above_child (h : t.Sited) (hz : z ∈ t.children cur) (hzx : z ≠ x)
    (hcur : ¬ t.Above x cur) : ¬ t.Above x z := by
  intro habove
  cases habove with
  | self => exact hzx rfl
  | child hp habove =>
    obtain rfl := Option.some.inj (hp.symm.trans (h.child _ z hz))
    exact hcur habove

theorem Holds.goTo (h : t.Holds t' l) (hs : t.Sited) (hvis : t.Visible cur)
    (hcur : ∀ x ∈ l, ¬ t.Above x cur) (hmiss : ∀ x ∈ l, t.Misses x cur parts)
    (hy : t.goTo cur parts = some y) : t'.goTo cur parts = some y := by
  induction parts generalizing cur with
  | nil => exact hy
  | cons part rest ih =>
    have hmiss := fun x hx ↦ hmiss x hx
    simp only [Misses] at hmiss
    rw [Tree.goTo] at hy ⊢
    split_ifs at hy hmiss ⊢
    · exact ih hvis hcur hmiss hy
    · rw [h.up hcur]
      exact ih (hs.visible_up hvis) (fun x hx ↦ not_above_up (hcur x hx)) hmiss hy
    · have hcurl : cur ∉ l := fun hmem ↦ hcur cur hmem .self
      obtain ⟨z, hz, hy⟩ := Option.bind_eq_some_iff.1 hy
      have hpick := hz
      rw [hs.mr_visible hvis] at hpick
      have hzl : z ∉ l := fun hmem ↦ (hmiss z hmem z hz).1 rfl
      have hzabove : ∀ x ∈ l, ¬ t.Above x (t.mr z) := fun x hx ↦
        hs.not_above_mr (hmiss x hx z hz).2.1
          (hs.not_above_child (pick_mem hpick).2 (hmiss x hx z hz).1 (hcur x hx))
      rw [h.mr hcurl, h.pick _ _ z hz hzl, Option.bind_some, h.mr hzl]
      exact ih (visible_mr hvis (pick_mem hpick).2) hzabove (fun x hx ↦ (hmiss x hx z hz).2.2) hy

theorem misses_append : t.Misses x cur (parts ++ parts') ↔
    t.Misses x cur parts ∧ ∀ y, t.goTo cur parts = some y → t.Misses x y parts' := by
  induction parts generalizing cur with
  | nil => simp [Misses, Tree.goTo]
  | cons part rest ih =>
    rw [List.cons_append, Misses, Misses, Tree.goTo]
    split_ifs
    · exact ih
    · exact ih
    · simp only [ih, Option.bind_eq_some_iff]
      constructor
      · intro h
        refine ⟨fun z hz ↦ ⟨(h z hz).1, (h z hz).2.1, (h z hz).2.2.1⟩, ?_⟩
        rintro y ⟨z, hz, hy⟩
        exact (h z hz).2.2.2 y hy
      · exact fun h z hz ↦
          ⟨(h.1 z hz).1, (h.1 z hz).2.1, (h.1 z hz).2.2, fun y hy ↦ h.2 y ⟨z, hz, hy⟩⟩

theorem Sited.misses_of_not_above (h : t.Sited) (hn : Normal parts)
    (hy : t.goTo root parts = some y) (hx : ¬ t.Above x y) : t.Misses x root parts := by
  induction parts using List.reverseRecOn generalizing y with
  | nil => trivial
  | append_singleton parts c ih =>
    obtain ⟨-, -, hdot, hdotdot⟩ := hn c (by simp)
    rw [goTo_append] at hy
    obtain ⟨w, hw, hy⟩ := Option.bind_eq_some_iff.1 hy
    have hvis := h.goTo_visible .root hw
    simp only [Tree.goTo, if_neg (take_ne (by decide) hdot), if_neg (take_ne (by decide) hdotdot),
      h.mr_visible hvis] at hy
    obtain ⟨z, hz, hy⟩ := Option.bind_eq_some_iff.1 hy
    cases hy
    have hpar := h.child w z (pick_mem hz).2
    have hzx : ¬ t.Above x z := by
      intro habove
      refine hx ?_
      unfold Tree.mr
      cases hm : t.mounted z with
      | none => exact habove
      | some r => exact .child (h.mount z r hm).1 habove
    refine misses_append.2
      ⟨ih (fun d hd ↦ hn d (List.mem_append_left _ hd)) hw (fun habove ↦ hzx (.child hpar habove)),
        ?_⟩
    intro w' hw'
    obtain rfl := Option.some.inj (hw'.symm.trans hw)
    simp only [Misses, if_neg (take_ne (by decide) hdot), if_neg (take_ne (by decide) hdotdot),
      h.mr_visible hvis]
    intro z' hz'
    obtain rfl := Option.some.inj (hz'.symm.trans hz)
    exact ⟨fun hzz ↦ hzx (hzz ▸ .self), fun hmx ↦ hx (hmx ▸ .self), trivial⟩

theorem pick_cases (h : t.pick q c = some z) : t.name z = c ∨ (∀ y ∈ t.children q, t.name y ≠ c) ∧
    (t.children q).find? (fun y ↦ t.isDir y ∧ lower (t.name y) = lower c) = some z := by
  have hdir := (pick_mem h).1
  by_cases hno : ∀ y ∈ t.children q, t.name y ≠ c
  · rw [pick_case hdir hno] at h
    exact .inr ⟨hno, h⟩
  · unfold pick at h
    rw [hdir, if_neg Bool.true_eq_false.mp, Option.or_eq_some_iff] at h
    obtain h | ⟨hnone, -⟩ := h
    · have hz := List.find?_some h
      exact .inl (of_decide_eq_true hz)
    · refine absurd (fun y hy hyc ↦ ?_) hno
      simpa [hyc] using List.find?_eq_none.1 hnone y hy

theorem find?_filter_notMem {P : ℕ → Bool} {m : List ℕ} (h : m.find? P = some z) (hz : z ∉ l) :
    (m.filter (· ∉ l)).find? P = some z := by
  induction m with
  | nil => cases h
  | cons a m ih =>
    rw [List.find?_cons] at h
    by_cases hal : a ∈ l
    · rw [List.filter_cons_of_neg (by simpa using hal)]
      split at h
      · cases h
        exact absurd hal hz
      · exact ih h
    · rw [List.filter_cons_of_pos (by simpa using hal), List.find?_cons]
      split at h
      · exact h
      · exact ih h

def Apart (t : Tree) (l : List ℕ) (q : ℕ) (d : Bool) (name : List UInt8) : Prop :=
  ∀ y ∈ t.children q, y ∉ l → t.isDir y = true → lower (t.name y) = lower name →
    d = false ∧ ∃ e ∈ t.children q, t.name e = name

/-- Where some nodes leave their directories, and one comes to a directory with a name of its own,
no other child is disturbed. -/
theorem Named.holds (h : t.Named) (h' : t'.Named) (hmounted : ∀ y ∉ l, t'.mounted y = t.mounted y)
    (hparent : ∀ y ∉ l, t'.parent y = t.parent y) (hname : ∀ y ∉ l, t'.name y = t.name y)
    (hisDir : ∀ y < t.used, t'.isDir y = t.isDir y)
    (hchildren : ∀ q < t.used, t'.children q = (t.children q).filter (· ∉ l) ∨
      ∃ x, t'.children q = x :: (t.children q).filter (· ∉ l) ∧ t.Apart l q (t'.isDir x)
    (t'.name x)) : t.Holds t' l where
  mounted := hmounted
  parent := hparent
  pick q c z hz hzl := by
    obtain ⟨hdir, hmem⟩ := pick_mem hz
    have hq : q < t.used := (h.used z q (h.child q z hmem)).2
    have hdir' : t'.isDir q = true := (hisDir q hq).trans hdir
    have hmem' : z ∈ t'.children q := by
      have hkept : z ∈ (t.children q).filter (· ∉ l) := List.mem_filter.2 ⟨hmem, by simpa using hzl⟩
      obtain hc | ⟨x, hc, -⟩ := hchildren q hq
      · rw [hc]
        exact hkept
      · rw [hc]
        exact List.mem_cons_of_mem x hkept
    obtain hexact | ⟨hno, hcase⟩ := pick_cases hz
    · exact h'.pick_exact hdir' hmem' ((hname z hzl).trans hexact)
    have hold : ∀ y ∈ (t.children q).filter (· ∉ l), y ∉ l ∧ y ∈ t.children q := fun y hy ↦
      ⟨by simpa using (List.mem_filter.1 hy).2, (List.mem_filter.1 hy).1⟩
    have hrest : ((t.children q).filter (· ∉ l)).find? (fun y ↦ t'.isDir y ∧
        lower (t'.name y) = lower c) = some z := by
      rw [← find?_filter_notMem hcase hzl]
      refine List.find?_congr (fun y hy ↦ ?_)
      rw [hname y (hold y hy).1, hisDir y (h.mem_used (hold y hy).2)]
    obtain hc | ⟨x, hc, hapart⟩ := hchildren q hq
    · rw [pick_case hdir', hc]
      · exact hrest
      · intro y hy
        rw [hc] at hy
        rw [hname y (hold y hy).1]
        exact hno y (hold y hy).2
    · have hzc := List.find?_some hcase
      obtain ⟨hzdir, hlow⟩ := of_decide_eq_true hzc
      -- the new child is a directory of another name, or a file in the place of one of the same
      -- name
      have hfile : lower (t'.name x) = lower c → t'.isDir x = false ∧
          ∃ e ∈ t.children q, t.name e = t'.name x := fun hxc ↦
        hapart z hmem hzl hzdir (hlow.trans hxc.symm)
      have hne : t'.name x ≠ c := by
        rintro rfl
        obtain ⟨-, e, he, hen⟩ := hfile rfl
        exact hno e he hen
      rw [pick_case hdir', hc, List.find?_cons_of_neg]
      · exact hrest
      · simp only [decide_eq_true_eq]
        rintro ⟨hxdir, hxc⟩
        exact Bool.false_ne_true ((hfile hxc).1.symm.trans hxdir)
      · intro y hy hyc
        rw [hc] at hy
        obtain rfl | hy := List.mem_cons.1 hy
        · exact hne hyc
        · rw [hname y (hold y hy).1] at hyc
          exact hno y (hold y hy).2 hyc

theorem Linked.erase_eq (h : t.Linked) (x q : ℕ) :
    (t.children q).erase x = (t.children q).filter (· ∉ [x]) := by
  rw [(h.nodup q).erase_eq_filter]
  refine List.filter_congr (fun y _ ↦ ?_)
  simp only [List.mem_singleton, decide_not]
  rfl

theorem Named.holds_attach (h : t.Named) {d : Bool} (h' : (t.attach p d name).Named)
    (hfree : t.Free p name) : t.Holds (t.attach p d name) [t.used] := by
  have hne : ∀ {y}, y ∉ [t.used] → y ≠ t.used := fun hy hyu ↦ hy (List.mem_singleton.2 hyu)
  refine h.holds h' (fun y hy ↦ update_of_ne (hne hy) _ _) (fun y hy ↦ update_of_ne (hne hy) _ _)
    (fun y hy ↦ update_of_ne (hne hy) _ _) (fun y hy ↦ attach_isDir hy p d name) (fun q hq ↦ ?_)
  have hnew : (t.attach p d name).name t.used = name := update_self _ _ _
  rw [← h.erase_eq, List.erase_of_not_mem (h.not_mem_fresh q)]
  by_cases hqp : q = p
  · refine .inr
      ⟨t.used, ?_, fun y hy _ hydir hlow ↦ absurd (hnew ▸ hlow) ((hfree y (hqp ▸ hy)).2 hydir)⟩
    rw [hqp]
    exact update_self _ _ _
  · exact .inl ((update_of_ne hqp _ _).trans (update_of_ne hq.ne _ _))

theorem Linked.without_eq (h : t.Linked) (x q : ℕ) : t.without x q = (t.children q).erase x := by
  have hnot : t.parent x ≠ some q → (t.children q).erase x = t.children q := fun hne ↦
    List.erase_of_not_mem (fun hmem ↦ hne (h.child q x hmem))
  unfold without
  cases hp : t.parent x with
  | none => exact (hnot (by rw [hp]; exact nofun)).symm
  | some op =>
    simp only [update_apply]
    split_ifs with hq
    · rw [hq]
    · exact (hnot (by rw [hp]; exact fun hop ↦ hq (Option.some.inj hop).symm)).symm

theorem Named.holds_move (h : t.Named) (h' : (t.move x p name).Named)
    (hfree : ∀ y ∈ t.children p, y ≠ x → t.isDir y = true → lower (t.name y) ≠ lower name) :
    t.Holds (t.move x p name) [x] := by
  have hne : ∀ {y}, y ∉ [x] → y ≠ x := fun hy hyx ↦ hy (List.mem_singleton.2 hyx)
  have hnew : (t.move x p name).name x = name := update_self _ _ _
  refine h.holds h' (fun y _ ↦ rfl) (fun y hy ↦ update_of_ne (hne hy) _ _)
    (fun y hy ↦ update_of_ne (hne hy) _ _) (fun y _ ↦ rfl)
    (fun q _ ↦ ?_)
  rw [← h.erase_eq, ← h.without_eq]
  by_cases hqp : q = p
  · refine .inr
      ⟨x, ?_, fun y hy hyx hydir hlow ↦ absurd (hnew ▸ hlow) (hfree y (hqp ▸ hy) (hne hyx) hydir)⟩
    rw [hqp]
    exact update_self _ _ _
  · exact .inl (update_of_ne hqp _ _)

end Tree

end YabroOS.Vfs
