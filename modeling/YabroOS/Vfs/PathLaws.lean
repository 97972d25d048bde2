import YabroOS.Vfs.RenameInto

namespace YabroOS.Vfs

open Fat Function

namespace Tree

variable {t t' : Tree} {x y z p q e cur cur' : ℕ} {name c : List UInt8}
  {parts rest : List (List UInt8)} {d : Bool}

theorem Linked.misses_fresh (h : t.Linked) (hx : t.used ≤ x) (cur : ℕ) (parts : List (List UInt8)) :
    t.Misses x cur parts := by
  induction parts generalizing cur with
  | nil => trivial
  | cons part rest ih =>
    rw [Misses]
    split_ifs
    · exact ih cur
    · exact ih _
    · intro z hz
      have hzu := h.mem_used (pick_mem hz).2
      refine ⟨(hzu.trans_le hx).ne, ?_, ih _⟩
      unfold mr
      cases hm : t.mounted z with
      | none => exact (hzu.trans_le hx).ne
      | some r => exact ((h.mounted z r hm).1.trans_le hx).ne

theorem Sited.attach_goTo (h : t.Sited) (h' : (t.attach p d name).Named) (hfree : t.Free p name)
    (hy : t.goTo root parts = some y) : (t.attach p d name).goTo root parts = some y :=
  (h.holds_attach h' hfree).goTo h .root
    (List.forall_mem_singleton.2 (h.not_above_root h.root_used.ne'))
    (List.forall_mem_singleton.2 (h.misses_fresh le_rfl root parts)) hy

theorem Sited.attach_found (h : t.Sited) (h' : (t.attach p d name).Named) (hfree : t.Free p name)
    (hname : Plain name) (hused : p < t.used) (hdir : t.isDir p = true)
    (hp : t.goTo root parts = some p) :
    (t.attach p d name).goTo root (parts ++ [name]) = some t.used := by
  have hclear : (t.attach p d name).mounted p = none :=
    (update_of_ne hused.ne _ _).trans (h.visible_clear (h.goTo_visible .root hp))
  have hmem : t.used ∈ (t.attach p d name).children p := (mem_attach hused.ne).2 (.inl ⟨rfl, rfl⟩)
  have hself : (t.attach p d name).mounted t.used = none := update_self _ _ _
  rw [goTo_name ⟨hname.dot, hname.dotdot⟩ hname.le (h.attach_goTo h' hfree hp) hclear,
    h'.pick_exact ((attach_isDir hused p d name).trans hdir) hmem (update_self _ _ _),
    Option.map_some, mr, hself,
    Option.getD_none]

theorem Sited.not_mem_above (h : t.Sited) (hq : t.Above x q) : x ∉ t.children q := by
  intro hmem
  have hpar := h.child q x hmem
  exact h.not_above (.child hpar (h.reach x q hpar)) hpar hq

structure Replaces (t t' : Tree) (x p : ℕ) (name : List UInt8) (e : ℕ) : Prop where
  sited : t.Sited
  named : t'.Named
  dir : t.isDir p = true
  visible : t.Visible p
  file : t.isDir e = false
  mem : e ∈ t.children p
  called : t.name e = name
  ne : e ≠ x
  ne_root : x ≠ root
  clear : t.mounted x = none
  mount : ∀ q, t.mounted q ≠ some x
  above : ¬ t.Above x p
  tree : t' = (t.cut p e).move x p name
  apart : t.isDir x = true → ∀ y ∈ t.children p, y ≠ x → t.isDir y = true →
    lower (t.name y) ≠ lower name

theorem Replaces.without (h : t.Replaces t' x p name e) (q : ℕ) :
    (t.cut p e).without x q = (t.children q).filter (· ∉ [x, e]) := by
  have hl := h.sited.toLinked
  have hcut := hl.cut h.mem
  have hchildren : (t.cut p e).children q = (t.children q).erase e := by
    by_cases hqp : q = p
    · subst hqp
      exact update_self _ _ _
    · refine (update_of_ne hqp _ _).trans (List.erase_of_not_mem (fun hmem ↦ hqp ?_)).symm
      exact Option.some.inj ((hl.child q e hmem).symm.trans (hl.child p e h.mem))
  rw [hcut.without_eq, hcut.erase_eq, hchildren, hl.erase_eq, List.filter_filter]
  refine List.filter_congr (fun y _ ↦ ?_)
  simp [not_or]

theorem Replaces.holds (h : t.Replaces t' x p name e) : t.Holds t' [x, e] := by
  have hne : ∀ {y}, y ∉ [x, e] → y ≠ x ∧ y ≠ e := fun hy ↦ by simpa using hy
  rw [h.tree]
  refine h.sited.holds (h.tree ▸ h.named) (fun y _ ↦ rfl) (fun y hy ↦ ?_)
    (fun y hy ↦ update_of_ne (hne hy).1 _ _) (fun y _ ↦ rfl)
    (fun q _ ↦ ?_)
  · exact (update_of_ne (hne hy).1 _ _).trans (update_of_ne (hne hy).2 _ _)
  by_cases hqp : q = p
  · subst hqp
    refine .inr ⟨x, ?_, fun y hy hyl hydir hlow ↦ ?_⟩
    · rw [← h.without]
      exact update_self _ _ _
    · have hself : ((t.cut q e).move x q name).name x = name := update_self _ _ _
      rw [hself] at hlow ⊢
      refine ⟨Bool.eq_false_iff.2 (fun hxdir ↦ ?_), e, h.mem, h.called⟩
      exact h.apart hxdir y hy (hne hyl).1 hydir hlow
  · rw [← h.without]
    exact .inl (update_of_ne hqp _ _)

theorem Replaces.up (h : t.Replaces t' x p name e) : t.up e = p ∧ t'.up x = p := by
  have hpar : t'.parent x = some p := by
    rw [h.tree]
    exact update_self _ _ _
  have hmounted : t'.mounted = t.mounted := by
    rw [h.tree]
    rfl
  have hme : t.mounted p ≠ some e := fun hme ↦ (h.sited.mount p e hme).2.2 p h.mem
  constructor
  · simp only [Tree.up, h.sited.child p e h.mem, if_neg hme]
  · simp only [Tree.up, hpar, hmounted, if_neg (h.mount p)]

theorem Replaces.mr_self (h : t.Replaces t' x p name e) : t.mr e = e ∧ t'.mr x = x := by
  have hclear : t'.mounted x = none := by
    rw [h.tree]
    exact h.clear
  refine ⟨?_, by rw [mr, hclear, Option.getD_none]⟩
  rw [mr, (h.sited.file_empty h.file).2, Option.getD_none]

theorem Replaces.pick (h : t.Replaces t' x p name e) (he : t.pick q c = some e) :
    q = p ∧ t'.pick q c = some x := by
  obtain rfl :=
    Option.some.inj ((h.sited.child p e h.mem).symm.trans (h.sited.child q e (pick_mem he).2))
  have hcut := h.sited.toLinked.cut h.mem
  have hc : name = c := by
    obtain hexact | ⟨-, hcase⟩ := pick_cases he
    · exact h.called.symm.trans hexact
    · have hdir := List.find?_some hcase
      exact absurd (h.file.symm.trans (of_decide_eq_true hdir).1) Bool.false_ne_true
  refine ⟨rfl, h.named.pick_exact ?_ ?_ ?_⟩
  · rw [h.tree]
    exact h.dir
  · rw [h.tree]
    exact hcut.mem_move.2 (.inl ⟨rfl, rfl⟩)
  · rw [h.tree, ← hc]
    exact update_self _ _ _

theorem Replaces.goTo (h : t.Replaces t' x p name e)
    (hcur : cur' = cur ∧ t.Visible cur ∧ ¬ t.Above x cur ∧ cur ≠ e ∨ cur = e ∧ cur' = x)
    (hmiss : t.Misses x cur parts) (hy : t.goTo cur parts = some y) :
    t'.goTo cur' parts = some (if y = e then x else y) := by
  have hs := h.sited
  have hmounted : t'.mounted = t.mounted := by
    rw [h.tree]
    rfl
  have hne : ∀ {w}, t.isDir w = true → w ≠ e := by
    rintro w hw rfl
    exact Bool.false_ne_true (h.file.symm.trans hw)
  have hnot : ∀ {w}, ¬ t.Above x w → w ≠ e → ∀ v ∈ [x, e], ¬ t.Above v w := by
    intro w hxw hwe v hv
    obtain rfl | hv := List.mem_cons.1 hv
    · exact hxw
    · obtain rfl := List.mem_singleton.1 hv
      intro habove
      obtain rfl | ⟨u, hu⟩ := habove.parent
      · exact hwe rfl
      · exact hne (hs.dir u v hu) rfl
  obtain ⟨w, hw⟩ : ∃ w, w = if y = e then x else y := ⟨_, rfl⟩
  rw [← hw]
  induction parts generalizing cur cur' with
  | nil =>
    cases hy
    obtain ⟨rfl, -, -, hne⟩ | ⟨rfl, rfl⟩ := hcur
    · rw [hw, if_neg hne]
      rfl
    · rw [hw, if_pos rfl]
      rfl
  | cons part rest ih =>
    rw [Misses] at hmiss
    rw [Tree.goTo] at hy ⊢
    split_ifs at hy hmiss ⊢
    · exact ih hcur hmiss hy
    · obtain ⟨rfl, hvis, hxcur, hcure⟩ | ⟨rfl, rfl⟩ := hcur
      · have hdir : t.isDir (t.up cur') = true := by
          refine hs.up_placed ?_
          by_cases hroot : cur' = root
          · exact .inl (hroot ▸ hs.root_dir)
          · exact .inr (hs.visible_parent hvis hroot)
        rw [h.holds.up (hnot hxcur hcure)]
        exact ih (.inl ⟨rfl, hs.visible_up hvis, not_above_up hxcur, hne hdir⟩) hmiss hy
      · rw [h.up.1] at hmiss hy
        rw [h.up.2]
        exact ih (.inl ⟨rfl, h.visible, h.above, hne h.dir⟩) hmiss hy
    · obtain ⟨z, hz, hrest⟩ := Option.bind_eq_some_iff.1 hy
      obtain ⟨hzx, hmx, hmz⟩ := hmiss z hz
      obtain ⟨rfl, hvis, hxcur, hcure⟩ | ⟨rfl, rfl⟩ := hcur
      · have hclear := hs.visible_clear hvis
        have hmr : t.mr cur' = cur' := by rw [mr, hclear, Option.getD_none]
        have hmr' : t'.mr cur' = cur' := by rw [mr, hmounted, hclear, Option.getD_none]
        rw [hmr] at hz
        rw [hmr']
        by_cases hze : z = e
        · subst hze
          obtain ⟨rfl, hpick⟩ := h.pick hz
          rw [hpick, Option.bind_some, h.mr_self.2]
          rw [h.mr_self.1] at hrest hmz
          exact ih (.inr ⟨rfl, rfl⟩) hmz hrest
        · have hzl : z ∉ [x, e] := by simp [hzx, hze]
          have hmze : t.mr z ≠ e := by
            intro hmze
            have hself := hs.mr_file (hmze ▸ h.file)
            exact hze (hself.symm.trans hmze)
          have hzabove := hs.not_above_mr hmx (hs.not_above_child (pick_mem hz).2 hzx hxcur)
          rw [h.holds.pick _ _ z hz hzl, Option.bind_some, h.holds.mr hzl]
          exact ih (.inl ⟨rfl, visible_mr hvis (pick_mem hz).2, hzabove, hmze⟩) hmz hrest
      · rw [h.mr_self.1] at hz
        exact absurd (h.file.symm.trans (pick_mem hz).1) Bool.false_ne_true

/-- A node that has come to a place that is not below it; `put` says what is found where something
was found. -/
structure Moves (t t' : Tree) (x p : ℕ) (name : List UInt8) (put : ℕ → ℕ) : Prop where
  sited : t.Sited
  sited' : t'.Sited
  dir : t.isDir p = true
  plain : Plain name
  ne_root : x ≠ root
  clear : t.mounted x = none
  mount : ∀ q, t.mounted q ≠ some x
  isDir : t'.isDir = t.isDir
  mounted : t'.mounted = t.mounted
  names : ∀ y ≠ x, t'.name y = t.name y
  called : t'.name x = name
  mem : x ∈ t'.children p
  below : ∀ q, t.Above x q → t'.children q = t.children q
  other : t.pick p name ≠ some x
  goTo : ∀ {parts y}, t.Misses x root parts → t.goTo root parts = some y →
    t'.goTo root parts = some (put y)
  put : ∀ y, t.isDir y = true → put y = y

variable {put : ℕ → ℕ}

theorem Moves.found (h : t.Moves t' x p name put) (hmiss : t.Misses x root parts)
    (hp : t.goTo root parts = some p) : t'.goTo root (parts ++ [name]) = some x := by
  have hp' : t'.goTo root parts = some p := by
    rw [h.goTo hmiss hp, h.put p h.dir]
  have hclear : t'.mounted x = none := by
    rw [h.mounted]
    exact h.clear
  have hdir : t'.isDir p = true := by
    rw [h.isDir]
    exact h.dir
  rw [goTo_name ⟨h.plain.dot, h.plain.dotdot⟩ h.plain.le hp'
    (h.sited'.visible_clear (h.sited'.goTo_visible .root hp')),
    h.sited'.pick_exact hdir h.mem h.called, Option.map_some, mr, hclear, Option.getD_none]

theorem Moves.goTo_below (h : t.Moves t' x p name put) (hn : Normal rest) (hvis : t.Visible cur)
    (hcur : t.Above x cur) (hy : t.goTo cur rest = some y) : t'.goTo cur rest = some y := by
  have hmr : t'.mr = t.mr := by
    funext w
    rw [mr, mr, h.mounted]
  induction rest generalizing cur with
  | nil => exact hy
  | cons c rest ih =>
    obtain ⟨-, -, hdot, hdotdot⟩ := hn c (.head _)
    rw [Tree.goTo, if_neg (take_ne (by decide) hdot), if_neg (take_ne (by decide) hdotdot),
      h.sited.mr_visible hvis] at hy
    obtain ⟨z, hz, hy⟩ := Option.bind_eq_some_iff.1 hy
    have hpick : t'.pick cur (c.take vfsNameMax) = t.pick cur (c.take vfsNameMax) := by
      refine pick_congr (congrFun h.isDir cur) (h.below cur hcur)
        (fun w hw ↦ ⟨h.names w ?_, congrFun h.isDir w⟩) _
      rintro rfl
      exact h.sited.not_mem_above hcur hw
    have hzabove : t.Above x z := .child (h.sited.child cur z (pick_mem hz).2) hcur
    have hmzabove : t.Above x (t.mr z) := by
      unfold mr
      cases hm : t.mounted z with
      | none => exact hzabove
      | some r => exact .child (h.sited.mount z r hm).1 hzabove
    rw [Tree.goTo, if_neg (take_ne (by decide) hdot), if_neg (take_ne (by decide) hdotdot), hmr,
      h.sited.mr_visible hvis, hpick, hz,
      Option.bind_some]
    exact ih (fun d hd ↦ hn d (.tail _ hd)) (visible_mr hvis (pick_mem hz).2) hmzabove hy

/-- The old path does not lead to the node, unless it is a directory whose name has changed in case
alone. -/
theorem Moves.gone (h : t.Moves t' x p name put) (hparts : ∀ c ∈ parts, c ≠ [] ∧ slash ∉ c)
    (hx : t.goTo root parts = some x) (hx' : t'.goTo root parts = some x) :
    x ∈ t.children p ∧ t.isDir x = true ∧ lower (t.name x) = lower name := by
  have hnil : Normal [] := nofun
  have hn := squeeze_normal hparts hnil
  have hx := h.sited.goTo_squeeze hparts hnil rfl hx
  have hx' := h.sited'.goTo_squeeze hparts hnil rfl hx'
  generalize squeeze [] parts = parts at hn hx hx'
  obtain rfl | ⟨parts, c, rfl⟩ := List.eq_nil_or_concat' parts
  · exact absurd (Option.some.inj hx).symm h.ne_root
  obtain ⟨-, -, hdot, hdotdot⟩ := hn c (by simp)
  have hn : Normal parts := fun d hd ↦ hn d (List.mem_append_left _ hd)
  -- both walks come to the directory that the node was in
  have hlast : ∀ {t : Tree}, t.Sited → t.mounted = t'.mounted → t.goTo root (parts ++ [c]) = some x →
      ∃ q, t.Visible q ∧ t.goTo root parts = some q ∧ t.pick q (c.take vfsNameMax) = some x := by
    intro t hs hmounted hx
    rw [goTo_append] at hx
    obtain ⟨q, hq, hx⟩ := Option.bind_eq_some_iff.1 hx
    have hvis := hs.goTo_visible .root hq
    simp only [Tree.goTo, if_neg (take_ne (by decide) hdot), if_neg (take_ne (by decide) hdotdot),
      hs.mr_visible hvis] at hx
    obtain ⟨z, hz, hzx⟩ := Option.bind_eq_some_iff.1 hx
    have hzx : t.mr z = x := Option.some.inj hzx
    unfold mr at hzx
    cases hm : t.mounted z with
    | none =>
      rw [hm, Option.getD_none] at hzx
      exact ⟨q, hvis, hq, hzx ▸ hz⟩
    | some r =>
      rw [hm, Option.getD_some] at hzx
      rw [hmounted, h.mounted] at hm
      exact absurd (hzx ▸ hm) (h.mount z)
  obtain ⟨q, hvis, hq, hpick⟩ := hlast h.sited h.mounted.symm hx
  obtain ⟨q', -, hq', hpick'⟩ := hlast h.sited' rfl hx'
  have hqx : ¬ t.Above x q :=
    h.sited.not_above_dir hvis hpick (by rw [mr, h.clear, Option.getD_none])
  have hsame := h.goTo (h.sited.misses_of_not_above hn hq hqx) hq
  rw [h.put q (pick_mem hpick).1, hq'] at hsame
  obtain rfl := Option.some.inj hsame
  obtain rfl :=
    Option.some.inj
      ((h.sited'.child q' x (pick_mem hpick').2).symm.trans (h.sited'.child p x h.mem))
  have hne : name ≠ c.take vfsNameMax := by
    rintro rfl
    exact h.other hpick
  obtain hexact | ⟨-, hcase'⟩ := pick_cases hpick'
  · exact absurd (h.called.symm.trans hexact) hne
  have hdir := List.find?_some hcase'
  obtain ⟨hdir, hlow⟩ := of_decide_eq_true hdir
  rw [h.isDir] at hdir
  rw [h.called] at hlow
  exact ⟨(pick_mem hpick).2, hdir, (pick_low hpick).trans hlow.symm⟩

theorem Sited.moves (h : t.Sited) (h' : (t.move x p name).Sited) (hdir : t.isDir p = true)
    (hname : Plain name) (hroot : x ≠ root) (hclear : t.mounted x = none)
    (hmount : ∀ q, t.mounted q ≠ some x) (habove : ¬ t.Above x p) (hfree : t.Free p name) :
    t.Moves (t.move x p name) x p name id where
  sited := h
  sited' := h'
  dir := hdir
  plain := hname
  ne_root := hroot
  clear := hclear
  mount := hmount
  isDir := rfl
  mounted := rfl
  names y hy := update_of_ne hy _ _
  called := update_self _ _ _
  mem := h.mem_move.2 (.inl ⟨rfl, rfl⟩)
  below q hq := by
    have hqp : q ≠ p := by
      rintro rfl
      exact habove hq
    refine (update_of_ne hqp _ _).trans ?_
    rw [h.without_eq]
    exact List.erase_of_not_mem (h.not_mem_above hq)
  other hpick := by
    obtain ⟨hne, hcase⟩ := hfree x (pick_mem hpick).2
    obtain hexact | ⟨-, hfind⟩ := pick_cases hpick
    · exact hne hexact
    · have hx := List.find?_some hfind
      obtain ⟨hxdir, hlow⟩ := of_decide_eq_true hx
      exact hcase hxdir hlow
  goTo hmiss hy := (h.toNamed.holds_move h'.toNamed (fun y hy _ ↦ (hfree y hy).2)).goTo h .root
    (List.forall_mem_singleton.2 (h.not_above_root hroot)) (List.forall_mem_singleton.2 hmiss) hy
  put _ _ := rfl

theorem Replaces.moves (h : t.Replaces t' x p name e) (h' : t'.Sited) (hname : Plain name) :
    t.Moves t' x p name (fun y ↦ if y = e then x else y) where
  sited := h.sited
  sited' := h'
  dir := h.dir
  plain := hname
  ne_root := h.ne_root
  clear := h.clear
  mount := h.mount
  isDir := by
    rw [h.tree]
    rfl
  mounted := by
    rw [h.tree]
    rfl
  names y hy := by
    rw [h.tree]
    exact update_of_ne hy _ _
  called := by
    rw [h.tree]
    exact update_self _ _ _
  mem := by
    rw [h.tree]
    exact (h.sited.toLinked.cut h.mem).mem_move.2 (.inl ⟨rfl, rfl⟩)
  below q hq := by
    have hqp : q ≠ p := by
      rintro rfl
      exact h.above hq
    have hxq := h.sited.not_mem_above hq
    have heq : e ∉ t.children q :=
      fun hmem ↦ hqp
        (Option.some.inj ((h.sited.child q e hmem).symm.trans (h.sited.child p e h.mem)))
    rw [h.tree]
    refine (update_of_ne hqp _ _).trans ?_
    rw [h.without, List.filter_eq_self]
    intro y hy
    have hyx : y ≠ x := fun hyx ↦ hxq (hyx ▸ hy)
    have hye : y ≠ e := fun hye ↦ heq (hye ▸ hy)
    simp [hyx, hye]
  other := by
    rw [h.sited.pick_exact h.dir h.mem h.called]
    exact fun hex ↦ h.ne (Option.some.inj hex)
  goTo hmiss hy := by
    have hre : root ≠ e := by
      rintro rfl
      exact Bool.true_eq_false.mp (h.sited.root_dir.symm.trans h.file)
    exact h.goTo (.inl ⟨rfl, .root, h.sited.not_above_root h.ne_root, hre⟩) hmiss hy
  put y hy := by
    refine if_neg ?_
    rintro rfl
    exact Bool.true_eq_false.mp (hy.symm.trans h.file)

theorem goTo_take : t.goTo cur (parts.map (·.take vfsNameMax)) = t.goTo cur parts := by
  induction parts generalizing cur with
  | nil => rfl
  | cons part rest ih =>
    have htake : (part.take vfsNameMax).take vfsNameMax = part.take vfsNameMax := by
      rw [List.take_take, min_self]
    rw [List.map_cons, goTo, goTo, htake]
    simp only [ih]

theorem find_canonicalizeSystemPath (t : Tree) {path : List UInt8} (hhead : path.head? = some slash)
    (hlen : path.length < 260) : t.find (Fs.canonicalizeSystemPath path) = t.find path := by
  have hparts : ∀ c ∈ (components path).map (·.take vfsNameMax), c ≠ [] ∧ slash ∉ c := by
    intro c hc
    obtain ⟨d, hd, rfl⟩ := List.mem_map.1 hc
    obtain ⟨hne, hslash⟩ := mem_components hd
    refine ⟨fun hnil ↦ ?_, fun hmem ↦ hslash (List.mem_of_mem_take hmem)⟩
    obtain h | h := List.take_eq_nil_iff.1 hnil
    · cases h
    · exact hne h
  have hhead' : (normalPath ((components path).map (·.take vfsNameMax))).head? = some slash := rfl
  rw [canonicalizeSystemPath_eq hhead hlen, find, find, if_pos hhead, if_pos hhead',
    components_joined hparts, goTo_take]

theorem Sited.goTo_waste (h : t.Sited) (hvis : t.Visible cur) :
    (t.waste d name).goTo cur parts = t.goTo cur parts := by
  have hmr : ∀ {z}, z < t.used → (t.waste d name).mr z = t.mr z := fun hz ↦ by
    rw [mr, mr, show (t.waste d name).mounted _ = t.mounted _ from update_of_ne hz.ne _ _]
  induction parts generalizing cur with
  | nil => rfl
  | cons part rest ih =>
    have hcur := h.reach_used (h.visible_reach hvis)
    have hup : (t.waste d name).up cur = t.up cur := by
      unfold up
      rw [h.waste_parent]
      cases hp : t.parent cur with
      | none => rfl
      | some p =>
        dsimp only
        rw [show (t.waste d name).mounted p =
          t.mounted p from update_of_ne (h.used cur p hp).2.ne _ _]
    have hpick : ∀ c, (t.waste d name).pick cur c = t.pick cur c :=
      pick_congr (waste_isDir hcur d name) (by rw [h.waste_children])
        (fun y hy ↦ ⟨update_of_ne (h.mem_used hy).ne _ _, waste_isDir (h.mem_used hy) d name⟩)
    rw [Tree.goTo, Tree.goTo, hmr hcur, hup]
    split_ifs
    · exact ih hvis
    · exact ih (h.visible_up hvis)
    · rw [h.mr_visible hvis, hpick]
      cases hz : t.pick cur (part.take vfsNameMax) with
      | none => rfl
      | some z =>
        have hmem := (pick_mem hz).2
        rw [Option.bind_some, Option.bind_some, hmr (h.mem_used hmem)]
        exact ih (visible_mr hvis hmem)

theorem Same.misses (h : t.Same t') : t'.Misses x cur parts ↔ t.Misses x cur parts := by
  induction parts generalizing cur with
  | nil => exact Iff.rfl
  | cons part rest ih => simp only [Misses, h.mr, h.up, h.pick, ih]

theorem find_append {path tail : List UInt8} (hx : t.find path = some x) :
    t.find (path ++ slash :: tail) = t.goTo x (components tail) := by
  unfold find at hx ⊢
  split_ifs at hx with hhead
  have hhead' : (path ++ slash :: tail).head? = some slash := by
    rw [List.head?_append, hhead]
    rfl
  rw [if_pos hhead', components_append, goTo_append, hx, Option.bind_some]

end Tree

namespace Fs

variable {s s' s₁ s₂ : Fs} {x y p e mode : ℕ} {name path old new : List UInt8} {r : Fs × ℤ}
  {type : NodeType}

/-- A new node at a path, beside which every path leads where it led. -/
structure MadeAt (s s' : Fs) (path : List UInt8) (x : ℕ) : Prop where
  found : (s'.vfsLookup path).2 = some x
  frame : ∀ q y, (s.vfsLookup q).2 = some y → (s'.vfsLookup q).2 = some y

/-- Every path leads where it led. -/
def Still (s s' : Fs) : Prop := ∀ q, (s'.vfsLookup q).2 = (s.vfsLookup q).2

theorem Seen.still (h : s.Seen s') (hs : s.tree.Sited) : s.Still s' := fun q ↦ by
  rw [lookup_find (h.sited hs).toNamed, lookup_find hs.toNamed, (h.same hs.toNamed).find]

theorem Site.madeAt (h : s.Site path s₁ p name) (hs : s.tree.Sited) (hno : s.tree.find path = none)
    {d : Bool} (htree : s'.tree = s₁.tree.attach p d name) (hs' : s'.tree.Sited) :
    s.MadeAt s' path s.used := by
  have hs₁ := h.seen.sited hs
  have hsame := h.seen.same hs.toNamed
  obtain ⟨parent, hsplit, hp⟩ := h.parent hs
  have hfree := hs₁.free_of_find hsplit hp h.dir ((hsame.find path).trans hno)
  have hplain := h.plain hs (fun z hz ↦ by rw [hno] at hz; cases hz)
  obtain ⟨hhead, hhead', -, -, -, hcomps⟩ := splitPath_some hsplit
  rw [Tree.find, if_pos hhead'] at hp
  have hnamed : (s₁.tree.attach p d name).Named := htree ▸ hs'.toNamed
  constructor
  · rw [lookup_find hs'.toNamed, Tree.find, if_pos hhead, hcomps, htree]
    rw [hs₁.attach_found hnamed hfree hplain h.placed.1 h.dir hp]
    exact congrArg some h.seen.used
  · intro q y hq
    rw [lookup_find hs.toNamed, ← hsame.find] at hq
    rw [lookup_find hs'.toNamed, htree]
    unfold Tree.find at hq ⊢
    split_ifs at hq ⊢
    exact hs₁.attach_goTo hnamed hfree hq

theorem Created.madeAt {truncate : Bool} {r : Fs × Option ℕ} (h : Created s path truncate r)
    (hs : s.tree.Sited) (hs' : r.1.tree.Sited) (hx : r.2 = some x) :
    (x = s.used ∨ (s.vfsLookup path).2 = some x) ∧ s.MadeAt r.1 path x := by
  cases h with
  | refused | wasted => cases hx
  | opened s₁ x' hlook hfile =>
    cases hx
    have hseen := lookup_seen s path
    have hold : (s.vfsLookup path).2 = some x := by rw [hlook]
    rw [hlook] at hseen
    have htree := (reopen_touched s₁ x truncate).tree
    have hstill : s.Still (s₁.reopen x truncate) := fun q ↦ by
      rw [lookup_find hs'.toNamed, htree, lookup_find hs.toNamed]
      exact (hseen.same hs.toNamed).find q
    exact ⟨.inr hold, (hstill path).trans hold, fun q y hq ↦ (hstill q).trans hq⟩
  | made s₁ p name b h hno hb =>
    cases hx
    rw [lookup_find hs.toNamed] at hno
    rw [h.seen.used]
    exact ⟨.inl rfl, h.madeAt hs hno (tree_born h.placed.1 h.name_le b) hs'⟩

theorem Created.still {truncate : Bool} {r : Fs × Option ℕ} (h : Created s path truncate r)
    (hs : s.tree.Sited) (hx : r.2 = none) : s.Still r.1 := by
  cases h with
  | opened | made => cases hx
  | refused s₁ h => exact h.still hs
  | wasted s₁ p name h =>
    have hs₁ := h.seen.sited hs
    have htree := tree_waste (s := s₁) (fresh_new s₁ name .file (sIfreg + 0o666))
    intro q
    rw [← h.seen.still hs q, lookup_find hs₁.toNamed, lookup_find (htree ▸ hs₁.toNamed.waste _ _),
      htree, Tree.find, Tree.find]
    split_ifs
    · exact hs₁.goTo_waste .root
    · rfl

theorem Made.madeAt {r : Fs × Option ℕ} (h : Made s path type mode r) (hs : s.tree.Sited)
    (hs' : r.1.tree.Sited) (hlen : path.length < 260) (hhead : path.head? = some slash)
    (hx : r.2 = some x) : x = s.used ∧ s.MadeAt r.1 path x := by
  cases h with
  | refused => cases hx
  | made s₁ p name h hno =>
    cases hx
    rw [lookup_find hs.toNamed] at hno
    rw [h.seen.used]
    have htree := tree_attach h.placed.1 (fresh_new s₁ name type mode)
    rw [fresh_name s₁ h.name_le] at htree
    have hmade := h.madeAt hs hno htree hs'
    refine ⟨rfl, ?_, hmade.frame⟩
    rw [lookup_find hs'.toNamed, ← Tree.find_canonicalizeSystemPath _ hhead hlen,
      ← lookup_find hs'.toNamed]
    exact hmade.found

theorem Made.still {r : Fs × Option ℕ} (h : Made s path type mode r) (hs : s.tree.Sited)
    (hx : r.2 = none) : s.Still r.1 := by
  cases h with
  | refused s₁ h => exact h.still hs
  | made => cases hx

theorem Linking.madeAt (h : Linking s old new r) (hs : s.tree.Sited) (hs' : r.1.tree.Sited)
    (hrc : r.2 = 0) : s.MadeAt r.1 new s.used := by
  cases h with
  | refused s₁ rc h hneg => exact absurd hrc hneg.ne
  | made s₁ src p name h hsrc hno hfile =>
    exact h.madeAt hs (hno hs.toNamed) (tree_share h.placed.1 h.name_le) hs'

theorem Linking.still (h : Linking s old new r) (hs : s.tree.Sited) (hrc : r.2 ≠ 0) :
    s.Still r.1 := by
  cases h with
  | refused s₁ rc h => exact h.still hs
  | made => exact absurd rfl hrc

theorem Unlinked.still (h : Unlinked s path r) (hs : s.tree.Sited) (hrc : r.2 ≠ 0) :
    s.Still r.1 := by
  cases h with
  | refused s₁ h => exact h.still hs
  | cut => exact absurd rfl hrc

theorem DirRemoved.still (h : DirRemoved s path r) (hs : s.tree.Sited) (hrc : r.2 ≠ 0) :
    s.Still r.1 := by
  cases h with
  | refused s₁ rc h => exact h.still hs
  | cut => exact absurd rfl hrc

theorem Renamed.still (h : Renamed s old new r) (hs : s.tree.Sited) (hrc : r.2 ≠ 0) :
    s.Still r.1 := by
  cases h with
  | refused s₁ h => exact h.still hs
  | same | moved | replaced => exact absurd rfl hrc

/-- A path that does not lead through a node: its walk misses the node, or it is one of names alone
that ends elsewhere. -/
def Aside (s : Fs) (x y : ℕ) (q : List UInt8) : Prop :=
  s.tree.Misses x root (components q) ∨ Normal (components q) ∧ ¬ s.tree.Above x y

def Beside (s : Fs) (x : ℕ) (new : List UInt8) : Prop :=
  (s.vfsLookup new).2 = some x ∨ s.tree.Misses x root (components new).dropLast ∨
    Normal (components new).dropLast

structure RenamedAt (s s' : Fs) (old new : List UInt8) (x : ℕ) : Prop where
  found : s.Beside x new → (s'.vfsLookup new).2 = some x
  gone : (s'.vfsLookup old).2 = some x → (s.vfsLookup new).2 = some x ∨
    (s.nodes x).type = .dir ∧ (s'.nodes x).parent = (s.nodes x).parent ∧
      eqDirName (s.nodes x).name (s'.nodes x).name
  below : s.Beside x new → ∀ rest y, Normal (components rest) →
    (s.vfsLookup (old ++ slash :: rest)).2 = some y →
    (s'.vfsLookup (new ++ slash :: rest)).2 = some y
  others : ∀ q y, s.Aside x y q → (s.vfsLookup q).2 = some y →
    (s'.vfsLookup q).2 = some (if (s.vfsLookup new).2 = some y then x else y)

theorem Renamed.moves (h : Renamed s old new r) (hs : s.tree.Sited) (hs' : r.1.tree.Sited)
    (hrc : r.2 = 0) (hslip : ¬ s.Slips (.rename old new)) (hx : s.tree.find old = some x) :
    s.tree.find new = some x ∧ s.Seen r.1 ∨
      s.tree.find new ≠ some x ∧ ∃ s₁ p name, s.Site new s₁ p name ∧ ¬ s₁.tree.Above x p ∧
        s₁.tree.Moves r.1.tree x p name (fun y ↦ if s.tree.find new = some y then x else y) := by
  have hold : ∀ {s₁ x' p name}, s.CanMove old new s₁ x' p name → x' = x := fun h ↦
    Option.some.inj ((h.old.symm.trans (lookup_find hs.toNamed old)).trans hx)
  have hmount : ∀ {s₁ : Fs}, s.Seen s₁ → ∀ q, s₁.tree.mounted q ≠ some x := fun h q hq ↦ by
    rw [h.looks.alike.mounted] at hq
    exact hslip ⟨x, (lookup_find hs.toNamed old).trans hx, .inl ⟨q, hq⟩⟩
  cases h with
  | refused => cases hrc
  | same s₁ x' p name h hnew =>
    obtain rfl := hold h
    exact .inl ⟨hnew hs.toNamed, h.site.seen⟩
  | moved s₁ x' p name h hnew =>
    obtain rfl := hold h
    have hnone := hnew hs.toNamed
    have hs₁ := h.site.seen.sited hs
    obtain ⟨parent, hsplit, hp⟩ := h.site.parent hs
    have hplain := h.site.plain hs (fun z hz ↦ by rw [hnone] at hz; cases hz)
    have hfree :=
      hs₁.free_of_find hsplit hp h.site.dir (((h.site.seen.same hs.toNamed).find new).trans hnone)
    refine .inr ⟨by rw [hnone]; exact nofun, s₁, p, name, h.site, h.not_above hs, ?_⟩
    have hput : (fun y ↦ if none = some y then x' else y) = id := by
      funext y
      exact if_neg nofun
    rw [hnone, hput]
    rw [tree_moveNode] at hs' ⊢
    exact hs₁.moves hs' h.site.dir hplain h.root h.clear (hmount h.site.seen) (h.not_above hs) hfree
  | replaced s₁ s₂ x' p name e ep h hnew hne he hfile hlook =>
    obtain rfl := hold h
    have hsome := hnew hs.toNamed
    have hs₁ := h.site.seen.sited hs
    have hsame := h.site.seen.same hs.toNamed
    obtain ⟨parent, hsplit, hp⟩ := h.site.parent hs
    have hplain := h.site.plain hs (fun z hz ↦ by
      obtain rfl := Option.some.inj (hsome.symm.trans hz)
      exact (h.site.seen.isDir e).symm.trans hfile)
    have hpick := hs₁.pick_of_find hsplit hp h.site.dir ((hsame.find new).trans hsome) hfile
    obtain rfl :=
      Option.some.inj ((hs₁.child ep e he).symm.trans (hs₁.child p e (Tree.pick_mem hpick).2))
    have hcalled : s₁.tree.name e = name := by
      obtain hexact | ⟨-, hcase⟩ := Tree.pick_cases hpick
      · exact hexact
      · have hedir := List.find?_some hcase
        exact absurd (hfile.symm.trans (of_decide_eq_true hedir).1) Bool.false_ne_true
    have htree : (((s₁.cut ep e).vfsDropLink e).moveNode x' ep name).tree =
        (s₁.tree.cut ep e).move x' ep name := by
      rw [tree_moveNode, tree_dropLink, tree_cut]
    have hput : (fun y ↦ if some e = some y then x' else y) = fun y ↦ if y = e then x' else y := by
      funext y
      simp only [Option.some.injEq, eq_comm]
    refine .inr ⟨fun hnew ↦ hne (Option.some.inj (hsome.symm.trans hnew)), s₁, ep, name, h.site,
      h.not_above hs, ?_⟩
    rw [hsome, hput]
    refine Tree.Replaces.moves ?_ hs' hplain
    exact
      { sited := hs₁
        named := hs'.toNamed
        dir := h.site.dir
        visible := hs₁.find_visible hp
        file := hfile
        mem := he
        called := hcalled
        ne := hne
        ne_root := h.root
        clear := h.clear
        mount := hmount h.site.seen
        above := h.not_above hs
        tree := htree
        apart := fun hxdir y hy hyx hydir hlow ↦ by
          have halike := h.site.seen.looks.alike
          rw [halike.isDir] at hxdir hydir hfile
          rw [halike.children] at hy he
          rw [halike.low] at hlow
          rw [halike.file e hfile] at hcalled
          have hplace := (parentForCreate_reads hs.toNamed new).result.trans (h.site.site hs.toNamed)
          refine hslip
            ⟨x', h.old, .inr ⟨of_decide_eq_true hxdir, ep, name, hplace, e, he,
              of_decide_eq_false hfile, hcalled, ?_⟩⟩
          exact ⟨y, hy, hyx, of_decide_eq_true hydir, decide_eq_true hlow⟩ }

theorem Aside.misses (h : s.Aside x y path) (hs : s.tree.Sited) (hy : s.tree.find path = some y) :
    s.tree.Misses x root (components path) := by
  obtain h | ⟨hn, habove⟩ := h
  · exact h
  · unfold Tree.find at hy
    split_ifs at hy
    exact hs.misses_of_not_above hn hy habove

theorem Site.renamedAt (hsite : s.Site new s₁ p name) (hs : s.tree.Sited)
    (habove : ¬ s₁.tree.Above x p) (hnew : s.tree.find new ≠ some x) (hx : s.tree.find old = some x)
    (h : s₁.tree.Moves s'.tree x p name (fun y ↦ if s.tree.find new = some y then x else y)) :
    RenamedAt s s' old new x := by
  have hs₁ := h.sited
  have hn' := h.sited'.toNamed
  have hsame := hsite.seen.same hs.toNamed
  have halike := hsite.seen.looks.alike
  have hx₁ := (hsame.find old).trans hx
  obtain ⟨parent, hsplit, hp⟩ := hsite.parent hs
  obtain ⟨hhead, hhead', -, -, -, hcomps⟩ := splitPath_some hsplit
  rw [Tree.find, if_pos hhead'] at hp
  have hmiss : s.Beside x new → s₁.tree.Misses x root (components parent) := by
    intro hbeside
    rw [Beside, lookup_find hs.toNamed, hcomps, List.dropLast_concat] at hbeside
    obtain hfind | hmiss | hn := hbeside
    · exact absurd hfind hnew
    · exact hsame.misses.2 hmiss
    · exact hs₁.misses_of_not_above hn hp habove
  have hfound : s.Beside x new → s'.tree.find new = some x := by
    intro hbeside
    rw [Tree.find, if_pos hhead, hcomps]
    exact h.found (hmiss hbeside) hp
  constructor
  · intro hbeside
    rw [lookup_find hn']
    exact hfound hbeside
  · intro hgone
    rw [lookup_find hn'] at hgone
    unfold Tree.find at hx₁ hgone
    split_ifs at hx₁ hgone
    obtain ⟨hmem, hdir, hlow⟩ := h.gone (fun c ↦ mem_components) hx₁ hgone
    rw [halike.isDir] at hdir
    rw [halike.low, ← h.called] at hlow
    rw [halike.children] at hmem
    exact .inr ⟨of_decide_eq_true hdir, (h.sited'.child p x h.mem).trans (hs.child p x hmem).symm,
      decide_eq_true hlow⟩
  · intro hbeside tail y hn hy
    rw [lookup_find hs.toNamed, ← hsame.find, Tree.find_append hx₁] at hy
    rw [lookup_find hn', Tree.find_append (hfound hbeside)]
    exact h.goTo_below hn (hs₁.find_visible hx₁) .self hy
  · intro q y haside hy
    rw [lookup_find hs.toNamed] at hy ⊢
    have hmiss := hsame.misses.2 (haside.misses hs hy)
    rw [← hsame.find] at hy
    have hq : q.head? = some slash := by
      by_contra hq
      rw [Tree.find, if_neg hq] at hy
      cases hy
    have hfind : ∀ t : Tree, t.find q = t.goTo root (components q) := fun t ↦ if_pos hq
    rw [hfind] at hy
    rw [lookup_find hn', hfind]
    exact h.goTo hmiss hy

theorem Renamed.renamedAt (h : Renamed s old new r) (hs : s.tree.Sited) (hs' : r.1.tree.Sited)
    (hrc : r.2 = 0) (hslip : ¬ s.Slips (.rename old new)) (hx : (s.vfsLookup old).2 = some x) :
    RenamedAt s r.1 old new x := by
  rw [lookup_find hs.toNamed] at hx
  obtain ⟨hnew, hseen⟩ | ⟨hnew, s₁, p, name, hsite, habove, hmoves⟩ := h.moves hs hs' hrc hslip hx
  · have hstill := hseen.still hs
    have hnew' := (lookup_find hs.toNamed new).trans hnew
    have hfound := (hstill new).trans hnew'
    refine ⟨fun _ ↦ hfound, fun _ ↦ .inl hnew', fun _ tail y _ hy ↦ ?_, fun q y _ hy ↦ ?_⟩
    · rw [hstill, lookup_find hs.toNamed, Tree.find_append hnew]
      rw [lookup_find hs.toNamed, Tree.find_append hx] at hy
      exact hy
    · rw [hstill, hy]
      split_ifs with hxy
      · exact hxy.symm.trans hnew'
      · rfl
  · exact hsite.renamedAt hs habove hnew hx hmoves

/-- The laws that the calls on names keep to. -/
structure PathLaws (s : Fs) : Prop where
  createFile : ∀ path truncate x, (s.vfsCreateFile path truncate).2 = some x →
    (x = s.used ∨ (s.vfsLookup path).2 = some x) ∧ s.MadeAt (s.vfsCreateFile path truncate).1 path x
  createFile_none : ∀ path truncate, (s.vfsCreateFile path truncate).2 = none →
    s.Still (s.vfsCreateFile path truncate).1
  mkdir : ∀ path mode x, path.length < 260 → (s.vfsMkdir path mode).2 = some x →
    x = s.used ∧ s.MadeAt (s.vfsMkdir path mode).1 path x
  mkdir_none : ∀ path mode, (s.vfsMkdir path mode).2 = none → s.Still (s.vfsMkdir path mode).1
  createSocket : ∀ path mode x, path.length < 260 → (s.vfsCreateSocket path mode).2 = some x →
    x = s.used ∧ s.MadeAt (s.vfsCreateSocket path mode).1 path x
  createSocket_none : ∀ path mode, (s.vfsCreateSocket path mode).2 = none →
    s.Still (s.vfsCreateSocket path mode).1
  link : ∀ old new, (s.vfsLink old new).2 = 0 → s.MadeAt (s.vfsLink old new).1 new s.used
  link_ne : ∀ old new, (s.vfsLink old new).2 ≠ 0 → s.Still (s.vfsLink old new).1
  rename : ∀ old new x, ¬ s.Slips (.rename old new) → (s.vfsLookup old).2 = some x →
    (s.vfsRename old new).2 = 0 → RenamedAt s (s.vfsRename old new).1 old new x
  rename_ne : ∀ old new, (s.vfsRename old new).2 ≠ 0 → s.Still (s.vfsRename old new).1
  unlink_ne : ∀ path, (s.vfsUnlink path).2 ≠ 0 → s.Still (s.vfsUnlink path).1
  rmdir_ne : ∀ path, (s.vfsRmdir path).2 ≠ 0 → s.Still (s.vfsRmdir path).1

theorem Sane.call_sited (hs : Sane True s) {c : VfsCall} (hfix : ¬ s.Uproots c) :
    (s.call c).tree.Sited := by
  have hacts : Acts True s (s.call c) := call_acts hs (fun _ ↦ hfix)
  exact (hacts.sane hs).sited trivial

theorem not_uproots_of_slips (h : ¬ s.Slips (.rename old new)) : ¬ s.Uproots (.rename old new) :=
  fun ⟨_, x, q, hx, hq⟩ ↦ h ⟨x, hx, .inl ⟨q, hq⟩⟩

theorem head_of_makeNode (h : (s.makeNode path type mode).2 = some x) :
    path.head? = some slash := by
  by_contra hhead
  rw [makeNode, if_pos (.inl hhead)] at h
  cases h

theorem Sane.pathLaws (hs : Sane True s) : s.PathLaws := by
  have hsited := hs.sited trivial
  have hnode : ∀ {path : List UInt8} {type : NodeType} {mode x : ℕ},
      (s.makeNode path type mode).1.tree.Sited → path.length < 260 →
      (s.makeNode path type mode).2 = some x → x = s.used ∧
        s.MadeAt (s.makeNode path type mode).1 path x := fun hs' hlen hx ↦
    (makeNode_made hs.linked _ _ _).madeAt hsited hs' hlen (head_of_makeNode hx) hx
  constructor
  case createFile =>
    intro path truncate x hx
    have hs' : (s.call (.createFile path truncate)).tree.Sited := hs.call_sited not_false
    exact (createFile_created hs.linked path truncate).madeAt hsited hs' hx
  case mkdir =>
    intro path mode x hlen hx
    have hs' : (s.call (.mkdir path mode)).tree.Sited := hs.call_sited not_false
    exact hnode hs' hlen hx
  case createSocket =>
    intro path mode x hlen hx
    have hs' : (s.call (.createSocket path mode)).tree.Sited := hs.call_sited not_false
    exact hnode hs' hlen hx
  case link =>
    intro old new hrc
    have hs' : (s.call (.link old new)).tree.Sited := hs.call_sited not_false
    exact (link_linking hs.linked hs.owners old new).madeAt hsited hs' hrc
  case rename =>
    intro old new x hslip hx hrc
    have hs' : (s.call (.rename old new)).tree.Sited := hs.call_sited (not_uproots_of_slips hslip)
    exact (rename_renamed hs.linked old new).renamedAt hsited hs' hrc hslip hx
  case createFile_none =>
    exact fun path truncate hx ↦ (createFile_created hs.linked path truncate).still hsited hx
  case mkdir_none => exact fun path mode hx ↦ (makeNode_made hs.linked path _ _).still hsited hx
  case createSocket_none =>
    exact fun path mode hx ↦ (makeNode_made hs.linked path _ _).still hsited hx
  case link_ne => exact fun old new hrc ↦ (link_linking hs.linked hs.owners old new).still hsited hrc
  case rename_ne => exact fun old new hrc ↦ (rename_renamed hs.linked old new).still hsited hrc
  case unlink_ne => exact fun path hrc ↦ (unlink_unlinked s path).still hsited hrc
  case rmdir_ne => exact fun path hrc ↦ (rmdir_dirRemoved s path).still hsited hrc

/-- The laws hold after every run that moves no root of a mount. -/
theorem run_pathLaws (calls : List VfsCall) (h : Spared Uproots vfsInit calls) :
    (vfsInit.run calls).PathLaws :=
  (run_sane vfsInit_sane h).pathLaws

/-- The laws after a directory has been moved. -/
theorem run_pathLaws_rename :
    Spared Uproots vfsInit renameDir ∧ (vfsInit.run renameDir).PathLaws := by
  have hspared : Spared Uproots vfsInit renameDir := ⟨not_false, madeDir_not_uproots, trivial⟩
  exact ⟨hspared, run_pathLaws renameDir hspared⟩

/-- The paths that no call cuts off. -/
def Fits (path : List UInt8) : Prop :=
  path.head? = some slash ∧ path.length < 260 ∧ ∀ c ∈ components path, c.length ≤ vfsNameMax

def nestedDirs : List VfsCall := [.mkdir (text "/a") 0o755, .mkdir (text "/a/x") 0o755]

/-- A path through a directory and up again does not lead anywhere when the directory has been
moved. -/
theorem not_run_pathLaws :
    ¬ ∀ (calls : List VfsCall) (old new q : List UInt8) (x y : ℕ), Fits old → Fits new → Fits q →
    ((vfsInit.run calls).vfsLookup old).2 = some x → ((vfsInit.run calls).vfsLookup new).2 = none →
    ((vfsInit.run calls).vfsRename old new).2 = 0 → ¬ (vfsInit.run calls).tree.Above x y →
    ((vfsInit.run calls).vfsLookup q).2 = some y →
      (((vfsInit.run calls).vfsRename old new).1.vfsLookup q).2 = some y := by
  intro h
  obtain ⟨hfits, hparent, hbefore, hafter⟩ :
      (∀ path ∈ [text "/a/x", text "/b", text "/a/./x/.."], Fits path) ∧
      (vfsInit.run nestedDirs).tree.parent 60 = some 59 ∧
      (((vfsInit.run nestedDirs).vfsLookup (text "/a/x")).2 = some 60 ∧
        ((vfsInit.run nestedDirs).vfsLookup (text "/b")).2 = none ∧
        ((vfsInit.run nestedDirs).vfsRename (text "/a/x") (text "/b")).2 = 0 ∧
        ((vfsInit.run nestedDirs).vfsLookup (text "/a/./x/..")).2 = some 59) ∧
      (((vfsInit.run nestedDirs).vfsRename (text "/a/x") (text "/b")).1.vfsLookup
        (text "/a/./x/..")).2 = none := by
    unfold Fits
    decide +kernel
  have hsited : (vfsInit.run nestedDirs).tree.Sited := run_sited ⟨not_false, not_false, trivial⟩
  have habove : ¬ (vfsInit.run nestedDirs).tree.Above 60 59 :=
    hsited.not_above (.child hparent (hsited.reach 60 59 hparent)) hparent
  have hlook := h nestedDirs _ _ _ 60 59 (hfits _ (by simp)) (hfits _ (by simp)) (hfits _ (by simp))
    hbefore.1 hbefore.2.1 hbefore.2.2.1 habove hbefore.2.2.2
  rw [hafter] at hlook
  cases hlook

end Fs

end YabroOS.Vfs
