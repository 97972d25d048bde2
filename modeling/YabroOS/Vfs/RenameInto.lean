import YabroOS.Vfs.ProcessPaths
import YabroOS.Vfs.Unmoved

namespace YabroOS.Vfs

open Fat Function

variable {acc : List (List UInt8)} {c : List UInt8} {path out dir name : List UInt8}

def entryPath (dir name : List UInt8) : List UInt8 :=
  if dir = [slash] then slash :: name else dir ++ slash :: name

def appended (an : List UInt8) : List UInt8 := (Fs.lastName an).take (126 - an.length)

theorem normalPath_concat (hne : acc ≠ []) :
    normalPath (acc ++ [c]) = normalPath acc ++ slash :: c := by
  rw [normalPath, intercalate_concat hne]
  rfl

theorem normalPath_ne (h : Normal acc) (hne : acc ≠ []) : normalPath acc ≠ [slash] := by
  intro heq
  have hcomps := components_normalPath h
  rw [heq] at hcomps
  exact hne hcomps.symm

theorem entryPath_normalPath (h : Normal acc) :
    entryPath (normalPath acc) c = normalPath (acc ++ [c]) := by
  unfold entryPath
  cases acc with
  | nil =>
    rw [if_pos (show normalPath [] = [slash] from rfl), List.nil_append, normalPath,
      List.intercalate_singleton]
  | cons a rest =>
    rw [if_neg (normalPath_ne h (List.cons_ne_nil a rest)),
      normalPath_concat (List.cons_ne_nil a rest)]

theorem lastName_append (pre : List UInt8) (h : slash ∉ c) :
    Fs.lastName (pre ++ slash :: c) = c := by
  unfold Fs.lastName
  induction c using List.reverseRecOn with
  | nil => simp
  | append_singleton c b ih =>
    rw [List.mem_append, not_or, List.mem_singleton] at h
    rw [← List.cons_append, ← List.append_assoc,
      List.rtakeWhile_concat_pos _ _ _ (by simpa using Ne.symm h.2), ih h.1]

theorem normalPath_suffix (parts : List (List UInt8)) (c : List UInt8) :
    ∃ pre, normalPath (parts ++ [c]) = pre ++ slash :: c := by
  cases parts with
  | nil =>
    exact ⟨[], by rw [List.nil_append, normalPath, List.intercalate_singleton, List.nil_append]⟩
  | cons a rest => exact ⟨_, normalPath_concat (List.cons_ne_nil a rest)⟩

theorem lastName_normalPath (h : Normal (acc ++ [c])) :
    Fs.lastName (normalPath (acc ++ [c])) = c := by
  have hc := (h c (by simp)).2.1
  obtain ⟨pre, hpre⟩ := normalPath_suffix acc c
  rw [hpre]
  exact lastName_append pre hc

namespace Tree

variable {t : Tree} {x y z d : ℕ} {parts sp dp : List (List UInt8)} {b : List UInt8}

theorem goTo_name (hc : c ≠ dot ∧ c ≠ dotdot) (hlen : c.length ≤ vfsNameMax)
    (hy : t.goTo root parts = some y) (hclear : t.mounted y = none) :
    t.goTo root (parts ++ [c]) = (t.pick y c).map t.mr := by
  have hmr : t.mr y = y := by rw [mr, hclear, Option.getD_none]
  rw [goTo_append, hy, Option.bind_some]
  simp only [goTo, List.take_of_length_le hlen, if_neg hc.1, if_neg hc.2, hmr]
  cases t.pick y c with
  | none => rfl
  | some z => rfl

theorem Sited.goTo_name_some (h : t.Sited) (hc : c ≠ dot ∧ c ≠ dotdot)
    (hlen : c.length ≤ vfsNameMax) (hx : t.goTo root (parts ++ [c]) = some x) :
    ∃ y z, t.goTo root parts = some y ∧ t.Visible y ∧ t.pick y c = some z ∧ t.mr z = x := by
  rw [goTo_append] at hx
  obtain ⟨y, hy, -⟩ := Option.bind_eq_some_iff.1 hx
  have hvis := h.goTo_visible .root hy
  rw [← goTo_append, goTo_name hc hlen hy (h.visible_clear hvis)] at hx
  obtain ⟨z, hz, hzx⟩ := Option.map_eq_some_iff.1 hx
  exact ⟨y, z, hy, hvis, hz, hzx⟩

theorem Sited.not_above_dir (h : t.Sited) (hvis : t.Visible y) (hz : t.pick y c = some z)
    (hzx : t.mr z = x) : ¬ t.Above x y := by
  have hpar := h.child y z (pick_mem hz).2
  have hreach := Reach.child hpar (h.visible_reach hvis)
  intro habove
  unfold mr at hzx
  cases hm : t.mounted z with
  | none =>
    rw [hm, Option.getD_none] at hzx
    exact h.not_above hreach hpar (hzx ▸ habove)
  | some r =>
    rw [hm, Option.getD_some] at hzx
    have hrpar := (h.mount z r hm).1
    exact h.not_above (.child hrpar hreach) hrpar (hzx ▸ .child hpar habove)

theorem Sited.goTo_ne_root (h : t.Sited) (hn : Normal parts) (hne : parts ≠ [])
    (hx : t.goTo root parts = some x) : x ≠ root := by
  rintro rfl
  induction parts using List.reverseRecOn with
  | nil => exact hne rfl
  | append_singleton parts c _ =>
    obtain ⟨-, -, hdot, hdotdot⟩ := hn c (by simp)
    rw [goTo_append] at hx
    obtain ⟨y, hy, hx⟩ := Option.bind_eq_some_iff.1 hx
    simp only [goTo, if_neg (take_ne (by decide) hdot), if_neg (take_ne (by decide) hdotdot)] at hx
    obtain ⟨z, hz, hzr⟩ := Option.bind_eq_some_iff.1 hx
    have hzr : t.mr z = root := Option.some.inj hzr
    have hparent : t.parent root ≠ none := by
      unfold mr at hzr
      cases hm : t.mounted z with
      | none =>
        rw [hm, Option.getD_none] at hzr
        rw [← hzr, h.child _ z (pick_mem hz).2]
        exact Option.some_ne_none _
      | some r =>
        rw [hm, Option.getD_some] at hzr
        rw [← hzr, (h.mount z r hm).1]
        exact Option.some_ne_none _
    exact hparent h.root_parent

theorem Sited.not_above_root (h : t.Sited) (hroot : x ≠ root) : ¬ t.Above x root := by
  intro habove
  cases habove with
  | self => exact hroot rfl
  | child hp _ =>
    rw [h.root_parent] at hp
    cases hp

section Move

variable (h : t.Sited) (hroot : x ≠ root) (hnamed : (t.move x d b).Named)
  (hfree : ∀ y ∈ t.children d, y ≠ x → t.isDir y = true → lower (t.name y) ≠ lower b)
include h hroot hnamed hfree

theorem Sited.move_goTo (hdp : Normal dp) (hd : t.goTo root dp = some y) (habove : ¬ t.Above x y) :
    (t.move x d b).goTo root dp = some y :=
  (h.toNamed.holds_move hnamed hfree).goTo h .root
    (List.forall_mem_singleton.2 (h.not_above_root hroot))
    (List.forall_mem_singleton.2 (h.misses_of_not_above hdp hd habove)) hd

variable (hsp : Normal (sp ++ [b])) (hlen : b.length ≤ vfsNameMax)
include hsp hlen

theorem Sited.move_found (hdp : Normal dp) (hd : t.goTo root dp = some d) (habove : ¬ t.Above x d)
    (hclear : t.mounted x = none) (hdir : t.isDir d = true) :
    (t.move x d b).goTo root (dp ++ [b]) = some x := by
  have hd' := h.move_goTo hroot hnamed hfree hdp hd habove
  obtain ⟨-, -, hdot, hdotdot⟩ := hsp b (by simp)
  have hmem : x ∈ (t.move x d b).children d := h.mem_move.2 (.inl ⟨rfl, rfl⟩)
  rw [goTo_name ⟨hdot, hdotdot⟩ hlen hd' (h.visible_clear (h.goTo_visible .root hd)),
    hnamed.pick_exact hdir hmem (update_self _ _ _), Option.map_some, mr,
    show (t.move x d b).mounted x = none from hclear,
    Option.getD_none]

theorem Sited.move_gone (hx : t.goTo root (sp ++ [b]) = some x) (hd : t.goTo root dp = some d)
    (hno : t.goTo root (dp ++ [b]) = none) (hmount : ∀ q, t.mounted q ≠ some x) :
    (t.move x d b).goTo root (sp ++ [b]) ≠ some x := by
  obtain ⟨-, -, hdot, hdotdot⟩ := hsp b (by simp)
  have hsp' : Normal sp := fun c hc ↦ hsp c (List.mem_append_left _ hc)
  obtain ⟨y, z, hy, hvis, hz, hzx⟩ := h.goTo_name_some ⟨hdot, hdotdot⟩ hlen hx
  have hy' := h.move_goTo hroot hnamed hfree hsp' hy (h.not_above_dir hvis hz hzx)
  have hself : ∀ w, (t.move x d b).mr w = x → w = x := by
    intro w hw
    unfold mr at hw
    cases hm : (t.move x d b).mounted w with
    | none =>
      rw [hm] at hw
      exact hw
    | some r =>
      rw [hm] at hw
      exact absurd (hw ▸ hm) (hmount w)
  intro hgone
  rw [goTo_name ⟨hdot, hdotdot⟩ hlen hy' (h.visible_clear hvis)] at hgone
  obtain ⟨w, hw, hwx⟩ := Option.map_eq_some_iff.1 hgone
  obtain rfl := hself w hwx
  obtain ⟨rfl, -⟩ | ⟨-, hne⟩ := h.mem_move.1 (pick_mem hw).2
  · -- the node was in the directory before, under the name that was free there
    rw [goTo_name ⟨hdot, hdotdot⟩ hlen hd (h.visible_clear (h.goTo_visible .root hd)), hz] at hno
    cases hno
  · exact hne rfl

theorem Sited.move_mounted (hx : t.goTo root (sp ++ [b]) = some x) {q : ℕ}
    (hq : t.mounted q = some x) : (t.move x d b).goTo root (sp ++ [b]) = some x := by
  obtain ⟨-, -, hdot, hdotdot⟩ := hsp b (by simp)
  have hsp' : Normal sp := fun c hc ↦ hsp c (List.mem_append_left _ hc)
  obtain ⟨y, z, hy, hvis, hz, hzx⟩ := h.goTo_name_some ⟨hdot, hdotdot⟩ hlen hx
  have hy' := h.move_goTo hroot hnamed hfree hsp' hy (h.not_above_dir hvis hz hzx)
  have hne : z ≠ x := by
    rintro rfl
    exact (h.mount q z hq).2.2 y (pick_mem hz).2
  rw [goTo_name ⟨hdot, hdotdot⟩ hlen hy' (h.visible_clear hvis),
    (h.toNamed.holds_move hnamed hfree).pick y b z hz (fun hzx ↦ hne (List.mem_singleton.1 hzx))]
  exact congrArg some hzx

end Move

end Tree

namespace Fs

variable {s s' s₁ : Fs} {x d cwd cap : ℕ} {old new ao an : List UInt8} {parts : List (List UInt8)}

/-- The node is in the directory under its old name, and nothing else has changed there. -/
structure MovedInto (s s' : Fs) (x d : ℕ) (ao an : List UInt8) : Prop where
  found : (s'.vfsLookup (entryPath an (lastName ao))).2 = some x
  name : (s'.nodes x).name = lastName ao
  gone : (s'.vfsLookup ao).2 ≠ some x
  others : ∀ y ≠ x, (y ∈ (s'.nodes d).children ↔ y ∈ (s.nodes d).children) ∧
    (y ∈ (s.nodes d).children → (s'.nodes y).name = (s.nodes y).name)

theorem renameTarget_eq (h : Normal (parts ++ [c])) (han : an = normalPath (parts ++ [c]))
    (hlen : an.length < 128) :
    renameTarget an = if 127 ≤ an.length then none else some (an ++ slash :: appended an) := by
  obtain ⟨hne, hslash, -⟩ := h c (by simp)
  obtain ⟨pre, hpre⟩ := normalPath_suffix parts c
  have htake : an.take 127 = an := List.take_of_length_le (by omega)
  have hlast : an.getLast? ≠ some slash := by
    rw [han, hpre, List.getLast?_append_cons, List.getLast?_cons_of_ne_nil hne]
    exact fun hlast ↦ hslash (List.mem_of_getLast? hlast)
  have hlong : 1 < an.length := by
    have hpos := List.length_pos_iff.2 hne
    rw [han, hpre, List.length_append, List.length_cons]
    omega
  unfold renameTarget
  simp only [htake, hlast, and_false, if_false, hlong, if_true, List.length_append,
    List.length_singleton]
  split_ifs with hfull
  · rfl
  · rw [appended, show 127 - (an.length + 1) = 126 - an.length by omega, List.append_assoc,
      List.singleton_append]

theorem renameTarget_root : renameTarget [slash] = some [slash] := by decide

theorem find_normalPath {t : Tree} (h : Normal parts) :
    t.find (normalPath parts) = t.goTo root parts := by
  have hhead : (normalPath parts).head? = some slash := rfl
  rw [Tree.find, if_pos hhead, components_normalPath h]

theorem sysRename_zero (hs : s.tree.Named) (hao : s.resolveProcessPath cwd old 128 = .ok ao)
    (han : s.resolveProcessPath cwd new 128 = .ok an) (hd : s.tree.find an = some d)
    (hdir : s.tree.isDir d = true) (hrc : (s.sysRename cwd (some old) (some new)).2 = 0) :
    ∃ s₁ target, s.Seen s₁ ∧ renameTarget an = some target ∧
      (s.sysRename cwd (some old) (some new)).1 = (s₁.vfsRename ao target).1 ∧
        (s₁.vfsRename ao target).2 = 0 := by
  unfold sysRename at hrc ⊢
  cases hro : userCopyCstr (some old) with
  | none =>
    rw [hro] at hrc
    cases hrc
  | some ro =>
  obtain rfl : old = ro := by
    simpa [userCopyCstr, Option.filter] using (Option.mem_filter_iff.1 hro).1
  cases hrn : userCopyCstr (some new) with
  | none =>
    rw [hro, hrn] at hrc
    cases hrc
  | some rn =>
  obtain rfl : new = rn := by
    simpa [userCopyCstr, Option.filter] using (Option.mem_filter_iff.1 hrn).1
  rw [hro, hrn] at hrc
  dsimp only at hrc ⊢
  rw [hao, han] at hrc ⊢
  dsimp only at hrc ⊢
  have hseen := lookup_seen s ao
  generalize s.vfsLookup ao = r at hseen hrc ⊢
  obtain ⟨s₁, r⟩ := r
  cases r with
  | none => cases hrc
  | some _ =>
  dsimp only at hrc ⊢
  have hseen' := lookup_seen s₁ an
  have hfind : (s₁.vfsLookup an).2 = some d := (hseen.find hs an).trans hd
  generalize s₁.vfsLookup an = r at hseen' hfind hrc ⊢
  obtain ⟨s₂, r⟩ := r
  obtain rfl : r = some d := hfind
  have hseen₂ := hseen.trans hseen'
  have htype : s₂.isType d .dir = true := by
    have hdir₂ := (hseen₂.isDir d).trans hdir
    simpa [isType, tree] using hdir₂
  dsimp only at hrc ⊢
  rw [Option.any_some, if_pos htype] at hrc ⊢
  cases htarget : renameTarget an with
  | none =>
    rw [htarget] at hrc
    cases hrc
  | some target =>
  rw [htarget] at hrc
  dsimp only at hrc ⊢
  refine ⟨s₂, target, hseen₂, rfl, rfl, ?_⟩
  by_contra hne
  rw [if_neg hne] at hrc
  cases hrc

theorem Site.of_append {e target : List UInt8} {p : ℕ} {name : List UInt8}
    (h : s.Site target s₁ p name) (hs : s.tree.Named) (hcomps : components target = parts ++ [e])
    (hd : s.tree.goTo root parts = some d) : p = d ∧ name = e := by
  obtain ⟨⟨parent, q⟩, hsplit, hp⟩ := Option.bind_eq_some_iff.1 (h.site hs)
  obtain ⟨p', hp', hpp⟩ := Option.map_eq_some_iff.1 hp
  cases hpp
  obtain ⟨-, hhead, -, -, -, hcomps'⟩ := splitPath_some hsplit
  obtain ⟨rfl, hname⟩ := List.append_inj' (hcomps'.symm.trans hcomps) rfl
  rw [Tree.find, if_pos hhead] at hp'
  exact ⟨Option.some.inj (hp'.symm.trans hd), List.head_eq_of_cons_eq hname⟩

theorem moveNode_name (s : Fs) (x p : ℕ) (name : List UInt8) :
    ((s.moveNode x p name).nodes x).name = name := by
  have hname := congrArg (fun t ↦ t.name x) (tree_moveNode s x p name)
  exact hname.trans (update_self _ _ _)

theorem movedInto_iff {s₂ : Fs} {sp dp : List (List UInt8)} {b e : List UInt8} (hs : s.tree.Sited)
    (hseen : s.Seen s₂) (hsp : Stacked (sp ++ [b])) (hdp : Normal dp) (hdpne : dp ≠ [])
    (hx : s.tree.goTo root (sp ++ [b]) = some x) (hd : s.tree.goTo root dp = some d)
    (hroot : x ≠ root) (hclear : s₂.tree.mounted x = none) (hplaced : s₂.Placed x)
    (hdir : s₂.tree.isDir d = true) (habove : ¬ s.tree.Above x d)
    (hno : s.tree.goTo root (dp ++ [b]) = none) (hfree : s₂.tree.Free d e) :
    MovedInto s (s₂.moveNode x d e) x d (normalPath (sp ++ [b])) (normalPath dp) ↔ b = e ∧
      ∀ q, (s.nodes q).mounted ≠ some x := by
  have hs₂ := hseen.sited hs
  have hsame := hseen.same hs.toNamed
  have hused : d < s₂.used :=
    hs₂.reach_used (hs₂.visible_reach (hs₂.goTo_visible .root ((hsame.goTo).trans hd)))
  have hnamed : (s₂.tree.move x d e).Named :=
    hs₂.toNamed.move hplaced.1 hused hdir (fun y hy _ ↦ (hfree y hy).1)
  have hcase : ∀ y ∈ s₂.tree.children d, y ≠ x → s₂.tree.isDir y = true →
      lower (s₂.tree.name y) ≠ lower e :=
    fun y hy _ hydir ↦ (hfree y hy).2 hydir
  have htree := tree_moveNode s₂ x d e
  have hnamed' : (s₂.moveNode x d e).tree.Named := by
    rw [htree]
    exact hnamed
  have hdpb : Normal (dp ++ [b]) := by
    intro c hc
    obtain hc | hc := List.mem_append.1 hc
    · exact hdp c hc
    · obtain rfl := List.mem_singleton.1 hc
      exact hsp.normal c (by simp)
  have hlen : b.length ≤ vfsNameMax := hsp.short b (by simp)
  have habove₂ : ¬ s₂.tree.Above x d :=
    fun ha ↦ habove (ha.mono (fun y q hq ↦ by rw [hsame.parent] at hq; exact hq))
  constructor
  · intro hinto
    have hname := hinto.name
    rw [moveNode_name, lastName_normalPath hsp.normal] at hname
    subst hname
    refine ⟨rfl, fun q hq ↦ hinto.gone ?_⟩
    rw [lookup_find hnamed', htree, find_normalPath hsp.normal]
    exact hs₂.move_mounted hroot hnamed hcase hsp.normal hlen ((hsame.goTo).trans hx) (q := q)
      ((congrFun hseen.looks.alike.mounted q).trans hq)
  · rintro ⟨rfl, hmount⟩
    refine ⟨?_, ?_, ?_, fun y hyx ↦ ⟨?_, fun hy ↦ ?_⟩⟩
    · rw [lookup_find hnamed', htree, lastName_normalPath hsp.normal, entryPath_normalPath hdp,
        find_normalPath hdpb]
      exact hs₂.move_found hroot hnamed hcase hsp.normal hlen hdp ((hsame.goTo).trans hd) habove₂
        hclear hdir
    · rw [moveNode_name, lastName_normalPath hsp.normal]
    · rw [lookup_find hnamed', htree, find_normalPath hsp.normal]
      refine hs₂.move_gone hroot hnamed hcase hsp.normal hlen ((hsame.goTo).trans hx)
        ((hsame.goTo).trans hd) ((hsame.goTo).trans hno) (fun q hq ↦ hmount q ?_)
      exact (congrFun hseen.looks.alike.mounted q).symm.trans hq
    · have hmem : y ∈ (s₂.tree.move x d b).children d ↔ y ∈ s.tree.children d := by
        rw [hs₂.mem_move, hsame.children]
        exact ⟨fun h ↦ h.elim (fun h ↦ absurd h.2 hyx) And.left, fun h ↦ .inr ⟨h, hyx⟩⟩
      rw [← htree] at hmem
      exact hmem
    · have hparent : s.tree.parent y ≠ some root := by
        rw [hs.child d y hy]
        exact fun hdroot ↦ hs.goTo_ne_root hdp hdpne hd (Option.some.inj hdroot)
      have hkept : (s₂.moveNode x d b).tree.name y = s₂.tree.name y := by
        rw [htree]
        exact update_of_ne hyx _ _
      exact hkept.trans (hseen.name y hparent)

theorem sysRename_movedInto (hs : Sane True s) (hao : s.resolveProcessPath cwd old 128 = .ok ao)
    (han : s.resolveProcessPath cwd new 128 = .ok an) (hx : s.tree.find ao = some x)
    (hd : s.tree.find an = some d) (hdir : s.tree.isDir d = true) (hdx : d ≠ x)
    (habove : ¬ s.tree.Above x d) (hno : s.tree.find (entryPath an (lastName ao)) = none)
    (hrc : (s.sysRename cwd (some old) (some new)).2 = 0) :
    MovedInto s (s.sysRename cwd (some old) (some new)).1 x d ao an ↔
      lastName ao = appended an ∧ ∀ q, (s.nodes q).mounted ≠ some x := by
  have hsited := hs.sited trivial
  have hn := hsited.toNamed
  obtain ⟨s₁, target, hseen, htarget, hres, hzero⟩ := sysRename_zero hn hao han hd hdir hrc
  rw [hres]
  obtain ⟨sp, hsp, rfl, -⟩ := resolveProcessPath_canonical hao
  obtain ⟨dp, hdp, rfl, hdlen⟩ := resolveProcessPath_canonical han
  have hs₁ := hseen.sane hs
  have hren := rename_renamed hs₁.linked (normalPath sp) target
  obtain ⟨s₂, x', p, name, hcan⟩ := hren.canMove hzero
  obtain ⟨parent, hsplit⟩ := hcan.site.split
  have hxx : ∀ {x'}, (s₁.vfsLookup (normalPath sp)).2 = some x' → x' = x := fun hx' ↦
    Option.some.inj (hx'.symm.trans ((hseen.find hn _).trans hx))
  obtain rfl := hxx hcan.old
  -- the root has no name, neither to move it under nor to append
  obtain rfl | ⟨dp, c, rfl⟩ := List.eq_nil_or_concat' dp
  · obtain rfl : target = [slash] := Option.some.inj (htarget.symm.trans renameTarget_root)
    cases hsplit
  obtain rfl | ⟨sp, b, rfl⟩ := List.eq_nil_or_concat' sp
  · exact absurd (Option.some.inj hx).symm hcan.root
  rw [renameTarget_eq hdp.normal rfl hdlen] at htarget
  split_ifs at htarget
  obtain rfl := Option.some.inj htarget
  rw [lastName_normalPath hsp.normal] at hno ⊢
  have heslash : slash ∉ appended (normalPath (dp ++ [c])) := fun hmem ↦
    slash_not_mem_rtakeWhile _ (List.mem_of_mem_take hmem)
  generalize appended (normalPath (dp ++ [c])) = e at *
  generalize hdc : dp ++ [c] = dp' at *
  have hdpne : dp' ≠ [] := by
    rw [← hdc]
    simp
  rw [find_normalPath hsp.normal] at hx
  rw [find_normalPath hdp.normal] at hd
  have hentry : s.tree.goTo root (dp' ++ [b]) = none := by
    rw [entryPath_normalPath hdp.normal] at hno
    rw [← find_normalPath ?_]
    · exact hno
    · intro w hw
      obtain hw | hw := List.mem_append.1 hw
      · exact hdp.normal w hw
      · obtain rfl := List.mem_singleton.1 hw
        exact hsp.normal w (by simp)
  have hcomps : components (normalPath dp' ++ slash :: e) = dp' ++ components e := by
    rw [components_append, components_normalPath hdp.normal]
  have hfind : s₁.tree.find (normalPath dp' ++ slash :: e) =
      s.tree.goTo root (dp' ++ components e) := by
    have hhead : (normalPath dp' ++ slash :: e).head? = some slash := rfl
    rw [Tree.find, if_pos hhead, hcomps, (hseen.same hn).goTo]
  have hempty : e = [] → s₁.tree.find (normalPath dp' ++ slash :: e) = some d := by
    intro he
    rw [hfind, he, components_nil, List.append_nil, hd]
  have hn₁ := hseen.named hn
  have hd₁ : s₁.tree.goTo root dp' = some d := ((hseen.same hn).goTo).trans hd
  have hplace : ∀ {s₂ x p name}, s₁.CanMove (normalPath (sp ++ [b])) (normalPath dp' ++ slash :: e)
      s₂ x p name → e ≠ [] → p = d ∧ name = e := fun h he ↦ by
    refine h.site.of_append hn₁ ?_ hd₁
    rw [hcomps, components_name heslash he]
  have hbe : e = b → s₁.tree.find (normalPath dp' ++ slash :: e) = none := by
    rintro rfl
    rw [hfind, components_name heslash (hsp.normal e (by simp)).1, hentry]
  clear hcan hsplit
  cases hres' : s₁.vfsRename (normalPath (sp ++ [b])) (normalPath dp' ++ slash :: e) with
  | mk s' rc =>
  rw [hres'] at hren hzero
  cases hren with
  | refused => cases hzero
  | same _ x₂ p₂ name₂ h hfound =>
    have hne : b ≠ e := fun hb ↦ by
      have hnone := (hbe hb.symm).symm.trans (hfound hn₁)
      cases hnone
    refine ⟨fun hinto ↦ ?_, fun hb ↦ absurd hb.1 hne⟩
    have hfound' := hinto.found
    rw [lastName_normalPath hsp.normal, (hseen.trans h.site.seen).find hn, hno] at hfound'
    cases hfound'
  | moved s₃ x₂ p₂ name₂ h hfound =>
    obtain rfl := hxx h.old
    have he : e ≠ [] := by
      intro he
      have hnone := (hempty he).symm.trans (hfound hn₁)
      cases hnone
    obtain ⟨rfl, rfl⟩ := hplace h he
    have hseen₃ := hseen.trans h.site.seen
    obtain ⟨parent, hsplit, hp⟩ := h.site.parent (hseen.sited hsited)
    have hfree := (hseen₃.sited hsited).free_of_find hsplit hp h.site.dir
      (((h.site.seen.same hn₁).find _).trans (hfound hn₁))
    exact movedInto_iff hsited hseen₃ hsp hdp.normal hdpne hx hd h.root h.clear
      (h.site.seen.placed.2 (lookup_placed hs₁.linked h.old)) h.site.dir habove hentry hfree
  | replaced s₃ s₄ x₂ p₂ name₂ f fp h hfound hfx hf hfile =>
    obtain rfl := hxx h.old
    have he : e ≠ [] := by
      intro he
      obtain rfl := Option.some.inj ((hempty he).symm.trans (hfound hn₁))
      rw [(hseen.trans h.site.seen).isDir, hdir] at hfile
      cases hfile
    obtain ⟨rfl, rfl⟩ := hplace h he
    have hne : b ≠ name₂ := fun hb ↦ by
      have hnone := (hbe hb.symm).symm.trans (hfound hn₁)
      cases hnone
    refine ⟨fun hinto ↦ ?_, fun hb ↦ absurd hb.1 hne⟩
    have hname := hinto.name
    rw [moveNode_name, lastName_normalPath hsp.normal] at hname
    exact absurd hname.symm hne

/-- `sys_rename` into a directory is right for the names that end like the directory. -/
theorem sysRename_into (calls : List VfsCall) (h : Spared Uproots vfsInit calls) (cwd : ℕ)
    (old new ao an : List UInt8) (x d : ℕ)
    (hao : (vfsInit.run calls).resolveProcessPath cwd old 128 = .ok ao)
    (han : (vfsInit.run calls).resolveProcessPath cwd new 128 = .ok an)
    (hx : ((vfsInit.run calls).vfsLookup ao).2 = some x)
    (hd : ((vfsInit.run calls).vfsLookup an).2 = some d)
    (hdir : ((vfsInit.run calls).nodes d).type = .dir) (hdx : d ≠ x)
    (habove : ¬ (vfsInit.run calls).tree.Above x d)
    (hno : ((vfsInit.run calls).vfsLookup (entryPath an (lastName ao))).2 = none)
    (hrc : ((vfsInit.run calls).sysRename cwd (some old) (some new)).2 = 0) :
    MovedInto (vfsInit.run calls) ((vfsInit.run calls).sysRename cwd (some old) (some new)).1 x d ao
      an ↔ lastName ao = appended an ∧ ∀ q, ((vfsInit.run calls).nodes q).mounted ≠ some x := by
  have hs := run_sane vfsInit_sane h
  have hn := (hs.sited trivial).toNamed
  rw [lookup_find hn] at hx hd hno
  exact sysRename_movedInto hs hao han hx hd (decide_eq_true hdir) hdx habove hno hrc

theorem not_mounted_of_file (h : s.tree.Linked) (hfile : s.tree.isDir x = false) (q : ℕ) :
    (s.nodes q).mounted ≠ some x := by
  intro hq
  rw [(h.mounted q x hq).2] at hfile
  cases hfile

def twoNames : List VfsCall := [.createFile (text "/f") false, .mkdir (text "/tmp/f") 0o755]

theorem twoNames_spared : Spared Uproots vfsInit twoNames := ⟨not_false, not_false, trivial⟩

theorem twoNames_paths :
    ((vfsInit.run twoNames).tree.isDir 59 = false ∧ (vfsInit.run twoNames).tree.isDir 60 = true) ∧
    ((vfsInit.run twoNames).resolveProcessPath root (text "/f") 128 = .ok (text "/f") ∧
      (vfsInit.run twoNames).resolveProcessPath root (text "/tmp/f") 128 = .ok (text "/tmp/f")) ∧
    (((vfsInit.run twoNames).vfsLookup (text "/f")).2 = some 59 ∧
      ((vfsInit.run twoNames).vfsLookup (text "/tmp/f")).2 = some 60) ∧
    (((vfsInit.run twoNames).nodes 60).type = .dir ∧
      ((vfsInit.run twoNames).vfsLookup (entryPath (text "/tmp/f") (lastName (text "/f")))).2 =
        none) ∧
    ((vfsInit.run twoNames).sysRename root (some (text "/f")) (some (text "/tmp/f"))).2 = 0 ∧
    lastName (text "/f") = appended (text "/tmp/f") := by decide +kernel

theorem twoNames_file (q : ℕ) :
    ((vfsInit.run twoNames).nodes q).mounted ≠ some 59 ∧
      ¬ (vfsInit.run twoNames).tree.Above 59 60 := by
  have hl := (run_sited twoNames_spared).toLinked
  have hfile := twoNames_paths.1
  exact ⟨not_mounted_of_file hl hfile.1 q, hl.not_above_file hfile.1 hfile.2⟩

theorem sysRename_into_twoNames :
    ((vfsInit.run twoNames).sysRename root (some (text "/f")) (some (text "/tmp/f"))).2 = 0 ∧
    MovedInto (vfsInit.run twoNames)
    ((vfsInit.run twoNames).sysRename root (some (text "/f")) (some (text "/tmp/f"))).1 59 60
      (text "/f") (text "/tmp/f") := by
  obtain ⟨-, hpaths, hlook, hdir, hrc, hname⟩ := twoNames_paths
  exact ⟨hrc, (sysRename_into twoNames twoNames_spared root _ _ _ _ 59 60 hpaths.1 hpaths.2 hlook.1
    hlook.2 hdir.1 (by decide)
    (twoNames_file 0).2 hdir.2 hrc).2 ⟨hname, fun q ↦ (twoNames_file q).1⟩⟩

def oneFile : List VfsCall := [.createFile (text "/f") false]

theorem oneFile_spared : Spared Uproots vfsInit oneFile := ⟨not_false, trivial⟩

/-- A file that is moved to `/tmp` is found there as `tmp`. -/
theorem not_sysRename_into :
    ¬ ∀ (calls : List VfsCall) (cwd : ℕ) (old new ao an : List UInt8) (x d : ℕ),
    (vfsInit.run calls).resolveProcessPath cwd old 128 = .ok ao →
      (vfsInit.run calls).resolveProcessPath cwd new 128 = .ok an →
    ((vfsInit.run calls).vfsLookup ao).2 = some x → ((vfsInit.run calls).vfsLookup an).2 = some d →
    ((vfsInit.run calls).nodes d).type = .dir → d ≠ x → ¬ (vfsInit.run calls).tree.Above x d →
    ((vfsInit.run calls).vfsLookup (entryPath an (lastName ao))).2 = none →
    ((vfsInit.run calls).sysRename cwd (some old) (some new)).2 = 0 →
    MovedInto (vfsInit.run calls)
    ((vfsInit.run calls).sysRename cwd (some old) (some new)).1 x d ao an := by
  intro h
  obtain ⟨hpaths, hlook, hdir, hrc, hfile, hnone⟩ :
      ((vfsInit.run oneFile).resolveProcessPath root (text "/f") 128 = .ok (text "/f") ∧
        (vfsInit.run oneFile).resolveProcessPath root (text "/tmp") 128 = .ok (text "/tmp")) ∧
      (((vfsInit.run oneFile).vfsLookup (text "/f")).2 = some 59 ∧
        ((vfsInit.run oneFile).vfsLookup (text "/tmp")).2 = some 3) ∧
      (((vfsInit.run oneFile).nodes 3).type = .dir ∧
        ((vfsInit.run oneFile).vfsLookup (entryPath (text "/tmp") (lastName (text "/f")))).2 = none) ∧
      ((vfsInit.run oneFile).sysRename root (some (text "/f")) (some (text "/tmp"))).2 = 0 ∧
      ((vfsInit.run oneFile).tree.isDir 59 = false ∧ (vfsInit.run oneFile).tree.isDir 3 = true) ∧
      (((vfsInit.run oneFile).sysRename root (some (text "/f")) (some (text "/tmp"))).1.vfsLookup
        (entryPath (text "/tmp") (lastName (text "/f")))).2 = none := by decide +kernel
  have habove : ¬ (vfsInit.run oneFile).tree.Above 59 3 :=
    (run_sane vfsInit_sane oneFile_spared).linked.not_above_file hfile.1 hfile.2
  have hinto :=
    h oneFile root _ _ _ _ 59 3 hpaths.1 hpaths.2 hlook.1 hlook.2 hdir.1 (by decide) habove
      hdir.2 hrc
  have hfound := hinto.found
  rw [hnone] at hfound
  cases hfound

end Fs

end YabroOS.Vfs
