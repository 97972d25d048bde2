import YabroOS.Vfs.CallChanges

namespace YabroOS.Vfs

open Fat Function

namespace Tree

variable {t t' : Tree} {x p e : ℕ} {name : List UInt8} {parts : List (List UInt8)}

theorem Linked.not_above_file (h : t.Linked) (hx : t.isDir x = false) (hp : t.isDir p = true) :
    ¬ t.Above x p := by
  intro habove
  obtain rfl | ⟨y, hy⟩ := habove.parent
  · rw [hx] at hp
    cases hp
  · rw [h.dir y x hy] at hx
    cases hx

theorem Linked.up_placed (h : t.Linked) (hx : t.isDir x = true ∨ t.parent x ≠ none) :
    t.isDir (t.up x) = true := by
  unfold up
  cases hp : t.parent x with
  | none => exact hx.resolve_right (fun hne ↦ hne hp)
  | some p =>
    have hdir := h.dir x p hp
    dsimp only
    split_ifs
    · cases hq : t.parent p with
      | none => exact hdir
      | some q => exact h.dir p q hq
    · exact hdir

theorem Linked.up_dir (h : t.Linked) (hx : t.isDir x = true) : t.isDir (t.up x) = true :=
  h.up_placed (.inl hx)

theorem Linked.mr_file (h : t.Linked) (hx : t.isDir (t.mr x) = false) : t.mr x = x := by
  unfold mr at hx ⊢
  cases hm : t.mounted x with
  | none => rfl
  | some r =>
    rw [hm] at hx
    rw [show (some r).getD x = r from rfl, (h.mounted x r hm).2] at hx
    cases hx

theorem walks_unique (h : t.Rooted) {cur y : ℕ} (hx : t.Walks cur parts x)
    (hy : t.Walks cur parts y) : x = y := by
  induction parts generalizing cur with
  | nil => exact hx.symm.trans hy
  | cons part rest ih =>
    rw [Walks] at hx hy
    split_ifs at hx hy
    · exact ih hx hy
    · exact ih hx hy
    · obtain ⟨z, -, hz, hx⟩ := hx
      obtain ⟨w, -, hw, hy⟩ := hy
      obtain rfl := h.finds_unique hz hw
      exact ih hx hy

theorem Rooted.walks_file (h : t.Rooted) (hp : t.Walks root parts p) (hdir : t.isDir p = true)
    (hlen : name.length ≤ vfsNameMax) (he : t.Walks root (parts ++ [name]) e)
    (hfile : t.isDir e = false) : e ∈ t.children p ∧ t.name e = name := by
  obtain ⟨p', hp', he⟩ := walks_append.1 he
  obtain rfl := walks_unique h hp hp'
  have hvis := h.walks_visible .root hp
  simp only [Walks, List.take_of_length_le hlen, h.mr_visible hvis] at he
  split_ifs at he
  · rw [he, hfile] at hdir
    cases hdir
  · have hup := h.up_dir hdir
    rw [he, hfile] at hup
    cases hup
  · obtain ⟨z, -, ⟨hz, hcase⟩, rfl⟩ := he
    have hz' := h.mr_file hfile
    rw [hz'] at hfile ⊢
    obtain ⟨-, hname⟩ | ⟨hzdir, -⟩ := hcase
    · exact ⟨hz, hname⟩
    · rw [hfile] at hzdir
      cases hzdir

theorem Sited.visible_parent (h : t.Sited) (hx : t.Visible x) (hroot : x ≠ root) :
    t.parent x ≠ none := by
  cases hx with
  | root => exact absurd rfl hroot
  | child _ hx =>
    rw [h.child _ _ hx]
    exact Option.some_ne_none _
  | mount _ _ hm =>
    rw [(h.mount _ _ hm).1]
    exact Option.some_ne_none _

end Tree

namespace Fs

variable {s s₁ s₂ s' : Fs} {x p e : ℕ} {name : List UInt8} {strict log : Prop}

theorem parentForCreate_iff {path : List UInt8} : (s.vfsParentForCreate path).2 = some (p, name) ↔
    ∃ parent, splitPath path = some (parent, name) ∧ (s.vfsLookup parent).2 = some p := by
  unfold vfsParentForCreate
  cases splitPath path with
  | none => simp
  | some r =>
    obtain ⟨parent, nm⟩ := r
    dsimp only
    constructor
    · intro h
      generalize hlook : s.vfsLookup parent = r at h
      obtain ⟨s₁, r⟩ := r
      cases r with
      | none => cases h
      | some q =>
        cases h
        exact ⟨parent, rfl, by rw [hlook]⟩
    · rintro ⟨parent', hsplit, hlook⟩
      cases hsplit
      generalize s.vfsLookup parent = r at hlook
      obtain ⟨s₁, r⟩ := r
      cases hlook
      rfl

theorem Looks.parentForCreate (h : s.Looks s') (hr : s.tree.Rooted) (hr' : s'.tree.Rooted)
    {path : List UInt8} (hp : (s'.vfsParentForCreate path).2 = some (p, name)) :
    (s.vfsParentForCreate path).2 = some (p, name) := by
  obtain ⟨parent, hsplit, hlook⟩ := parentForCreate_iff.1 hp
  obtain ⟨hhead, hwalk⟩ := (lookup_iff hr').1 hlook
  exact parentForCreate_iff.2 ⟨parent, hsplit, (lookup_iff hr).2 ⟨hhead, h.alike.walks.1 hwalk⟩⟩

theorem dropExisting_some (h : s.dropExisting e = some s') :
    ∃ ep, e ∈ s.tree.children ep ∧ s.tree.isDir e = false ∧ s' = (s.cut ep e).vfsDropLink e := by
  unfold dropExisting at h
  split_ifs at h with hbad
  cases hpar : (s.nodes e).parent with
  | none =>
    rw [hpar] at h
    cases h
  | some ep =>
    rw [hpar] at h
    dsimp only at h
    split_ifs at h with hmem
    cases h
    have hdir := (not_or.1 hbad).2
    exact ⟨ep, hmem, by simpa [isType, tree] using hdir, rfl⟩

structure Moves (s : Fs) (x p : ℕ) : Prop where
  reach : s.tree.Reach p
  above : ¬ s.tree.Above x p
  root : x ≠ root
  parent : s.tree.parent x ≠ none
  mounted : ∀ q, s.tree.mounted q ≠ some x

theorem Moves.alike (h : s.Moves x p) (ha : s.tree.Alike s'.tree) : s'.Moves x p where
  reach := h.reach.congr (fun y q _ hq ↦ by rw [ha.parent]; exact hq)
  above := fun habove ↦ h.above (habove.mono (fun y q hq ↦ by rw [ha.parent] at hq; exact hq))
  root := h.root
  parent := by
    rw [ha.parent]
    exact h.parent
  mounted := by
    rw [ha.mounted]
    exact h.mounted

theorem Moves.cut (h : s.Moves x p) (hl : s.tree.Linked) (hdir : s.tree.isDir p = true)
    (hfile : s.tree.isDir e = false) (hne : e ≠ x) {q : ℕ} : (s.cut q e).Moves x p where
  reach := by
    rw [tree_cut]
    refine h.reach.congr (fun y r hy hr ↦ Tree.cut_parent.2 ⟨?_, hr⟩)
    rintro rfl
    exact hl.not_above_file hfile hdir hy
  above habove := by
    rw [tree_cut] at habove
    exact h.above (habove.mono (fun y r hr ↦ (Tree.cut_parent.1 hr).2))
  root := h.root
  parent := by
    obtain ⟨r, hr⟩ := Option.ne_none_iff_exists'.1 h.parent
    rw [tree_cut, Tree.cut_parent.2 ⟨hne.symm, hr⟩]
    exact Option.some_ne_none r
  mounted := by
    rw [tree_cut]
    exact h.mounted

theorem rename_changes (hg : Good strict s) {old new : List UInt8}
    (hstrict : strict → ¬ s.Slips (.rename old new)) :
    Changes strict log s (s.vfsRename old new).1 := by
  simp only [Slips] at hstrict
  unfold vfsRename
  have hlook := lookup_looked hg old
  generalize s.vfsLookup old = r at hlook hstrict ⊢
  obtain ⟨s₁, r⟩ := r
  cases r with
  | none => exact hlook.looks.changes
  | some x =>
  dsimp only at hstrict ⊢
  split_ifs with hbad
  · exact hlook.looks.changes
  obtain ⟨hroot, hmounted⟩ : x ≠ root ∧ (s₁.nodes x).mounted.isSome ≠ true := by
    simpa only [not_or] using hbad
  have hg₁ := hlook.looks.good hg
  have hpar := parentForCreate_parent hg₁ new
  have hparent : ∀ p name, strict → (s₁.vfsParentForCreate new).2 = some (p, name) →
      (s.vfsParentForCreate new).2 = some (p, name) := fun p name hs hp ↦
    hlook.looks.parentForCreate (hg.rooted hs) (hg₁.rooted hs) hp
  generalize s₁.vfsParentForCreate new = r at hpar hparent ⊢
  obtain ⟨s₂, r⟩ := r
  have hlooks := hlook.looks.trans hpar.looks
  cases r with
  | none => exact hlooks.changes
  | some r =>
  obtain ⟨p, name⟩ := r
  obtain ⟨hp, -, hlen, hhead, parts, hcomps, hwalk⟩ := hpar.found p name rfl
  dsimp only
  split_ifs with hdir hanc
  · exact hlooks.changes
  · exact hlooks.changes
  have hg₂ := hpar.looks.good hg₁
  have hdir : s₂.tree.isDir p = true := by simpa [isType, tree] using hdir
  have hx₂ : s₂.Placed x := hpar.looks.spelled.placed.2 (hlook.placed x rfl)
  have hmoves : strict → s₂.Moves x p := fun hs ↦ by
    have hr := hg₂.rooted hs
    have hreach := hr.visible_reach (hr.walks_visible .root (hwalk hs))
    have hvis : s₂.tree.Visible x :=
      hr.walks_visible .root (hpar.looks.alike.walks.2 (hlook.walks hs x rfl))
    refine ⟨hreach, ?_, hroot, hr.visible_parent hvis hroot,
      fun q hq ↦ hstrict hs ⟨x, rfl, .inl ⟨q, ?_⟩⟩⟩
    · cases hxdir : s₂.tree.isDir x with
      | false => exact hr.not_above_file hxdir hdir
      | true =>
        refine not_above_of_isAncestor hr.toSited hreach ?_
        have htype : s₂.isType x .dir = true := by simpa [isType, tree] using hxdir
        simpa [htype] using hanc
    · rw [hlooks.alike.mounted] at hq
      exact hq
  have hlook' := lookup_looked hg₂ new
  generalize s₂.vfsLookup new = r at hlook' ⊢
  obtain ⟨s₃, r⟩ := r
  have hlooks₃ := hlooks.trans hlook'.looks
  have hg₃ := hlook'.looks.good hg₂
  have hx₃ : s₃.Placed x := hlook'.looks.spelled.placed.2 hx₂
  have hp₃ : s₃.Placed p := hlook'.looks.spelled.placed.2 hp
  have hdir₃ : s₃.tree.isDir p = true := by
    rw [hlook'.looks.alike.isDir]
    exact hdir
  have hmoves₃ : strict → s₃.Moves x p := fun hs ↦ (hmoves hs).alike hlook'.looks.alike
  have hwalk₃ : strict → s₃.tree.Walks root parts p := fun hs ↦ hlook'.looks.alike.walks.2 (hwalk hs)
  cases r with
  | none =>
    have hroom :=
      room_of_walks hg₃ hp₃ hdir₃ hlen hwalk₃
        (fun hs x hx ↦ hlook'.none hs hhead rfl x (hcomps ▸ hx))
    refine hlooks₃.changes.tail (.move x p name hx₃ hp₃.1 hdir₃ (fun hs ↦ ?_))
    have hm := hmoves₃ hs
    refine ⟨hm.reach, hm.above, hm.root, hm.parent, hm.mounted, fun y hy _ ↦ ?_⟩
    obtain ⟨hname, hlow⟩ := (hroom.free hs).2 y hy
    exact ⟨hname, fun _ hydir ↦ hlow hydir⟩
  | some e =>
  dsimp only
  split_ifs with hex
  · exact hlooks₃.changes
  cases hdrop : s₃.dropExisting e with
  | none => exact hlooks₃.changes
  | some s₄ =>
  obtain ⟨ep, he, hefile, rfl⟩ := dropExisting_some hdrop
  dsimp only
  have htree : ((s₃.cut ep e).vfsDropLink e).tree = s₃.tree.cut ep e := by
    rw [tree_dropLink, tree_cut]
  have hx₄ : ((s₃.cut ep e).vfsDropLink e).Placed x := by
    refine ⟨by rw [dropLink_used]; exact hx₃.1, ?_⟩
    rw [htree]
    refine hx₃.2.imp id (fun hpx ↦ ?_)
    obtain ⟨q, hq⟩ := Option.ne_none_iff_exists'.1 hpx
    rw [Tree.cut_parent.2 ⟨fun hxe ↦ hex hxe.symm, hq⟩]
    exact Option.some_ne_none q
  refine (hlooks₃.changes.tail (.remove ep e he hefile)).tail
    (.move x p name hx₄ ?_ ?_ (fun hs ↦ ?_))
  · rw [dropLink_used]
    exact hp₃.1
  · rw [htree]
    exact hdir₃
  have hr := hg₃.rooted hs
  have hm := (hmoves₃ hs).cut hr.toLinked hdir₃ hefile hex (q := ep)
  obtain ⟨hep, hename⟩ :=
    hr.walks_file (hwalk₃ hs) hdir₃ hlen (hcomps ▸ hlook'.walks hs e rfl) hefile
  obtain rfl : ep = p := Option.some.inj ((hr.child ep e he).symm.trans (hr.child p e hep))
  rw [htree, ← tree_cut]
  refine ⟨hm.reach, hm.above, hm.root, hm.parent, hm.mounted, fun y hy hyx ↦ ?_⟩
  rw [tree_cut] at hy ⊢
  obtain ⟨hy, hye⟩ := hr.mem_cut.1 hy
  refine ⟨fun hyname ↦ hye rfl (hr.names ep y e hy hep (hyname.trans hename.symm)),
    fun hxdir hydir hlow ↦ ?_⟩
  -- two directories that differ in case alone: the second slip
  have hdirs : ∀ z, s₃.tree.isDir z = true ↔ (s.nodes z).type = .dir := fun z ↦ by
    rw [hlooks₃.alike.isDir]
    exact decide_eq_true_iff
  have hchild : ∀ z ∈ s₃.tree.children ep, z ∈ (s.nodes ep).children := fun z hz ↦ by
    rw [hlooks₃.alike.children] at hz
    exact hz
  refine hstrict hs ⟨x, rfl,
    .inr ⟨(hdirs x).1 hxdir, ep, name, hparent ep name hs rfl, e, hchild e hep, fun hd ↦ ?_, ?_,
    y, hchild y hy, hyx, (hdirs y).1 hydir, ?_⟩⟩
  · rw [(hdirs e).2 hd] at hefile
    cases hefile
  · rw [← hename]
    refine (hlooks₃.alike.file e ?_).symm
    rw [← hlooks₃.alike.isDir]
    exact hefile
  · exact decide_eq_true ((hlooks₃.alike.low y).symm.trans hlow)

end Fs

end YabroOS.Vfs
