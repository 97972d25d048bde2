import YabroOS.Vfs.Ownership

namespace YabroOS.Vfs

open Fat Function

namespace Fs

variable {s s₁ s' : Fs} {x p : ℕ} {path : List UInt8} {strict log : Prop}

theorem ensureLoop_changes (hg : Good strict s) (parts : List (List UInt8)) (cur : List UInt8) :
    Changes strict log s (s.ensureLoop parts cur).1 := by
  induction parts generalizing s cur with
  | nil => exact .refl
  | cons part rest ih =>
    unfold ensureLoop
    split
    · exact .refl
    dsimp only
    generalize (if 1 < cur.length then cur ++ [slash] else cur) = base
    split
    · exact .refl
    generalize base ++ part = cur'
    have hlook := lookup_looked hg cur'
    generalize s.vfsLookup cur' = r at hlook ⊢
    obtain ⟨s₁, r⟩ := r
    have hg₁ := hlook.looks.good hg
    cases r with
    | some x =>
      dsimp only
      split
      · exact hlook.looks.changes.trans (ih hg₁ cur')
      · exact hlook.looks.changes
    | none =>
    dsimp only
    have hmake : Changes strict log s₁ (s₁.vfsMkdir cur' 0o755).1 :=
      makeNode_changes hg₁ (by decide) cur' _
    generalize s₁.vfsMkdir cur' 0o755 = r at hmake ⊢
    obtain ⟨s₂, r⟩ := r
    have hg₂ := hmake.good hg₁
    have hto : Changes strict log s s₂ := hlook.looks.changes.trans hmake
    cases r with
    | some x => exact hto.trans (ih hg₂ cur')
    | none =>
    dsimp only
    have hlook' := lookup_looked hg₂ cur'
    generalize s₂.vfsLookup cur' = r at hlook' ⊢
    obtain ⟨s₃, r⟩ := r
    cases r with
    | some x => exact (hto.trans hlook'.looks.changes).trans (ih (hlook'.looks.good hg₂) cur')
    | none => exact hto.trans hlook'.looks.changes

theorem ensureDir_changes (hg : Good strict s) (path : List UInt8) :
    Changes strict log s (s.vfsEnsureDir path).1 := by
  unfold vfsEnsureDir
  split_ifs
  · exact .refl
  · exact .refl
  have hloop : Changes strict log s (s.ensureLoop (components path) [slash]).1 :=
    ensureLoop_changes hg _ _
  generalize s.ensureLoop (components path) [slash] = r at hloop ⊢
  obtain ⟨s₁, r⟩ := r
  cases r with
  | false => exact hloop
  | true =>
    dsimp only
    have hlook := lookup_looked (hloop.good hg) path
    generalize s₁.vfsLookup path = r at hlook ⊢
    obtain ⟨s₂, r⟩ := r
    cases r with
    | none => exact hloop.trans hlook.looks.changes
    | some x => exact hloop.trans hlook.looks.changes

structure Base (strict : Prop) (s : Fs) (p : ℕ) : Prop where
  used : p < s.used
  dir : s.tree.isDir p = true
  reach : strict → s.tree.Reach p

theorem Base.looks (h : Base strict s p) (hl : s.Looks s') : Base strict s' p where
  used := by
    rw [hl.spelled.used]
    exact h.used
  dir := by
    rw [hl.alike.isDir]
    exact h.dir
  reach hs := (h.reach hs).congr (fun y q _ hq ↦ by rw [hl.alike.parent]; exact hq)

theorem Base.child (h : Base strict s p) (hg : Good strict s) (hx : x ∈ s.tree.children p)
    (hdir : s.tree.isDir x = true) : Base strict s x where
  used := hg.linked.mem_used hx
  dir := hdir
  reach hs := .child (hg.linked.child p x hx) (h.reach hs)

theorem Base.attach (h : Base strict s p) (hg : Good strict s) {n : Node} (hn : New n)
    (hdir : n.type = .dir) : Base strict (s.attach p n) s.used where
  used := Nat.lt_succ_self _
  dir := by
    rw [tree_attach h.used hn]
    exact (update_self _ _ _).trans (decide_eq_true hdir)
  reach hs := by
    rw [tree_attach h.used hn]
    refine .child (Tree.attach_parent.2 (.inl ⟨rfl, rfl⟩)) ((h.reach hs).congr (fun y q _ hq ↦ ?_))
    exact Tree.attach_parent.2 (.inr ⟨(hg.linked.used y q hq).1.ne, hq⟩)

theorem importLoop_changes (hg : Good strict s) (hb : Base strict s p) (path : List UInt8)
    (size : ℕ) (parts : List (List UInt8)) :
    Changes strict log s (importLoop path size s p parts).1 := by
  induction parts generalizing s p with
  | nil => exact .refl
  | cons part rest ih =>
    unfold importLoop
    have hspec := lookupChild_spec s p (take_length_le part)
    have hlen := take_length_le part
    generalize part.take vfsNameMax = name at hspec hlen ⊢
    generalize s.vfsLookupChild p name = r at hspec ⊢
    obtain ⟨s₁, child⟩ := r
    have hlooks := hspec.looks
    have hg₁ := hlooks.good hg
    have hb₁ := hb.looks hlooks
    cases child with
    | some x =>
      have hx : x ∈ s₁.tree.children p := by
        rw [hlooks.alike.children]
        exact hspec.mem
      dsimp only
      split_ifs with hrest hdir hboot
      · exact hlooks.changes.trans (ih hg₁ (hb₁.child hg₁ hx (by simpa [isType, tree] using hdir)))
      · exact hlooks.changes
      · exact hlooks.changes.tail (.touch _ (touched_setNode rfl))
      · exact hlooks.changes
    | none =>
      have hroom : s₁.Room strict p name := by
        refine ⟨hb₁.used, hb₁.dir, fun hs ↦ ⟨hb₁.reach hs, Tree.free_of_not_finds (fun x hx ↦ ?_)⟩⟩
        exact hspec.not_finds hb.dir x (hlooks.alike.finds.1 hx)
      dsimp only
      rw [newNode_eq, newNode_eq]
      split_ifs with hrest
      · exact hlooks.changes
      · have hmake : Change strict log s₁
            ((s₁.grow (s₁.fresh name .dir (sIfdir + 0o755))).add p s₁.used) :=
          make_changes hroom hlen (by decide) _
        dsimp only
        rw [grow_add hb₁.used] at hmake ⊢
        have hb₂ := hb₁.attach hg₁ (fresh_new s₁ name .dir (sIfdir + 0o755)) rfl
        exact (hlooks.changes.tail hmake).trans (ih (hg₁.change hmake) hb₂)
      · exact hlooks.changes
      · dsimp only
        rw [grow_node, grow_setNode, grow_add hb₁.used]
        have hnew := fresh_new s₁ name .bootFile (sIfreg + 0o444)
        have hname := fresh_name s₁ hlen .bootFile (sIfreg + 0o444)
        refine hlooks.changes.tail (.make p _ hnew ?_ ⟨rfl, rfl⟩ (by simp [fresh]) rfl)
        dsimp only
        rw [hname]
        exact hroom

theorem importBootFile_changes (hg : Good strict s) (path : List UInt8) (size : ℕ) :
    Changes strict log s (s.vfsImportBootFile path size).1 := by
  unfold vfsImportBootFile
  split_ifs
  · exact .refl
  · exact importLoop_changes hg ⟨hg.linked.root_used, hg.linked.root_dir, fun _ ↦ .root⟩ path size _

theorem call_changes (hg : Good strict s) {c : VfsCall} (hstrict : strict → ¬ s.Slips c)
    (hlog : log → ¬ s.Clashes c) : Changes strict log s (s.call c) := by
  cases c with
  | lookup path => exact (lookup_looks s path).changes
  | createFile path truncate => exact createFile_changes hg hlog
  | mkdir path mode => exact makeNode_changes hg (by decide) path _
  | createSocket path mode => exact makeNode_changes hg (by decide) path _
  | link old new => exact link_changes hg old new
  | unlink path => exact unlink_changes hg path
  | rmdir path => exact rmdir_changes hg path
  | rename old new => exact rename_changes hg hstrict
  | ensureDir path => exact ensureDir_changes hg path
  | importBootFile path size => exact importBootFile_changes hg path size
  | fileWrite x off src => exact .single (.touch _ (fileWrite_touched s x off src))
  | writeKernelFile x data => exact .single (.touch _ (writeKernelFile_touched s x data))
  | fileTruncate x len => exact .single (.touch _ (fileTruncate_touched s x len))

end Fs

end YabroOS.Vfs
