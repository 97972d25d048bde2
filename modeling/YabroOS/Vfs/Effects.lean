import YabroOS.Vfs.Picks
import YabroOS.Vfs.Rename

namespace YabroOS.Vfs

open Fat Function

namespace Fs

variable {s s' s'' s₁ s₂ : Fs} {x p : ℕ} {name path old new : List UInt8}

/-- What lookups leave, with the mounts in place or without; they spell anew in the root alone. -/
structure Seen (s s' : Fs) : Prop where
  looks : s.Looks s'
  name : ∀ x, s.tree.parent x ≠ some root → s'.tree.name x = s.tree.name x
  same : s.tree.Named → s.tree.Same s'.tree
  named : s.tree.Named → s'.tree.Named

theorem Seen.refl (s : Fs) : s.Seen s := ⟨.refl s, fun _ _ ↦ rfl, fun _ ↦ .refl _, id⟩

theorem Seen.sited (h : s.Seen s') (hs : s.tree.Sited) : s'.tree.Sited :=
  hs.same (h.same hs.toNamed) (h.named hs.toNamed)

theorem Seen.trans (h : s.Seen s') (h' : s'.Seen s'') : s.Seen s'' where
  looks := h.looks.trans h'.looks
  name x hx := (h'.name x (by rw [h.looks.alike.parent]; exact hx)).trans (h.name x hx)
  same hs := (h.same hs).trans (h'.same (h.named hs))
  named hs := h'.named (h.named hs)

theorem lookupChild_name (s : Fs) (d : ℕ) (name : List UInt8) (x : ℕ)
    (hx : s.tree.parent x ≠ some root) :
    (s.vfsLookupChild d name).1.tree.name x = s.tree.name x := by
  unfold vfsLookupChild
  split
  · rfl
  split
  · rfl
  split
  · rfl
  next y _ =>
  split
  · next hroot =>
    have hne : x ≠ y := by
      rintro rfl
      exact hx hroot.1
    exact congrArg Node.name (setNode_of_ne hne s _)
  · rfl

theorem lookup_name (s : Fs) (path : List UInt8) (x : ℕ) (hx : s.tree.parent x ≠ some root) :
    (s.vfsLookup path).1.tree.name x = s.tree.name x := by
  have hboth := lookup_induction (P := fun s₁ ↦ s₁.tree.parent = s.tree.parent ∧
    s₁.tree.name x = s.tree.name x) (fun s₁ d name hlen hs ↦ by
      refine ⟨(lookupChild_spec s₁ d hlen).alike.parent.trans hs.1, ?_⟩
      exact (lookupChild_name s₁ d name x (by rw [hs.1]; exact hx)).trans hs.2) path ⟨rfl, rfl⟩
  exact hboth.2

theorem lookup_seen (s : Fs) (path : List UInt8) : s.Seen (s.vfsLookup path).1 :=
  ⟨lookup_looks s path, lookup_name s path, fun hs ↦ (lookup_reads hs path).same,
    fun hs ↦ (lookup_reads hs path).named⟩

theorem parentForCreate_looks (s : Fs) (path : List UInt8) :
    s.Looks (s.vfsParentForCreate path).1 := by
  unfold vfsParentForCreate
  cases splitPath path with
  | none => exact .refl s
  | some r =>
    obtain ⟨parent, name⟩ := r
    have hlook := lookup_looks s parent
    dsimp only
    generalize s.vfsLookup parent = r at hlook ⊢
    obtain ⟨s₁, r⟩ := r
    cases r with
    | none => exact hlook
    | some p => exact hlook

theorem parentForCreate_name (s : Fs) (path : List UInt8) (x : ℕ)
    (hx : s.tree.parent x ≠ some root) :
    (s.vfsParentForCreate path).1.tree.name x = s.tree.name x := by
  unfold vfsParentForCreate
  cases splitPath path with
  | none => rfl
  | some r =>
    obtain ⟨parent, name⟩ := r
    have hname := lookup_name s parent x hx
    dsimp only
    generalize s.vfsLookup parent = r at hname ⊢
    obtain ⟨s₁, r⟩ := r
    cases r with
    | none => exact hname
    | some p => exact hname

theorem parentForCreate_seen (s : Fs) (path : List UInt8) : s.Seen (s.vfsParentForCreate path).1 :=
  ⟨parentForCreate_looks s path, parentForCreate_name s path,
    fun hs ↦ (parentForCreate_reads hs path).same, fun hs ↦ (parentForCreate_reads hs path).named⟩

theorem Seen.find (h : s.Seen s') (hs : s.tree.Named) (path : List UInt8) :
    (s'.vfsLookup path).2 = s.tree.find path :=
  (lookup_find (h.named hs) path).trans ((h.same hs).find path)

theorem Seen.placed (h : s.Seen s') : s'.Placed x ↔ s.Placed x := h.looks.spelled.placed

theorem Seen.isDir (h : s.Seen s') (x : ℕ) : s'.tree.isDir x = s.tree.isDir x := by
  rw [h.looks.alike.isDir]

theorem Seen.used (h : s.Seen s') : s'.used = s.used := h.looks.spelled.used

theorem Seen.linked (h : s.Seen s') (hl : s.tree.Linked) : s'.tree.Linked :=
  steps_linked (h.looks.steps False) hl

structure Site (s : Fs) (path : List UInt8) (s₁ : Fs) (p : ℕ) (name : List UInt8) : Prop where
  seen : s.Seen s₁
  split : ∃ parent, splitPath path = some (parent, name)
  placed : s₁.Placed p
  dir : s₁.tree.isDir p = true
  site : s.tree.Named → s.tree.site path = some (p, name)

theorem Site.seen_right (h : s.Site path s₁ p name) (h' : s₁.Seen s₂) : s.Site path s₂ p name where
  seen := h.seen.trans h'
  split := h.split
  placed := h'.placed.2 h.placed
  dir := (h'.isDir p).trans h.dir
  site := h.site

theorem Site.name_le (h : s.Site path s₁ p name) : name.length ≤ vfsNameMax := by
  obtain ⟨parent, hsplit⟩ := h.split
  exact (splitPath_some hsplit).2.2.2.1

theorem site_of_parent (hl : s.tree.Linked) (hs : s.Seen s₁)
    (hp : s₁.vfsParentForCreate path = (s₂, some (p, name))) (hdir : s₂.isType p .dir = true) :
    s.Site path s₂ p name := by
  have hseen := parentForCreate_seen s₁ path
  rw [hp] at hseen
  obtain ⟨parent, hsplit, hlook⟩ := parentForCreate_iff.1 (congrArg Prod.snd hp)
  refine ⟨hs.trans hseen, ⟨parent, hsplit⟩, ?_, by simpa [isType, tree] using hdir, fun h ↦ ?_⟩
  · exact hseen.placed.2 (lookup_placed (hs.linked hl) hlook)
  · have hsite := (parentForCreate_reads (hs.named h) path).result
    rw [hp, (hs.same h).site] at hsite
    exact hsite.symm

def reopen (s : Fs) (x : ℕ) (truncate : Bool) : Fs :=
  let o := (s.nodes x).owner
  let s := if truncate then s.setNode o { s.nodes o with size := 0 } else s
  s.setNode x { s.nodes x with size := (s.nodes o).size }

def born (s : Fs) (p : ℕ) (name : List UInt8) : Buf → Fs
  | .slot k =>
    { s.attach p { s.fresh name .file (sIfreg + 0o666) with
      data := some (.slot k), capacity := vfsDataSlotSize } with
      dataUsed := update s.dataUsed k true, bytes := update s.bytes (.slot k) (fun _ ↦ 0) }
  | .xorg =>
    s.attach p { s.fresh name .file (sIfreg + 0o666) with
      data := some .xorg, capacity := vfsXorgLogCap }

def Gets (s : Fs) (path : List UInt8) (b : Buf) : Prop :=
  path = xorgLogPath ∧ b = .xorg ∨ path ≠ xorgLogPath ∧ ∃ k, b = .slot k ∧ s.dataUsed k = false

inductive Created (s : Fs) (path : List UInt8) (truncate : Bool) : Fs × Option ℕ → Prop
  | refused (s₁ : Fs) (h : s.Seen s₁) : Created s path truncate (s₁, none)
  | opened (s₁ : Fs) (x : ℕ) (hx : s.vfsLookup path = (s₁, some x))
    (hfile : (s₁.nodes x).type = .file) :
      Created s path truncate (s₁.reopen x truncate, some x)
  | wasted (s₁ : Fs) (p : ℕ) (name : List UInt8) (h : s.Site path s₁ p name) :
      Created s path truncate (s₁.waste (s₁.fresh name .file (sIfreg + 0o666)), none)
  | made (s₁ : Fs) (p : ℕ) (name : List UInt8) (b : Buf) (h : s.Site path s₁ p name)
    (hx : (s.vfsLookup path).2 = none)
      (hb : s₁.Gets path b) : Created s path truncate (s₁.born p name b, some s₁.used)

theorem createFile_created (hl : s.tree.Linked) (path : List UInt8) (truncate : Bool) :
    Created s path truncate (s.vfsCreateFile path truncate) := by
  unfold vfsCreateFile
  have hseen := lookup_seen s path
  cases hlook : s.vfsLookup path with
  | mk s₁ r =>
  rw [hlook] at hseen
  cases r with
  | some x =>
    dsimp only
    split
    · next hfile => exact .opened s₁ x hlook (by simpa [isType] using hfile)
    · exact .refused s₁ hseen
  | none =>
  have hnone : (s.vfsLookup path).2 = none := by rw [hlook]
  dsimp only
  have hseen' := hseen.trans (parentForCreate_seen s₁ path)
  cases hpar : s₁.vfsParentForCreate path with
  | mk s₂ r =>
  rw [hpar] at hseen'
  cases r with
  | none => exact .refused s₂ hseen'
  | some r =>
  obtain ⟨p, name⟩ := r
  dsimp only
  split
  · exact .refused s₂ hseen'
  next hdir =>
  have hsite : s.Site path s₂ p name := site_of_parent hl hseen hpar (by simpa using hdir)
  rw [newNode_eq]
  split_ifs
  · exact .refused s₂ hseen'
  dsimp only
  obtain ⟨hpath, hdata⟩ | ⟨hpath, hdata | ⟨k, hfree, hdata⟩⟩ :=
    fileData_cases s₂ path (s₂.fresh name .file (sIfreg + 0o666))
  · rw [hdata]
    dsimp only
    rw [grow_add hsite.placed.1]
    exact .made s₂ p name .xorg hsite hnone (.inl ⟨hpath, rfl⟩)
  · rw [hdata]
    exact .wasted s₂ p name hsite
  · rw [hdata]
    have hadd := grow_add hsite.placed.1
      { s₂.fresh name .file (sIfreg + 0o666) with
        data := some (.slot k), capacity := vfsDataSlotSize }
    have hmade : Created s path truncate (s₂.born p name (.slot k), some s₂.used) :=
      .made s₂ p name (.slot k) hsite hnone (.inr ⟨hpath, k, rfl, hfree⟩)
    rw [born, ← hadd] at hmade
    exact hmade

/-- The ways in which `vfs_mkdir` and `vfs_create_socket` end. -/
inductive Made (s : Fs) (path : List UInt8) (type : NodeType) (mode : ℕ) : Fs × Option ℕ → Prop
  | refused (s₁ : Fs) (h : s.Seen s₁) : Made s path type mode (s₁, none)
  | made (s₁ : Fs) (p : ℕ) (name : List UInt8) (h : s.Site (canonicalizeSystemPath path) s₁ p name)
      (hx : (s.vfsLookup (canonicalizeSystemPath path)).2 = none) :
      Made s path type mode (s₁.attach p (s₁.fresh name type mode), some s₁.used)

theorem makeNode_made (hl : s.tree.Linked) (path : List UInt8) (type : NodeType) (mode : ℕ) :
    Made s path type mode (s.makeNode path type mode) := by
  unfold makeNode
  split_ifs
  · exact .refused s (.refl s)
  have hseen := lookup_seen s (canonicalizeSystemPath path)
  cases hlook : s.vfsLookup (canonicalizeSystemPath path) with
  | mk s₁ r =>
  rw [hlook] at hseen
  cases r with
  | some x => exact .refused s₁ hseen
  | none =>
  have hnone : (s.vfsLookup (canonicalizeSystemPath path)).2 = none := by rw [hlook]
  have hseen' := hseen.trans (parentForCreate_seen s₁ (canonicalizeSystemPath path))
  dsimp only
  cases hpar : s₁.vfsParentForCreate (canonicalizeSystemPath path) with
  | mk s₂ r =>
  rw [hpar] at hseen'
  cases r with
  | none => exact .refused s₂ hseen'
  | some r =>
  obtain ⟨p, name⟩ := r
  dsimp only
  split
  · exact .refused s₂ hseen'
  next hdir =>
  have hsite : s.Site (canonicalizeSystemPath path) s₂ p name :=
    site_of_parent hl hseen hpar (by simpa using hdir)
  rw [newNode_eq]
  split_ifs
  · exact .refused s₂ hseen'
  dsimp only
  rw [grow_add hsite.placed.1]
  exact .made s₂ p name hsite hnone

def share (s : Fs) (p src : ℕ) (name : List UInt8) : Fs :=
  let n := s.nodes (s.nodes src).owner
  (s.addLink (s.nodes src).owner).attach p { s.fresh name .file (s.nodes src).mode with
    ino := n.ino, owner := (s.nodes src).owner, nlink := 0, data := n.data, size :=
      n.size, capacity := n.capacity }

theorem share_eq {src : ℕ} (ho : (s.nodes src).owner ≠ s.used) (hp : p < s.used) :
    s.share p src name =
    (let o := (s.nodes src).owner
    let s₁ := s.grow (s.fresh name .file (s.nodes src).mode)
    let n := s₁.nodes o
    let s₁ := s₁.setNode o { n with nlink := n.nlink + 1 }
    let s₁ := s₁.setNode s.used { s₁.nodes s.used with
      ino := n.ino, owner := o, nlink := 0, data := n.data, size := n.size, capacity := n.capacity }
    s₁.add p s.used) := by
  unfold share
  dsimp only
  generalize s.fresh name .file (s.nodes src).mode = n
  generalize (s.nodes src).owner = o at ho ⊢
  have hnode : (s.grow n).nodes o = s.nodes o := update_of_ne ho _ _
  have hswap : ∀ m, (s.grow n).setNode o m = (s.setNode o m).grow n := by
    intro m
    simp only [grow, setNode, update_comm ho]
  rw [hnode, hswap]
  have hself : ((s.addLink o).grow n).nodes s.used = n := grow_node (s.addLink o) n
  have hset : ∀ m, ((s.addLink o).grow n).setNode s.used m = (s.addLink o).grow m :=
    grow_setNode (s.addLink o) n
  have hadd : ∀ m, ((s.addLink o).grow m).add p s.used = (s.addLink o).attach p m := grow_add hp
  rw [← addLink, hself, hset, hadd]

inductive Linking (s : Fs) (old new : List UInt8) : Fs × ℤ → Prop
  | refused (s₁ : Fs) (rc : ℤ) (h : s.Seen s₁) (hrc : rc < 0) : Linking s old new (s₁, rc)
  | made (s₁ : Fs) (src p : ℕ) (name : List UInt8) (h : s.Site new s₁ p name)
    (hsrc : (s.vfsLookup old).2 = some src)
      (hx : s.tree.Named → s.tree.find new = none) (hfile : (s₁.nodes src).type = .file) :
      Linking s old new (s₁.share p src name, 0)

theorem link_linking (hl : s.tree.Linked) (ho : s.Owners) (old new : List UInt8) :
    Linking s old new (s.vfsLink old new) := by
  unfold vfsLink
  have hseen := lookup_seen s old
  cases hlook : s.vfsLookup old with
  | mk s₁ r =>
  rw [hlook] at hseen
  cases r with
  | none => exact .refused s₁ _ hseen (by decide)
  | some src =>
  have hsrc : (s.vfsLookup old).2 = some src := by rw [hlook]
  dsimp only
  split_ifs with hbad
  · exact .refused s₁ _ hseen (by decide)
  obtain ⟨-, -, hfile⟩ : src ≠ root ∧ (s₁.nodes src).mounted.isSome ≠ true ∧
      s₁.isType src .file ≠ false := by
    simpa only [not_or] using hbad
  have hseen' := hseen.trans (parentForCreate_seen s₁ new)
  cases hpar : s₁.vfsParentForCreate new with
  | mk s₂ r =>
  rw [hpar] at hseen'
  cases r with
  | none => exact .refused s₂ _ hseen' (by decide)
  | some r =>
  obtain ⟨p, name⟩ := r
  dsimp only
  split_ifs with hdir
  · exact .refused s₂ _ hseen' (by decide)
  have hsite : s.Site new s₂ p name := site_of_parent hl hseen hpar (by simpa using hdir)
  have hseen₂ := lookup_seen s₂ new
  have hfind := fun h : s.tree.Named ↦ hseen'.find h new
  cases hlook₂ : s₂.vfsLookup new with
  | mk s₃ r =>
  rw [hlook₂] at hseen₂ hfind
  have hseen₃ := hseen'.trans hseen₂
  cases r with
  | some x => exact .refused s₃ _ hseen₃ (by decide)
  | none =>
  dsimp only
  rw [newNode_eq]
  split_ifs
  · exact .refused s₃ _ hseen₃ (by decide)
  dsimp only
  have hused : (s₃.nodes src).owner < s₃.used := by
    refine hseen₃.looks.spelled.owners ho src ?_
    rw [hseen₃.used]
    exact (lookup_placed hl hsrc).1
  have hfile₃ : (s₃.nodes src).type = .file := by
    have htype : (s₁.nodes src).type = .file := by simpa [isType] using hfile
    have hs₁₃ : s₁.Spelled s₃ :=
      ((congrArg Prod.fst hpar) ▸ parentForCreate_looks s₁ new).spelled.trans hseen₂.looks.spelled
    rw [hs₁₃.nodes src]
    exact htype
  have hmade : Linking s old new (s₃.share p src name, 0) :=
    .made s₃ src p name (hsite.seen_right hseen₂) hsrc (fun h ↦ (hfind h).symm) hfile₃
  rw [share_eq hused.ne (hsite.seen_right hseen₂).placed.1] at hmade
  exact hmade

inductive Unlinked (s : Fs) (path : List UInt8) : Fs × ℤ → Prop
  | refused (s₁ : Fs) (h : s.Seen s₁) : Unlinked s path (s₁, -1)
  | cut (s₁ : Fs) (x p : ℕ) (hx : s.vfsLookup path = (s₁, some x)) (hroot : x ≠ root)
    (hfile : s₁.tree.isDir x = false)
      (hmem : x ∈ s₁.tree.children p) : Unlinked s path ((s₁.cut p x).vfsDropLink x, 0)

theorem unlink_unlinked (s : Fs) (path : List UInt8) : Unlinked s path (s.vfsUnlink path) := by
  unfold vfsUnlink
  have hseen := lookup_seen s path
  cases hlook : s.vfsLookup path with
  | mk s₁ r =>
  rw [hlook] at hseen
  cases r with
  | none => exact .refused s₁ hseen
  | some x =>
  dsimp only
  split_ifs with hbad
  · exact .refused s₁ hseen
  obtain ⟨hroot, hfile, -⟩ : x ≠ root ∧ s₁.isType x .dir ≠ true ∧
      (s₁.nodes x).mounted.isSome ≠ true := by
    simpa only [not_or] using hbad
  cases (s₁.nodes x).parent with
  | none => exact .refused s₁ hseen
  | some p =>
  dsimp only
  split_ifs with hbad'
  · exact .refused s₁ hseen
  exact .cut s₁ x p hlook hroot (by simpa [isType, tree] using hfile) (not_not.1 (not_or.1 hbad').2)

inductive DirRemoved (s : Fs) (path : List UInt8) : Fs × ℤ → Prop
  | refused (s₁ : Fs) (rc : ℤ) (h : s.Seen s₁) (hrc : rc < 0) : DirRemoved s path (s₁, rc)
  | cut (s₁ : Fs) (x p : ℕ) (hx : s.vfsLookup path = (s₁, some x)) (hroot : x ≠ root)
    (hdir : s₁.tree.isDir x = true)
      (hmounted : s₁.tree.mounted x = none) (hempty : s₁.tree.children x = [])
        (hmem : x ∈ s₁.tree.children p) :
      DirRemoved s path (s₁.cut p x, 0)

theorem rmdir_dirRemoved (s : Fs) (path : List UInt8) : DirRemoved s path (s.vfsRmdir path) := by
  unfold vfsRmdir
  have hseen := lookup_seen s path
  cases hlook : s.vfsLookup path with
  | mk s₁ r =>
  rw [hlook] at hseen
  cases r with
  | none => exact .refused s₁ _ hseen (by decide)
  | some x =>
  dsimp only
  split_ifs with hbad hempty
  · exact .refused s₁ _ hseen (by decide)
  · exact .refused s₁ _ hseen (by decide)
  obtain ⟨hroot, hdir, hmounted⟩ : x ≠ root ∧ s₁.isType x .dir ≠ false ∧
      (s₁.nodes x).mounted.isSome ≠ true := by
    simpa only [not_or] using hbad
  cases (s₁.nodes x).parent with
  | none => exact .refused s₁ _ hseen (by decide)
  | some p =>
  dsimp only
  split_ifs with hbad'
  · exact .refused s₁ _ hseen (by decide)
  exact .cut s₁ x p hlook hroot (by simpa [isType, tree] using hdir)
    (by simpa [tree] using hmounted) (not_not.1 hempty)
    (not_not.1 (not_or.1 hbad').2)

structure CanMove (s : Fs) (old new : List UInt8) (s₁ : Fs) (x p : ℕ) (name : List UInt8) :
    Prop where
  site : s.Site new s₁ p name
  old : (s.vfsLookup old).2 = some x
  root : x ≠ root
  clear : s₁.tree.mounted x = none
  above : s₁.tree.isDir x = true → s₁.vfsIsAncestor x p = false

inductive Renamed (s : Fs) (old new : List UInt8) : Fs × ℤ → Prop
  | refused (s₁ : Fs) (h : s.Seen s₁) : Renamed s old new (s₁, -1)
  | same (s₁ : Fs) (x p : ℕ) (name : List UInt8) (h : s.CanMove old new s₁ x p name)
      (hx : s.tree.Named → s.tree.find new = some x) : Renamed s old new (s₁, 0)
  | moved (s₁ : Fs) (x p : ℕ) (name : List UInt8) (h : s.CanMove old new s₁ x p name)
      (hx : s.tree.Named → s.tree.find new = none) : Renamed s old new (s₁.moveNode x p name, 0)
  | replaced (s₁ s₂ : Fs) (x p : ℕ) (name : List UInt8) (e ep : ℕ)
    (h : s.CanMove old new s₁ x p name)
      (hx : s.tree.Named → s.tree.find new = some e) (hne : e ≠ x) (he : e ∈ s₁.tree.children ep)
      (hfile : s₁.tree.isDir e = false) (hlook : s.Seen s₂ ∧ s₂.vfsLookup new = (s₁, some e)) :
      Renamed s old new (((s₁.cut ep e).vfsDropLink e).moveNode x p name, 0)

theorem Renamed.canMove {r : Fs × ℤ} (h : Renamed s old new r) (hr : r.2 = 0) :
    ∃ s₁ x p name, s.CanMove old new s₁ x p name := by
  cases h with
  | refused => cases hr
  | same s₁ x p name h | moved s₁ x p name h | replaced s₁ _ x p name _ _ h =>
    exact ⟨s₁, x, p, name, h⟩

theorem ancestorLoop_spelled (h : s.Spelled s') (a k : ℕ) (x : Option ℕ) :
    s'.ancestorLoop a k x = s.ancestorLoop a k x := by
  induction k generalizing x with
  | zero => rfl
  | succ k ih =>
    cases x with
    | none => rfl
    | some x =>
      have hparent : (s'.nodes x).parent = (s.nodes x).parent := by rw [h.nodes x]
      simp only [ancestorLoop, hparent, ih]

theorem rename_renamed (hl : s.tree.Linked) (old new : List UInt8) :
    Renamed s old new (s.vfsRename old new) := by
  unfold vfsRename
  have hseen := lookup_seen s old
  cases hlook : s.vfsLookup old with
  | mk s₁ r =>
  rw [hlook] at hseen
  cases r with
  | none => exact .refused s₁ hseen
  | some x =>
  have hold : (s.vfsLookup old).2 = some x := by rw [hlook]
  dsimp only
  split_ifs with hbad
  · exact .refused s₁ hseen
  obtain ⟨hroot, hmounted⟩ : x ≠ root ∧ (s₁.nodes x).mounted.isSome ≠ true := by
    simpa only [not_or] using hbad
  have hpseen := parentForCreate_seen s₁ new
  cases hpar : s₁.vfsParentForCreate new with
  | mk s₂ r =>
  rw [hpar] at hpseen
  have hseen₂ := hseen.trans hpseen
  cases r with
  | none => exact .refused s₂ hseen₂
  | some r =>
  obtain ⟨p, name⟩ := r
  dsimp only
  split_ifs with hdir hanc
  · exact .refused s₂ hseen₂
  · exact .refused s₂ hseen₂
  have hsite : s.Site new s₂ p name := site_of_parent hl hseen hpar (by simpa using hdir)
  have hlseen := lookup_seen s₂ new
  have hfind := fun h : s.tree.Named ↦ hseen₂.find h new
  cases hlook₂ : s₂.vfsLookup new with
  | mk s₃ r =>
  rw [hlook₂] at hlseen hfind
  have hcan : s.CanMove old new s₃ x p name := by
    refine ⟨hsite.seen_right hlseen, hold, hroot, ?_, fun hxdir ↦ ?_⟩
    · rw [(hpseen.trans hlseen).looks.alike.mounted]
      simpa [tree] using hmounted
    · rw [hlseen.isDir] at hxdir
      have htype : s₂.isType x .dir = true := by simpa [isType, tree] using hxdir
      have hno : s₂.vfsIsAncestor x p = false := by simpa [htype] using hanc
      rw [vfsIsAncestor, hlseen.used, ancestorLoop_spelled hlseen.looks.spelled]
      exact hno
  cases r with
  | none => exact .moved s₃ x p name hcan (fun h ↦ (hfind h).symm)
  | some e =>
  dsimp only
  split_ifs with hex
  · exact .same s₃ x p name hcan (fun h ↦ hex ▸ (hfind h).symm)
  cases hdrop : s₃.dropExisting e with
  | none => exact .refused s₃ (hseen₂.trans hlseen)
  | some s₄ =>
  obtain ⟨ep, he, hefile, rfl⟩ := dropExisting_some hdrop
  exact .replaced s₃ s₂ x p name e ep hcan (fun h ↦ (hfind h).symm) hex he hefile ⟨hseen₂, hlook₂⟩

end Fs

end YabroOS.Vfs
