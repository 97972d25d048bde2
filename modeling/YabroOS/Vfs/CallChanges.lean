import YabroOS.Vfs.Calls

namespace YabroOS.Vfs

open Fat Function

/-- The calls of `vfs.c`, those on an open file with its node. -/
inductive VfsCall
  | lookup (path : List UInt8)
  | createFile (path : List UInt8) (truncate : Bool)
  | mkdir (path : List UInt8) (mode : ℕ)
  | createSocket (path : List UInt8) (mode : ℕ)
  | link (old new : List UInt8)
  | unlink (path : List UInt8)
  | rmdir (path : List UInt8)
  | rename (old new : List UInt8)
  | ensureDir (path : List UInt8)
  | importBootFile (path : List UInt8) (size : ℕ)
  | fileWrite (x off : ℕ) (src : List UInt8)
  | writeKernelFile (x : ℕ) (data : List UInt8)
  | fileTruncate (x len : ℕ)

namespace Fs

variable {s s₁ s₂ s' : Fs} {x p : ℕ} {n n' : Node} {name path : List UInt8} {strict log : Prop}

def call (s : Fs) : VfsCall → Fs
  | .lookup path => (s.vfsLookup path).1
  | .createFile path truncate => (s.vfsCreateFile path truncate).1
  | .mkdir path mode => (s.vfsMkdir path mode).1
  | .createSocket path mode => (s.vfsCreateSocket path mode).1
  | .link old new => (s.vfsLink old new).1
  | .unlink path => (s.vfsUnlink path).1
  | .rmdir path => (s.vfsRmdir path).1
  | .rename old new => (s.vfsRename old new).1
  | .ensureDir path => (s.vfsEnsureDir path).1
  | .importBootFile path size => (s.vfsImportBootFile path size).1
  | .fileWrite x off src => (s.vfsFileWrite x off src).1
  | .writeKernelFile x data => (s.vfsWriteKernelFile x data).1
  | .fileTruncate x len => (s.vfsFileTruncate x len).1

/-- `vfs_create_file` comes to `new_node` and there is a node. -/
def Makes (s : Fs) (path : List UInt8) : Prop :=
  (s.vfsLookup path).2 = none ∧ s.used < vfsMaxNodes ∧
    ∃ p name, ((s.vfsLookup path).1.vfsParentForCreate path).2 = some (p, name) ∧
      (s.nodes p).type = .dir

/-- The call makes the log of Xorg while an inode has the buffer for it. -/
def Clashes (s : Fs) : VfsCall → Prop
  | .createFile path _ => path = xorgLogPath ∧ s.Makes path ∧
      ∃ i < s.used, (s.nodes i).owner = i ∧ (s.nodes i).data = some .xorg
  | _ => False

/-- The call renames the root of a mount, or puts a directory in the place of a file beside another
directory of that name up to case. -/
def Slips (s : Fs) : VfsCall → Prop
  | .rename old new => ∃ x, (s.vfsLookup old).2 = some x ∧
      ((∃ q, (s.nodes q).mounted = some x) ∨
        (s.nodes x).type = .dir ∧ ∃ p name, (s.vfsParentForCreate new).2 = some (p, name) ∧
          ∃ e ∈ (s.nodes p).children, (s.nodes e).type ≠ .dir ∧ (s.nodes e).name = name ∧
          ∃ d ∈ (s.nodes p).children, d ≠ x ∧ (s.nodes d).type = .dir ∧
            eqDirName (s.nodes d).name name)
  | _ => False

def fresh (s : Fs) (name : List UInt8) (type : NodeType) (mode : ℕ) : Node :=
  ⟨name.take vfsNameMax, s.nextIno, mode, type, none, [], none, [], [], none, 0, 0, 1, s.used⟩

def grow (s : Fs) (n : Node) : Fs :=
  { s with nodes := update s.nodes s.used n, used := s.used + 1, nextIno := s.nextIno + 1 }

theorem newNode_eq (s : Fs) (name : List UInt8) (type : NodeType) (mode : ℕ) :
    s.newNode name type mode =
    if vfsMaxNodes ≤ s.used then none else some (s.grow (s.fresh name type mode), s.used) := rfl

theorem grow_node (s : Fs) (n : Node) : (s.grow n).nodes s.used = n := update_self _ _ _

theorem grow_setNode (s : Fs) (n n' : Node) : (s.grow n).setNode s.used n' = s.grow n' := by
  simp only [grow, setNode, update_idem]

theorem grow_add (hp : p < s.used) (n : Node) : (s.grow n).add p s.used = s.attach p n := by
  simp only [add, grow_node, grow_setNode]
  simp only [grow, setNode, attach, update_of_ne hp.ne]

theorem fresh_new (s : Fs) (name : List UInt8) (type : NodeType) (mode : ℕ) :
    New (s.fresh name type mode) := ⟨rfl, rfl, rfl⟩

theorem fresh_name (s : Fs) (hlen : name.length ≤ vfsNameMax) (type : NodeType) (mode : ℕ) :
    (s.fresh name type mode).name = name := List.take_of_length_le hlen

def Changes (strict log : Prop) : Fs → Fs → Prop := Relation.ReflTransGen (Change strict log)

theorem Changes.good (h : Changes strict log s s') (hg : Good strict s) : Good strict s' := by
  induction h with
  | refl => exact hg
  | tail _ hc ih => exact ih.change hc

theorem Looks.changes (h : s.Looks s') : Changes strict log s s' := .single h.change

theorem touched_refl (s : Fs) : s.Touched s := ⟨rfl, rfl, fun _ ↦ rfl⟩

theorem Touched.trans {s'' : Fs} (h : s.Touched s') (h' : s'.Touched s'') : s.Touched s'' where
  used := h'.used.trans h.used
  dataUsed := h'.dataUsed.trans h.dataUsed
  nodes x := by
    have hx := h'.nodes x
    rw [h.nodes x] at hx
    exact hx

theorem touched_setNode
    (h : n = { s.nodes x with size := n.size, capacity := n.capacity, bootPath := n.bootPath }) :
    s.Touched (s.setNode x n) where
  used := rfl
  dataUsed := rfl
  nodes y := by
    by_cases hy : y = x
    · subst hy
      rw [setNode_self]
      exact h
    · rw [setNode_of_ne hy]

theorem touched_store (s : Fs) (b : Option Buf) (off : ℕ) (src : List UInt8) :
    s.Touched (s.store b off src) := by
  unfold store
  cases b with
  | none => exact touched_refl s
  | some b => exact ⟨rfl, rfl, fun _ ↦ rfl⟩

theorem fileTruncate_touched (s : Fs) (x len : ℕ) : s.Touched (s.vfsFileTruncate x len).1 := by
  unfold vfsFileTruncate
  split_ifs
  · exact touched_refl s
  dsimp only
  split_ifs
  · exact touched_refl s
  · exact (touched_store s _ _ _).trans (touched_setNode rfl)

theorem writeKernelFile_touched (s : Fs) (x : ℕ) (data : List UInt8) :
    s.Touched (s.vfsWriteKernelFile x data).1 := by
  unfold vfsWriteKernelFile
  split_ifs
  · exact touched_refl s
  dsimp only
  split_ifs
  · exact touched_refl s
  · exact ((touched_store s _ _ _).trans (touched_setNode rfl)).trans (touched_setNode rfl)

theorem fileWrite_touched (s : Fs) (x off : ℕ) (src : List UInt8) :
    s.Touched (s.vfsFileWrite x off src).1 := by
  unfold vfsFileWrite
  split_ifs
  · exact touched_refl s
  dsimp only
  split_ifs
  · exact touched_refl s
  · exact ((touched_store s _ _ _).trans (touched_setNode rfl)).trans (touched_setNode rfl)

theorem make_changes (hroom : s.Room strict p name) (hlen : name.length ≤ vfsNameMax)
    {type : NodeType} (htype : type ≠ .file) (mode : ℕ) :
    Change strict log s ((s.grow (s.fresh name type mode)).add p s.used) := by
  rw [grow_add hroom.used]
  refine .make p _ (fresh_new s name type mode) ?_ ⟨rfl, rfl⟩ htype rfl
  rw [fresh_name s hlen]
  exact hroom

theorem makeNode_changes (hg : Good strict s) {type : NodeType} (htype : type ≠ .file)
    (path : List UInt8) (mode : ℕ) : Changes strict log s (s.makeNode path type mode).1 := by
  unfold makeNode
  split_ifs
  · exact .refl
  have hlook := lookup_looked hg (canonicalizeSystemPath path)
  generalize s.vfsLookup (canonicalizeSystemPath path) = r at hlook ⊢
  obtain ⟨s₁, r⟩ := r
  cases r with
  | some x => exact hlook.looks.changes
  | none =>
  have hg₁ := hlook.looks.good hg
  have hpar := parentForCreate_parent hg₁ (canonicalizeSystemPath path)
  dsimp only
  generalize s₁.vfsParentForCreate (canonicalizeSystemPath path) = r at hpar ⊢
  obtain ⟨s₂, r⟩ := r
  have hlooks : Changes strict log s s₂ := (hlook.looks.trans hpar.looks).changes
  cases r with
  | none => exact hlooks
  | some r =>
  obtain ⟨p, name⟩ := r
  obtain ⟨hp, -, hlen, hhead, parts, hcomps, hwalk⟩ := hpar.found p name rfl
  dsimp only
  split_ifs with hdir
  · exact hlooks
  rw [newNode_eq]
  split_ifs
  · exact hlooks
  have hroom : s₂.Room strict p name :=
    room_of_walks (hpar.looks.good hg₁) hp (by simpa [isType, tree] using hdir) hlen hwalk
    (fun hs x hx ↦ hlook.none hs hhead rfl x (hpar.looks.alike.walks.1 (hcomps ▸ hx)))
  exact hlooks.tail (make_changes hroom hlen htype mode)

theorem fileData_cases (s : Fs) (path : List UInt8) (n : Node) :
    (path = xorgLogPath ∧ (s.grow n).fileData path s.used =
      some (s.grow { n with data := some .xorg, capacity := vfsXorgLogCap })) ∨
    (path ≠ xorgLogPath ∧ ((s.grow n).fileData path s.used = none ∨
      ∃ k, s.dataUsed k = false ∧ (s.grow n).fileData path s.used =
        some { s.grow { n with data := some (.slot k), capacity := vfsDataSlotSize } with
          dataUsed := update s.dataUsed k true, bytes := update s.bytes (.slot k) (fun _ ↦ 0) })) := by
  unfold fileData
  split_ifs with hpath
  · exact .inl ⟨hpath, by rw [grow_node, grow_setNode]⟩
  refine .inr ⟨hpath, ?_⟩
  unfold vfsAllocFileData
  cases hfind : (List.range vfsDataSlots).find? (fun i ↦ (s.grow n).dataUsed i = false) with
  | none => exact .inl rfl
  | some k =>
    have hfound := List.find?_some hfind
    have hfree : s.dataUsed k = false := of_decide_eq_true hfound
    refine .inr ⟨k, hfree, ?_⟩
    simp only [setNode, grow, update_self, update_idem]

theorem createFile_changes (hg : Good strict s) {truncate : Bool}
    (hlog : log → ¬ s.Clashes (.createFile path truncate)) :
    Changes strict log s (s.vfsCreateFile path truncate).1 := by
  simp only [Clashes, Makes] at hlog
  unfold vfsCreateFile
  have hlook := lookup_looked hg path
  generalize s.vfsLookup path = r at hlook hlog ⊢
  obtain ⟨s₁, r⟩ := r
  cases r with
  | some x =>
    dsimp only
    split_ifs
    · exact hlook.looks.changes.tail (.touch _ ((touched_setNode rfl).trans (touched_setNode rfl)))
    · exact hlook.looks.changes.tail (.touch _ (touched_setNode rfl))
    · exact hlook.looks.changes
  | none =>
  have hg₁ := hlook.looks.good hg
  have hpar := parentForCreate_parent hg₁ path
  dsimp only at hlog ⊢
  generalize s₁.vfsParentForCreate path = r at hpar hlog ⊢
  obtain ⟨s₂, r⟩ := r
  have hlooks := hlook.looks.trans hpar.looks
  cases r with
  | none => exact hlooks.changes
  | some r =>
  obtain ⟨p, name⟩ := r
  obtain ⟨hp, -, hlen, hhead, parts, hcomps, hwalk⟩ := hpar.found p name rfl
  dsimp only
  split_ifs with hdir
  · exact hlooks.changes
  rw [newNode_eq]
  split_ifs with hfull
  · exact hlooks.changes
  dsimp only
  have hdir : s₂.tree.isDir p = true := by simpa [isType, tree] using hdir
  have hroom : s₂.Room strict p (s₂.fresh name .file (sIfreg + 0o666)).name := by
    rw [fresh_name s₂ hlen]
    exact room_of_walks (hpar.looks.good hg₁) hp hdir hlen hwalk
      (fun hs x hx ↦ hlook.none hs hhead rfl x (hpar.looks.alike.walks.1 (hcomps ▸ hx)))
  have hnew := fresh_new s₂ name .file (sIfreg + 0o666)
  obtain ⟨hpath, hdata⟩ | ⟨-, hdata | ⟨k, hfree, hdata⟩⟩ :=
    fileData_cases s₂ path (s₂.fresh name .file (sIfreg + 0o666))
  · rw [hdata]
    dsimp only
    rw [grow_add hp.1]
    refine hlooks.changes.tail (.log p _ hnew hroom ⟨rfl, rfl⟩ rfl rfl (fun hl i hi ho hx ↦ ?_))
    refine hlog hl ⟨hpath, ⟨rfl, ?_, p, name, rfl, ?_⟩, i, ?_, ?_⟩
    · rw [← hlooks.spelled.used]
      exact not_le.1 hfull
    · have htype : (s₂.nodes p).type = .dir := by simpa [tree] using hdir
      rwa [hlooks.spelled.nodes p] at htype
    · rw [← hlooks.spelled.used]
      exact hi
    · rw [hlooks.spelled.nodes i] at ho hx
      exact ⟨ho, hx⟩
  · rw [hdata]
    exact hlooks.changes.tail (.waste _ hnew)
  · rw [hdata]
    dsimp only
    have hadd :=
      grow_add hp.1
        { s₂.fresh name .file (sIfreg + 0o666) with
          data := some (.slot k), capacity := vfsDataSlotSize }
    refine hlooks.changes.tail ?_
    have hfile : Change strict log s₂ _ := .file p
      { s₂.fresh name .file (sIfreg + 0o666) with
        data := some (.slot k), capacity := vfsDataSlotSize } k hnew hroom ⟨rfl, rfl⟩ rfl rfl hfree
    rw [← hadd] at hfile
    exact hfile

theorem link_changes (hg : Good strict s) (old new : List UInt8) :
    Changes strict log s (s.vfsLink old new).1 := by
  unfold vfsLink
  have hlook := lookup_looked hg old
  generalize s.vfsLookup old = r at hlook ⊢
  obtain ⟨s₁, r⟩ := r
  cases r with
  | none => exact hlook.looks.changes
  | some src =>
  dsimp only
  split_ifs with hbad
  · exact hlook.looks.changes
  obtain ⟨-, -, hfile⟩ : src ≠ root ∧ (s₁.nodes src).mounted.isSome ≠ true ∧
      s₁.isType src .file ≠ false := by
    simpa only [not_or] using hbad
  have hg₁ := hlook.looks.good hg
  have hpar := parentForCreate_parent hg₁ new
  generalize s₁.vfsParentForCreate new = r at hpar ⊢
  obtain ⟨s₂, r⟩ := r
  have hlooks := hlook.looks.trans hpar.looks
  cases r with
  | none => exact hlooks.changes
  | some r =>
  obtain ⟨p, name⟩ := r
  obtain ⟨hp, -, hlen, hhead, parts, hcomps, hwalk⟩ := hpar.found p name rfl
  dsimp only
  split_ifs with hdir
  · exact hlooks.changes
  have hg₂ := hpar.looks.good hg₁
  have hlook' := lookup_looked hg₂ new
  generalize s₂.vfsLookup new = r at hlook' ⊢
  obtain ⟨s₃, r⟩ := r
  have hlooks := hlooks.trans hlook'.looks
  cases r with
  | some x => exact hlooks.changes
  | none =>
  dsimp only
  rw [newNode_eq]
  split_ifs
  · exact hlooks.changes
  dsimp only
  have hg₃ := hlook'.looks.good hg₂
  have hsrc : src < s₃.used := by
    rw [(hpar.looks.trans hlook'.looks).spelled.used]
    exact (hlook.placed src rfl).1
  have hfile : (s₃.nodes src).type = .file := by
    rw [(hpar.looks.trans hlook'.looks).spelled.nodes src]
    simpa [isType] using hfile
  have hdir : s₃.tree.isDir p = true := by
    rw [hlook'.looks.alike.isDir]
    simpa [isType, tree] using hdir
  have ho : (s₃.nodes src).owner ≠ s₃.used := (hg₃.owners src hsrc).ne
  have hroom : s₃.Room strict p name := room_of_walks hg₃ (hlook'.looks.spelled.placed.2 hp) hdir
    hlen (fun hs ↦ hlook'.looks.alike.walks.2 (hwalk hs))
      (fun hs x hx ↦ hlook'.none hs hhead rfl x (hcomps ▸ hx))
  rw [← fresh_name s₃ hlen .file (s₃.nodes src).mode] at hroom
  refine hlooks.changes.tail ?_
  generalize hn : s₃.fresh name .file (s₃.nodes src).mode = n at hroom ⊢
  have hnew : New n := hn ▸ fresh_new s₃ name .file _
  have htype : n.type = .file := hn ▸ rfl
  generalize hO : (s₃.nodes src).owner = o at ho ⊢
  have hnode : (s₃.grow n).nodes o = s₃.nodes o := update_of_ne ho _ _
  have hswap : ∀ m, (s₃.grow n).setNode o m = (s₃.setNode o m).grow n := by
    intro m
    simp only [grow, setNode, update_comm ho]
  rw [hnode, hswap]
  have hself : ((s₃.addLink o).grow n).nodes s₃.used = n := grow_node (s₃.addLink o) n
  have hset : ∀ m, ((s₃.addLink o).grow n).setNode s₃.used m = (s₃.addLink o).grow m :=
    grow_setNode (s₃.addLink o) n
  have hadd : ∀ m, ((s₃.addLink o).grow m).add p s₃.used = (s₃.addLink o).attach p m :=
    grow_add hroom.used
  rw [← addLink, hself, hset, hadd]
  exact .share p { n with ino := _, owner := o, nlink := 0, data := _, size := _, capacity := _ }
    src hnew hroom htype hsrc hfile hO.symm rfl

theorem unlink_changes (hg : Good strict s) (path : List UInt8) :
    Changes strict log s (s.vfsUnlink path).1 := by
  unfold vfsUnlink
  have hlook := lookup_looked hg path
  generalize s.vfsLookup path = r at hlook ⊢
  obtain ⟨s₁, r⟩ := r
  cases r with
  | none => exact hlook.looks.changes
  | some x =>
  dsimp only
  split_ifs with hbad
  · exact hlook.looks.changes
  cases hpar : (s₁.nodes x).parent with
  | none => exact hlook.looks.changes
  | some p =>
  dsimp only
  split_ifs with hbad'
  · exact hlook.looks.changes
  have hx : x ∈ s₁.tree.children p := not_not.1 (not_or.1 hbad').2
  have hfile : s₁.tree.isDir x = false := by
    have hdir := (not_or.1 (not_or.1 hbad).2).1
    simpa [isType, tree] using hdir
  exact hlook.looks.changes.tail (.remove p x hx hfile)

theorem rmdir_changes (hg : Good strict s) (path : List UInt8) :
    Changes strict log s (s.vfsRmdir path).1 := by
  unfold vfsRmdir
  have hlook := lookup_looked hg path
  generalize s.vfsLookup path = r at hlook ⊢
  obtain ⟨s₁, r⟩ := r
  cases r with
  | none => exact hlook.looks.changes
  | some x =>
  dsimp only
  split_ifs with hbad hempty
  · exact hlook.looks.changes
  · exact hlook.looks.changes
  cases hpar : (s₁.nodes x).parent with
  | none => exact hlook.looks.changes
  | some p =>
  dsimp only
  split_ifs with hbad'
  · exact hlook.looks.changes
  have hx : x ∈ s₁.tree.children p := not_not.1 (not_or.1 hbad').2
  obtain ⟨-, hdir, hmounted⟩ : x ≠ root ∧ s₁.isType x .dir ≠ false ∧
      (s₁.nodes x).mounted.isSome ≠ true := by
    simpa only [not_or] using hbad
  refine hlook.looks.changes.tail
    (.rmdir p x hx (by simpa [isType, tree] using hdir) (fun hs y hy ↦ ?_))
  have hempty : s₁.tree.children x = [] := not_not.1 hempty
  obtain hmem | hmount := ((hlook.looks.good hg).rooted hs).listed y x hy
  · rw [hempty] at hmem
    cases hmem
  · exact hmounted (by rw [show (s₁.nodes x).mounted = some y from hmount]; rfl)

end Fs

end YabroOS.Vfs
