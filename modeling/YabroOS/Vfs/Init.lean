import YabroOS.Vfs.Runs

namespace YabroOS.Vfs

open Fat Function

def text (s : String) : List UInt8 := s.toUTF8.data.toList

/-- A node that `mkd`, `mkf` or `mkl` makes; the parent is given by its place in the array. -/
structure Make where
  parent : ℕ
  name : List UInt8
  type : NodeType
  mode : ℕ
  target : List UInt8

def mkd (parent : ℕ) (name : String) : Make := ⟨parent, text name, .dir, sIfdir + 0o755, []⟩

def mkdMode (parent : ℕ) (name : String) (mode : ℕ) : Make :=
  ⟨parent, text name, .dir, sIfdir + mode, []⟩

def mkf (parent : ℕ) (name : String) (type : NodeType) : Make :=
  ⟨parent, text name, type, if type = .procFile then sIfreg + 0o444 else 0o20000 + 0o666, []⟩

def mkl (parent : ℕ) (name target : String) : Make :=
  ⟨parent, text name, .symlink, sIflnk + 0o777, text target⟩

namespace Fs

variable {s s' : Fs} {x p r : ℕ} {n : Node} {strict log : Prop}

def make (s : Fs) (m : Make) : Fs :=
  match s.newNode m.name m.type m.mode with
  | none => s
  | some (s, x) => (s.setNode x { s.nodes x with linkTarget := m.target }).add m.parent x

def procMount (r : ℕ) : List Make :=
  let self := r + 1
  let pid := r + 2
  let sfd := r + 3
  let pfd := r + 4
  [mkd r "self", mkd r "1", mkd self "fd", mkd pid "fd",
    mkf r "cpuinfo" .procFile, mkf r "meminfo" .procFile, mkf r "uptime" .procFile,
    mkf r "version" .procFile,
    mkf self "status" .procFile, mkf pid "status" .procFile, mkf self "cmdline" .procFile,
    mkf pid "cmdline" .procFile,
    mkf self "maps" .procFile, mkf pid "maps" .procFile, mkl self "exe" "/HELLO.ELF",
    mkl pid "exe" "/HELLO.ELF",
    mkl sfd "0" "/dev/tty", mkl pfd "0" "/dev/tty", mkl sfd "1" "/dev/console",
    mkl pfd "1" "/dev/console",
    mkl sfd "2" "/dev/console", mkl pfd "2" "/dev/console"]

def devMount (r : ℕ) : List Make :=
  let input := r + 8
  [mkf r "null" .devNull, mkf r "zero" .devZero, mkf r "console" .devConsole, mkf r "tty" .devTty,
    mkf r "random" .devRandom, mkf r "urandom" .devUrandom, mkf r "fb0" .devFb, mkd r "input",
    mkf input "event0" .devInput, mkf input "event1" .devInputMouse,
    mkl r "stdin" "/dev/tty", mkl r "stdout" "/dev/console", mkl r "stderr" "/dev/console"]

def mountRoot (s : Fs) (name : List UInt8) (mp : ℕ) : Fs :=
  match s.newNode name .dir (sIfdir + 0o755) with
  | none => s
  | some (s, r) => s.setNode r { s.nodes r with parent := some mp }

def vfsMount (s : Fs) (target name : String) (makes : ℕ → List Make) : Fs :=
  match s.vfsLookup (text target) with
  | (s, none) => s
  | (s, some mp) =>
    if s.isType mp .dir = false ∨ (s.nodes mp).mounted.isSome then s
    else
      let r := s.used
      let s := (makes r).foldl make (s.mountRoot (text name) mp)
      s.setNode mp { s.nodes mp with mounted := some r }

def initTree : List Make :=
  [mkd 0 "proc", mkd 0 "dev", mkdMode 0 "tmp" 0o1777, mkdMode 3 ".X11-unix" 0o1777, mkd 0 "var",
    mkd 5 "log", mkd 5 "lib",
    mkdMode 7 "xkb" 0o775, mkd 0 "etc", mkd 0 "bin", mkd 0 "usr", mkd 0 "lib", mkd 0 "sys",
    mkd 13 "class", mkd 14 "graphics",
    mkd 15 "fb0", mkd 16 "device", mkl 17 "subsystem" "../../../../bus/platform"]

def createWith (s : Fs) (path content : String) : Fs :=
  match s.vfsCreateFile (text path) false with
  | (s, none) => s
  | (s, some x) => (s.vfsWriteKernelFile x (text content)).1

def initRoot : Fs where
  nodes := update (fun _ ↦ blank) root ⟨[], 1, sIfdir + 0o755, .dir, none, [], none, [], [], none,
    0, 0, 1, root⟩
  used := 1
  nextIno := 2
  dataUsed := fun _ ↦ false
  bytes := fun _ _ ↦ 0

def initDirs : Fs := initTree.foldl make initRoot

def initRelease : Fs := initDirs.createWith "/etc/os-release"
  "NAME=YabroOS-32\nVERSION=0.1\nID=yabroos-32\nPRETTY_NAME=\"YabroOS-32 v0.1\"\n"

def initHostname : Fs := initRelease.createWith "/etc/hostname" "yabroos-32\n"

def initMotd : Fs := initHostname.createWith "/etc/motd" "Welcome to YabroOS-32 v0.0.2.\n"

def initProc : Fs := initMotd.vfsMount "/proc" "proc" procMount

def vfsInit : Fs := initProc.vfsMount "/dev" "dev" devMount

end Fs

namespace Tree

variable {t : Tree} {mp r y : ℕ} {name : List UInt8}

def hang (t : Tree) (mp : ℕ) (name : List UInt8) : Tree where
  used := t.used + 1
  parent := update t.parent t.used (some mp)
  children := update t.children t.used []
  isDir := update t.isDir t.used true
  mounted := update t.mounted t.used none
  name := update t.name t.used name

def mountOn (t : Tree) (mp r : ℕ) : Tree := { t with mounted := update t.mounted mp (some r) }

theorem hang_parent {q : ℕ} : (t.hang mp name).parent y = some q ↔
    (y = t.used ∧ q = mp) ∨ (y ≠ t.used ∧ t.parent y = some q) := by
  simp only [hang, update_apply]
  split_ifs with hy
  · simp [hy, eq_comm]
  · simp [hy]

theorem mem_hang {q : ℕ} : y ∈ (t.hang mp name).children q ↔ q ≠ t.used ∧ y ∈ t.children q := by
  simp only [hang, update_apply]
  split_ifs with hq
  · simp [hq]
  · simp [hq]

theorem hang_isDir (hy : y ≠ t.used) : (t.hang mp name).isDir y = t.isDir y := update_of_ne hy _ _

theorem Linked.hang (h : t.Linked) (hmp : mp < t.used) (hdir : t.isDir mp = true)
    (name : List UInt8) : (t.hang mp name).Linked where
  root_used := Nat.lt_succ_of_lt h.root_used
  root_dir := (hang_isDir h.root_used.ne).trans h.root_dir
  child q y hy := by
    obtain ⟨-, hy⟩ := mem_hang.1 hy
    exact hang_parent.2 (.inr ⟨(h.mem_used hy).ne, h.child q y hy⟩)
  nodup q := by
    simp only [Tree.hang, update_apply]
    split_ifs
    · exact List.nodup_nil
    · exact h.nodup q
  used y q hq := by
    have hsucc : (t.hang mp name).used = t.used + 1 := rfl
    obtain ⟨rfl, rfl⟩ | ⟨-, hq⟩ := hang_parent.1 hq
    · omega
    · have hlt := h.used y q hq
      omega
  dir y q hq := by
    obtain ⟨rfl, rfl⟩ | ⟨-, hq⟩ := hang_parent.1 hq
    · exact (hang_isDir hmp.ne).trans hdir
    · exact (hang_isDir (h.used y q hq).2.ne).trans (h.dir y q hq)
  file y q hq hy := by
    obtain ⟨rfl, rfl⟩ | ⟨hne, hq⟩ := hang_parent.1 hq
    · have hnew : (t.hang q name).isDir t.used = true := update_self _ _ _
      rw [hnew] at hy
      cases hy
    · rw [hang_isDir hne] at hy
      exact mem_hang.2 ⟨(h.used y q hq).2.ne, h.file y q hq hy⟩
  mounted q r hr := by
    have hsucc : (t.hang mp name).used = t.used + 1 := rfl
    simp only [Tree.hang, update_apply] at hr
    split_ifs at hr
    obtain ⟨hlt, hrdir⟩ := h.mounted q r hr
    exact ⟨by omega, (hang_isDir hlt.ne).trans hrdir⟩

theorem Linked.mountOn (h : t.Linked) (hr : r < t.used) (hdir : t.isDir r = true) (mp : ℕ) :
    (t.mountOn mp r).Linked where
  root_used := h.root_used
  root_dir := h.root_dir
  child := h.child
  nodup := h.nodup
  used := h.used
  dir := h.dir
  file := h.file
  mounted q r' hq := by
    simp only [Tree.mountOn, update_apply] at hq
    split_ifs at hq
    · cases hq
      exact ⟨hr, hdir⟩
    · exact h.mounted q r' hq

def Clear (t : Tree) : Prop := ∀ x, t.used ≤ x → t.mounted x = none

theorem Step.clear {t' : Tree} {strict : Prop} (hstep : t.Step strict t') (h : t.Clear) :
    t'.Clear := by
  cases hstep with
  | spell | cut | move => exact h
  | attach p d name =>
    intro x hx
    have hx : t.used + 1 ≤ x := hx
    exact (update_of_ne (by omega) _ _).trans (h x (by omega))
  | waste d name =>
    intro x hx
    simp only [Tree.waste, update_apply]
    split_ifs
    · rfl
    · exact h x hx

theorem Clear.hang (h : t.Clear) (mp : ℕ) (name : List UInt8) : (t.hang mp name).Clear := by
  intro x hx
  have hx : t.used + 1 ≤ x := hx
  exact (update_of_ne (by omega) _ _).trans (h x (by omega))

theorem Clear.mountOn (h : t.Clear) (hmp : mp < t.used) (r : ℕ) : (t.mountOn mp r).Clear := by
  intro x hx
  have hx : t.used ≤ x := hx
  exact (update_of_ne (by omega) _ _).trans (h x hx)

end Tree

namespace Fs

variable {s s' : Fs} {x p r : ℕ} {n : Node} {strict log : Prop}

structure Sound (s : Fs) : Prop where
  good : Good False s
  clear : s.tree.Clear
  own : s.Own True

theorem Sound.change (h : Sound s) (hc : Change False True s s') : Sound s' where
  good := h.good.change hc
  clear := by
    refine Relation.ReflTransGen.head_induction_on (motive := fun t _ ↦ t.Clear → s'.tree.Clear)
      (hc.steps h.good.linked) id (fun hstep _ ih hclear ↦ ih (hstep.clear hclear)) h.clear
  own := hc.own h.good.linked h.own

theorem Sound.changes (h : Sound s) (hc : Changes False True s s') : Sound s' := by
  induction hc with
  | refl => exact h
  | tail _ hc ih => exact ih.change hc

theorem Sound.make (h : Sound s) {m : Make} (hp : m.parent < s.used)
    (hdir : s.tree.isDir m.parent = true) (htype : m.type ≠ .file) : Sound (s.make m) := by
  unfold Fs.make
  rw [newNode_eq]
  split_ifs
  · exact h
  dsimp only
  rw [grow_node, grow_setNode, grow_add hp]
  exact h.change (.make m.parent _ (fresh_new s m.name m.type m.mode) ⟨hp, hdir, False.elim⟩
    ⟨rfl, rfl⟩ htype rfl)

def ready : Fs → List Make → Bool
  | _, [] => true
  | s, m :: rest =>
    (m.parent < s.used && s.tree.isDir m.parent && m.type != .file) && ready (s.make m) rest

theorem Sound.makes {makes : List Make} (h : Sound s) (hready : s.ready makes = true) :
    Sound (makes.foldl Fs.make s) := by
  induction makes generalizing s with
  | nil => exact h
  | cons m rest ih =>
    simp only [ready, Bool.and_eq_true, decide_eq_true_eq, bne_iff_ne] at hready
    obtain ⟨⟨⟨hp, hdir⟩, htype⟩, hrest⟩ := hready
    exact ih (h.make hp hdir htype) hrest

theorem Sound.createWith (h : Sound s) {path : String} (hpath : text path ≠ xorgLogPath)
    (content : String) : Sound (s.createWith path content) := by
  have hcreate : Changes False True s (s.vfsCreateFile (text path) false).1 :=
    createFile_changes h.good (fun _ hclash ↦ hpath hclash.1)
  unfold Fs.createWith
  generalize s.vfsCreateFile (text path) false = r at hcreate ⊢
  obtain ⟨s₁, r⟩ := r
  cases r with
  | none => exact h.changes hcreate
  | some x => exact (h.changes hcreate).change (.touch _ (writeKernelFile_touched s₁ x _))

theorem Sound.mountRoot (h : Sound s) (hfull : s.used < vfsMaxNodes) (hp : p < s.used)
    (hdir : s.tree.isDir p = true) (name : List UInt8) :
    Sound (s.mountRoot name p) ∧ (s.mountRoot name p).used = s.used + 1 ∧
      (s.mountRoot name p).tree.isDir s.used = true := by
  have heq : s.mountRoot name p =
      s.grow { s.fresh name .dir (sIfdir + 0o755) with parent := some p } := by
    unfold Fs.mountRoot
    rw [newNode_eq, if_neg (not_le.2 hfull)]
    dsimp only
    rw [grow_node, grow_setNode]
  rw [heq]
  generalize hn : ({ s.fresh name .dir (sIfdir + 0o755) with parent := some p } : Node) = n
  have htree : (s.grow n).tree = s.tree.hang p (name.take vfsNameMax) := by
    subst hn
    ext y
    · rfl
    all_goals
      simp only [tree, grow, Tree.hang, update_apply]
      split_ifs
      · simp [fresh]
      · rfl
  have hself := grow_node s n
  have hold : ∀ x < s.used, (s.grow n).nodes x = s.nodes x := fun x hx ↦ update_of_ne hx.ne _ _
  refine ⟨⟨⟨?_, False.elim, fun x hx ↦ ?_⟩, ?_, ?_⟩, rfl, ?_⟩
  · rw [htree]
    exact h.good.linked.hang hp hdir _
  · have hx : x < s.used + 1 := hx
    have hsucc : (s.grow n).used = s.used + 1 := rfl
    by_cases hxu : x = s.used
    · subst hxu
      rw [hself, ← hn]
      exact hx
    · have hlt : x < s.used := by omega
      have ho := h.good.owners x hlt
      rw [hold x hlt]
      omega
  · rw [htree]
    exact h.clear.hang _ _
  · refine h.own.join rfl (fun x hx ↦ ?_) ?_ ?_ (fun hd ↦ ?_) (fun i b _ _ ↦ ?_) (fun k ↦ ?_)
    · rw [Keeps, hold x hx]
      exact ⟨rfl, rfl, rfl, rfl, rfl⟩
    · rw [hself, ← hn]
      rfl
    · rw [hself, ← hn]
      rfl
    · rw [hself, ← hn] at hd
      exact absurd rfl hd
    · rw [hself, ← hn]
      simp [fresh]
    · rw [hself, ← hn]
      simp [fresh, grow]
  · rw [htree]
    exact update_self _ _ _

theorem Sound.mountOn (h : Sound s) (hp : p < s.used) (hr : r < s.used)
    (hdir : s.tree.isDir r = true) : Sound (s.setNode p { s.nodes p with mounted := some r }) := by
  have htree : (s.setNode p { s.nodes p with mounted := some r }).tree = s.tree.mountOn p r := by
    ext y
    · rfl
    all_goals
      simp only [tree, setNode, Tree.mountOn, update_apply]
      split_ifs with hy
      · simp [hy]
      · rfl
  have hkeeps : ∀ x < s.used, Keeps s (s.setNode p { s.nodes p with mounted := some r }) x := by
    intro x _
    by_cases hx : x = p
    · subst hx
      rw [Keeps, setNode_self]
      exact ⟨rfl, rfl, rfl, rfl, rfl⟩
    · rw [Keeps, setNode_of_ne hx]
      exact ⟨rfl, rfl, rfl, rfl, rfl⟩
  refine ⟨⟨?_, False.elim, fun x hx ↦ ?_⟩, ?_, ?_⟩
  · rw [htree]
    exact h.good.linked.mountOn hr hdir p
  · rw [(hkeeps x hx).1]
    exact h.good.owners x hx
  · rw [htree]
    exact h.clear.mountOn hp r
  · exact h.own.same rfl rfl hkeeps

def mountReady (s : Fs) (target name : String) (makes : ℕ → List Make) : Bool :=
  match s.vfsLookup (text target) with
  | (_, none) => false
  | (s, some mp) => s.used < vfsMaxNodes && (s.mountRoot (text name) mp).ready (makes s.used) &&
      s.used < ((makes s.used).foldl Fs.make (s.mountRoot (text name) mp)).used &&
      mp < ((makes s.used).foldl Fs.make (s.mountRoot (text name) mp)).used &&
      ((makes s.used).foldl Fs.make (s.mountRoot (text name) mp)).tree.isDir s.used

theorem Sound.vfsMount (h : Sound s) {target name : String} {makes : ℕ → List Make}
    (hready : s.mountReady target name makes = true) : Sound (s.vfsMount target name makes) := by
  unfold Fs.vfsMount
  unfold mountReady at hready
  have hlook := lookup_looked h.good (text target)
  generalize s.vfsLookup (text target) = r at hlook hready ⊢
  obtain ⟨s₁, r⟩ := r
  have h₁ : Sound s₁ := h.changes hlook.looks.changes
  cases r with
  | none => exact h₁
  | some mp =>
  dsimp only at hready ⊢
  split_ifs with hbad
  · exact h₁
  simp only [Bool.and_eq_true, decide_eq_true_eq] at hready
  obtain ⟨⟨⟨⟨hfull, hready⟩, hr⟩, hmp⟩, hdir⟩ := hready
  have hmpdir : s₁.tree.isDir mp = true := by
    have hdir := (not_or.1 hbad).1
    simpa [isType, tree] using hdir
  have h₂ := (h₁.mountRoot hfull (hlook.placed mp rfl).1 hmpdir (text name)).1
  exact (h₂.makes hready).mountOn hmp hr hdir

theorem initRoot_bare (x : ℕ) :
    (initRoot.nodes x).parent = none ∧ (initRoot.nodes x).children = [] ∧
    (initRoot.nodes x).mounted = none ∧ (initRoot.nodes x).data = none := by
  simp only [initRoot, update_apply]
  split_ifs
  · exact ⟨rfl, rfl, rfl, rfl⟩
  · exact ⟨rfl, rfl, rfl, rfl⟩

theorem initRoot_sound : Sound initRoot := by
  have hparent : ∀ x p, initRoot.tree.parent x ≠ some p := fun x p hp ↦ by
    rw [show initRoot.tree.parent x = none from (initRoot_bare x).1] at hp
    cases hp
  have hchildren : ∀ x, initRoot.tree.children x = [] := fun x ↦ (initRoot_bare x).2.1
  have hmounted : ∀ x, initRoot.tree.mounted x = none := fun x ↦ (initRoot_bare x).2.2.1
  have hone : ∀ x < initRoot.used, x = root := fun x hx ↦ Nat.lt_one_iff.1 hx
  have hnode : (initRoot.nodes root).owner = root ∧ (initRoot.nodes root).type = .dir := ⟨rfl, rfl⟩
  refine ⟨⟨⟨Nat.one_pos, rfl, ?_, ?_, ?_, ?_, ?_, ?_⟩, False.elim, ?_⟩, fun x _ ↦ hmounted x, ?_⟩
  · intro p x hx
    rw [hchildren p] at hx
    cases hx
  · intro p
    rw [hchildren p]
    exact List.nodup_nil
  · exact fun x p hp ↦ absurd hp (hparent x p)
  · exact fun x p hp ↦ absurd hp (hparent x p)
  · exact fun x p hp ↦ absurd hp (hparent x p)
  · intro p r hr
    rw [hmounted p] at hr
    cases hr
  · intro x hx
    rw [hone x hx, hnode.1]
    exact Nat.one_pos
  constructor
  · intro x hx
    rw [hone x hx, hnode.1]
    exact ⟨Nat.one_pos, rfl⟩
  · intro x hx hne
    rw [hone x hx] at hne
    exact absurd rfl hne
  · intro i hi hdir
    rw [hone i hi.1] at hdir
    exact absurd rfl hdir
  · intro i j b hi hj _ _ _
    rw [hone i hi.1, hone j hj.1]
  · refine fun k ↦ ⟨nofun, ?_⟩
    rintro ⟨i, -, hik⟩
    rw [(initRoot_bare i).2.2.2] at hik
    cases hik
  · intro i k _ hik
    rw [(initRoot_bare i).2.2.2] at hik
    cases hik

theorem init_ready : initRoot.ready initTree = true ∧
    (text "/etc/os-release" ≠ xorgLogPath ∧ text "/etc/hostname" ≠ xorgLogPath ∧
      text "/etc/motd" ≠ xorgLogPath) ∧
    initMotd.mountReady "/proc" "proc" procMount = true ∧
      initProc.mountReady "/dev" "dev" devMount = true := by
  decide +kernel

theorem initDirs_sound : Sound initDirs := initRoot_sound.makes init_ready.1

theorem initRelease_sound : Sound initRelease := initDirs_sound.createWith init_ready.2.1.1 _

theorem initHostname_sound : Sound initHostname := initRelease_sound.createWith init_ready.2.1.2.1 _

theorem initMotd_sound : Sound initMotd := initHostname_sound.createWith init_ready.2.1.2.2 _

theorem initProc_sound : Sound initProc := initMotd_sound.vfsMount init_ready.2.2.1

theorem vfsInit_sound : Sound vfsInit := initProc_sound.vfsMount init_ready.2.2.2

def parentTest (s : Fs) : Bool := (List.range s.used).all (fun x ↦
  match (s.nodes x).parent with
  | none => true
  | some p =>
    s.vfsIsAncestor root p && ((s.nodes p).children.contains x || (s.nodes p).mounted = some x))

def mountTest (s : Fs) : Bool := (List.range s.used).all (fun p ↦
  match (s.nodes p).mounted with
  | none => true
  | some r => (s.nodes r).parent = some p && (s.nodes r).mounted = none &&
      (List.range s.used).all (fun q ↦ !(s.nodes q).children.contains r))

def nameTest (s : Fs) : Bool := (List.range s.used).all (fun p ↦
  (s.nodes p).children.all (fun x ↦ (s.nodes p).children.all (fun y ↦
    x = y || (s.nodes x).name != (s.nodes y).name &&
      !(s.isType x .dir && s.isType y .dir && eqDirName (s.nodes x).name (s.nodes y).name))))

theorem reach_of_isAncestor {k : ℕ} (h : s.ancestorLoop root k (some x) = true) :
    s.tree.Reach x := by
  induction k generalizing x with
  | zero => cases h
  | succ k ih =>
    simp only [ancestorLoop, decide_eq_true_eq] at h
    obtain rfl | h := h
    · exact .root
    · cases hp : (s.nodes x).parent with
      | none =>
        rw [hp] at h
        cases k <;> cases h
      | some p =>
        rw [hp] at h
        exact .child hp (ih h)

theorem Sound.rooted (h : Sound s)
    (hroot : (s.nodes root).parent = none ∧ (s.nodes root).mounted = none)
    (hp : s.parentTest = true) (hm : s.mountTest = true) (hn : s.nameTest = true) :
    s.tree.Rooted := by
  simp only [parentTest, List.all_eq_true, List.mem_range] at hp
  simp only [mountTest, List.all_eq_true, List.mem_range] at hm
  simp only [nameTest, List.all_eq_true, List.mem_range] at hn
  have hl := h.good.linked
  have hparent : ∀ x p, s.tree.parent x = some p → s.tree.Reach p ∧
      (x ∈ s.tree.children p ∨ s.tree.mounted p = some x) := by
    intro x p hxp
    have hx := hp x (hl.used x p hxp).1
    rw [show (s.nodes x).parent = some p from hxp] at hx
    simp only [Bool.and_eq_true, Bool.or_eq_true, List.contains_iff_mem, decide_eq_true_eq] at hx
    exact ⟨reach_of_isAncestor hx.1, hx.2⟩
  have hchild : ∀ p x y, x ∈ s.tree.children p → y ∈ s.tree.children p → x = y ∨
      s.tree.name x ≠ s.tree.name y ∧
      ¬ (s.tree.isDir x = true ∧ s.tree.isDir y = true ∧
        lower (s.tree.name x) = lower (s.tree.name y)) := by
    intro p x y hx hy
    have hxy := hn p (hl.used x p (hl.child p x hx)).2 x hx y hy
    simpa [eqDirName, isType, tree, imp_iff_not_or, or_assoc] using hxy
  refine ⟨⟨⟨hl, ?_⟩, hroot.1, hroot.2, fun x p hxp ↦ (hparent x p hxp).1,
    fun x p hxp ↦ (hparent x p hxp).2, ?_⟩, ?_⟩
  · intro p x y hx hy hxy
    exact (hchild p x y hx hy).resolve_right (fun hne ↦ hne.1 hxy)
  · intro p r hr
    have hpu : p < s.used := not_le.1 (fun hle ↦ by
      rw [h.clear p hle] at hr
      cases hr)
    have hp := hm p hpu
    rw [show (s.nodes p).mounted = some r from hr] at hp
    simp only [Bool.and_eq_true, decide_eq_true_eq, List.all_eq_true, List.mem_range] at hp
    obtain ⟨⟨hrp, hrm⟩, hnot⟩ := hp
    refine ⟨hrp, hrm, fun q hq ↦ ?_⟩
    have hno := hnot q (hl.used r q (hl.child q r hq)).2
    rw [List.contains_iff_mem.2 (show r ∈ (s.nodes q).children from hq)] at hno
    cases hno
  · intro p x y hx hy hxd hyd hlow
    exact (hchild p x y hx hy).resolve_right (fun hne ↦ hne.2 ⟨hxd, hyd, hlow⟩)

theorem vfsInit_rooted : vfsInit.tree.Rooted := by
  obtain ⟨hroot, hparent, hmount, hname⟩ : ((vfsInit.nodes root).parent = none ∧
      (vfsInit.nodes root).mounted = none) ∧
      vfsInit.parentTest = true ∧ vfsInit.mountTest = true ∧ vfsInit.nameTest = true := by
        decide +kernel
  exact vfsInit_sound.rooted hroot hparent hmount hname

end Fs

end YabroOS.Vfs
