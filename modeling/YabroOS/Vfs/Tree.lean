import YabroOS.Vfs.State

namespace YabroOS.Vfs

open Function

/-- The directories of a file system: who has which parent and children, and what is mounted where.
-/
@[ext]
structure Tree where
  used : ℕ
  parent : ℕ → Option ℕ
  children : ℕ → List ℕ
  isDir : ℕ → Bool
  mounted : ℕ → Option ℕ
  name : ℕ → List UInt8

namespace Tree

def attach (t : Tree) (p : ℕ) (d : Bool) (name : List UInt8) : Tree where
  used := t.used + 1
  parent := update t.parent t.used (some p)
  children := update (update t.children t.used []) p (t.used :: t.children p)
  isDir := update t.isDir t.used d
  mounted := update t.mounted t.used none
  name := update t.name t.used name

def cut (t : Tree) (p x : ℕ) : Tree :=
  { t with parent := update t.parent x none, children := update t.children p ((t.children p).erase x) }

def without (t : Tree) (x : ℕ) : ℕ → List ℕ :=
  match t.parent x with
  | none => t.children
  | some op => update t.children op ((t.children op).erase x)

def move (t : Tree) (x p : ℕ) (name : List UInt8) : Tree :=
  { t with
    parent := update t.parent x (some p)
    children := update (t.without x) p (x :: t.without x p)
    name := update t.name x name }

def waste (t : Tree) (d : Bool) (name : List UInt8) : Tree where
  used := t.used
  parent := update t.parent t.used none
  children := update t.children t.used []
  isDir := update t.isDir t.used d
  mounted := update t.mounted t.used none
  name := update t.name t.used name

def spell (t : Tree) (x : ℕ) (name : List UInt8) : Tree := { t with name := update t.name x name }

/-- The parents of a node lead to the root. -/
inductive Reach (t : Tree) : ℕ → Prop
  | root : Reach t root
  | child {x p : ℕ} : t.parent x = some p → Reach t p → Reach t x

/-- A node is on the way from another one to the root. -/
inductive Above (t : Tree) (a : ℕ) : ℕ → Prop
  | self : Above t a a
  | child {x p : ℕ} : t.parent x = some p → Above t a p → Above t a x

def Free (t : Tree) (p : ℕ) (name : List UInt8) : Prop :=
  ∀ y ∈ t.children p, t.name y ≠ name ∧ (t.isDir y = true → lower (t.name y) ≠ lower name)

/-- What links the nodes, also after a mount has been moved. -/
structure Linked (t : Tree) : Prop where
  root_used : root < t.used
  root_dir : t.isDir root = true
  child : ∀ p x, x ∈ t.children p → t.parent x = some p
  nodup : ∀ p, (t.children p).Nodup
  used : ∀ x p, t.parent x = some p → x < t.used ∧ p < t.used
  dir : ∀ x p, t.parent x = some p → t.isDir p = true
  file : ∀ x p, t.parent x = some p → t.isDir x = false → x ∈ t.children p
  mounted : ∀ p r, t.mounted p = some r → r < t.used ∧ t.isDir r = true

structure Named (t : Tree) : Prop extends Linked t where
  names : ∀ p x y, x ∈ t.children p → y ∈ t.children p → t.name x = t.name y → x = y

structure Sited (t : Tree) : Prop extends Named t where
  root_parent : t.parent root = none
  root_mounted : t.mounted root = none
  reach : ∀ x p, t.parent x = some p → t.Reach p
  listed : ∀ x p, t.parent x = some p → x ∈ t.children p ∨ t.mounted p = some x
  mount : ∀ p r, t.mounted p = some r → t.parent r = some p ∧ t.mounted r = none ∧
    ∀ q, r ∉ t.children q

structure Rooted (t : Tree) : Prop extends Sited t where
  dirs : ∀ p x y, x ∈ t.children p → y ∈ t.children p → t.isDir x = true → t.isDir y = true →
    lower (t.name x) = lower (t.name y) → x = y

/-- What a call can do to the tree; `strict` says whether the guards of a rooted tree are met. -/
inductive Step (strict : Prop) (t : Tree) : Tree → Prop
  | spell (d x : ℕ) (name : List UInt8) (hx : x ∈ t.children d) (hdir : t.isDir x = true)
      (hlow : lower (t.name x) = lower name) (hfree : ∀ y ∈ t.children d, t.name y ≠ name) : Step
        strict t (t.spell x name)
  | attach (p : ℕ) (d : Bool) (name : List UInt8) (hp : p < t.used) (hdir : t.isDir p = true)
      (hs : strict → t.Reach p ∧ t.Free p name) : Step strict t (t.attach p d name)
  | waste (d : Bool) (name : List UInt8) : Step strict t (t.waste d name)
  | cut (p x : ℕ) (hx : x ∈ t.children p) (hs : strict → ∀ y, t.parent y ≠ some x) : Step strict t
    (t.cut p x)
  | move (x p : ℕ) (name : List UInt8) (hx : x < t.used) (hp : p < t.used) (hdir : t.isDir p = true)
      (hfile : t.isDir x = false → t.parent x ≠ none)
      (hs : strict → t.Reach p ∧ ¬ t.Above x p ∧ x ≠ root ∧ t.parent x ≠ none ∧
        (∀ q, t.mounted q ≠ some x) ∧ ∀ y ∈ t.children p, y ≠ x → t.name y ≠ name ∧
          (t.isDir x = true → t.isDir y = true → lower (t.name y) ≠ lower name)) : Step strict t
            (t.move x p name)

variable {t t' : Tree} {strict : Prop} {x p q y z : ℕ} {name : List UInt8} {d : Bool}

theorem Linked.parent_fresh (h : t.Linked) : t.parent t.used = none := by
  cases hp : t.parent t.used with
  | none => rfl
  | some p => exact absurd (h.used _ _ hp).1 (lt_irrefl _)

theorem Linked.not_mem_fresh (h : t.Linked) (p : ℕ) : t.used ∉ t.children p := by
  intro hmem
  have hp := h.child p _ hmem
  rw [h.parent_fresh] at hp
  cases hp

theorem Linked.mem_used (h : t.Linked) (hx : x ∈ t.children p) : x < t.used :=
  (h.used _ _ (h.child p x hx)).1

theorem Linked.attach_name (h : t.Linked) (hx : x ∈ t.children q) :
    (t.attach p d name).name x = t.name x := update_of_ne (h.mem_used hx).ne _ _

theorem Linked.spell (h : t.Linked) (x : ℕ) (name : List UInt8) : (t.spell x name).Linked :=
  ⟨h.root_used, h.root_dir, h.child, h.nodup, h.used, h.dir, h.file, h.mounted⟩

theorem attach_isDir (hq : q < t.used) (p : ℕ) (d : Bool) (name : List UInt8) :
    (t.attach p d name).isDir q = t.isDir q := update_of_ne hq.ne _ _

theorem attach_parent : (t.attach p d name).parent y = some q ↔
    (y = t.used ∧ q = p) ∨ (y ≠ t.used ∧ t.parent y = some q) := by
  simp only [attach, update_apply]
  split_ifs with hy
  · simp [hy, eq_comm]
  · simp [hy]

theorem mem_attach (hp : p ≠ t.used) : y ∈ (t.attach p d name).children q ↔
    (q = p ∧ y = t.used) ∨ (q ≠ t.used ∧ y ∈ t.children q) := by
  simp only [attach, update_apply]
  split_ifs with hqp hqu
  · subst hqp
    simp [hp]
  · simp [hqu, hp.symm]
  · simp [hqp, hqu]

theorem Linked.attach (h : t.Linked) (hp : p < t.used) (hdir : t.isDir p = true) (d : Bool)
    (name : List UInt8) : (t.attach p d name).Linked where
  root_used := Nat.lt_succ_of_lt h.root_used
  root_dir := (attach_isDir h.root_used p d name).trans h.root_dir
  child q y hy := by
    obtain ⟨rfl, rfl⟩ | ⟨-, hy⟩ := (mem_attach hp.ne).1 hy
    · exact attach_parent.2 (.inl ⟨rfl, rfl⟩)
    · have hne : y ≠ t.used := fun hyu ↦ h.not_mem_fresh q (hyu ▸ hy)
      exact attach_parent.2 (.inr ⟨hne, h.child q y hy⟩)
  nodup q := by
    simp only [Tree.attach, update_apply]
    split_ifs
    · exact List.nodup_cons.2 ⟨h.not_mem_fresh p, h.nodup p⟩
    · exact List.nodup_nil
    · exact h.nodup q
  used y q hq := by
    have hsucc : (t.attach p d name).used = t.used + 1 := rfl
    obtain ⟨rfl, rfl⟩ | ⟨-, hq⟩ := attach_parent.1 hq
    · omega
    · have hlt := h.used y q hq
      omega
  dir y q hq := by
    obtain ⟨rfl, rfl⟩ | ⟨-, hq⟩ := attach_parent.1 hq
    · exact (attach_isDir hp q d name).trans hdir
    · exact (attach_isDir (h.used y q hq).2 p d name).trans (h.dir y q hq)
  file y q hq hy := by
    obtain ⟨rfl, rfl⟩ | ⟨hne, hq⟩ := attach_parent.1 hq
    · exact (mem_attach hp.ne).2 (.inl ⟨rfl, rfl⟩)
    · rw [attach_isDir (h.used y q hq).1] at hy
      exact (mem_attach hp.ne).2 (.inr ⟨(h.used y q hq).2.ne, h.file y q hq hy⟩)
  mounted q r hr := by
    have hsucc : (t.attach p d name).used = t.used + 1 := rfl
    simp only [Tree.attach, update_apply] at hr
    split_ifs at hr
    obtain ⟨hlt, hrdir⟩ := h.mounted q r hr
    exact ⟨by omega, (attach_isDir hlt p d name).trans hrdir⟩

theorem Linked.waste_parent (h : t.Linked) (d : Bool) (name : List UInt8) :
    (t.waste d name).parent = t.parent := by
  simp only [waste, ← h.parent_fresh, update_eq_self]

theorem Linked.waste_children (h : t.Linked) (d : Bool) (name : List UInt8) :
    (t.waste d name).children = t.children := by
  have hnil : t.children t.used = [] := by
    refine List.eq_nil_iff_forall_not_mem.2 (fun x hx ↦ ?_)
    exact lt_irrefl _ (h.used _ _ (h.child _ _ hx)).2
  simp only [waste, ← hnil, update_eq_self]

theorem waste_mounted {r : ℕ} (hr : (t.waste d name).mounted q = some r) :
    t.mounted q = some r := by
  simp only [waste, update_apply] at hr
  split_ifs at hr
  exact hr

theorem waste_isDir (hq : q < t.used) (d : Bool) (name : List UInt8) :
    (t.waste d name).isDir q = t.isDir q :=
  update_of_ne hq.ne _ _

theorem Linked.waste (h : t.Linked) (d : Bool) (name : List UInt8) : (t.waste d name).Linked where
  root_used := h.root_used
  root_dir := (waste_isDir h.root_used d name).trans h.root_dir
  child := by
    rw [h.waste_parent, h.waste_children]
    exact h.child
  nodup := by
    rw [h.waste_children]
    exact h.nodup
  used := by
    rw [h.waste_parent]
    exact h.used
  dir y q hq := by
    rw [h.waste_parent] at hq
    exact (waste_isDir (h.used y q hq).2 d name).trans (h.dir y q hq)
  file y q hq hy := by
    rw [h.waste_parent] at hq
    rw [waste_isDir (h.used y q hq).1] at hy
    rw [h.waste_children]
    exact h.file y q hq hy
  mounted q r hr := by
    obtain ⟨hlt, hdir⟩ := h.mounted q r (waste_mounted hr)
    exact ⟨hlt, (waste_isDir hlt d name).trans hdir⟩

theorem cut_parent : (t.cut p x).parent y = some q ↔ y ≠ x ∧ t.parent y = some q := by
  simp only [cut, update_apply]
  split_ifs with hy
  · simp [hy]
  · simp [hy]

theorem Linked.mem_cut (h : t.Linked) :
    y ∈ (t.cut p x).children q ↔ y ∈ t.children q ∧ (q = p → y ≠ x) := by
  simp only [cut, update_apply]
  split_ifs with hq
  · subst hq
    rw [(h.nodup q).mem_erase_iff]
    simp [and_comm]
  · simp [hq]

theorem Linked.cut (h : t.Linked) (hx : x ∈ t.children p) : (t.cut p x).Linked where
  root_used := h.root_used
  root_dir := h.root_dir
  child q y hy := by
    obtain ⟨hy, hne⟩ := h.mem_cut.1 hy
    have hq := h.child q y hy
    refine cut_parent.2 ⟨?_, hq⟩
    rintro rfl
    exact hne (Option.some.inj (hq.symm.trans (h.child p y hx))) rfl
  nodup q := by
    simp only [Tree.cut, update_apply]
    split_ifs
    · exact (h.nodup p).erase x
    · exact h.nodup q
  used y q hq := h.used y q (cut_parent.1 hq).2
  dir y q hq := h.dir y q (cut_parent.1 hq).2
  file y q hq hy := by
    obtain ⟨hne, hq⟩ := cut_parent.1 hq
    exact h.mem_cut.2 ⟨h.file y q hq hy, fun _ ↦ hne⟩
  mounted := h.mounted

theorem move_parent : (t.move x p name).parent y = some q ↔
    (y = x ∧ q = p) ∨ (y ≠ x ∧ t.parent y = some q) := by
  simp only [move, update_apply]
  split_ifs with hy
  · simp [hy, eq_comm]
  · simp [hy]

theorem Linked.mem_without (h : t.Linked) : y ∈ t.without x q ↔ y ∈ t.children q ∧ y ≠ x := by
  have hx : ∀ q, x ∈ t.children q → t.parent x = some q := fun q hmem ↦ h.child q x hmem
  unfold without
  cases hp : t.parent x with
  | none =>
    refine ⟨fun hy ↦ ⟨hy, ?_⟩, fun hy ↦ hy.1⟩
    rintro rfl
    have hq := hx q hy
    rw [hp] at hq
    cases hq
  | some op =>
    simp only [update_apply]
    split_ifs with hq
    · subst hq
      rw [(h.nodup q).mem_erase_iff, and_comm]
    · refine ⟨fun hy ↦ ⟨hy, ?_⟩, fun hy ↦ hy.1⟩
      rintro rfl
      have hq' := hx q hy
      rw [hp] at hq'
      exact hq (Option.some.inj hq').symm

theorem Linked.mem_move (h : t.Linked) : y ∈ (t.move x p name).children q ↔
    (q = p ∧ y = x) ∨ (y ∈ t.children q ∧ y ≠ x) := by
  simp only [move, update_apply]
  split_ifs with hq
  · subst hq
    rw [List.mem_cons, h.mem_without]
    simp
  · rw [h.mem_without]
    simp [hq]

theorem Linked.move (h : t.Linked) (hx : x < t.used) (hp : p < t.used) (hdir : t.isDir p = true)
    (name : List UInt8) : (t.move x p name).Linked where
  root_used := h.root_used
  root_dir := h.root_dir
  child q y hy := by
    obtain ⟨rfl, rfl⟩ | ⟨hy, hne⟩ := h.mem_move.1 hy
    · exact move_parent.2 (.inl ⟨rfl, rfl⟩)
    · exact move_parent.2 (.inr ⟨hne, h.child q y hy⟩)
  nodup q := by
    have hwithout : ∀ q, (t.without x q).Nodup := by
      intro q
      unfold without
      cases t.parent x with
      | none => exact h.nodup q
      | some op =>
        simp only [update_apply]
        split_ifs
        · exact (h.nodup op).erase x
        · exact h.nodup q
    simp only [Tree.move, update_apply]
    split_ifs
    · exact List.nodup_cons.2 ⟨fun hmem ↦ (h.mem_without.1 hmem).2 rfl, hwithout p⟩
    · exact hwithout q
  used y q hq := by
    obtain ⟨rfl, rfl⟩ | ⟨-, hq⟩ := move_parent.1 hq
    · exact ⟨hx, hp⟩
    · exact h.used y q hq
  dir y q hq := by
    obtain ⟨rfl, rfl⟩ | ⟨-, hq⟩ := move_parent.1 hq
    · exact hdir
    · exact h.dir y q hq
  file y q hq hy := by
    obtain ⟨rfl, rfl⟩ | ⟨hne, hq⟩ := move_parent.1 hq
    · exact h.mem_move.2 (.inl ⟨rfl, rfl⟩)
    · exact h.mem_move.2 (.inr ⟨h.file y q hq hy, hne⟩)
  mounted := h.mounted

theorem Step.linked (hstep : t.Step strict t') (h : t.Linked) : t'.Linked := by
  cases hstep with
  | spell d x name => exact h.spell x name
  | attach p d name hp hdir => exact h.attach hp hdir d name
  | waste d name => exact h.waste d name
  | cut p x hx => exact h.cut hx
  | move x p name hx hp hdir => exact h.move hx hp hdir name

theorem Sited.reach_used (h : t.Sited) (hx : t.Reach x) : x < t.used := by
  cases hx with
  | root => exact h.root_used
  | child hp _ => exact (h.used _ _ hp).1

theorem Reach.congr (hx : t.Reach x)
    (h : ∀ y q, t.Above y x → t.parent y = some q → t'.parent y = some q) : t'.Reach x := by
  induction hx with
  | root => exact .root
  | child hp _ ih => exact .child (h _ _ .self hp) (ih (fun y q hy ↦ h y q (.child hp hy)))

theorem Above.parent {a : ℕ} (h : t.Above a x) : a = x ∨ ∃ y, t.parent y = some a := by
  induction h with
  | self => exact .inl rfl
  | child hp _ ih =>
    obtain rfl | hy := ih
    · exact .inr ⟨_, hp⟩
    · exact .inr hy

theorem Named.spell (h : t.Named) {d : ℕ} (hx : x ∈ t.children d)
    (hfree : ∀ y ∈ t.children d, t.name y ≠ name) : (t.spell x name).Named where
  toLinked := h.toLinked.spell x name
  names q y z hy hz hname := by
    have hd : ∀ w ∈ t.children q, w = x → q = d := fun w hw hwx ↦
      Option.some.inj ((h.child q w hw).symm.trans (hwx ▸ h.child d x hx))
    simp only [Tree.spell, update_apply] at hname
    split_ifs at hname with hyx hzx hzx
    · exact hyx.trans hzx.symm
    · obtain rfl := hd y hy hyx
      exact absurd hname.symm (hfree z hz)
    · obtain rfl := hd z hz hzx
      exact absurd hname (hfree y hy)
    · exact h.names q y z hy hz hname

theorem Sited.spell (h : t.Sited) {d : ℕ} (hx : x ∈ t.children d)
    (hfree : ∀ y ∈ t.children d, t.name y ≠ name) : (t.spell x name).Sited where
  toNamed := h.toNamed.spell hx hfree
  root_parent := h.root_parent
  root_mounted := h.root_mounted
  reach y q hq := (h.reach y q hq).congr (fun _ _ _ hz ↦ hz)
  listed := h.listed
  mount := h.mount

theorem Rooted.spell (h : t.Rooted) {d : ℕ} (hx : x ∈ t.children d)
    (hlow : lower (t.name x) = lower name) (hfree : ∀ y ∈ t.children d, t.name y ≠ name) :
    (t.spell x name).Rooted where
  toSited := h.toSited.spell hx hfree
  dirs q y z hy hz hyd hzd hname := by
    have hsame : ∀ w, lower ((t.spell x name).name w) = lower (t.name w) := fun w ↦ by
      simp only [Tree.spell, update_apply]
      split_ifs with hw
      · rw [hw, hlow]
      · rfl
    rw [hsame, hsame] at hname
    exact h.dirs q y z hy hz hyd hzd hname

theorem Linked.keys_attach {K : Type} (h : t.Linked) (hp : p ≠ t.used) (key : List UInt8 → K)
    (P : ℕ → Prop) (hfree : ∀ y ∈ t.children p, P t.used → P y → key (t.name y) ≠ key name)
    (hkeys : ∀ q y z, y ∈ t.children q → z ∈ t.children q → P y → P z →
      key (t.name y) = key (t.name z) → y = z)
    (hy : y ∈ (t.attach p d name).children q) (hz : z ∈ (t.attach p d name).children q) (hyP : P y)
    (hzP : P z) (hname : key ((t.attach p d name).name y) = key ((t.attach p d name).name z)) :
    y = z := by
  have hnew : (t.attach p d name).name t.used = name := update_self _ _ _
  obtain ⟨rfl, rfl⟩ | ⟨-, hy'⟩ := (mem_attach hp).1 hy
  · obtain ⟨-, rfl⟩ | ⟨-, hz'⟩ := (mem_attach hp).1 hz
    · rfl
    · rw [hnew, h.attach_name hz'] at hname
      exact absurd hname.symm (hfree z hz' hyP hzP)
  · rw [h.attach_name hy'] at hname
    obtain ⟨rfl, rfl⟩ | ⟨-, hz'⟩ := (mem_attach hp).1 hz
    · rw [hnew] at hname
      exact absurd hname (hfree y hy' hzP hyP)
    · rw [h.attach_name hz'] at hname
      exact hkeys q y z hy' hz' hyP hzP hname

theorem Named.attach (h : t.Named) (hp : p < t.used) (hdir : t.isDir p = true)
    (hfree : ∀ y ∈ t.children p, t.name y ≠ name) (d : Bool) : (t.attach p d name).Named where
  toLinked := h.toLinked.attach hp hdir d name
  names _ _ _ hy hz := h.toLinked.keys_attach hp.ne id (fun _ ↦ True) (fun y hy _ _ ↦ hfree y hy)
    (fun q y z hy hz _ _ ↦ h.names q y z hy hz) hy hz trivial trivial

theorem Sited.attach (h : t.Sited) (hdir : t.isDir p = true) (hreach : t.Reach p)
    (hfree : ∀ y ∈ t.children p, t.name y ≠ name) (d : Bool) : (t.attach p d name).Sited where
  toNamed := h.toNamed.attach (h.reach_used hreach) hdir hfree d
  root_parent := (update_of_ne h.root_used.ne _ _).trans h.root_parent
  root_mounted := (update_of_ne h.root_used.ne _ _).trans h.root_mounted
  reach y q hq := by
    have hkeep : ∀ {z}, t.Reach z → (t.attach p d name).Reach z := fun hz ↦ hz.congr (fun y q _ hy ↦
      attach_parent.2 (.inr ⟨(h.used y q hy).1.ne, hy⟩))
    obtain ⟨rfl, rfl⟩ | ⟨-, hq⟩ := attach_parent.1 hq
    · exact hkeep hreach
    · exact hkeep (h.reach y q hq)
  listed y q hq := by
    have hp := (h.reach_used hreach).ne
    obtain ⟨rfl, rfl⟩ | ⟨hne, hq⟩ := attach_parent.1 hq
    · exact .inl ((mem_attach hp).2 (.inl ⟨rfl, rfl⟩))
    · have hqu := (h.used y q hq).2.ne
      obtain hmem | hmnt := h.listed y q hq
      · exact .inl ((mem_attach hp).2 (.inr ⟨hqu, hmem⟩))
      · exact .inr ((update_of_ne hqu _ _).trans hmnt)
  mount q r hr := by
    simp only [Tree.attach, update_apply] at hr
    split_ifs at hr
    obtain ⟨hpar, hnone, hnot⟩ := h.mount q r hr
    have hne : r ≠ t.used := (h.mounted q r hr).1.ne
    refine ⟨attach_parent.2 (.inr ⟨hne, hpar⟩), (update_of_ne hne _ _).trans hnone, fun q' hmem ↦ ?_⟩
    obtain ⟨-, hru⟩ | ⟨-, hmem⟩ := (mem_attach (h.reach_used hreach).ne).1 hmem
    · exact hne hru
    · exact hnot q' hmem

theorem Rooted.attach (h : t.Rooted) (hdir : t.isDir p = true) (hreach : t.Reach p)
    (hfree : t.Free p name) (d : Bool) : (t.attach p d name).Rooted where
  toSited := h.toSited.attach hdir hreach (fun y hy ↦ (hfree y hy).1) d
  dirs _ _ _ :=
    h.keys_attach (h.reach_used hreach).ne lower (fun y ↦ (t.attach p d name).isDir y = true)
    (fun y hy _ hyd ↦ (hfree y hy).2 (attach_isDir (h.mem_used hy) p d name ▸ hyd))
    fun q y z hy hz hyd hzd ↦ h.dirs q y z hy hz (attach_isDir (h.mem_used hy) p d name ▸ hyd)
      (attach_isDir (h.mem_used hz) p d name ▸ hzd)

theorem Named.waste (h : t.Named) (d : Bool) (name : List UInt8) : (t.waste d name).Named where
  toLinked := h.toLinked.waste d name
  names q y z hy hz hname := by
    rw [h.waste_children] at hy hz
    simp only [Tree.waste, update_of_ne (h.mem_used hy).ne, update_of_ne (h.mem_used hz).ne] at hname
    exact h.names q y z hy hz hname

theorem Sited.waste (h : t.Sited) (d : Bool) (name : List UInt8) : (t.waste d name).Sited where
  toNamed := h.toNamed.waste d name
  root_parent := by
    rw [h.waste_parent]
    exact h.root_parent
  root_mounted := (update_of_ne h.root_used.ne _ _).trans h.root_mounted
  reach y q hq := by
    rw [h.waste_parent] at hq
    exact (h.reach y q hq).congr (fun z w _ hz ↦ by rw [h.waste_parent]; exact hz)
  listed y q hq := by
    rw [h.waste_parent] at hq
    rw [h.waste_children]
    obtain hmem | hmnt := h.listed y q hq
    · exact .inl hmem
    · exact .inr ((update_of_ne (h.used y q hq).2.ne _ _).trans hmnt)
  mount q r hr := by
    have hr := waste_mounted hr
    obtain ⟨hpar, hnone, hnot⟩ := h.mount q r hr
    rw [h.waste_parent, h.waste_children]
    exact ⟨hpar, (update_of_ne (h.mounted q r hr).1.ne _ _).trans hnone, hnot⟩

theorem Rooted.waste (h : t.Rooted) (d : Bool) (name : List UInt8) : (t.waste d name).Rooted where
  toSited := h.toSited.waste d name
  dirs q y z hy hz hyd hzd hname := by
    rw [h.waste_children] at hy hz
    rw [waste_isDir (h.mem_used hy)] at hyd
    rw [waste_isDir (h.mem_used hz)] at hzd
    simp only [Tree.waste, update_of_ne (h.mem_used hy).ne, update_of_ne (h.mem_used hz).ne] at hname
    exact h.dirs q y z hy hz hyd hzd hname

theorem Named.cut (h : t.Named) (hx : x ∈ t.children p) : (t.cut p x).Named where
  toLinked := h.toLinked.cut hx
  names q y z hy hz := h.names q y z (h.mem_cut.1 hy).1 (h.mem_cut.1 hz).1

theorem Sited.cut (h : t.Sited) (hx : x ∈ t.children p) (hleaf : ∀ y, t.parent y ≠ some x) :
    (t.cut p x).Sited where
  toNamed := h.toNamed.cut hx
  root_parent := by
    simp only [Tree.cut, update_apply, h.root_parent, ite_self]
  root_mounted := h.root_mounted
  reach y q hq := by
    replace hq := (cut_parent.1 hq).2
    refine (h.reach y q hq).congr (fun z w hz hw ↦ cut_parent.2 ⟨?_, hw⟩)
    -- only a parent can be on the way
    rintro rfl
    obtain rfl | ⟨y', hy'⟩ := hz.parent
    · exact hleaf y hq
    · exact hleaf y' hy'
  listed y q hq := by
    obtain ⟨hne, hq⟩ := cut_parent.1 hq
    obtain hmem | hmnt := h.listed y q hq
    · exact .inl (h.mem_cut.2 ⟨hmem, fun _ ↦ hne⟩)
    · exact .inr hmnt
  mount q r hr := by
    obtain ⟨hpar, hnone, hnot⟩ := h.mount q r hr
    refine ⟨cut_parent.2 ⟨?_, hpar⟩, hnone, fun q' hmem ↦ hnot q' (h.mem_cut.1 hmem).1⟩
    rintro rfl
    exact hnot p hx

theorem Rooted.cut (h : t.Rooted) (hx : x ∈ t.children p) (hleaf : ∀ y, t.parent y ≠ some x) :
    (t.cut p x).Rooted where
  toSited := h.toSited.cut hx hleaf
  dirs q y z hy hz := h.dirs q y z (h.mem_cut.1 hy).1 (h.mem_cut.1 hz).1

/-- Where the children with the property `P` have keys of their own, they keep them when `x` gets a
name whose key is another one. -/
theorem Linked.keys_move {K : Type} (h : t.Linked) (key : List UInt8 → K) (P : ℕ → Prop)
    (hfree : ∀ y ∈ t.children p, y ≠ x → P x → P y → key (t.name y) ≠ key name)
    (hkeys : ∀ q y z, y ∈ t.children q → z ∈ t.children q → P y → P z →
      key (t.name y) = key (t.name z) → y = z)
    (hy : y ∈ (t.move x p name).children q) (hz : z ∈ (t.move x p name).children q) (hyP : P y)
    (hzP : P z) (hname : key ((t.move x p name).name y) = key ((t.move x p name).name z)) :
    y = z := by
  have hold : ∀ {w}, w ≠ x → (t.move x p name).name w = t.name w := fun hw ↦ update_of_ne hw _ _
  have hnew : (t.move x p name).name x = name := update_self _ _ _
  obtain ⟨rfl, rfl⟩ | ⟨hy', hyx⟩ := h.mem_move.1 hy
  · obtain ⟨-, rfl⟩ | ⟨hz', hzx⟩ := h.mem_move.1 hz
    · rfl
    · rw [hnew, hold hzx] at hname
      exact absurd hname.symm (hfree z hz' hzx hyP hzP)
  · rw [hold hyx] at hname
    obtain ⟨rfl, rfl⟩ | ⟨hz', hzx⟩ := h.mem_move.1 hz
    · rw [hnew] at hname
      exact absurd hname (hfree y hy' hyx hzP hyP)
    · rw [hold hzx] at hname
      exact hkeys q y z hy' hz' hyP hzP hname

theorem Named.move (h : t.Named) (hx : x < t.used) (hp : p < t.used) (hdir : t.isDir p = true)
    (hfree : ∀ y ∈ t.children p, y ≠ x → t.name y ≠ name) : (t.move x p name).Named where
  toLinked := h.toLinked.move hx hp hdir name
  names _ _ _ hy hz := h.toLinked.keys_move id (fun _ ↦ True) (fun y hy hyx _ _ ↦ hfree y hy hyx)
    (fun q y z hy hz _ _ ↦ h.names q y z hy hz) hy hz trivial trivial

theorem Sited.move (h : t.Sited) (hx : x < t.used) (hdir : t.isDir p = true) (hreach : t.Reach p)
    (habove : ¬ t.Above x p) (hroot : x ≠ root) (hmount : ∀ q, t.mounted q ≠ some x)
    (hfree : ∀ y ∈ t.children p, y ≠ x → t.name y ≠ name) : (t.move x p name).Sited where
  toNamed := h.toNamed.move hx (h.reach_used hreach) hdir hfree
  root_parent := (update_of_ne hroot.symm _ _).trans h.root_parent
  root_mounted := h.root_mounted
  reach y q hq := by
    have hp : (t.move x p name).Reach p := hreach.congr (fun z w hz hw ↦
      move_parent.2 (.inr ⟨fun hzx ↦ habove (hzx ▸ hz), hw⟩))
    have hkeep : ∀ {z}, t.Reach z → (t.move x p name).Reach z := by
      intro z hz
      induction hz with
      | root => exact .root
      | @child z w hw _ ih =>
        by_cases hzx : z = x
        · exact .child (move_parent.2 (.inl ⟨hzx, rfl⟩)) hp
        · exact .child (move_parent.2 (.inr ⟨hzx, hw⟩)) ih
    obtain ⟨-, rfl⟩ | ⟨-, hq⟩ := move_parent.1 hq
    · exact hp
    · exact hkeep (h.reach y q hq)
  listed y q hq := by
    obtain ⟨rfl, rfl⟩ | ⟨hne, hq⟩ := move_parent.1 hq
    · exact .inl (h.mem_move.2 (.inl ⟨rfl, rfl⟩))
    · obtain hmem | hmnt := h.listed y q hq
      · exact .inl (h.mem_move.2 (.inr ⟨hmem, hne⟩))
      · exact .inr hmnt
  mount q r hr := by
    obtain ⟨hpar, hnone, hnot⟩ := h.mount q r hr
    have hne : r ≠ x := fun hrx ↦ hmount q (hrx ▸ hr)
    refine ⟨move_parent.2 (.inr ⟨hne, hpar⟩), hnone, fun q' hmem ↦ ?_⟩
    obtain ⟨-, hrx⟩ | ⟨hmem, -⟩ := h.mem_move.1 hmem
    · exact hne hrx
    · exact hnot q' hmem

theorem Rooted.move (h : t.Rooted) (hx : x < t.used) (hdir : t.isDir p = true) (hreach : t.Reach p)
    (habove : ¬ t.Above x p) (hroot : x ≠ root) (hmount : ∀ q, t.mounted q ≠ some x)
    (hfree : ∀ y ∈ t.children p, y ≠ x → t.name y ≠ name ∧
      (t.isDir x = true → t.isDir y = true → lower (t.name y) ≠ lower name)) :
        (t.move x p name).Rooted where
  toSited := h.toSited.move hx hdir hreach habove hroot hmount (fun y hy hyx ↦ (hfree y hy hyx).1)
  dirs _ _ _ :=
    h.keys_move lower (fun y ↦ t.isDir y = true) (fun y hy hyx ↦ (hfree y hy hyx).2) h.dirs

theorem Step.rooted (hstep : t.Step strict t') (hs : strict) (h : t.Rooted) : t'.Rooted := by
  cases hstep with
  | spell d x name hx hdir hlow hfree => exact h.spell hx hlow hfree
  | attach p d name hp hdir hg => exact h.attach hdir (hg hs).1 (hg hs).2 d
  | waste d name => exact h.waste d name
  | cut p x hx hg => exact h.cut hx (hg hs)
  | move x p name hx hp hdir hfile hg =>
    obtain ⟨hreach, habove, hroot, -, hmount, hfree⟩ := hg hs
    exact h.move hx hdir hreach habove hroot hmount hfree

end Tree

end YabroOS.Vfs
