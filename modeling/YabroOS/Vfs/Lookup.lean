import YabroOS.Vfs.Tree
import Mathlib.Logic.Relation

namespace YabroOS.Vfs

open Fat Function

namespace Tree

variable {t t' t'' : Tree} {x p cur : ℕ} {name : List UInt8}

structure Alike (t t' : Tree) : Prop where
  used : t'.used = t.used
  parent : t'.parent = t.parent
  children : t'.children = t.children
  isDir : t'.isDir = t.isDir
  mounted : t'.mounted = t.mounted
  file : ∀ x, t.isDir x = false → t'.name x = t.name x
  low : ∀ x, lower (t'.name x) = lower (t.name x)

theorem Alike.refl (t : Tree) : t.Alike t := ⟨rfl, rfl, rfl, rfl, rfl, fun _ _ ↦ rfl, fun _ ↦ rfl⟩

theorem Alike.trans (h : t.Alike t') (h' : t'.Alike t'') : t.Alike t'' where
  used := h'.used.trans h.used
  parent := h'.parent.trans h.parent
  children := h'.children.trans h.children
  isDir := h'.isDir.trans h.isDir
  mounted := h'.mounted.trans h.mounted
  file x hx := (h'.file x (by rw [h.isDir]; exact hx)).trans (h.file x hx)
  low x := (h'.low x).trans (h.low x)

theorem Alike.symm (h : t.Alike t') : t'.Alike t where
  used := h.used.symm
  parent := h.parent.symm
  children := h.children.symm
  isDir := h.isDir.symm
  mounted := h.mounted.symm
  file x hx := (h.file x (by rw [← h.isDir]; exact hx)).symm
  low x := (h.low x).symm

theorem alike_spell (hdir : t.isDir x = true) (hlow : lower (t.name x) = lower name) :
    t.Alike (t.spell x name) where
  used := rfl
  parent := rfl
  children := rfl
  isDir := rfl
  mounted := rfl
  file y hy := by
    refine update_of_ne ?_ _ _
    rintro rfl
    rw [hdir] at hy
    cases hy
  low y := by
    simp only [Tree.spell, update_apply]
    split_ifs with hy
    · rw [hy, hlow]
    · rfl

/-- Which child a directory has for a name: a file of that name, or else a directory of that name up
to case. -/
def Finds (t : Tree) (d : ℕ) (name : List UInt8) (x : ℕ) : Prop :=
  x ∈ t.children d ∧ (t.isDir x = false ∧ t.name x = name ∨
    t.isDir x = true ∧ lower (t.name x) = lower name ∧ ∀ y ∈ t.children d, t.isDir y = false →
      t.name y ≠ name)

theorem Alike.finds (h : t.Alike t') {d : ℕ} : t'.Finds d name x ↔ t.Finds d name x := by
  have hmono : ∀ {t t' : Tree}, t.Alike t' → t.Finds d name x → t'.Finds d name x := by
    rintro t t' h ⟨hx, hcase⟩
    refine ⟨by rw [h.children]; exact hx, ?_⟩
    obtain ⟨hdir, hname⟩ | ⟨hdir, hname, hno⟩ := hcase
    · exact .inl ⟨by rw [h.isDir]; exact hdir, by rw [h.file x hdir, hname]⟩
    · refine .inr ⟨by rw [h.isDir]; exact hdir, by rw [h.low, hname], fun y hy hfile ↦ ?_⟩
      rw [h.children] at hy
      rw [h.isDir] at hfile
      rw [h.file y hfile]
      exact hno y hy hfile
  exact ⟨hmono h.symm, hmono h⟩

def mr (t : Tree) (x : ℕ) : ℕ := (t.mounted x).getD x

def up (t : Tree) (cur : ℕ) : ℕ :=
  match t.parent cur with
  | none => cur
  | some p => if t.mounted p = some cur then (t.parent p).getD p else p

/-- The walk along the components of a path, whatever the spelling of directories. -/
def Walks (t : Tree) : ℕ → List (List UInt8) → ℕ → Prop
  | cur, [], x => cur = x
  | cur, part :: rest, x =>
    if part.take vfsNameMax = dot then Walks t cur rest x
    else if part.take vfsNameMax = dotdot then Walks t (t.up cur) rest x
    else ∃ z, t.isDir (t.mr cur) = true ∧ t.Finds (t.mr cur) (part.take vfsNameMax) z ∧
      Walks t (t.mr z) rest x

theorem Alike.walks (h : t.Alike t') {parts : List (List UInt8)} :
    t'.Walks cur parts x ↔ t.Walks cur parts x := by
  have hmr : ∀ y, t'.mr y = t.mr y := fun y ↦ by rw [mr, mr, h.mounted]
  have hup : ∀ y, t'.up y = t.up y := fun y ↦ by rw [up, up, h.parent, h.mounted]
  induction parts generalizing cur with
  | nil => exact Iff.rfl
  | cons part rest ih =>
    simp only [Walks, hmr, hup, h.isDir, h.finds, ih]

theorem Rooted.finds_unique (h : t.Rooted) {d y : ℕ} (hx : t.Finds d name x)
    (hy : t.Finds d name y) : x = y := by
  obtain ⟨hxm, hxc⟩ := hx
  obtain ⟨hym, hyc⟩ := hy
  obtain ⟨hxd, hxn⟩ | ⟨hxd, hxn, hxno⟩ := hxc
  · obtain ⟨hyd, hyn⟩ | ⟨hyd, hyn, hyno⟩ := hyc
    · exact h.names d x y hxm hym (hxn.trans hyn.symm)
    · exact absurd hxn (hyno x hxm hxd)
  · obtain ⟨hyd, hyn⟩ | ⟨hyd, hyn, hyno⟩ := hyc
    · exact absurd hyn (hxno y hym hyd)
    · exact h.dirs d x y hxm hym hxd hyd (hxn.trans hyn.symm)

theorem free_of_not_finds {d : ℕ} (h : ∀ x, ¬ t.Finds d name x) : t.Free d name := by
  have hfile : ∀ y ∈ t.children d, t.isDir y = false → t.name y ≠ name := fun y hy hd hn ↦
    h y ⟨hy, .inl ⟨hd, hn⟩⟩
  intro y hy
  have hdir : t.isDir y = true → lower (t.name y) ≠ lower name :=
    fun hd hn ↦ h y ⟨hy, .inr ⟨hd, hn, hfile⟩⟩
  refine ⟨fun hn ↦ ?_, hdir⟩
  cases hd : t.isDir y with
  | false => exact hfile y hy hd hn
  | true => exact hdir hd (by rw [hn])

end Tree

namespace Fs

variable {s s' s'' s₁ : Fs} {x p cur d : ℕ} {name part path : List UInt8} {r : Fs × Option ℕ}
  {rest : List (List UInt8)}

def tree (s : Fs) : Tree where
  used := s.used
  parent x := (s.nodes x).parent
  children x := (s.nodes x).children
  isDir x := (s.nodes x).type = .dir
  mounted x := (s.nodes x).mounted
  name x := (s.nodes x).name

structure Spelled (s s' : Fs) : Prop where
  used : s'.used = s.used
  nextIno : s'.nextIno = s.nextIno
  dataUsed : s'.dataUsed = s.dataUsed
  bytes : s'.bytes = s.bytes
  nodes : ∀ x, s'.nodes x = { s.nodes x with name := (s'.nodes x).name }

theorem Spelled.refl (s : Fs) : s.Spelled s := ⟨rfl, rfl, rfl, rfl, fun _ ↦ rfl⟩

theorem Spelled.trans (h : s.Spelled s') (h' : s'.Spelled s'') : s.Spelled s'' where
  used := h'.used.trans h.used
  nextIno := h'.nextIno.trans h.nextIno
  dataUsed := h'.dataUsed.trans h.dataUsed
  bytes := h'.bytes.trans h.bytes
  nodes x := by
    have hx := h'.nodes x
    rw [h.nodes x] at hx
    exact hx

theorem setNode_self (s : Fs) (x : ℕ) (n : Node) : (s.setNode x n).nodes x = n := update_self _ _ _

theorem setNode_of_ne {y : ℕ} (h : y ≠ x) (s : Fs) (n : Node) :
    (s.setNode x n).nodes y = s.nodes y := update_of_ne h _ _

theorem spelled_setName (s : Fs) (x : ℕ) (name : List UInt8) :
    s.Spelled (s.setNode x { s.nodes x with name := name }) where
  used := rfl
  nextIno := rfl
  dataUsed := rfl
  bytes := rfl
  nodes y := by
    by_cases hy : y = x
    · subst hy
      rw [setNode_self]
    · rw [setNode_of_ne hy]

theorem tree_setName (s : Fs) (x : ℕ) (name : List UInt8) :
    (s.setNode x { s.nodes x with name := name }).tree = s.tree.spell x name := by
  have hnode : ∀ y, (s.setNode x { s.nodes x with name := name }).nodes y =
      if y = x then { s.nodes x with name := name } else s.nodes y := fun y ↦ by
    simp only [setNode, update_apply]
  simp only [tree, Tree.spell, hnode]
  congr 1
  all_goals
    funext y
    by_cases hy : y = x
    · subst hy
      simp
    · simp [hy]

inductive ChildLookup (s : Fs) (d : ℕ) (name : List UInt8) : Fs × Option ℕ → Prop
  | notDir (hd : s.tree.isDir d = false) : ChildLookup s d name (s, none)
  | missing (hd : s.tree.isDir d = true) (hfree : s.tree.Free d name) : ChildLookup s d name
    (s, none)
  | exact (x : ℕ) (hd : s.tree.isDir d = true) (hx : x ∈ s.tree.children d)
    (hname : s.tree.name x = name) :
      ChildLookup s d name (s, some x)
  | dir (x : ℕ) (hd : s.tree.isDir d = true) (hx : x ∈ s.tree.children d)
    (hdir : s.tree.isDir x = true)
      (hlow : lower (s.tree.name x) = lower name)
        (hno : ∀ y ∈ s.tree.children d, s.tree.name y ≠ name) :
      ChildLookup s d name (s, some x)
  | spell (x : ℕ) (hd : s.tree.isDir d = true) (hx : x ∈ s.tree.children d)
    (hdir : s.tree.isDir x = true)
      (hlow : lower (s.tree.name x) = lower name)
        (hno : ∀ y ∈ s.tree.children d, s.tree.name y ≠ name) :
      ChildLookup s d name (s.setNode x { s.nodes x with name := name }, some x)

theorem lookupChild_spec (s : Fs) (d : ℕ) {name : List UInt8} (hlen : name.length ≤ vfsNameMax) :
    ChildLookup s d name (s.vfsLookupChild d name) := by
  unfold vfsLookupChild
  split
  · next hd => exact .notDir (by simpa [tree] using hd)
  next hd =>
  have hd : s.tree.isDir d = true := by simpa [tree] using hd
  split
  · next x hfind =>
    have hx := List.mem_of_find?_eq_some hfind
    have hname := List.find?_some hfind
    exact .exact x hd hx (by simpa [tree] using hname)
  next hfind =>
  have hno : ∀ y ∈ s.tree.children d, s.tree.name y ≠ name := by simpa [tree] using hfind
  split
  · next hfind' =>
    have hlow : ∀ y ∈ s.tree.children d, s.tree.isDir y = true →
        lower (s.tree.name y) ≠ lower name := by
      simpa [tree, eqDirName] using hfind'
    exact .missing hd (fun y hy ↦ ⟨hno y hy, hlow y hy⟩)
  · next x hfind' =>
    have hx := List.mem_of_find?_eq_some hfind'
    have hmatch := List.find?_some hfind'
    have hmatch : s.tree.isDir x = true ∧ lower (s.tree.name x) = lower name := by
      simpa [tree, eqDirName] using hmatch
    split
    · rw [List.take_of_length_le hlen]
      exact .spell x hd hx hmatch.1 hmatch.2 hno
    · exact .dir x hd hx hmatch.1 hmatch.2 hno

theorem ChildLookup.spelled (h : ChildLookup s d name r) : s.Spelled r.1 := by
  cases h with
  | notDir | missing | exact | dir => exact .refl s
  | spell x => exact spelled_setName s x name

theorem ChildLookup.alike (h : ChildLookup s d name r) : s.tree.Alike r.1.tree := by
  cases h with
  | notDir | missing | exact | dir => exact .refl s.tree
  | spell x hd hx hdir hlow =>
    rw [tree_setName]
    exact Tree.alike_spell hdir hlow

theorem ChildLookup.steps (h : ChildLookup s d name r) (strict : Prop) :
    Relation.ReflTransGen (Tree.Step strict) s.tree r.1.tree := by
  cases h with
  | notDir | missing | exact | dir => exact .refl
  | spell x hd hx hdir hlow hno =>
    rw [tree_setName]
    exact .single (.spell d x name hx hdir hlow hno)

theorem ChildLookup.mem (h : ChildLookup s d name (s₁, some x)) : x ∈ s.tree.children d := by
  cases h with
  | exact _ _ hx | dir _ _ hx | spell _ _ hx => exact hx

theorem ChildLookup.finds (hs : s.tree.Rooted) (h : ChildLookup s d name (s₁, some x)) :
    s.tree.isDir d = true ∧ s.tree.Finds d name x := by
  cases h with
  | exact _ hd hx hname =>
    refine ⟨hd, hx, ?_⟩
    cases hdir : s.tree.isDir x with
    | false => exact .inl ⟨rfl, hname⟩
    | true =>
      refine .inr ⟨rfl, by rw [hname], fun y hy hfile hyn ↦ ?_⟩
      obtain rfl := hs.names d y x hy hx (hyn.trans hname.symm)
      rw [hdir] at hfile
      cases hfile
  | dir _ hd hx hdir hlow hno | spell _ hd hx hdir hlow hno =>
    exact ⟨hd, hx, .inr ⟨hdir, hlow, fun y hy _ ↦ hno y hy⟩⟩

theorem ChildLookup.not_finds (h : ChildLookup s d name (s₁, none)) (hd : s.tree.isDir d = true)
    (x : ℕ) : ¬ s.tree.Finds d name x := by
  cases h with
  | notDir hn =>
    rw [hd] at hn
    cases hn
  | missing _ hfree =>
    rintro ⟨hx, ⟨-, hname⟩ | ⟨hdir, hlow, -⟩⟩
    · exact (hfree x hx).1 hname
    · exact (hfree x hx).2 hdir hlow

theorem take_length_le (part : List UInt8) : (part.take vfsNameMax).length ≤ vfsNameMax :=
  List.length_take_le _ _

theorem walk_child (h₁ : part.take vfsNameMax ≠ dot) (h₂ : part.take vfsNameMax ≠ dotdot) :
    s.walk cur (part :: rest) =
      match s.vfsLookupChild (s.mr cur) (part.take vfsNameMax) with
      | (s, none) => (s, none)
      | (s, some x) => s.walk (s.mr x) rest := by
  rewrite [walk, if_neg h₁, if_neg h₂]
  rfl

theorem walk_dot (h : part.take vfsNameMax = dot) :
    s.walk cur (part :: rest) = s.walk cur rest := by
  rw [walk, if_pos h]

theorem walk_dotdot (h : part.take vfsNameMax = dotdot) :
    s.walk cur (part :: rest) = s.walk (s.up cur) rest := by
  rw [walk, if_neg (by rw [h]; decide), if_pos h]

theorem walk_induction {P : Fs → Prop}
    (hchild : ∀ s d name, name.length ≤ vfsNameMax → P s → P (s.vfsLookupChild d name).1)
    (parts : List (List UInt8)) (cur : ℕ) (hs : P s) : P (s.walk cur parts).1 := by
  induction parts generalizing s cur with
  | nil => exact hs
  | cons part rest ih =>
    by_cases h₁ : part.take vfsNameMax = dot
    · rw [walk_dot h₁]
      exact ih cur hs
    by_cases h₂ : part.take vfsNameMax = dotdot
    · rw [walk_dotdot h₂]
      exact ih _ hs
    rw [walk_child h₁ h₂]
    have hs₁ := hchild s (s.mr cur) (part.take vfsNameMax) (take_length_le part) hs
    generalize s.vfsLookupChild (s.mr cur) (part.take vfsNameMax) = res at hs₁ ⊢
    obtain ⟨s₁, r⟩ := res
    cases r with
    | none => exact hs₁
    | some x => exact ih _ hs₁

theorem lookup_induction {P : Fs → Prop}
    (hchild : ∀ s d name, name.length ≤ vfsNameMax → P s → P (s.vfsLookupChild d name).1)
    (path : List UInt8) (hs : P s) : P (s.vfsLookup path).1 := by
  unfold vfsLookup
  split_ifs
  · exact hs
  · exact walk_induction hchild _ _ hs

theorem lookup_spelled (s : Fs) (path : List UInt8) : s.Spelled (s.vfsLookup path).1 :=
  lookup_induction (P := s.Spelled)
    (fun s₁ d _ hlen hs ↦ hs.trans (lookupChild_spec s₁ d hlen).spelled) path (.refl s)

theorem lookup_alike (s : Fs) (path : List UInt8) : s.tree.Alike (s.vfsLookup path).1.tree :=
  lookup_induction (P := fun s₁ ↦ s.tree.Alike s₁.tree)
    (fun s₁ d _ hlen hs ↦ hs.trans (lookupChild_spec s₁ d hlen).alike) path (.refl _)

theorem lookup_steps (s : Fs) (path : List UInt8) (strict : Prop) :
    Relation.ReflTransGen (Tree.Step strict) s.tree (s.vfsLookup path).1.tree :=
  lookup_induction (P := fun s₁ ↦ Relation.ReflTransGen (Tree.Step strict) s.tree s₁.tree)
    (fun s₁ d _ hlen hs ↦ hs.trans ((lookupChild_spec s₁ d hlen).steps strict)) path .refl

theorem steps_linked {t t' : Tree} {strict : Prop}
    (h : Relation.ReflTransGen (Tree.Step strict) t t') (ht : t.Linked) : t'.Linked := by
  induction h with
  | refl => exact ht
  | tail _ hstep ih => exact hstep.linked ih

theorem steps_rooted {t t' : Tree} {strict : Prop}
    (h : Relation.ReflTransGen (Tree.Step strict) t t') (hs : strict) (ht : t.Rooted) :
    t'.Rooted := by
  induction h with
  | refl => exact ht
  | tail _ hstep ih => exact hstep.rooted hs ih

def Placed (s : Fs) (x : ℕ) : Prop := x < s.used ∧ (s.tree.isDir x = true ∨ s.tree.parent x ≠ none)

theorem Spelled.placed (h : s.Spelled s') : s'.Placed x ↔ s.Placed x := by
  have hdir : s'.tree.isDir x = s.tree.isDir x := by
    simp only [tree]
    rw [h.nodes x]
  have hparent : s'.tree.parent x = s.tree.parent x := by
    simp only [tree]
    rw [h.nodes x]
  rw [Placed, Placed, h.used, hdir, hparent]

theorem placed_root (h : s.tree.Linked) : s.Placed root := ⟨h.root_used, .inl h.root_dir⟩

theorem placed_child (h : s.tree.Linked) (hx : x ∈ s.tree.children p) : s.Placed x :=
  ⟨h.mem_used hx, .inr (by rw [h.child p x hx]; exact nofun)⟩

theorem placed_mr (h : s.tree.Linked) (hx : s.Placed x) : s.Placed (s.mr x) := by
  unfold mr
  cases hm : (s.nodes x).mounted with
  | none => exact hx
  | some r =>
    obtain ⟨hlt, hdir⟩ := h.mounted x r hm
    exact ⟨hlt, .inl hdir⟩

theorem placed_up (h : s.tree.Linked) (hx : s.Placed x) : s.Placed (s.up x) := by
  unfold up
  cases hp : (s.nodes x).parent with
  | none => exact hx
  | some p =>
    have hplaced : s.Placed p := ⟨(h.used x p hp).2, .inl (h.dir x p hp)⟩
    dsimp only
    split_ifs
    · cases hq : (s.nodes p).parent with
      | none => exact hplaced
      | some q => exact ⟨(h.used p q hq).2, .inl (h.dir p q hq)⟩
    · exact hplaced

theorem walk_placed (h : s.tree.Linked) {parts : List (List UInt8)} (hcur : s.Placed cur)
    (hx : (s.walk cur parts).2 = some x) : s.Placed x := by
  induction parts generalizing s cur with
  | nil =>
    cases hx
    exact hcur
  | cons part rest ih =>
    by_cases h₁ : part.take vfsNameMax = dot
    · rw [walk_dot h₁] at hx
      exact ih h hcur hx
    by_cases h₂ : part.take vfsNameMax = dotdot
    · rw [walk_dotdot h₂] at hx
      exact ih h (placed_up h hcur) hx
    rw [walk_child h₁ h₂] at hx
    have hspec := lookupChild_spec s (s.mr cur) (take_length_le part)
    generalize s.vfsLookupChild (s.mr cur) (part.take vfsNameMax) = res at hspec hx
    obtain ⟨s₁, r⟩ := res
    cases r with
    | none => cases hx
    | some y =>
      have hs₁ : s₁.tree.Linked := steps_linked (hspec.steps False) h
      have hy : s₁.Placed y := hspec.spelled.placed.2 (placed_child h hspec.mem)
      exact hspec.spelled.placed.1 (ih hs₁ (placed_mr hs₁ hy) hx)

theorem lookup_placed (h : s.tree.Linked) (hx : (s.vfsLookup path).2 = some x) : s.Placed x := by
  unfold vfsLookup at hx
  split_ifs at hx
  exact walk_placed h (placed_root h) hx

theorem walk_iff (h : s.tree.Rooted) {parts : List (List UInt8)} :
    (s.walk cur parts).2 = some x ↔ s.tree.Walks cur parts x := by
  induction parts generalizing s cur with
  | nil =>
    constructor
    · exact fun hx ↦ Option.some.inj hx
    · exact fun hx ↦ congrArg some hx
  | cons part rest ih =>
    rw [Tree.Walks]
    by_cases h₁ : part.take vfsNameMax = dot
    · rw [walk_dot h₁, if_pos h₁]
      exact ih h
    rw [if_neg h₁]
    by_cases h₂ : part.take vfsNameMax = dotdot
    · rw [walk_dotdot h₂, if_pos h₂]
      exact ih h
    rw [walk_child h₁ h₂, if_neg h₂]
    have hspec := lookupChild_spec s (s.mr cur) (take_length_le part)
    generalize s.vfsLookupChild (s.mr cur) (part.take vfsNameMax) = res at hspec ⊢
    obtain ⟨s₁, r⟩ := res
    cases r with
    | none =>
      refine ⟨fun hx ↦ (by cases hx), ?_⟩
      rintro ⟨z, hd, hz, -⟩
      exact absurd hz (hspec.not_finds hd z)
    | some y =>
      have hs₁ : s₁.tree.Rooted := steps_rooted (hspec.steps True) trivial h
      have hmr : ∀ z, s₁.mr z = s.tree.mr z := fun z ↦ by
        rw [← show s₁.tree.mr z = s₁.mr z from rfl, Tree.mr, Tree.mr, hspec.alike.mounted]
      dsimp only
      rw [ih hs₁, hspec.alike.walks, hmr]
      obtain ⟨hd, hy⟩ := hspec.finds h
      constructor
      · exact fun hx ↦ ⟨y, hd, hy, hx⟩
      · rintro ⟨z, -, hz, hx⟩
        rwa [h.finds_unique hz hy] at hx

theorem lookup_iff (h : s.tree.Rooted) :
    (s.vfsLookup path).2 = some x ↔ path.head? = some slash ∧
      s.tree.Walks root (components path) x := by
  unfold vfsLookup
  split_ifs with hhead
  · exact ⟨fun hx ↦ (by cases hx), fun hx ↦ absurd hx.1 hhead⟩
  · rw [walk_iff h]
    exact ⟨fun hx ↦ ⟨not_not.1 hhead, hx⟩, fun hx ↦ hx.2⟩

theorem lookup_none (h : s.tree.Rooted) (hhead : path.head? = some slash)
    (hnone : (s.vfsLookup path).2 = none) (x : ℕ) : ¬ s.tree.Walks root (components path) x := by
  intro hx
  rw [(lookup_iff h).2 ⟨hhead, hx⟩] at hnone
  cases hnone

end Fs

namespace Tree

variable {t : Tree} {x p cur : ℕ} {name : List UInt8} {parts : List (List UInt8)}

inductive Visible (t : Tree) : ℕ → Prop
  | root : Visible t root
  | child {x p : ℕ} : Visible t p → x ∈ t.children p → t.mounted x = none → Visible t x
  | mount {r x p : ℕ} : Visible t p → x ∈ t.children p → t.mounted x = some r → Visible t r

theorem Sited.visible_clear (h : t.Sited) (hx : t.Visible x) : t.mounted x = none := by
  cases hx with
  | root => exact h.root_mounted
  | child _ _ hm => exact hm
  | mount _ _ hm => exact (h.mount _ _ hm).2.1

theorem Sited.visible_reach (h : t.Sited) (hx : t.Visible x) : t.Reach x := by
  induction hx with
  | root => exact .root
  | child _ hx _ ih => exact .child (h.child _ _ hx) ih
  | mount _ hx hm ih => exact .child (h.mount _ _ hm).1 (.child (h.child _ _ hx) ih)

theorem Sited.visible_up (h : t.Sited) (hx : t.Visible x) : t.Visible (t.up x) := by
  cases hx with
  | root =>
    rw [up, h.root_parent]
    exact .root
  | @child _ p hp hx hm =>
    have hne : t.mounted p ≠ some x := fun hmp ↦ (h.mount p x hmp).2.2 p hx
    simp only [up, h.child _ _ hx, if_neg hne]
    exact hp
  | @mount _ z p hp hz hm =>
    simp only [up, (h.mount _ _ hm).1, if_pos hm, h.child _ _ hz, Option.getD_some]
    exact hp

theorem Sited.mr_visible (h : t.Sited) (hx : t.Visible x) : t.mr x = x := by
  rw [mr, h.visible_clear hx]
  rfl

theorem visible_mr (hp : t.Visible p) (hx : x ∈ t.children p) : t.Visible (t.mr x) := by
  unfold mr
  cases hm : t.mounted x with
  | none => exact .child hp hx hm
  | some r => exact .mount hp hx hm

theorem Sited.walks_visible (h : t.Sited) (hcur : t.Visible cur) (hx : t.Walks cur parts x) :
    t.Visible x := by
  induction parts generalizing cur with
  | nil =>
    obtain rfl : cur = x := hx
    exact hcur
  | cons part rest ih =>
    rw [Walks] at hx
    split_ifs at hx
    · exact ih hcur hx
    · exact ih (h.visible_up hcur) hx
    · obtain ⟨z, -, hz, hx⟩ := hx
      rw [h.mr_visible hcur] at hz
      exact ih (visible_mr hcur hz.1) hx

theorem walks_append {parts' : List (List UInt8)} : t.Walks cur (parts ++ parts') x ↔
    ∃ y, t.Walks cur parts y ∧ t.Walks y parts' x := by
  induction parts generalizing cur with
  | nil =>
    constructor
    · exact fun hx ↦ ⟨cur, rfl, hx⟩
    · rintro ⟨y, rfl, hx⟩
      exact hx
  | cons part rest ih =>
    rw [List.cons_append, Walks]
    simp only [Walks]
    split_ifs
    · exact ih
    · exact ih
    · constructor
      · rintro ⟨z, hd, hz, hx⟩
        obtain ⟨y, hy, hx⟩ := ih.1 hx
        exact ⟨y, ⟨z, hd, hz, hy⟩, hx⟩
      · rintro ⟨y, ⟨z, hd, hz, hy⟩, hx⟩
        exact ⟨z, hd, hz, ih.2 ⟨y, hy, hx⟩⟩

theorem Rooted.free_of_walks (h : t.Rooted) (hp : t.Walks root parts p) (hd : t.isDir p = true)
    (hlen : name.length ≤ vfsNameMax) (hno : ∀ x, ¬ t.Walks root (parts ++ [name]) x) :
    t.Free p name := by
  have hvis := h.walks_visible .root hp
  refine free_of_not_finds (fun z hz ↦ ?_)
  have hwalk : ∃ y, t.Walks p [name] y := by
    simp only [Walks, List.take_of_length_le hlen, h.mr_visible hvis]
    split_ifs
    · exact ⟨p, rfl⟩
    · exact ⟨t.up p, rfl⟩
    · exact ⟨t.mr z, z, hd, hz, rfl⟩
  obtain ⟨y, hy⟩ := hwalk
  exact hno y (walks_append.2 ⟨p, hp, hy⟩)

end Tree

end YabroOS.Vfs
