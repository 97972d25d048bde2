import YabroOS.Vfs.Calls
import Mathlib.Data.List.Find

namespace YabroOS.Vfs

open Fat Function

namespace Tree

variable {t t' t'' : Tree} {x d cur : ℕ} {name n : List UInt8} {parts : List (List UInt8)}

def pick (t : Tree) (d : ℕ) (name : List UInt8) : Option ℕ :=
  if t.isDir d = false then none
  else ((t.children d).find? (fun x ↦ t.name x = name)).or
    ((t.children d).find? (fun x ↦ t.isDir x ∧ lower (t.name x) = lower name))

def goTo (t : Tree) : ℕ → List (List UInt8) → Option ℕ
  | cur, [] => some cur
  | cur, part :: rest =>
    if part.take vfsNameMax = dot then goTo t cur rest
    else if part.take vfsNameMax = dotdot then goTo t (t.up cur) rest
    else (t.pick (t.mr cur) (part.take vfsNameMax)).bind (fun x ↦ goTo t (t.mr x) rest)

def find (t : Tree) (path : List UInt8) : Option ℕ :=
  if path.head? = some slash then t.goTo root (components path) else none

def site (t : Tree) (path : List UInt8) : Option (ℕ × List UInt8) :=
  (Fs.splitPath path).bind (fun r ↦ (t.find r.1).map (fun p ↦ (p, r.2)))

structure Same (t t' : Tree) : Prop extends Alike t t' where
  pick : ∀ d name, t'.pick d name = t.pick d name

theorem Same.refl (t : Tree) : t.Same t := ⟨.refl t, fun _ _ ↦ rfl⟩

theorem Same.trans (h : t.Same t') (h' : t'.Same t'') : t.Same t'' :=
  ⟨h.toAlike.trans h'.toAlike, fun d name ↦ (h'.pick d name).trans (h.pick d name)⟩

theorem Sited.same (h : t.Sited) (hs : t.Same t') (hn : t'.Named) : t'.Sited where
  toNamed := hn
  root_parent := by
    rw [hs.parent]
    exact h.root_parent
  root_mounted := by
    rw [hs.mounted]
    exact h.root_mounted
  reach x p hp := by
    rw [hs.parent] at hp
    exact (h.reach x p hp).congr (fun y q _ hq ↦ by rw [hs.parent]; exact hq)
  listed := by
    rw [hs.parent, hs.children, hs.mounted]
    exact h.listed
  mount := by
    rw [hs.parent, hs.children, hs.mounted]
    exact h.mount

theorem Same.mr (h : t.Same t') (x : ℕ) : t'.mr x = t.mr x := by rw [Tree.mr, Tree.mr, h.mounted]

theorem Same.up (h : t.Same t') (x : ℕ) : t'.up x = t.up x := by
  rw [Tree.up, Tree.up, h.parent, h.mounted]

theorem Same.goTo (h : t.Same t') : t'.goTo cur parts = t.goTo cur parts := by
  induction parts generalizing cur with
  | nil => rfl
  | cons part rest ih => simp only [Tree.goTo, h.mr, h.up, h.pick, ih]

theorem Same.find (h : t.Same t') (path : List UInt8) : t'.find path = t.find path := by
  simp only [Tree.find, h.goTo]

theorem Same.site (h : t.Same t') (path : List UInt8) : t'.site path = t.site path := by
  simp only [Tree.site, h.find]

theorem pick_congr (hdir : t'.isDir d = t.isDir d) (hchildren : t'.children d = t.children d)
    (h : ∀ y ∈ t.children d, t'.name y = t.name y ∧ t'.isDir y = t.isDir y) (name : List UInt8) :
    t'.pick d name = t.pick d name := by
  have hexact : (t.children d).find? (fun x ↦ t'.name x = name) =
      (t.children d).find? (fun x ↦ t.name x = name) :=
    List.find?_congr fun y hy ↦ by rw [(h y hy).1]
  have hcase : (t.children d).find? (fun x ↦ t'.isDir x ∧ lower (t'.name x) = lower name) =
      (t.children d).find? (fun x ↦ t.isDir x ∧ lower (t.name x) = lower name) :=
    List.find?_congr fun y hy ↦ by rw [(h y hy).1, (h y hy).2]
  rw [pick, pick, hdir, hchildren, hexact, hcase]

theorem Named.pick_exact (h : t.Named) (hd : t.isDir d = true) (hx : x ∈ t.children d)
    (hname : t.name x = name) : t.pick d name = some x := by
  rw [pick, hd, if_neg Bool.true_eq_false.mp, Option.or_eq_some_iff]
  refine .inl ?_
  cases hfind : (t.children d).find? (fun x ↦ t.name x = name) with
  | none => exact absurd hname (by simpa using List.find?_eq_none.1 hfind x hx)
  | some y =>
    have hy := List.find?_some hfind
    rw [h.names d y x (List.mem_of_find?_eq_some hfind) hx ((of_decide_eq_true hy).trans hname.symm)]

theorem pick_case (hd : t.isDir d = true) (hno : ∀ y ∈ t.children d, t.name y ≠ name) :
    t.pick d name = (t.children d).find? (fun x ↦ t.isDir x ∧ lower (t.name x) = lower name) := by
  rw [pick, hd, if_neg Bool.true_eq_false.mp, List.find?_eq_none.2 (by simpa using hno),
    Option.none_or]

theorem Named.pick_spell (h : t.Named) (hx : x ∈ t.children d)
    (hlow : lower (t.name x) = lower name) (hno : ∀ y ∈ t.children d, t.name y ≠ name)
    (hpick : t.pick d name = some x) (e : ℕ) (n : List UInt8) :
    (t.spell x name).pick e n = t.pick e n := by
  have hself : (t.spell x name).name x = name := update_self _ _ _
  have hother : ∀ y, y ≠ x → (t.spell x name).name y = t.name y := fun y hy ↦ update_of_ne hy _ _
  by_cases hed : e = d
  swap
  · have hne : ∀ y ∈ t.children e, y ≠ x := fun y hy hyx ↦
      hed (Option.some.inj ((h.child e x (hyx ▸ hy)).symm.trans (h.child d x hx)))
    have hdir : (t.spell x name).isDir e = t.isDir e := rfl
    exact pick_congr hdir rfl (fun y hy ↦ ⟨hother y (hne y hy), rfl⟩) n
  subst hed
  have hdir : t.isDir e = true := h.dir x e (h.child e x hx)
  have hs : (t.spell x name).Named := h.spell hx hno
  have hcase : ∀ m,
      (fun y ↦ decide ((t.spell x name).isDir y = true ∧
        lower ((t.spell x name).name y) = lower m)) =
      fun y ↦ decide (t.isDir y = true ∧ lower (t.name y) = lower m) := by
    intro m
    funext y
    by_cases hy : y = x
    · rw [hy, hself, ← hlow]
      rfl
    · rw [hother y hy]
      rfl
  by_cases hn : n = name
  · subst hn
    rw [hpick]
    exact hs.pick_exact hdir hx hself
  by_cases hold : ∃ y ∈ t.children e, y ≠ x ∧ t.name y = n
  · obtain ⟨y, hy, hyx, hyn⟩ := hold
    rw [h.pick_exact hdir hy hyn]
    exact hs.pick_exact hdir hy ((hother y hyx).trans hyn)
  have hnone : ∀ y ∈ t.children e, (t.spell x name).name y ≠ n := by
    intro y hy hyn
    by_cases hyx : y = x
    · rw [hyx, hself] at hyn
      exact hn hyn.symm
    · exact hold ⟨y, hy, hyx, (hother y hyx).symm.trans hyn⟩
  rw [pick_case (t := t.spell x name) hdir hnone, hcase]
  by_cases hxn : t.name x = n
  · -- the old spelling of the node still finds it, up to case
    rw [h.pick_exact hdir hx hxn, ← hxn, hlow, ← hpick, pick_case hdir hno]
    rfl
  · have hnone' : ∀ y ∈ t.children e, t.name y ≠ n := by
      intro y hy hyn
      by_cases hyx : y = x
      · exact hxn (hyx ▸ hyn)
      · exact hold ⟨y, hy, hyx, hyn⟩
    rw [pick_case hdir hnone']
    rfl

end Tree

namespace Fs

variable {s s' : Fs} {x d cur : ℕ} {name path : List UInt8} {parts : List (List UInt8)}

/-- An answer that the tree alone decides, and the tree that is left is another spelling. -/
structure Reads {α : Type} (s : Fs) (a : Option α) (r : Fs × Option α) : Prop where
  result : r.2 = a
  looks : s.Looks r.1
  same : s.tree.Same r.1.tree
  named : r.1.tree.Named

theorem lookupChild_result (s : Fs) (d : ℕ) (name : List UInt8) :
    (s.vfsLookupChild d name).2 = s.tree.pick d name := by
  have hpick : s.tree.pick d name = if (s.nodes d).type ≠ .dir then none else
      ((s.nodes d).children.find? (fun x ↦ (s.nodes x).name = name)).or
        ((s.nodes d).children.find? (fun x ↦ (s.nodes x).type = .dir ∧
          eqDirName (s.nodes x).name name)) := by
    simp [Tree.pick, tree, eqDirName]
    rfl
  rw [hpick]
  unfold vfsLookupChild
  split
  · rfl
  split
  · next hfind =>
    rw [hfind]
    rfl
  next hfind =>
  rw [hfind, Option.none_or]
  split
  · next hfind' => exact hfind'.symm
  · next hfind' =>
    rw [hfind']
    split
    · rfl
    · rfl

theorem lookupChild_reads (h : s.tree.Named) (d : ℕ) (hlen : name.length ≤ vfsNameMax) :
    s.Reads (s.tree.pick d name) (s.vfsLookupChild d name) := by
  have hspec := lookupChild_spec s d hlen
  have hresult := lookupChild_result s d name
  generalize s.vfsLookupChild d name = r at hspec hresult ⊢
  refine ⟨hresult, hspec.looks, ?_, ?_⟩
  all_goals
    cases hspec with
    | notDir | missing | exact | dir => first | exact .refl _ | exact h
    | spell x hd hx hdir hlow hno =>
      rw [tree_setName]
      first
        | exact ⟨Tree.alike_spell hdir hlow, h.pick_spell hx hlow hno hresult.symm⟩
        | exact h.spell hx hno

theorem walk_reads (h : s.tree.Named) (cur : ℕ) (parts : List (List UInt8)) :
    s.Reads (s.tree.goTo cur parts) (s.walk cur parts) := by
  induction parts generalizing s cur with
  | nil => exact ⟨rfl, .refl s, .refl _, h⟩
  | cons part rest ih =>
    have hgo : s.tree.goTo cur (part :: rest) = if part.take vfsNameMax = dot then s.tree.goTo cur
        rest else if part.take vfsNameMax = dotdot then s.tree.goTo (s.tree.up cur) rest
        else (s.tree.pick (s.tree.mr cur) (part.take vfsNameMax)).bind
          (fun x ↦ s.tree.goTo (s.tree.mr x) rest) := rfl
    by_cases h₁ : part.take vfsNameMax = dot
    · rw [walk_dot h₁]
      rw [if_pos h₁] at hgo
      obtain ⟨hr, hl, hm, hs⟩ := ih h cur
      exact ⟨hr.trans hgo.symm, hl, hm, hs⟩
    rw [if_neg h₁] at hgo
    by_cases h₂ : part.take vfsNameMax = dotdot
    · rw [walk_dotdot h₂]
      rw [if_pos h₂] at hgo
      obtain ⟨hr, hl, hm, hs⟩ := ih h (s.up cur)
      exact ⟨hr.trans hgo.symm, hl, hm, hs⟩
    rw [if_neg h₂] at hgo
    rw [walk_child h₁ h₂]
    obtain ⟨hr, hl, hm, hs⟩ := lookupChild_reads h (s.mr cur) (take_length_le part)
    generalize s.vfsLookupChild (s.mr cur) (part.take vfsNameMax) = res at hr hl hm hs ⊢
    obtain ⟨s₁, r⟩ := res
    have hr : r = s.tree.pick (s.tree.mr cur) (part.take vfsNameMax) := hr
    rw [← hr] at hgo
    cases r with
    | none => exact ⟨hgo.symm, hl, hm, hs⟩
    | some x =>
      obtain ⟨hr', hl', hm', hs'⟩ := ih hs (s₁.mr x)
      refine ⟨?_, hl.trans hl', hm.trans hm', hs'⟩
      rw [hgo]
      refine hr'.trans ?_
      rw [hm.goTo]
      exact congrArg (fun y ↦ s.tree.goTo y rest) (hm.mr x)

theorem lookup_reads (h : s.tree.Named) (path : List UInt8) :
    s.Reads (s.tree.find path) (s.vfsLookup path) := by
  have hfind : s.tree.find path = if path.head? = some slash then s.tree.goTo root (components path)
      else none := rfl
  unfold vfsLookup
  by_cases hhead : path.head? = some slash
  · obtain ⟨hr, hl, hm, hs⟩ := walk_reads h root (components path)
    rw [if_pos hhead] at hfind
    rw [if_neg (not_not.2 hhead)]
    exact ⟨hr.trans hfind.symm, hl, hm, hs⟩
  · rw [if_neg hhead] at hfind
    rw [if_pos hhead]
    exact ⟨hfind.symm, .refl s, .refl _, h⟩

theorem lookup_find (h : s.tree.Named) (path : List UInt8) :
    (s.vfsLookup path).2 = s.tree.find path :=
  (lookup_reads h path).result

theorem parentForCreate_reads (h : s.tree.Named) (path : List UInt8) :
    s.Reads (s.tree.site path) (s.vfsParentForCreate path) := by
  have hsite : s.tree.site path =
      (splitPath path).bind (fun r ↦ (s.tree.find r.1).map (fun p ↦ (p, r.2))) := rfl
  unfold vfsParentForCreate
  cases hsplit : splitPath path with
  | none =>
    rw [hsplit] at hsite
    exact ⟨hsite.symm, .refl s, .refl _, h⟩
  | some r =>
    obtain ⟨parent, name⟩ := r
    obtain ⟨hr, hl, hm, hs⟩ := lookup_reads h parent
    rw [hsplit, Option.bind_some, ← hr] at hsite
    dsimp only
    generalize s.vfsLookup parent = res at hsite hl hm hs ⊢
    obtain ⟨s₁, r⟩ := res
    cases r with
    | none => exact ⟨hsite.symm, hl, hm, hs⟩
    | some p => exact ⟨hsite.symm, hl, hm, hs⟩

end Fs

end YabroOS.Vfs
