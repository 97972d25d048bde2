import YabroOS.Vfs.Changes
import Mathlib.Data.Finset.Card
import Mathlib.Data.Finset.Range

namespace YabroOS.Vfs

open Fat Function

namespace Tree

variable {t t' : Tree} {x p a : ℕ}

theorem Above.trans {b : ℕ} (h : t.Above a b) (h' : t.Above b x) : t.Above a x := by
  induction h' with
  | self => exact h
  | child hp _ ih => exact .child hp ih

theorem Above.mono (h : t'.Above a x) (hpar : ∀ y q, t'.parent y = some q → t.parent y = some q) :
    t.Above a x := by
  induction h with
  | self => exact .self
  | child hp _ ih => exact .child (hpar _ _ hp) ih

theorem Sited.not_above (h : t.Sited) (hx : t.Reach x) (hp : t.parent x = some p) :
    ¬ t.Above x p := by
  induction hx generalizing p with
  | root =>
    rw [h.root_parent] at hp
    cases hp
  | @child x q hq _ ih =>
    obtain rfl : q = p := Option.some.inj (hq.symm.trans hp)
    intro habove
    cases habove with
    | self => exact ih hq .self
    | child hq' habove => exact ih hq' ((Above.child hq .self).trans habove)

end Tree

namespace Fs

variable {s s₁ s₂ s' : Fs} {x p a : ℕ} {name path : List UInt8} {strict log : Prop}

theorem exists_way (h : s.tree.Sited) (hx : s.tree.Reach x) :
    ∃ l : List ℕ, l.Nodup ∧ (∀ y ∈ l, y < s.used ∧ s.tree.Above y x) ∧
      ∀ a, s.tree.Above a x → ∀ k, l.length ≤ k → s.ancestorLoop a k (some x) = true := by
  induction hx with
  | root =>
    refine ⟨[root], List.nodup_singleton _, fun y hy ↦ ?_, fun a ha k hk ↦ ?_⟩
    · obtain rfl := List.mem_singleton.1 hy
      exact ⟨h.root_used, .self⟩
    · obtain ⟨k, rfl⟩ : ∃ j, k = j + 1 := ⟨k - 1, by simp at hk; omega⟩
      cases ha with
      | self => simp [ancestorLoop]
      | child hp _ =>
        rw [h.root_parent] at hp
        cases hp
  | @child x p hp hreach ih =>
    obtain ⟨l, hnodup, hl, hloop⟩ := ih
    refine ⟨x :: l, List.nodup_cons.2 ⟨fun hmem ↦ ?_, hnodup⟩, fun y hy ↦ ?_, fun a ha k hk ↦ ?_⟩
    · exact h.not_above (.child hp hreach) hp (hl x hmem).2
    · obtain rfl | hy := List.mem_cons.1 hy
      · exact ⟨(h.used _ _ hp).1, .self⟩
      · exact ⟨(hl y hy).1, .child hp (hl y hy).2⟩
    · obtain ⟨k, rfl⟩ : ∃ j, k = j + 1 := ⟨k - 1, by simp at hk; omega⟩
      have hpar : (s.nodes x).parent = some p := hp
      cases ha with
      | self => simp [ancestorLoop]
      | child hq ha =>
        obtain rfl := Option.some.inj (hq.symm.trans hp)
        simp only [ancestorLoop, hpar, hloop a ha k (by simpa using hk), or_true, decide_true]

theorem not_above_of_isAncestor (h : s.tree.Sited) (hx : s.tree.Reach x)
    (hno : s.vfsIsAncestor a x = false) : ¬ s.tree.Above a x := by
  intro ha
  obtain ⟨l, hnodup, hl, hloop⟩ := exists_way h hx
  have hlen : l.length ≤ s.used := by
    have hsub : l.toFinset ⊆ Finset.range s.used := fun y hy ↦
      Finset.mem_range.2 (hl y (List.mem_toFinset.1 hy)).1
    have hcard := Finset.card_le_card hsub
    rwa [List.toFinset_card_of_nodup hnodup, Finset.card_range] at hcard
  have htrue := hloop a ha (s.used + 1) (by omega)
  rw [vfsIsAncestor, htrue] at hno
  cases hno

structure Good (strict : Prop) (s : Fs) : Prop where
  linked : s.tree.Linked
  rooted : strict → s.tree.Rooted
  owners : s.Owners

theorem Good.steps (h : Good strict s)
    (hs : Relation.ReflTransGen (Tree.Step strict) s.tree s'.tree) (ho : s'.Owners) :
    Good strict s' :=
  ⟨steps_linked hs h.linked, fun hst ↦ steps_rooted hs hst (h.rooted hst), ho⟩

theorem Good.change (h : Good strict s) (hc : Change strict log s s') : Good strict s' :=
  h.steps (hc.steps h.linked) (hc.owners h.owners)

structure Looks (s s' : Fs) : Prop where
  spelled : s.Spelled s'
  alike : s.tree.Alike s'.tree
  steps : ∀ strict, Relation.ReflTransGen (Tree.Step strict) s.tree s'.tree

theorem Looks.refl (s : Fs) : s.Looks s := ⟨.refl s, .refl _, fun _ ↦ .refl⟩

theorem Looks.trans {s'' : Fs} (h : s.Looks s') (h' : s'.Looks s'') : s.Looks s'' :=
  ⟨h.spelled.trans h'.spelled, h.alike.trans h'.alike,
    fun strict ↦ (h.steps strict).trans (h'.steps strict)⟩

theorem Looks.good (h : s.Looks s') (hg : Good strict s) : Good strict s' :=
  hg.steps (h.steps strict) (h.spelled.owners hg.owners)

theorem Looks.change (h : s.Looks s') : Change strict log s s' :=
  .spell s' h.spelled (h.steps strict)

theorem ChildLookup.looks {d : ℕ} {r : Fs × Option ℕ} (h : ChildLookup s d name r) : s.Looks r.1 :=
  ⟨h.spelled, h.alike, h.steps⟩

theorem lookup_looks (s : Fs) (path : List UInt8) : s.Looks (s.vfsLookup path).1 :=
  ⟨lookup_spelled s path, lookup_alike s path, lookup_steps s path⟩

structure Looked (strict : Prop) (s : Fs) (path : List UInt8) (r : Fs × Option ℕ) : Prop where
  looks : s.Looks r.1
  placed : ∀ x, r.2 = some x → r.1.Placed x
  walks : strict → ∀ x, r.2 = some x → r.1.tree.Walks root (components path) x
  none : strict → path.head? = some slash → r.2 = none →
    ∀ x, ¬ r.1.tree.Walks root (components path) x

theorem lookup_looked (hg : Good strict s) (path : List UInt8) :
    Looked strict s path (s.vfsLookup path) where
  looks := lookup_looks s path
  placed _ hx := (lookup_spelled s path).placed.2 (lookup_placed hg.linked hx)
  walks hs _ hx := (lookup_alike s path).walks.2 ((lookup_iff (hg.rooted hs)).1 hx).2
  none hs hhead hnone x hx :=
    lookup_none (hg.rooted hs) hhead hnone x ((lookup_alike s path).walks.1 hx)

structure Parent (strict : Prop) (s : Fs) (path : List UInt8) (r : Fs × Option (ℕ × List UInt8)) :
    Prop where
  looks : s.Looks r.1
  found : ∀ p name, r.2 = some (p, name) → r.1.Placed p ∧ name ≠ [] ∧ name.length ≤ vfsNameMax ∧
    path.head? = some slash ∧ ∃ parts, components path = parts ++ [name] ∧
      (strict → r.1.tree.Walks root parts p)

theorem parentForCreate_parent (hg : Good strict s) (path : List UInt8) :
    Parent strict s path (s.vfsParentForCreate path) := by
  unfold vfsParentForCreate
  cases hsplit : splitPath path with
  | none => exact ⟨.refl s, nofun⟩
  | some r =>
    obtain ⟨parent, name⟩ := r
    obtain ⟨hhead, -, hne, hlen, -, hcomps⟩ := splitPath_some hsplit
    dsimp only
    have hlook := lookup_looked hg parent
    generalize s.vfsLookup parent = r at hlook ⊢
    obtain ⟨s₁, r⟩ := r
    cases r with
    | none => exact ⟨hlook.looks, nofun⟩
    | some p =>
      refine ⟨hlook.looks, fun p' name' h ↦ ?_⟩
      cases h
      exact ⟨hlook.placed p rfl, hne, hlen, hhead, components parent, hcomps,
        fun hs ↦ hlook.walks hs p rfl⟩

theorem room_of_walks (hg : Good strict s) (hp : s.Placed p) (hdir : s.tree.isDir p = true)
    (hlen : name.length ≤ vfsNameMax) {parts : List (List UInt8)}
    (hwalk : strict → s.tree.Walks root parts p)
    (hno : strict → ∀ x, ¬ s.tree.Walks root (parts ++ [name]) x) : s.Room strict p name where
  used := hp.1
  dir := hdir
  free hs :=
    ⟨(hg.rooted hs).visible_reach ((hg.rooted hs).walks_visible .root (hwalk hs)),
      (hg.rooted hs).free_of_walks (hwalk hs) hdir hlen (hno hs)⟩

end Fs

end YabroOS.Vfs
