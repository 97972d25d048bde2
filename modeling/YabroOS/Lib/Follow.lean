import Mathlib.Data.List.Induction

namespace YabroOS.Lib

variable {F I : Type} {next next' : F → I → Option F} {ok : List I → Prop} {root f c : F} {i : I}
  {p : List I}

def follow (next : F → I → Option F) (root : F) (p : List I) : Option F := p.foldlM next root

@[simp] theorem follow_nil : follow next root [] = some root := rfl

theorem follow_snoc (p : List I) (i : I) :
    follow next root (p ++ [i]) = (follow next root p).bind (fun f ↦ next f i) := by
  simp only [follow, List.foldlM_append, List.foldlM_cons, List.foldlM_nil]
  cases p.foldlM next root with
  | none => rfl
  | some f =>
    show (next f i).bind some = next f i
    exact Option.bind_fun_some _

theorem follow_snoc_some {g : F} :
    follow next root (p ++ [i]) = some g ↔ ∃ f, follow next root p = some f ∧ next f i = some g := by
  rw [follow_snoc, Option.bind_eq_some_iff]

def InitClosed (ok : List I → Prop) : Prop := ∀ p i, ok (p ++ [i]) → ok p

/-- The paths of interest lead to different nodes, as in a tree. -/
def TreeLike (next : F → I → Option F) (ok : List I → Prop) (root : F) : Prop :=
  ∀ p q f, ok p → ok q → follow next root p = some f → follow next root q = some f → p = q

theorem follow_congr (hok : InitClosed ok)
    (h : ∀ p i f, ok (p ++ [i]) → follow next root p = some f → next' f i = next f i) (hp : ok p) :
    follow next' root p = follow next root p := by
  induction p using List.reverseRecOn with
  | nil => rfl
  | append_singleton p i ih =>
    rw [follow_snoc, follow_snoc, ih (hok p i hp)]
    cases hf : follow next root p with
    | none => rfl
    | some f => exact h p i f hp hf

/-- A link to a new node without links is added to a tree. -/
structure Grafts (next next' : F → I → Option F) (ok : List I → Prop) (root f : F) (i : I) (c : F) :
    Prop where
  absent : next f i = none
  link : next' f i = some c
  leaf : ∀ j, next' c j = none
  other : ∀ g j, g ≠ c → (g ≠ f ∨ j ≠ i) → next' g j = next g j
  fresh : ∀ p, ok p → follow next root p ≠ some c

theorem Grafts.follow (h : Grafts next next' ok root f i c) (hok : InitClosed ok)
    (htree : TreeLike next ok root) (hp : ok p) (hf : follow next root p = some f) {q : List I}
    (hq : ok q) {g : F} :
    Lib.follow next' root q = some g ↔ Lib.follow next root q = some g ∨ q = p ++ [i] ∧ g = c := by
  induction q using List.reverseRecOn generalizing g with
  | nil =>
    refine (or_iff_left fun hc ↦ ?_).symm
    have hlen := congrArg List.length hc.1
    simp at hlen
  | append_singleton q j ih =>
    have hq' := hok q j hq
    constructor
    · intro hg
      obtain ⟨g', hg', hlink⟩ := follow_snoc_some.1 hg
      rcases (ih hq').1 hg' with hold | ⟨-, rfl⟩
      · by_cases hsame : g' = f ∧ j = i
        · obtain ⟨rfl, rfl⟩ := hsame
          refine .inr ⟨by rw [htree q p g' hq' hp hold hf], ?_⟩
          rw [h.link] at hlink
          exact (Option.some.inj hlink).symm
        · have hne : g' ≠ c := fun hc ↦ h.fresh q hq' (hc ▸ hold)
          rw [h.other g' j hne (not_and_or.1 hsame)] at hlink
          exact .inl (follow_snoc_some.2 ⟨g', hold, hlink⟩)
      · rw [h.leaf j] at hlink
        cases hlink
    · rintro (hg | ⟨hqp, rfl⟩)
      · obtain ⟨g', hold, hlink⟩ := follow_snoc_some.1 hg
        have hne : g' ≠ c := fun hc ↦ h.fresh q hq' (hc ▸ hold)
        have hdiff : g' ≠ f ∨ j ≠ i := by
          rw [← not_and_or]
          rintro ⟨rfl, rfl⟩
          rw [h.absent] at hlink
          cases hlink
        refine follow_snoc_some.2 ⟨g', (ih hq').2 (.inl hold), ?_⟩
        rw [h.other g' j hne hdiff, hlink]
      · obtain ⟨rfl, hj⟩ := List.append_inj' hqp rfl
        cases hj
        exact follow_snoc_some.2 ⟨f, (ih hq').2 (.inl hf), h.link⟩

theorem Grafts.treeLike (h : Grafts next next' ok root f i c) (hok : InitClosed ok)
    (htree : TreeLike next ok root) (hp : ok p) (hf : Lib.follow next root p = some f) :
    TreeLike next' ok root := by
  intro q r g hq hr hqg hrg
  rcases (h.follow hok htree hp hf hq).1 hqg with hq' | ⟨rfl, rfl⟩
  · rcases (h.follow hok htree hp hf hr).1 hrg with hr' | ⟨-, rfl⟩
    · exact htree q r g hq hr hq' hr'
    · exact absurd hq' (h.fresh q hq)
  · rcases (h.follow hok htree hp hf hr).1 hrg with hr' | ⟨rfl, -⟩
    · exact absurd hr' (h.fresh r hr)
    · rfl

end YabroOS.Lib
