import YabroOS.Memory.Loader

namespace YabroOS.Memory

open Lib Function

variable {P : ℕ → Pte → Prop} {n v i virt f : ℕ} {p p' : Pmm} {c t : Tab n} {e : Pte}
  {fl : PteFlags} {l : List (ℕ × Entry (Tab n))}

theorem get?_set_cases {α : Type} {t : Slots α} {j : ℕ} {a b : α}
    (h : (t.set i a).get? j = some b) : (j = i ∧ b = a) ∨ t.get? j = some b := by
  by_cases hji : j = i
  · subst hji
    rw [Slots.get?_set_self] at h
    exact .inl ⟨rfl, (Option.some.inj h).symm⟩
  · rw [Slots.get?_set_of_ne t hji] at h
    exact .inr h

theorem get?_erase {α : Type} {t : Slots α} {j : ℕ} {b : α} (h : (t.erase i).get? j = some b) :
    t.get? j = some b := by
  by_cases hji : j = i
  · subst hji
    rw [Slots.get?_erase_self] at h
    cases h
  · rwa [Slots.get?_erase_of_ne t hji] at h

namespace Tab

/-- Every page that a table maps, by its number, where the pages below the table have the numbers
with prefix `v`. No entry above the last level maps a page. -/
def Leaves (P : ℕ → Pte → Prop) : (n : ℕ) → ℕ → Tab n → Prop
  | 0, v, t => ∀ i e, Slots.get? t i = some e → P (v * 512 + i) e
  | n + 1, v, t => ∀ i e, Slots.get? t i = some e →
      match e with
      | .huge _ _ => False
      | .next _ _ c => Leaves P n (v * 512 + i) c

def pageNumber : ℕ → ℕ → ℕ → ℕ
  | 0, v, virt => v * 512 + idx 0 virt
  | n + 1, v, virt => pageNumber n (v * 512 + idx (n + 1) virt) virt

theorem pageNumber_user (h : virt < userTop) : pageNumber 3 0 virt = virt / pageSize := by
  simp only [pageNumber, idx, pageSize, userTop] at *
  norm_num
  omega

theorem Leaves.imp {Q : ℕ → Pte → Prop} (h : Leaves P n v t) (hpq : ∀ k e, P k e → Q k e) :
    Leaves Q n v t := by
  induction n generalizing v with
  | zero => exact fun i e he ↦ hpq _ e (h i e he)
  | succ n ih =>
    intro i e he
    have hi := h i e he
    cases e with
    | huge fl f => exact hi
    | next fl f c => exact ih hi

theorem leaves_empty (n v : ℕ) : Leaves P n v (empty n) := by
  cases n with
  | zero => exact fun i e h ↦ (get?_slots_empty h).elim
  | succ n => exact fun i e h ↦ (get?_slots_empty h).elim

theorem Leaves.set {t : Tab 0} (h : Leaves P 0 v t) (he : P (v * 512 + i) e) :
    Leaves P 0 v (Slots.set t i e) := by
  intro j e' hj
  rcases get?_set_cases hj with ⟨rfl, rfl⟩ | hj
  · exact he
  · exact h j e' hj

theorem Leaves.setNext {t : Tab (n + 1)} (h : Leaves P (n + 1) v t) (fl : PteFlags) (f : ℕ)
    (hc : Leaves P n (v * 512 + i) c) : Leaves P (n + 1) v (Slots.set t i (.next fl f c)) := by
  intro j e' hj
  rcases get?_set_cases hj with ⟨rfl, rfl⟩ | hj
  · exact hc
  · exact h j e' hj

theorem Leaves.child {t : Tab (n + 1)} (h : Leaves P (n + 1) v t)
    (hc : Slots.get? t i = some (.next fl f c)) : Leaves P n (v * 512 + i) c := h i _ hc

theorem Leaves.setLeaf (h : Leaves P n v t) {e : Option Pte}
    (he : ∀ e', e = some e' → P (pageNumber n v virt) e') :
    Leaves P n v (Tab.setLeaf n t virt e) := by
  induction n generalizing v with
  | zero =>
    cases e with
    | none => exact fun j e' hj ↦ h j e' (get?_erase hj)
    | some e => exact h.set (he e rfl)
  | succ n ih =>
    simp only [Tab.setLeaf]
    split
    · next fl f c hc => exact h.setNext fl f (ih (h.child hc) he)
    · exact h

theorem leaves_newUserTable (h : newUserTable p n = (p', some (fl, f, c))) : Leaves P n v c := by
  simp only [newUserTable] at h
  split at h
  · cases h
  · cases h
    exact leaves_empty n v

theorem Leaves.ensureUserChild {t : Tab (n + 1)} (h : Leaves P (n + 1) v t)
    (hc : Tab.ensureUserChild p n (Slots.get? t i) = (p', some (fl, f, c))) :
    Leaves P n (v * 512 + i) c := by
  unfold Tab.ensureUserChild at hc
  split at hc
  · next fl' f' c' he =>
    split_ifs at hc
    · cases hc
      exact h.child he
    · cases hc
      exact h.child he
    · exact leaves_newUserTable hc
  · exact leaves_newUserTable hc

theorem Leaves.mapLeaf {t' : Tab n} (h : Leaves P n v t) {ok : Bool}
    (he : P (pageNumber n v virt) e) (hm : Tab.mapLeaf n p t virt e = (p', t', ok)) :
    Leaves P n v t' := by
  induction n generalizing p p' ok v with
  | zero =>
    cases hm
    exact h.set he
  | succ n ih =>
    simp only [Tab.mapLeaf] at hm
    split at hm
    · cases hm
      exact h
    · next p₁ fl f c hc =>
      cases hm
      exact h.setNext fl f (ih (h.ensureUserChild hc) he rfl)

theorem Leaves.walk (h : Leaves P n v t) {frame : ℕ} (hw : Tab.walk p n frame t virt = some e) :
    P (pageNumber n v virt) e := by
  induction n generalizing frame v with
  | zero =>
    simp only [Tab.walk] at hw
    split_ifs at hw
    exact h _ e hw
  | succ n ih =>
    simp only [Tab.walk] at hw
    split_ifs at hw
    split at hw
    · next fl f c hc => exact ih (h.child hc) hw
    · cases hw

theorem Leaves.cpuWalk (h : Leaves P n v t) {w u : Bool}
    (hw : Tab.cpuWalk n t virt = some (e, w, u)) : P (pageNumber n v virt) e := by
  induction n generalizing w u v with
  | zero =>
    obtain ⟨e', he', heq⟩ := Option.map_eq_some_iff.1 hw
    cases heq
    exact h _ e he'
  | succ n ih =>
    simp only [Tab.cpuWalk] at hw
    split at hw
    · cases hw
    · next fl f hc => exact (h _ _ hc).elim
    · next fl f c hc =>
      obtain ⟨⟨e', w', u'⟩, he', heq⟩ := Option.map_eq_some_iff.1 hw
      cases heq
      exact ih (h.child hc) he'

/-- The entries of a table, as the loops of `vmm_user_space_clone` go through them. -/
def Listed (P : ℕ → Pte → Prop) (n v : ℕ) (l : List (ℕ × Entry (Tab n))) : Prop :=
  ∀ i fl f c, (i, Entry.next fl f c) ∈ l → Leaves P n (v * 512 + i) c

theorem Leaves.listed {t : Tab (n + 1)} (h : Leaves P (n + 1) v t) : Listed P n v (Slots.list t) :=
  fun _ _ _ _ hq ↦ h.child (get?_of_mem _ hq)

theorem Listed.tail {q : ℕ × Entry (Tab n)} (h : Listed P n v (q :: l)) :
    Listed P n v l := fun i fl f c hq ↦ h i fl f c (.tail _ hq)

def ListedPages (P : ℕ → Pte → Prop) (v : ℕ) (l : List (ℕ × Pte)) : Prop :=
  ∀ q ∈ l, P (v * 512 + q.1) q.2

theorem Leaves.listedPages {t : Tab 0} (h : Leaves P 0 v t) : ListedPages P v (Slots.list t) :=
  fun q hq ↦ h q.1 q.2 (get?_of_mem q hq)

theorem ListedPages.tail {q : ℕ × Pte} {l : List (ℕ × Pte)} (h : ListedPages P v (q :: l)) :
    ListedPages P v l :=
  fun q hq ↦ h q (.tail _ hq)

theorem leaves_cloneLeaves {dst dst' : Tab 0} {l : List (ℕ × Pte)} {r : Option Int}
    (hd : Leaves P 0 v dst) (hl : ListedPages P v l) (h : cloneLeaves dst l = (dst', r)) :
    Leaves P 0 v dst' := by
  induction l generalizing dst with
  | nil =>
    cases h
    exact hd
  | cons q l ih =>
    obtain ⟨i, e⟩ := q
    simp only [cloneLeaves] at h
    split_ifs at h
    · cases h
      exact hd
    · exact ih (hd.set (hl _ (.head _))) hl.tail h

theorem leaves_cloneLoop {clone : Pmm → ℕ → Tab n → Pmm × Except Int (ℕ × Tab n)}
    (hclone : ∀ p p' f (c : Tab n) np c' v, Leaves P n v c → clone p f c = (p', .ok (np, c')) →
      Leaves P n v c')
    {dst dst' : Tab (n + 1)} {r : Option Int} (hd : Leaves P (n + 1) v dst) (hl : Listed P n v l)
    (h : cloneLoop clone p dst l = (p', dst', r)) : Leaves P (n + 1) v dst' := by
  induction l generalizing p dst with
  | nil =>
    cases h
    exact hd
  | cons q l ih =>
    obtain ⟨i, e⟩ := q
    cases e with
    | huge fl f =>
      cases h
      exact hd
    | next fl f c =>
      simp only [cloneLoop] at h
      split at h
      · cases h
        exact hd
      · next p₁ np c' hc =>
        have hc' := hclone _ _ _ _ _ _ _ (hl i fl f c (.head _)) hc
        exact ih (hd.setNext fl np hc') hl.tail h

theorem leaves_cloneUserTables {np : ℕ} {c' : Tab n} (h : Leaves P n v c)
    (hc : cloneUserTables n p f c = (p', .ok (np, c'))) : Leaves P n v c' := by
  induction n generalizing p p' f np v with
  | zero =>
    simp only [cloneUserTables] at hc
    split at hc
    · cases hc
    · split at hc
      · cases hc
      · next dst hl =>
        cases hc
        exact leaves_cloneLeaves (leaves_empty 0 v) h.listedPages hl
  | succ n ih =>
    simp only [cloneUserTables] at hc
    split at hc
    · cases hc
    · split at hc
      · cases hc
      · next p₁ dst hl =>
        cases hc
        exact leaves_cloneLoop (fun _ _ _ _ _ _ _ hx hxc ↦ ih hx hxc) (leaves_empty (n + 1) v)
          h.listed hl

section Mark

def Markable (P : ℕ → Pte → Prop) : Prop :=
  ∀ k e, P k e → e.w = true → P k { e with w := false, cow := true }

def MarkableOff (E : ℕ → Prop) (P : ℕ → Pte → Prop) : Prop :=
  ∀ k e, P k e → e.w = true → ¬ E e.frame → P k { e with w := false, cow := true }

theorem Markable.off (h : Markable P) : MarkableOff (fun _ ↦ False) P :=
  fun k e hp hw _ ↦ h k e hp hw

variable {E : ℕ → Prop} {rc : Int}

theorem leaves_applyLoop {apply : Pmm → ℕ → Tab n → ℕ → Tab n → Pmm × Tab n × Tab n × Int}
    (happly : ∀ p p' f (c : Tab n) np d c' d' rc v, (∀ g, E g → p.pool.exempt g) → Leaves P n v c →
      Leaves P n v d → apply p f c np d = (p', c', d', rc) → (∀ g, E g → p'.pool.exempt g) ∧
        Leaves P n v c' ∧ Leaves P n v d')
    {src dst src' dst' : Tab (n + 1)} (hE : ∀ g, E g → p.pool.exempt g)
    (hs : Leaves P (n + 1) v src) (hd : Leaves P (n + 1) v dst) (hl : Listed P n v l)
    (h : applyLoop apply p src dst l = (p', src', dst', rc)) :
    (∀ g, E g → p'.pool.exempt g) ∧ Leaves P (n + 1) v src' ∧ Leaves P (n + 1) v dst' := by
  induction l generalizing p src dst with
  | nil =>
    cases h
    exact ⟨hE, hs, hd⟩
  | cons q l ih =>
    obtain ⟨i, e⟩ := q
    cases e with
    | huge fl f =>
      cases h
      exact ⟨hE, hs, hd⟩
    | next fl f c =>
      simp only [applyLoop] at h
      split at h
      · next fl' np d hg =>
        split_ifs at h with hz hrc
        · cases h
          exact ⟨hE, hs, hd⟩
        · cases h
          obtain ⟨hE', hc', hd'⟩ :=
            happly _ _ _ _ _ _ _ _ _ _ hE (hl i fl f c (.head _)) (hd.child hg) rfl
          exact ⟨hE', hs.setNext fl f hc', hd.setNext fl' np hd'⟩
        · obtain ⟨hE', hc', hd'⟩ :=
            happly _ _ _ _ _ _ _ _ _ _ hE (hl i fl f c (.head _)) (hd.child hg) rfl
          exact ih hE' (hs.setNext fl f hc') (hd.setNext fl' np hd') hl.tail h
      · cases h
        exact ⟨hE, hs, hd⟩

variable (hmark : MarkableOff E P)

include hmark in
theorem leaves_applyPages {src dst src' dst' : Tab 0} {l : List (ℕ × Pte)}
    (hE : ∀ g, E g → p.pool.exempt g) (hs : Leaves P 0 v src) (hd : Leaves P 0 v dst)
    (hl : ListedPages P v l) (h : applyPages p src dst l = (p', src', dst', rc)) :
    (∀ g, E g → p'.pool.exempt g) ∧ Leaves P 0 v src' ∧ Leaves P 0 v dst' := by
  induction l generalizing p src dst with
  | nil =>
    cases h
    exact ⟨hE, hs, hd⟩
  | cons q l ih =>
    obtain ⟨i, e⟩ := q
    have he : P (v * 512 + i) e := hl _ (.head _)
    simp only [applyPages] at h
    split_ifs at h with hps hzero hres hw
    · cases h
      exact ⟨hE, hs, hd⟩
    · cases h
      exact ⟨hE, hs, hd⟩
    · exact ih hE hs (hd.set he) hl.tail h
    · split at h
      · cases h
        exact ⟨hE, hs, hd⟩
      · next p₁ hr =>
        obtain ⟨-, hex, hsame, -, -⟩ := Pmm.pmmRetainPage_some hr
        have hm := hmark _ _ he hw (fun hc ↦ hex (hE _ hc))
        refine ih ?_ (hs.set hm) (hd.set hm) hl.tail h
        rwa [Pmm.pool_exempt_eq hsame]
    · split at h
      · cases h
        exact ⟨hE, hs, hd⟩
      · next p₁ hr =>
        refine ih ?_ hs (hd.set he) hl.tail h
        rwa [Pmm.pool_exempt_eq (Pmm.pmmRetainPage_some hr).2.2.1]

include hmark in
theorem leaves_applyForkCow {np : ℕ} {d c' d' : Tab n} (hE : ∀ g, E g → p.pool.exempt g)
    (hc : Leaves P n v c) (hd : Leaves P n v d) (h : applyForkCow n p f c np d = (p', c', d', rc)) :
    (∀ g, E g → p'.pool.exempt g) ∧ Leaves P n v c' ∧ Leaves P n v d' := by
  induction n generalizing p p' f np rc v with
  | zero =>
    simp only [applyForkCow] at h
    split_ifs at h
    · exact leaves_applyPages hmark hE hc hd hc.listedPages h
    · cases h
      exact ⟨hE, hc, hd⟩
  | succ n ih =>
    simp only [applyForkCow] at h
    split_ifs at h
    · exact leaves_applyLoop (fun _ _ _ _ _ _ _ _ _ _ hg hx hy hxy ↦ ih hg hx hy hxy) hE hc hd
        hc.listed h
    · cases h
      exact ⟨hE, hc, hd⟩

end Mark

end Tab

end YabroOS.Memory
