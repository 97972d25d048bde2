import YabroOS.Vfs.Lookup

namespace YabroOS.Vfs

open Fat

variable {path parent name a b : List UInt8}

theorem components_nil : components [] = [] := rfl

theorem components_append (a b : List UInt8) :
    components (a ++ slash :: b) = components a ++ components b := by
  unfold components
  rw [show (47 : UInt8) = slash from rfl, List.splitOn_append_cons_self, List.filter_append]

theorem components_slash (b : List UInt8) : components (slash :: b) = components b :=
  components_append [] b

theorem components_name (h : slash ∉ name) (hne : name ≠ []) : components name = [name] := by
  unfold components
  rw [show (47 : UInt8) = slash from rfl, List.splitOn_eq_singleton h]
  simp [hne]

theorem mem_components {c : List UInt8} (h : c ∈ components path) : c ≠ [] ∧ slash ∉ c := by
  induction hn : path.length using Nat.strong_induction_on generalizing path with
  | _ n ih =>
    by_cases hs : slash ∈ path
    · obtain ⟨a, b, rfl, -⟩ := List.eq_append_cons_of_mem hs
      rw [List.length_append, List.length_cons] at hn
      rw [components_append, List.mem_append] at h
      obtain h | h := h
      · exact ih _ (by omega) h rfl
      · exact ih _ (by omega) h rfl
    · by_cases hne : path = []
      · subst hne
        cases h
      · rw [components_name hs hne, List.mem_singleton] at h
        rw [h]
        exact ⟨hne, hs⟩

theorem components_rdropWhile (path : List UInt8) :
    components (path.rdropWhile (· = slash)) = components path := by
  induction path using List.reverseRecOn with
  | nil => rfl
  | append_singleton l c ih =>
    by_cases hc : c = slash
    · rw [List.rdropWhile_concat_pos _ _ _ (by simpa using hc), ih, hc]
      exact (List.append_nil _).symm.trans (components_append l []).symm
    · rw [List.rdropWhile_concat_neg _ _ _ (by simpa using hc)]

theorem slash_not_mem_rtakeWhile (path : List UInt8) : slash ∉ path.rtakeWhile (· ≠ slash) := by
  intro hmem
  have hne := List.mem_rtakeWhile_imp hmem
  simp at hne

theorem splitPath_some (h : Fs.splitPath path = some (parent, name)) :
    path.head? = some slash ∧ parent.head? = some slash ∧ name ≠ [] ∧ name.length ≤ vfsNameMax ∧
      slash ∉ name ∧ components path = components parent ++ [name] := by
  unfold Fs.splitPath at h
  split at h
  · cases h
  next hbad =>
  obtain ⟨hhead, -⟩ := not_or.1 hbad
  have hhead : path.head? = some slash := not_not.1 hhead
  rw [← components_rdropWhile path]
  have hpre : path.rdropWhile (· = slash) <+: path := List.rdropWhile_prefix _ _
  generalize path.rdropWhile (· = slash) = t at h hpre ⊢
  dsimp only at h
  have hname := slash_not_mem_rtakeWhile t
  have happ : t.rdropWhile (· ≠ slash) ++ t.rtakeWhile (· ≠ slash) = t :=
    List.rdropWhile_append_rtakeWhile
  split at h
  · cases h
  next hok =>
  obtain ⟨hne, hlen⟩ := not_or.1 hok
  -- the path begins with a slash, so there is one before the name
  have hnil : t.rdropWhile (· ≠ slash) ≠ [] := by
    intro hnil
    have hall := (List.rdropWhile_eq_nil_iff).1 hnil
    obtain ⟨rest, rfl⟩ := hpre
    cases t with
    | nil => exact hne rfl
    | cons c t =>
      have hc : c = slash := Option.some.inj hhead
      simpa [hc] using hall c (.head _)
  have hlast : (t.rdropWhile (· ≠ slash)).getLast hnil = slash := by
    have hlast := List.rdropWhile_last_not _ _ hnil
    simpa using hlast
  have hsplit := List.dropLast_append_getLast hnil
  rw [hlast] at hsplit
  have hprefix : t.rdropWhile (· ≠ slash) <+: path := (List.rdropWhile_prefix _ _).trans hpre
  generalize t.rdropWhile (· ≠ slash) = pre at *
  generalize t.rtakeWhile (· ≠ slash) = nm at *
  have hcomps : components t = components pre.dropLast ++ [nm] := by
    rw [← happ, ← hsplit, List.append_assoc, List.singleton_append, components_append,
      components_name hname hne,
      List.dropLast_concat]
  cases h
  refine ⟨hhead, ?_, hne, not_lt.1 hlen, hname, ?_⟩
  · split_ifs with hone
    · rfl
    · obtain ⟨rest, rfl⟩ := hprefix
      match pre, hone, hnil, hhead with
      | c :: d :: pre, _, _, hhead =>
        exact hhead
  · rw [hcomps]
    split_ifs with hone
    · obtain ⟨c, rfl⟩ := List.length_eq_one_iff.1 hone
      rfl
    · rfl

end YabroOS.Vfs

namespace YabroOS.Vfs

open Fat Function

namespace Fs

variable {s s' : Fs} {x p : ℕ} {n : Node} {name : List UInt8}

def attach (s : Fs) (p : ℕ) (n : Node) : Fs where
  nodes := update (update s.nodes s.used { n with parent := some p }) p
    { s.nodes p with children := s.used :: (s.nodes p).children }
  used := s.used + 1
  nextIno := s.nextIno + 1
  dataUsed := s.dataUsed
  bytes := s.bytes

def waste (s : Fs) (n : Node) : Fs :=
  { s with nodes := update s.nodes s.used n, nextIno := s.nextIno + 1 }

def cut (s : Fs) (p x : ℕ) : Fs :=
  (s.detach p x).setNode x { (s.detach p x).nodes x with parent := none }

def addLink (s : Fs) (o : ℕ) : Fs := s.setNode o { s.nodes o with nlink := (s.nodes o).nlink + 1 }

/-- Only sizes, capacities, paths of boot files and bytes have changed. -/
structure Touched (s s' : Fs) : Prop where
  used : s'.used = s.used
  dataUsed : s'.dataUsed = s.dataUsed
  nodes : ∀ x, s'.nodes x = { s.nodes x with
    size := (s'.nodes x).size, capacity := (s'.nodes x).capacity, bootPath := (s'.nodes x).bootPath }

def New (n : Node) : Prop := n.parent = none ∧ n.children = [] ∧ n.mounted = none

structure Room (s : Fs) (strict : Prop) (p : ℕ) (name : List UInt8) : Prop where
  used : p < s.used
  dir : s.tree.isDir p = true
  free : strict → s.tree.Reach p ∧ s.tree.Free p name

def Solo (s : Fs) (n : Node) : Prop := n.owner = s.used ∧ n.nlink = 1

inductive Change (strict log : Prop) (s : Fs) : Fs → Prop
  | spell (s' : Fs) (h : s.Spelled s')
    (ht : Relation.ReflTransGen (Tree.Step strict) s.tree s'.tree) : Change strict log s s'
  | waste (n : Node) (hn : New n) : Change strict log s (s.waste n)
  | make (p : ℕ) (n : Node) (hn : New n) (hroom : s.Room strict p n.name) (hsolo : s.Solo n)
      (htype : n.type ≠ .file) (hdata : n.data = none) : Change strict log s (s.attach p n)
  | file (p : ℕ) (n : Node) (k : ℕ) (hn : New n) (hroom : s.Room strict p n.name) (hsolo : s.Solo n)
      (htype : n.type = .file) (hdata : n.data = some (.slot k)) (hfree : s.dataUsed k = false) :
      Change strict log s { s.attach p n with
        dataUsed := update s.dataUsed k true, bytes := update s.bytes (.slot k) (fun _ ↦ 0) }
  | log (p : ℕ) (n : Node) (hn : New n) (hroom : s.Room strict p n.name) (hsolo : s.Solo n)
    (htype : n.type = .file)
      (hdata : n.data = some .xorg) (hl : log → ∀ i < s.used, (s.nodes i).owner = i →
        (s.nodes i).data ≠ some .xorg) :
      Change strict log s (s.attach p n)
  | share (p : ℕ) (n : Node) (src : ℕ) (hn : New n) (hroom : s.Room strict p n.name)
    (htype : n.type = .file)
      (hsrc : src < s.used) (hfile : (s.nodes src).type = .file)
        (howner : n.owner = (s.nodes src).owner)
      (hlink : n.nlink = 0) : Change strict log s ((s.addLink n.owner).attach p n)
  | remove (p x : ℕ) (hx : x ∈ s.tree.children p) (hfile : s.tree.isDir x = false) :
      Change strict log s ((s.cut p x).vfsDropLink x)
  | rmdir (p x : ℕ) (hx : x ∈ s.tree.children p) (hdir : s.tree.isDir x = true)
      (hs : strict → ∀ y, s.tree.parent y ≠ some x) : Change strict log s (s.cut p x)
  | move (x p : ℕ) (name : List UInt8) (hx : s.Placed x) (hp : p < s.used)
    (hdir : s.tree.isDir p = true)
      (hs : strict → s.tree.Reach p ∧ ¬ s.tree.Above x p ∧ x ≠ root ∧ s.tree.parent x ≠ none ∧
        (∀ q, s.tree.mounted q ≠ some x) ∧ ∀ y ∈ s.tree.children p, y ≠ x → s.tree.name y ≠ name ∧
          (s.tree.isDir x = true → s.tree.isDir y = true → lower (s.tree.name y) ≠ lower name)) :
      Change strict log s (s.moveNode x p name)
  | touch (s' : Fs) (h : s.Touched s') : Change strict log s s'

theorem attach_self (hp : p < s.used) (n : Node) :
    (s.attach p n).nodes s.used = { n with parent := some p } := by
  simp only [attach, update_of_ne hp.ne', update_self]

theorem attach_old {y : ℕ} (hy : y ≠ s.used) (p : ℕ) (n : Node) :
    (s.attach p n).nodes y = { s.nodes y with children := ((s.attach p n).nodes y).children } := by
  simp only [attach, update_apply]
  split_ifs with hyp
  · rw [hyp]
  · rfl

theorem waste_nodes {y : ℕ} (hy : y ≠ s.used) (n : Node) : (s.waste n).nodes y = s.nodes y :=
  update_of_ne hy _ _

theorem cut_nodes (s : Fs) (p x y : ℕ) : (s.cut p x).nodes y = { s.nodes y with
    parent := if y = x then none else (s.nodes y).parent, children :=
  ((s.cut p x).nodes y).children } := by
  simp only [cut, detach, setNode, update_apply]
  split_ifs with hyx hyp hyp
  · rw [hyx, ← hyp]
  · rw [hyx]
  · rw [hyp]
  · rfl

theorem moveNode_nodes (s : Fs) (x p y : ℕ) (name : List UInt8) :
    (s.moveNode x p name).nodes y = { s.nodes y with
    parent := if y = x then some p else (s.nodes y).parent, children :=
  ((s.moveNode x p name).nodes y).children,
    name := ((s.moveNode x p name).nodes y).name } := by
  simp only [moveNode, add, detach, setNode]
  cases (s.nodes x).parent with
  | none =>
    simp only [update_apply]
    split_ifs <;> simp_all
  | some op =>
    simp only [update_apply]
    split_ifs <;> simp_all

theorem dropLink_cases (s : Fs) (x : ℕ) {o : ℕ} (ho : (s.nodes x).owner = o) :
    (1 < (s.nodes o).nlink ∧
      s.vfsDropLink x = s.setNode o { s.nodes o with nlink := (s.nodes o).nlink - 1 }) ∨
    ((s.nodes o).nlink ≤ 1 ∧ ∃ k, (s.nodes o).data = some (.slot k) ∧ s.vfsDropLink x =
      { s.setNode o { s.nodes o with nlink := 0, size := 0, data := none, capacity := 0 } with
        dataUsed := update s.dataUsed k false }) ∨
    ((s.nodes o).nlink ≤ 1 ∧ (∀ k, (s.nodes o).data ≠ some (.slot k)) ∧
      s.vfsDropLink x = s.setNode o { s.nodes o with nlink := 0, size := 0 }) := by
  unfold vfsDropLink
  rw [ho]
  dsimp only
  rw [setNode_self]
  split_ifs with hzero
  · have hzero : (s.nodes o).nlink - 1 = 0 := hzero
    refine .inr ?_
    simp only [hzero]
    unfold vfsFreeFileData
    cases hdata : (s.nodes o).data with
    | none => exact .inr ⟨by omega, by simp, by simp [setNode]⟩
    | some b =>
      cases b with
      | slot k => exact .inl ⟨by omega, k, rfl, by simp [setNode]⟩
      | xorg => exact .inr ⟨by omega, by simp, by simp [setNode]⟩
  · have hzero : (s.nodes o).nlink - 1 ≠ 0 := hzero
    exact .inl ⟨by omega, rfl⟩

theorem dropLink_owner (s : Fs) (x y : ℕ) :
    ((s.vfsDropLink x).nodes y).owner = (s.nodes y).owner := by
  have hset : ∀ n : Node, n.owner = (s.nodes (s.nodes x).owner).owner →
      ((s.setNode (s.nodes x).owner n).nodes y).owner = (s.nodes y).owner := by
    intro n hn
    by_cases hy : y = (s.nodes x).owner
    · rw [hy, setNode_self, hn]
    · rw [setNode_of_ne hy]
  obtain ⟨-, h⟩ | ⟨-, k, -, h⟩ | ⟨-, -, h⟩ := dropLink_cases s x rfl
  · rw [h]
    exact hset _ rfl
  · rw [h]
    exact hset { s.nodes (s.nodes x).owner with nlink := 0, size := 0, data := none, capacity := 0 }
      rfl
  · rw [h]
    exact hset _ rfl

theorem dropLink_used (s : Fs) (x : ℕ) : (s.vfsDropLink x).used = s.used := by
  obtain ⟨-, h⟩ | ⟨-, k, -, h⟩ | ⟨-, -, h⟩ := dropLink_cases s x rfl
  · rw [h]
    rfl
  · rw [h]
    rfl
  · rw [h]
    rfl

theorem moveNode_used (s : Fs) (x p : ℕ) (name : List UInt8) :
    (s.moveNode x p name).used = s.used := by
  unfold moveNode
  cases (s.nodes x).parent with
  | none => rfl
  | some op => rfl

theorem tree_attach (hp : p < s.used) (hn : New n) :
    (s.attach p n).tree = s.tree.attach p (n.type = .dir) n.name := by
  have hne : s.used ≠ p := hp.ne'
  ext y
  · rfl
  all_goals
    simp only [tree, attach, Tree.attach, update_apply]
    by_cases hyp : y = p
    · subst hyp
      simp [hp.ne]
    · by_cases hyu : y = s.used
      · subst hyu
        simp [hyp, hn.2.1, hn.2.2]
      · simp [hyp, hyu]

theorem tree_waste (hn : New n) : (s.waste n).tree = s.tree.waste (n.type = .dir) n.name := by
  ext y
  · rfl
  all_goals
    simp only [tree, waste, Tree.waste, update_apply]
    by_cases hyu : y = s.used
    · subst hyu
      simp [hn.1, hn.2.1, hn.2.2]
    · simp [hyu]

theorem tree_cut (s : Fs) (p x : ℕ) : (s.cut p x).tree = s.tree.cut p x := by
  ext y
  · rfl
  all_goals
    simp only [tree, cut, detach, setNode, Tree.cut, update_apply]
    by_cases hyx : y = x
    · subst hyx
      by_cases hyp : y = p
      · simp [hyp]
      · simp [hyp]
    · by_cases hyp : y = p
      · subst hyp
        simp [hyx]
      · simp [hyx, hyp]

theorem tree_congr (hused : s'.used = s.used) (h : ∀ y, (s'.nodes y).parent = (s.nodes y).parent ∧
    (s'.nodes y).children = (s.nodes y).children ∧ (s'.nodes y).type = (s.nodes y).type ∧
    (s'.nodes y).mounted = (s.nodes y).mounted ∧ (s'.nodes y).name = (s.nodes y).name) : s'.tree =
      s.tree := by
  ext y
  · exact hused
  all_goals
    obtain ⟨h₁, h₂, h₃, h₄, h₅⟩ := h y
    simp only [tree, h₁, h₂, h₃, h₄, h₅]

theorem tree_setNode (hn : n.parent = (s.nodes x).parent ∧ n.children = (s.nodes x).children ∧
      n.type = (s.nodes x).type ∧
    n.mounted = (s.nodes x).mounted ∧ n.name = (s.nodes x).name) : (s.setNode x n).tree =
      s.tree := by
  refine tree_congr rfl (fun y ↦ ?_)
  by_cases hy : y = x
  · subst hy
    rw [setNode_self]
    exact hn
  · rw [setNode_of_ne hy]
    exact ⟨rfl, rfl, rfl, rfl, rfl⟩

theorem tree_addLink (s : Fs) (o : ℕ) : (s.addLink o).tree = s.tree :=
  tree_setNode ⟨rfl, rfl, rfl, rfl, rfl⟩

theorem tree_dropLink (s : Fs) (x : ℕ) : (s.vfsDropLink x).tree = s.tree := by
  obtain ⟨-, h⟩ | ⟨-, k, -, h⟩ | ⟨-, -, h⟩ := dropLink_cases s x rfl
  all_goals
    rw [h]
    exact tree_setNode (s := s) ⟨rfl, rfl, rfl, rfl, rfl⟩

theorem tree_moveNode (s : Fs) (x p : ℕ) (name : List UInt8) :
    (s.moveNode x p name).tree = s.tree.move x p name := by
  have hdetach : ∀ op, (s.detach op x).tree =
      { s.tree with children := update s.tree.children op ((s.tree.children op).erase x) } := by
    intro op
    ext y
    · rfl
    all_goals
      simp only [tree, detach, setNode, update_apply]
      by_cases hy : y = op
      · subst hy
        simp
      · simp [hy]
  have hend : ∀ s₁ : Fs, ((s₁.setNode x { s₁.nodes x with name := name }).add p x).tree =
      { s₁.tree with
        parent := update s₁.tree.parent x (some p)
        children := update s₁.tree.children p (x :: s₁.tree.children p)
        name := update s₁.tree.name x name } := by
    intro s₁
    ext y
    · rfl
    all_goals
      simp only [tree, add, setNode, update_apply]
      by_cases hyp : y = p
      · subst hyp
        by_cases hyx : y = x
        · subst hyx
          simp
        · simp [hyx]
      · by_cases hyx : y = x
        · subst hyx
          simp [hyp]
        · simp [hyx, hyp]
  unfold moveNode Tree.move Tree.without
  dsimp only
  rw [hend, show s.tree.parent x = (s.nodes x).parent from rfl]
  cases (s.nodes x).parent with
  | none => rfl
  | some op =>
    dsimp only
    rw [hdetach op]

theorem Touched.tree (h : s.Touched s') : s'.tree = s.tree :=
  tree_congr h.used (fun y ↦ by
    rw [h.nodes y]
    exact ⟨rfl, rfl, rfl, rfl, rfl⟩)

variable {strict log : Prop}

theorem Change.steps (hl : s.tree.Linked) (h : Change strict log s s') :
    Relation.ReflTransGen (Tree.Step strict) s.tree s'.tree := by
  cases h with
  | spell _ _ ht => exact ht
  | waste n hn =>
    rw [tree_waste hn]
    exact .single (.waste _ _)
  | make p n hn hroom | log p n hn hroom =>
    rw [tree_attach hroom.used hn]
    exact .single (.attach p _ _ hroom.used hroom.dir hroom.free)
  | file p n k hn hroom =>
    have htree : ({ s.attach p n with
        dataUsed := update s.dataUsed k true, bytes :=
          update s.bytes (.slot k) (fun _ ↦ 0) } : Fs).tree = (s.attach p n).tree := rfl
    rw [htree, tree_attach hroom.used hn]
    exact .single (.attach p _ _ hroom.used hroom.dir hroom.free)
  | share p n src hn hroom =>
    have hused : p < (s.addLink n.owner).used := hroom.used
    rw [tree_attach hused hn, tree_addLink]
    exact .single (.attach p _ _ hroom.used hroom.dir hroom.free)
  | remove p x hx hfile =>
    rw [tree_dropLink, tree_cut]
    refine .single (.cut p x hx (fun _ y hy ↦ ?_))
    have hdir := hl.dir y x hy
    rw [hfile] at hdir
    cases hdir
  | rmdir p x hx hdir hs =>
    rw [tree_cut]
    exact .single (.cut p x hx hs)
  | move x p name hx hp hdir hs =>
    rw [tree_moveNode]
    refine .single (.move x p name hx.1 hp hdir (fun hf ↦ ?_) hs)
    exact hx.2.resolve_left (by rw [hf]; exact Bool.false_ne_true)
  | touch _ h =>
    rw [h.tree]

def Owners (s : Fs) : Prop := ∀ x < s.used, (s.nodes x).owner < s.used

theorem Spelled.owners (h : s.Spelled s') (ho : s.Owners) : s'.Owners := by
  intro x hx
  rw [h.used] at hx ⊢
  rw [h.nodes x]
  exact ho x hx

theorem Owners.attach (ho : s.Owners) (hp : p < s.used) (hn : n.owner ≤ s.used) :
    (s.attach p n).Owners := by
  intro x hx
  have hsucc : (s.attach p n).used = s.used + 1 := rfl
  by_cases hxu : x = s.used
  · rw [hxu, attach_self hp]
    exact Nat.lt_succ_of_le hn
  · rw [attach_old hxu]
    exact Nat.lt_succ_of_lt (ho x (by omega))

theorem Change.owners (ho : s.Owners) (h : Change strict log s s') : s'.Owners := by
  cases h with
  | spell _ h => exact h.owners ho
  | waste n =>
    intro x hx
    have hx : x < s.used := hx
    rw [waste_nodes hx.ne]
    exact ho x hx
  | make p n _ hroom hsolo | log p n _ hroom hsolo | file p n _ _ hroom hsolo =>
    exact ho.attach hroom.used hsolo.1.le
  | share p n src _ hroom _ hsrc _ howner =>
    have hlink : (s.addLink n.owner).Owners := by
      intro x hx
      by_cases hxo : x = n.owner
      · rw [hxo, addLink, setNode_self]
        exact ho _ (hxo ▸ hx)
      · rw [addLink, setNode_of_ne hxo]
        exact ho x hx
    exact hlink.attach hroom.used (by rw [howner]; exact (ho src hsrc).le)
  | remove p x =>
    intro y hy
    rw [dropLink_used] at hy ⊢
    rw [dropLink_owner, cut_nodes]
    exact ho y hy
  | rmdir p x =>
    intro y hy
    rw [cut_nodes]
    exact ho y hy
  | move x p name =>
    intro y hy
    rw [moveNode_used] at hy ⊢
    rw [moveNode_nodes]
    exact ho y hy
  | touch _ h =>
    intro x hx
    rw [h.used] at hx ⊢
    rw [h.nodes x]
    exact ho x hx

end Fs

end YabroOS.Vfs
