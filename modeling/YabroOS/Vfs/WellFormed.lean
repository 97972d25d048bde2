import YabroOS.Vfs.Contents

namespace YabroOS.Vfs

open Fat Function

def Normal (parts : List (List UInt8)) : Prop :=
  ∀ c ∈ parts, c ≠ [] ∧ slash ∉ c ∧ c ≠ dot ∧ c ≠ dotdot

def normalPath (parts : List (List UInt8)) : List UInt8 := slash :: [slash].intercalate parts

/-- The same components up to case and to what `VFS_NAME_MAX` cuts off. -/
def Agree (parts parts' : List (List UInt8)) : Prop :=
  List.Forall₂ (fun c c' ↦ lower (c.take vfsNameMax) = lower (c'.take vfsNameMax)) parts parts'

theorem components_joined {parts : List (List UInt8)} (h : ∀ c ∈ parts, c ≠ [] ∧ slash ∉ c) :
    components (normalPath parts) = parts := by
  unfold normalPath
  rw [components_slash]
  induction parts with
  | nil => rfl
  | cons c rest ih =>
    obtain ⟨hne, hslash⟩ := h c (.head _)
    have hrest : ∀ d ∈ rest, d ≠ [] ∧ slash ∉ d := fun d hd ↦ h d (.tail _ hd)
    cases rest with
    | nil =>
      rw [List.intercalate_singleton]
      exact components_name hslash hne
    | cons d rest =>
      rw [List.intercalate_cons_cons, List.append_assoc, List.singleton_append, components_append,
        components_name hslash hne,
        ih hrest]
      rfl

theorem components_normalPath {parts : List (List UInt8)} (h : Normal parts) :
    components (normalPath parts) = parts :=
  components_joined (fun c hc ↦ ⟨(h c hc).1, (h c hc).2.1⟩)

theorem take_ne {c d : List UInt8} (hd : d.length < vfsNameMax) (h : c ≠ d) :
    c.take vfsNameMax ≠ d := by
  rintro rfl
  rw [List.length_take] at hd
  exact h (List.take_of_length_le (by omega)).symm

namespace Tree

variable {t : Tree} {x y p z : ℕ} {name c : List UInt8} {parts parts' : List (List UInt8)}

structure LastStep (t : Tree) (parts : List (List UInt8)) (c : List UInt8) (x y z : ℕ) : Prop where
  walks : t.Walks root parts y
  visible : t.Visible y
  finds : t.Finds y (c.take vfsNameMax) z
  mr : t.mr z = x

theorem Rooted.lastStep (h : t.Rooted) (hdot : c ≠ dot) (hdotdot : c ≠ dotdot)
    (hx : t.Walks root (parts ++ [c]) x) : ∃ y z, t.LastStep parts c x y z := by
  obtain ⟨y, hy, hx⟩ := walks_append.1 hx
  have hvis := h.walks_visible .root hy
  simp only [Walks, if_neg (take_ne (by decide) hdot), if_neg (take_ne (by decide) hdotdot),
    h.mr_visible hvis] at hx
  obtain ⟨z, -, hz, hx⟩ := hx
  exact ⟨y, z, hy, hvis, hz, hx⟩

theorem Rooted.lastStep_unique (h : t.Rooted) {c' : List UInt8} {y' z' : ℕ}
    (hs : t.LastStep parts c x y z) (hs' : t.LastStep parts' c' x y' z') : y = y' ∧ z = z' := by
  have hz : z = z' := by
    have hm := hs.mr
    have hm' := hs'.mr
    unfold mr at hm hm'
    cases hmz : t.mounted z with
    | none =>
      rw [hmz] at hm
      obtain rfl : z = x := hm
      cases hmz' : t.mounted z' with
      | none =>
        rw [hmz'] at hm'
        exact hm'.symm
      | some r =>
        rw [hmz'] at hm'
        obtain rfl : r = z := hm'
        exact absurd hs.finds.1 ((h.mount z' r hmz').2.2 y)
    | some r =>
      rw [hmz] at hm
      obtain rfl : r = x := hm
      cases hmz' : t.mounted z' with
      | none =>
        rw [hmz'] at hm'
        obtain rfl : z' = r := hm'
        exact absurd hs'.finds.1 ((h.mount z z' hmz).2.2 y')
      | some r' =>
        rw [hmz'] at hm'
        obtain rfl : r' = r := hm'
        exact Option.some.inj ((h.mount z r' hmz).1.symm.trans (h.mount z' r' hmz').1)
  subst hz
  exact ⟨Option.some.inj ((h.child y z hs.finds.1).symm.trans (h.child y' z hs'.finds.1)), rfl⟩

theorem LastStep.low (h : t.LastStep parts c x y z) :
    lower (t.name z) = lower (c.take vfsNameMax) := by
  obtain ⟨-, ⟨-, hname⟩ | ⟨-, hlow, -⟩⟩ := h.finds
  · rw [hname]
  · exact hlow

theorem Rooted.lastStep_ne_root (h : t.Rooted) (hs : t.LastStep parts c x y z) : x ≠ root := by
  rintro rfl
  have hm := hs.mr
  unfold mr at hm
  cases hmz : t.mounted z with
  | none =>
    rw [hmz] at hm
    obtain rfl : z = root := hm
    have hp := h.child y root hs.finds.1
    rw [h.root_parent] at hp
    cases hp
  | some r =>
    rw [hmz] at hm
    obtain rfl : r = root := hm
    have hp := (h.mount z root hmz).1
    rw [h.root_parent] at hp
    cases hp

theorem Rooted.agree (h : t.Rooted) (hn : Normal parts) (hn' : Normal parts')
    (hx : t.Walks root parts x) (hx' : t.Walks root parts' x) : Agree parts parts' := by
  induction parts using List.reverseRecOn generalizing parts' x with
  | nil =>
    obtain rfl : root = x := hx
    induction parts' using List.reverseRecOn with
    | nil => exact .nil
    | append_singleton rest c _ =>
      obtain ⟨-, -, hdot, hdotdot⟩ := hn' c (by simp)
      obtain ⟨y, z, hs⟩ := h.lastStep hdot hdotdot hx'
      exact absurd rfl (h.lastStep_ne_root hs)
  | append_singleton parts c ih =>
    obtain ⟨-, -, hdot, hdotdot⟩ := hn c (by simp)
    obtain ⟨y, z, hs⟩ := h.lastStep hdot hdotdot hx
    induction parts' using List.reverseRecOn with
    | nil =>
      obtain rfl : root = x := hx'
      exact absurd rfl (h.lastStep_ne_root hs)
    | append_singleton parts' c' _ =>
      obtain ⟨-, -, hdot', hdotdot'⟩ := hn' c' (by simp)
      obtain ⟨y', z', hs'⟩ := h.lastStep hdot' hdotdot' hx'
      obtain ⟨rfl, rfl⟩ := h.lastStep_unique hs hs'
      have hrest :=
        ih (fun d hd ↦ hn d (List.mem_append_left _ hd))
          (fun d hd ↦ hn' d (List.mem_append_left _ hd))
        hs.walks hs'.walks
      exact List.rel_append hrest (.cons (hs.low.symm.trans hs'.low) .nil)

theorem Rooted.agree_file (h : t.Rooted) {c' : List UInt8} (hn : Normal (parts ++ [c]))
    (hn' : Normal (parts' ++ [c'])) (hx : t.Walks root (parts ++ [c]) x)
    (hx' : t.Walks root (parts' ++ [c']) x) (hfile : t.isDir x = false) :
    c.take vfsNameMax = c'.take vfsNameMax := by
  obtain ⟨-, -, hdot, hdotdot⟩ := hn c (by simp)
  obtain ⟨-, -, hdot', hdotdot'⟩ := hn' c' (by simp)
  obtain ⟨y, z, hs⟩ := h.lastStep hdot hdotdot hx
  obtain ⟨y', z', hs'⟩ := h.lastStep hdot' hdotdot' hx'
  obtain ⟨rfl, rfl⟩ := h.lastStep_unique hs hs'
  have hzx : z = x := by
    rw [← hs.mr]
    exact (h.mr_file (by rw [hs.mr]; exact hfile)).symm
  have hname : ∀ {d : List UInt8}, t.Finds y d z → t.name z = d := by
    rintro d ⟨-, ⟨-, hname⟩ | ⟨hdir, -⟩⟩
    · exact hname
    · rw [hzx, hfile] at hdir
      cases hdir
  exact (hname hs.finds).symm.trans (hname hs'.finds)

end Tree

namespace Fs

variable {s : Fs} {calls : List VfsCall}

def IsLinked (s : Fs) (x : ℕ) : Prop := (s.nodes x).parent ≠ none ∨ ∃ q, x ∈ (s.nodes q).children

/-- The nodes form a tree with the mounts in it. -/
structure Formed (s : Fs) : Prop where
  listed : ∀ x, s.IsLinked x → x ≠ root → (∀ q, (s.nodes q).mounted ≠ some x) →
    ∃ p, (s.nodes x).parent = some p ∧ ∀ q, x ∈ (s.nodes q).children ↔ q = p
  reach : ∀ x, s.IsLinked x → s.tree.Reach x
  acyclic : ∀ x p, (s.nodes x).parent = some p → ¬ s.tree.Above x p
  mount : ∀ p r, (s.nodes p).mounted = some r → ∀ q, r ∉ (s.nodes q).children
  names : ∀ p x y, x ∈ (s.nodes p).children → y ∈ (s.nodes p).children →
    (s.nodes x).name = (s.nodes y).name → x = y
  dirs : ∀ p x y, x ∈ (s.nodes p).children → y ∈ (s.nodes p).children → (s.nodes x).type = .dir →
    (s.nodes y).type = .dir → lower (s.nodes x).name = lower (s.nodes y).name → x = y

def OnePath (s : Fs) : Prop := ∀ parts parts' x, Normal parts → Normal parts' →
  (s.vfsLookup (normalPath parts)).2 = some x → (s.vfsLookup (normalPath parts')).2 = some x →
    parts = parts'

/-- Two normalised paths of a node differ in the case of directories and behind the cut alone. -/
def AlikePaths (s : Fs) : Prop := ∀ parts parts' x, Normal parts → Normal parts' →
  (s.vfsLookup (normalPath parts)).2 = some x → (s.vfsLookup (normalPath parts')).2 = some x →
    Agree parts parts' ∧
    ((s.nodes x).type ≠ .dir →
      ∀ c ∈ parts.getLast?, ∀ c' ∈ parts'.getLast?, c.take vfsNameMax = c'.take vfsNameMax)

theorem formed_of_rooted (h : s.tree.Rooted) : s.Formed where
  listed x hx hroot hmount := by
    have hparent : ∃ p, s.tree.parent x = some p := by
      obtain hx | ⟨q, hq⟩ := hx
      · exact Option.ne_none_iff_exists'.1 hx
      · exact ⟨q, h.child q x hq⟩
    obtain ⟨p, hp⟩ := hparent
    refine ⟨p, hp, fun q ↦ ⟨fun hq ↦ Option.some.inj ((h.child q x hq).symm.trans hp), ?_⟩⟩
    rintro rfl
    exact (h.listed x q hp).resolve_right (hmount q)
  reach x hx := by
    obtain hx | ⟨q, hq⟩ := hx
    · obtain ⟨p, hp⟩ := Option.ne_none_iff_exists'.1 hx
      exact .child hp (h.reach x p hp)
    · exact .child (h.child q x hq) (h.reach x q (h.child q x hq))
  acyclic x p hp := h.not_above (.child hp (h.reach x p hp)) hp
  mount p r hr := (h.mount p r hr).2.2
  names := h.names
  dirs p x y hx hy hxd hyd hlow := h.dirs p x y hx hy (decide_eq_true hxd) (decide_eq_true hyd) hlow

theorem alikePaths_of_rooted (h : s.tree.Rooted) : s.AlikePaths := by
  intro parts parts' x hn hn' hx hx'
  have hw := ((lookup_iff h).1 hx).2
  have hw' := ((lookup_iff h).1 hx').2
  rw [components_normalPath hn] at hw
  rw [components_normalPath hn'] at hw'
  refine ⟨h.agree hn hn' hw hw', fun hfile c hc c' hc' ↦ ?_⟩
  obtain ⟨rest, rfl⟩ := List.getLast?_eq_some_iff.1 hc
  obtain ⟨rest', rfl⟩ := List.getLast?_eq_some_iff.1 hc'
  exact h.agree_file hn hn' hw hw' (decide_eq_false hfile)

theorem Good.call (hg : Good True s) {c : VfsCall} (hs : ¬ s.Slips c) : Good True (s.call c) := by
  have hc : Changes True False s (s.call c) := call_changes hg (fun _ ↦ hs) False.elim
  exact hc.good hg

theorem run_rooted (hs : Spared Slips s calls) (hg : Good True s) : Good True (s.run calls) := by
  induction calls generalizing s with
  | nil => exact hg
  | cons c rest ih => exact ih hs.2 (hg.call hs.1)

theorem vfsInit_good : Good True vfsInit :=
  ⟨vfsInit_rooted.toLinked, fun _ ↦ vfsInit_rooted, vfsInit_sound.good.owners⟩

/-- The tree is well formed after every run without a rename that slips. -/
theorem run_formed (calls : List VfsCall) (h : Spared Slips vfsInit calls) :
    (vfsInit.run calls).Formed ∧ (vfsInit.run calls).AlikePaths := by
  have hr := (run_rooted h vfsInit_good).rooted trivial
  exact ⟨formed_of_rooted hr, alikePaths_of_rooted hr⟩

theorem run_nil (s : Fs) : s.run [] = s := rfl

theorem parent_of_mounted (h : Good True s) {q r : ℕ} (hq : (s.nodes q).mounted = some r) :
    (s.nodes r).parent = some q :=
  ((h.rooted trivial).mount q r hq).1

def madeDir : Fs := vfsInit.call (.mkdir (text "/a") 0o755)

def renameDir : List VfsCall := [.mkdir (text "/a") 0o755, .rename (text "/a") (text "/tmp/b")]

theorem madeDir_paths : (madeDir.vfsLookup (text "/a")).2 = some 59 ∧
    ((madeDir.nodes 59).parent = some 0 ∧ (madeDir.nodes 0).mounted = none) ∧
    (madeDir.vfsParentForCreate (text "/tmp/b")).2 = some (3, text "b") ∧
    ∀ e ∈ (madeDir.nodes 3).children, (madeDir.nodes e).type = .dir := by decide +kernel

theorem madeDir_spared : ¬ madeDir.Slips (.rename (text "/a") (text "/tmp/b")) := by
  rintro ⟨x, hx, hslip⟩
  obtain ⟨hlook, hparent, hpar, hchildren⟩ := madeDir_paths
  obtain rfl : x = 59 := Option.some.inj (hx.symm.trans hlook)
  have hgood : Good True madeDir := vfsInit_good.call not_false
  obtain ⟨q, hq⟩ | ⟨-, p, name, hp, e, he, hfile, -⟩ := hslip
  · obtain rfl : q = 0 := Option.some.inj ((parent_of_mounted hgood hq).symm.trans hparent.1)
    rw [hparent.2] at hq
    cases hq
  · cases hp.symm.trans hpar
    exact hfile (hchildren e he)

/-- A run with a rename that does not slip. -/
theorem run_formed_rename : Spared Slips vfsInit renameDir ∧ (vfsInit.run renameDir).Formed := by
  have hspared : Spared Slips vfsInit renameDir := ⟨not_false, madeDir_spared, trivial⟩
  exact ⟨hspared, (run_formed renameDir hspared).1⟩

/-- The lookup of directories ignores case. -/
theorem not_run_onePath : ¬ ∀ calls, (vfsInit.run calls).Formed ∧ (vfsInit.run calls).OnePath := by
  intro h
  obtain ⟨hdev, hne, hlook⟩ : (Normal [text "dev"] ∧ Normal [text "DEV"]) ∧
      [text "dev"] ≠ [text "DEV"] ∧ (vfsInit.vfsLookup (normalPath [text "dev"])).2 = some 45 ∧
      (vfsInit.vfsLookup (normalPath [text "DEV"])).2 = some 45 := by
    unfold Normal
    decide +kernel
  have hone := (h []).2
  rw [run_nil] at hone
  have heq := hone [text "dev"] [text "DEV"] 45 hdev.1 hdev.2 hlook.1 hlook.2
  exact hne heq

end Fs

end YabroOS.Vfs
