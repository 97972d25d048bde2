import YabroOS.Vfs.Rename

namespace YabroOS.Vfs

open Function

namespace Fs

variable {s s' : Fs} {x p i j k : ℕ} {n : Node} {strict log : Prop}

def Inode (s : Fs) (i : ℕ) : Prop := i < s.used ∧ (s.nodes i).owner = i

def entries (s : Fs) (i : ℕ) : Finset ℕ :=
  (Finset.range s.used).filter (fun x ↦ (s.nodes x).owner = i ∧ (s.nodes x).parent ≠ none)

structure Own (log : Prop) (s : Fs) : Prop where
  owner : ∀ x < s.used, s.Inode (s.nodes x).owner
  file : ∀ x < s.used, (s.nodes x).owner ≠ x → (s.nodes x).type = .file ∧
    (s.nodes (s.nodes x).owner).type = .file
  count : ∀ i, s.Inode i → (s.nodes i).type ≠ .dir → (s.nodes i).nlink = (s.entries i).card
  one : ∀ i j b, s.Inode i → s.Inode j → (s.nodes i).data = some b → (s.nodes j).data = some b →
    (b = .xorg → log) → i = j
  slot : ∀ k, s.dataUsed k = true ↔ ∃ i, s.Inode i ∧ (s.nodes i).data = some (.slot k)
  alive : ∀ i k, s.Inode i → (s.nodes i).data = some (.slot k) → 0 < (s.nodes i).nlink

theorem mem_entries :
    x ∈ s.entries i ↔ x < s.used ∧ (s.nodes x).owner = i ∧ (s.nodes x).parent ≠ none := by
  simp [entries]

theorem Own.congr (h : s.Own log) (hused : s'.used = s.used) (hdata : s'.dataUsed = s.dataUsed)
    (hn : ∀ x < s.used, (s'.nodes x).owner = (s.nodes x).owner ∧
      (s'.nodes x).type = (s.nodes x).type ∧
      (s'.nodes x).nlink = (s.nodes x).nlink ∧ (s'.nodes x).data = (s.nodes x).data ∧
      ((s.nodes x).type ≠ .dir → ((s'.nodes x).parent ≠ none ↔ (s.nodes x).parent ≠ none))) : s'.Own
        log := by
  have hinode : ∀ i, s'.Inode i ↔ s.Inode i := by
    intro i
    unfold Inode
    rw [hused]
    exact and_congr_right (fun hi ↦ by rw [(hn i hi).1])
  have hentries : ∀ i, s.Inode i → (s.nodes i).type ≠ .dir → s'.entries i = s.entries i := by
    intro i hi hdir
    ext x
    rw [mem_entries, mem_entries, hused]
    refine and_congr_right (fun hx ↦ ?_)
    rw [(hn x hx).1]
    refine and_congr_right (fun hxo ↦ (hn x hx).2.2.2.2 ?_)
    by_cases hxi : (s.nodes x).owner = x
    · rw [← hxi, hxo]
      exact hdir
    · rw [(h.file x hx hxi).1]
      exact nofun
  constructor
  · intro x hx
    rw [hused] at hx
    rw [(hn x hx).1]
    exact (hinode _).2 (h.owner x hx)
  · intro x hx hne
    rw [hused] at hx
    rw [(hn x hx).1] at hne ⊢
    rw [(hn x hx).2.1, (hn _ (h.owner x hx).1).2.1]
    exact h.file x hx hne
  · intro i hi hdir
    have hi := (hinode i).1 hi
    rw [(hn i hi.1).2.1] at hdir
    rw [(hn i hi.1).2.2.1, hentries i hi hdir]
    exact h.count i hi hdir
  · intro i j b hi hj hib hjb
    have hi := (hinode i).1 hi
    have hj := (hinode j).1 hj
    rw [(hn i hi.1).2.2.2.1] at hib
    rw [(hn j hj.1).2.2.2.1] at hjb
    exact h.one i j b hi hj hib hjb
  · intro k
    rw [hdata, h.slot k]
    refine exists_congr (fun i ↦ ?_)
    rw [hinode i]
    exact and_congr_right (fun hi ↦ by rw [(hn i hi.1).2.2.2.1])
  · intro i k hi hik
    have hi := (hinode i).1 hi
    rw [(hn i hi.1).2.2.2.1] at hik
    rw [(hn i hi.1).2.2.1]
    exact h.alive i k hi hik

def Keeps (s s' : Fs) (x : ℕ) : Prop :=
  (s'.nodes x).owner = (s.nodes x).owner ∧ (s'.nodes x).type = (s.nodes x).type ∧
    (s'.nodes x).nlink = (s.nodes x).nlink ∧
    (s'.nodes x).data = (s.nodes x).data ∧ (s'.nodes x).parent = (s.nodes x).parent

theorem Own.same (h : s.Own log) (hused : s'.used = s.used) (hdata : s'.dataUsed = s.dataUsed)
    (hn : ∀ x < s.used, Keeps s s' x) : s'.Own log :=
  h.congr hused hdata (fun x hx ↦ by
    obtain ⟨h₁, h₂, h₃, h₄, h₅⟩ := hn x hx
    exact ⟨h₁, h₂, h₃, h₄, fun _ ↦ by rw [h₅]⟩)

theorem Own.touched (h : s.Own log) (ht : s.Touched s') : s'.Own log :=
  h.same ht.used ht.dataUsed (fun x _ ↦ by
    rw [Keeps, ht.nodes x]
    exact ⟨rfl, rfl, rfl, rfl, rfl⟩)

theorem Own.spelled (h : s.Own log) (hs : s.Spelled s') : s'.Own log :=
  h.same hs.used hs.dataUsed (fun x _ ↦ by
    rw [Keeps, hs.nodes x]
    exact ⟨rfl, rfl, rfl, rfl, rfl⟩)

theorem Own.waste (h : s.Own log) (n : Node) : (s.waste n).Own log :=
  h.same rfl rfl (fun x hx ↦ by
    rw [Keeps, waste_nodes hx.ne]
    exact ⟨rfl, rfl, rfl, rfl, rfl⟩)

theorem Own.join (h : s.Own log) (hused : s'.used = s.used + 1) (hold : ∀ x < s.used, Keeps s s' x)
    (howner : (s'.nodes s.used).owner = s.used) (hlink : (s'.nodes s.used).nlink = 1)
    (hpar : (s'.nodes s.used).type ≠ .dir → (s'.nodes s.used).parent ≠ none)
    (hfresh : ∀ i b, s.Inode i → (s.nodes i).data = some b → (b = .xorg → log) →
      (s'.nodes s.used).data ≠ some b)
    (hslots : ∀ k, s'.dataUsed k = true ↔ s.dataUsed k = true ∨
      (s'.nodes s.used).data = some (.slot k)) : s'.Own log := by
  have hnew : s'.Inode s.used := ⟨by omega, howner⟩
  have hlt : ∀ x, x < s'.used → x < s.used ∨ x = s.used := fun x hx ↦ by omega
  have hinode : ∀ i, s'.Inode i → s.Inode i ∨ i = s.used := by
    intro i hi
    obtain hlt | rfl := hlt i hi.1
    · exact .inl ⟨hlt, (hold i hlt).1.symm.trans hi.2⟩
    · exact .inr rfl
  have hinode' : ∀ i, s.Inode i → s'.Inode i :=
    fun i hi ↦ ⟨by have := hi.1; omega, (hold i hi.1).1.trans hi.2⟩
  constructor
  · intro x hx
    obtain hx | rfl := hlt x hx
    · rw [(hold x hx).1]
      exact hinode' _ (h.owner x hx)
    · rw [howner]
      exact hnew
  · intro x hx hne
    obtain hx | rfl := hlt x hx
    · rw [(hold x hx).1] at hne ⊢
      rw [(hold x hx).2.1, (hold _ (h.owner x hx).1).2.1]
      exact h.file x hx hne
    · exact absurd howner hne
  · intro i hi hdir
    obtain hi | rfl := hinode i hi
    · rw [(hold i hi.1).2.1] at hdir
      have hentries : s'.entries i = s.entries i := by
        ext x
        rw [mem_entries, mem_entries]
        constructor
        · rintro ⟨hx, hxo, hxp⟩
          obtain hx | rfl := hlt x hx
          · rw [(hold x hx).1] at hxo
            rw [(hold x hx).2.2.2.2] at hxp
            exact ⟨hx, hxo, hxp⟩
          · rw [howner] at hxo
            exact absurd hxo hi.1.ne'
        · rintro ⟨hx, hxo, hxp⟩
          rw [(hold x hx).1, (hold x hx).2.2.2.2]
          exact ⟨by omega, hxo, hxp⟩
      rw [(hold i hi.1).2.2.1, hentries]
      exact h.count i hi hdir
    · have hentries : s'.entries s.used = {s.used} := by
        ext x
        rw [mem_entries, Finset.mem_singleton]
        constructor
        · rintro ⟨hx, hxo, -⟩
          obtain hx | rfl := hlt x hx
          · rw [(hold x hx).1] at hxo
            exact absurd hxo (h.owner x hx).1.ne
          · rfl
        · rintro rfl
          exact ⟨hnew.1, howner, hpar hdir⟩
      rw [hentries, hlink, Finset.card_singleton]
  · intro i j b hi hj hib hjb hlog
    obtain hi | rfl := hinode i hi
    · rw [(hold i hi.1).2.2.2.1] at hib
      obtain hj | rfl := hinode j hj
      · rw [(hold j hj.1).2.2.2.1] at hjb
        exact h.one i j b hi hj hib hjb hlog
      · exact absurd hjb (hfresh i b hi hib hlog)
    · obtain hj | rfl := hinode j hj
      · rw [(hold j hj.1).2.2.2.1] at hjb
        exact absurd hib (hfresh j b hj hjb hlog)
      · rfl
  · intro k
    rw [hslots k, h.slot k]
    constructor
    · rintro (⟨i, hi, hik⟩ | hk)
      · exact ⟨i, hinode' i hi, by rw [(hold i hi.1).2.2.2.1]; exact hik⟩
      · exact ⟨s.used, hnew, hk⟩
    · rintro ⟨i, hi, hik⟩
      obtain hi | rfl := hinode i hi
      · rw [(hold i hi.1).2.2.2.1] at hik
        exact .inl ⟨i, hi, hik⟩
      · exact .inr hik
  · intro i k hi hik
    obtain hi | rfl := hinode i hi
    · rw [(hold i hi.1).2.2.2.1] at hik
      rw [(hold i hi.1).2.2.1]
      exact h.alive i k hi hik
    · rw [hlink]
      exact Nat.one_pos

theorem attach_keeps (p : ℕ) (n : Node) (hx : x < s.used) : Keeps s (s.attach p n) x := by
  rw [Keeps, attach_old hx.ne]
  exact ⟨rfl, rfl, rfl, rfl, rfl⟩

theorem Own.share (h : s.Own log) (hp : p < s.used) (ho : s.Inode n.owner)
    (hfile : (s.nodes n.owner).type = .file) (htype : n.type = .file) :
    ((s.addLink n.owner).attach p n).Own log := by
  have hp' : p < (s.addLink n.owner).used := hp
  have hself : ((s.addLink n.owner).attach p n).nodes s.used = { n with parent := some p } :=
    attach_self hp' n
  have hold : ∀ x < s.used, (((s.addLink n.owner).attach p n).nodes x).owner = (s.nodes x).owner ∧
      (((s.addLink n.owner).attach p n).nodes x).type = (s.nodes x).type ∧
      (((s.addLink n.owner).attach p n).nodes x).data = (s.nodes x).data ∧
      (((s.addLink n.owner).attach p n).nodes x).parent = (s.nodes x).parent ∧
      (((s.addLink n.owner).attach p n).nodes x).nlink = (s.nodes x).nlink + if x = n.owner then 1
        else 0 := by
    intro x hx
    obtain ⟨h₁, h₂, h₃, h₄, h₅⟩ := attach_keeps (s := s.addLink n.owner) p n hx
    rw [h₁, h₂, h₃, h₄, h₅]
    by_cases hxo : x = n.owner
    · rw [if_pos hxo, addLink, hxo, setNode_self]
      exact ⟨rfl, rfl, rfl, rfl, rfl⟩
    · rw [if_neg hxo, addLink, setNode_of_ne hxo]
      exact ⟨rfl, rfl, rfl, rfl, rfl⟩
  generalize hs' : (s.addLink n.owner).attach p n = s' at hself hold ⊢
  have hused : s'.used = s.used + 1 := hs' ▸ rfl
  have hdata : s'.dataUsed = s.dataUsed := hs' ▸ rfl
  have hlt : ∀ x, x < s'.used → x < s.used ∨ x = s.used := fun x hx ↦ by omega
  have hinode : ∀ i, s'.Inode i ↔ s.Inode i := by
    intro i
    constructor
    · rintro ⟨hi, hio⟩
      obtain hi | rfl := hlt i hi
      · exact ⟨hi, (hold i hi).1.symm.trans hio⟩
      · rw [hself] at hio
        exact absurd hio ho.1.ne
    · exact fun hi ↦ ⟨by have := hi.1; omega, (hold i hi.1).1.trans hi.2⟩
  have hentries : ∀ i, s.Inode i → s'.entries i = if i = n.owner then insert s.used (s.entries i)
      else s.entries i := by
    intro i hi
    have hmem : ∀ x, x ∈ s'.entries i ↔ x ∈ s.entries i ∨ x = s.used ∧ i = n.owner := by
      intro x
      rw [mem_entries, mem_entries]
      constructor
      · rintro ⟨hx, hxo, hxp⟩
        obtain hx | rfl := hlt x hx
        · rw [(hold x hx).1] at hxo
          rw [(hold x hx).2.2.2.1] at hxp
          exact .inl ⟨hx, hxo, hxp⟩
        · rw [hself] at hxo
          exact .inr ⟨rfl, hxo.symm⟩
      · rintro (⟨hx, hxo, hxp⟩ | ⟨rfl, rfl⟩)
        · rw [(hold x hx).1, (hold x hx).2.2.2.1]
          exact ⟨by omega, hxo, hxp⟩
        · rw [hself]
          exact ⟨by omega, rfl, Option.some_ne_none p⟩
    ext x
    rw [hmem]
    split_ifs with hio
    · rw [Finset.mem_insert]
      simp [hio, or_comm]
    · simp [hio]
  constructor
  · intro x hx
    obtain hx | rfl := hlt x hx
    · rw [(hold x hx).1]
      exact (hinode _).2 (h.owner x hx)
    · rw [hself]
      exact (hinode _).2 ho
  · intro x hx hne
    obtain hx | rfl := hlt x hx
    · rw [(hold x hx).1] at hne ⊢
      rw [(hold x hx).2.1, (hold _ (h.owner x hx).1).2.1]
      exact h.file x hx hne
    · rw [hself]
      exact ⟨htype, (hold _ ho.1).2.1.trans hfile⟩
  · intro i hi hdir
    have hi := (hinode i).1 hi
    rw [(hold i hi.1).2.1] at hdir
    rw [(hold i hi.1).2.2.2.2, hentries i hi, h.count i hi hdir]
    split_ifs
    · have hfresh : s.used ∉ s.entries i := fun hmem ↦ lt_irrefl _ (mem_entries.1 hmem).1
      rw [Finset.card_insert_of_notMem hfresh]
    · rfl
  · intro i j b hi hj hib hjb
    have hi := (hinode i).1 hi
    have hj := (hinode j).1 hj
    rw [(hold i hi.1).2.2.1] at hib
    rw [(hold j hj.1).2.2.1] at hjb
    exact h.one i j b hi hj hib hjb
  · intro k
    rw [hdata, h.slot k]
    refine exists_congr (fun i ↦ ?_)
    rw [hinode i]
    exact and_congr_right (fun hi ↦ by rw [(hold i hi.1).2.2.1])
  · intro i k hi hik
    have hi := (hinode i).1 hi
    rw [(hold i hi.1).2.2.1] at hik
    rw [(hold i hi.1).2.2.2.2]
    exact Nat.add_pos_left (h.alive i k hi hik) _

theorem Own.drop (h : s.Own log) (hx : x < s.used) (hpar : (s.nodes x).parent ≠ none)
    {o : ℕ} (ho : (s.nodes x).owner = o) (hused : s'.used = s.used)
    (hn : ∀ y < s.used, (s'.nodes y).owner = (s.nodes y).owner ∧
      (s'.nodes y).type = (s.nodes y).type ∧
      (s'.nodes y).parent = if y = x then none else (s.nodes y).parent)
    (hne : ∀ y < s.used, y ≠ o → (s'.nodes y).nlink = (s.nodes y).nlink ∧
      (s'.nodes y).data = (s.nodes y).data)
    (hlink : (s'.nodes o).nlink = (s.nodes o).nlink - 1)
    (hdata : ((s'.nodes o).data = (s.nodes o).data ∧ s'.dataUsed = s.dataUsed ∧
        ∀ k, (s.nodes o).data = some (.slot k) → 0 < (s'.nodes o).nlink) ∨
      ∃ k, (s.nodes o).data = some (.slot k) ∧ (s'.nodes o).data = none ∧
        s'.dataUsed = update s.dataUsed k false) : s'.Own log := by
  have hoi : s.Inode o := ho ▸ h.owner x hx
  have hinode : ∀ i, s'.Inode i ↔ s.Inode i := by
    intro i
    unfold Inode
    rw [hused]
    exact and_congr_right (fun hi ↦ by rw [(hn i hi).1])
  have hentries : ∀ i, s'.entries i = (s.entries i).erase x := by
    intro i
    ext y
    rw [Finset.mem_erase, mem_entries, mem_entries, hused]
    constructor
    · rintro ⟨hy, hyo, hyp⟩
      rw [(hn y hy).1] at hyo
      rw [(hn y hy).2.2] at hyp
      split_ifs at hyp with hyx
      · exact absurd rfl hyp
      · exact ⟨hyx, hy, hyo, hyp⟩
    · rintro ⟨hyx, hy, hyo, hyp⟩
      rw [(hn y hy).1, (hn y hy).2.2, if_neg hyx]
      exact ⟨hy, hyo, hyp⟩
  -- a buffer that is still owned was owned by the same inode
  have hstill : ∀ i b, s.Inode i → (s'.nodes i).data = some b → (s.nodes i).data = some b := by
    intro i b hi hib
    by_cases hio : i = o
    · subst hio
      obtain ⟨hsame, -⟩ | ⟨k, -, hnone, -⟩ := hdata
      · rwa [hsame] at hib
      · rw [hnone] at hib
        cases hib
    · rwa [(hne i hi.1 hio).2] at hib
  constructor
  · intro y hy
    rw [hused] at hy
    rw [(hn y hy).1]
    exact (hinode _).2 (h.owner y hy)
  · intro y hy hyne
    rw [hused] at hy
    rw [(hn y hy).1] at hyne ⊢
    rw [(hn y hy).2.1, (hn _ (h.owner y hy).1).2.1]
    exact h.file y hy hyne
  · intro i hi hidir
    have hi := (hinode i).1 hi
    rw [(hn i hi.1).2.1] at hidir
    rw [hentries i]
    by_cases hio : i = o
    · subst hio
      have hmem : x ∈ s.entries i := mem_entries.2 ⟨hx, ho, hpar⟩
      rw [hlink, h.count i hi hidir, Finset.card_erase_of_mem hmem]
    · have hmem : x ∉ s.entries i := fun hmem ↦ hio ((mem_entries.1 hmem).2.1.symm.trans ho)
      rw [(hne i hi.1 hio).1, h.count i hi hidir, Finset.erase_eq_of_notMem hmem]
  · intro i j b hi hj hib hjb
    have hi := (hinode i).1 hi
    have hj := (hinode j).1 hj
    exact h.one i j b hi hj (hstill i b hi hib) (hstill j b hj hjb)
  · intro k
    have hiff : (∃ i, s'.Inode i ∧ (s'.nodes i).data = some (.slot k)) ↔
        ∃ i, s.Inode i ∧ (s.nodes i).data = some (.slot k) ∧
          (i = o → (s'.nodes o).data = (s.nodes o).data) := by
      refine exists_congr (fun i ↦ ?_)
      rw [hinode i]
      refine and_congr_right (fun hi ↦ ⟨fun hik ↦ ⟨hstill i _ hi hik, ?_⟩, ?_⟩)
      · rintro rfl
        rw [hik, hstill i _ hi hik]
      · rintro ⟨hik, hsame⟩
        by_cases hio : i = o
        · subst hio
          rw [hsame rfl, hik]
        · rw [(hne i hi.1 hio).2, hik]
    rw [hiff]
    obtain ⟨hsame, hslots, -⟩ | ⟨k', hk', hnone, hslots⟩ := hdata
    · rw [hslots, h.slot k]
      exact exists_congr
        (fun i ↦ and_congr_right (fun _ ↦ ⟨fun hik ↦ ⟨hik, fun _ ↦ hsame⟩, fun hik ↦ hik.1⟩))
    · rw [hslots]
      by_cases hk : k = k'
      · subst hk
        rw [update_self]
        refine ⟨nofun, ?_⟩
        rintro ⟨i, hi, hik, hio⟩
        have hsame := hio (h.one i o _ hi hoi hik hk' nofun)
        rw [hnone, hk'] at hsame
        cases hsame
      · rw [update_of_ne hk, h.slot k]
        refine exists_congr
          (fun i ↦ and_congr_right (fun hi ↦ ⟨fun hik ↦ ⟨hik, ?_⟩, fun hik ↦ hik.1⟩))
        rintro rfl
        rw [hk'] at hik
        cases hik
        exact absurd rfl hk
  · intro i k hi hik
    have hi := (hinode i).1 hi
    have hik' := hstill i _ hi hik
    by_cases hio : i = o
    · subst hio
      obtain ⟨-, -, halive⟩ | ⟨-, -, hnone, -⟩ := hdata
      · exact halive k hik'
      · rw [hnone] at hik
        cases hik
    · rw [(hne i hi.1 hio).1]
      exact h.alive i k hi hik'

theorem Own.remove (h : s.Own log) (hl : s.tree.Linked) (hx : x ∈ s.tree.children p) :
    ((s.cut p x).vfsDropLink x).Own log := by
  have hparent : (s.nodes x).parent = some p := hl.child p x hx
  have hcut : ∀ y, ((s.cut p x).nodes y).owner = (s.nodes y).owner ∧
      ((s.cut p x).nodes y).type = (s.nodes y).type ∧
      ((s.cut p x).nodes y).nlink = (s.nodes y).nlink ∧
        ((s.cut p x).nodes y).data = (s.nodes y).data ∧
      ((s.cut p x).nodes y).parent = if y = x then none else (s.nodes y).parent := by
    intro y
    rw [cut_nodes]
    exact ⟨rfl, rfl, rfl, rfl, rfl⟩
  have ho := (hcut x).1
  generalize hO : (s.nodes x).owner = o at ho
  have hnode : ∀ {n : Node}, n.owner = ((s.cut p x).nodes o).owner →
      n.type = ((s.cut p x).nodes o).type → n.parent = ((s.cut p x).nodes o).parent → ∀ y < s.used,
      (((s.cut p x).setNode o n).nodes y).owner = (s.nodes y).owner ∧
      (((s.cut p x).setNode o n).nodes y).type = (s.nodes y).type ∧
      (((s.cut p x).setNode o n).nodes y).parent = if y = x then none else (s.nodes y).parent := by
    intro n h₁ h₂ h₃ y _
    obtain ⟨g₁, g₂, -, -, g₅⟩ := hcut y
    by_cases hyo : y = o
    · subst hyo
      rw [setNode_self, h₁, h₂, h₃]
      exact ⟨g₁, g₂, g₅⟩
    · rw [setNode_of_ne hyo]
      exact ⟨g₁, g₂, g₅⟩
  have hother : ∀ {n : Node}, ∀ y < s.used, y ≠ o → (((s.cut p x).setNode o n).nodes y).nlink =
      (s.nodes y).nlink ∧ (((s.cut p x).setNode o n).nodes y).data = (s.nodes y).data := by
    intro n y _ hyo
    rw [setNode_of_ne hyo]
    exact ⟨(hcut y).2.2.1, (hcut y).2.2.2.1⟩
  have hxu := hl.mem_used hx
  have hpar : (s.nodes x).parent ≠ none := by
    rw [hparent]
    exact Option.some_ne_none p
  obtain ⟨hmany, heq⟩ | ⟨hlast, k, hk, heq⟩ | ⟨hlast, hno, heq⟩ := dropLink_cases (s.cut p x) x ho
  · rw [(hcut o).2.2.1] at hmany
    rw [heq]
    refine h.drop hxu hpar hO rfl (hnode rfl rfl rfl) hother ?_ (.inl ⟨?_, rfl, fun k _ ↦ ?_⟩)
    · rw [setNode_self, (hcut o).2.2.1]
    · rw [setNode_self, (hcut o).2.2.2.1]
    · rw [setNode_self, (hcut o).2.2.1]
      exact Nat.sub_pos_of_lt hmany
  · rw [(hcut o).2.2.1] at hlast
    rw [heq]
    rw [(hcut o).2.2.2.1] at hk
    refine h.drop hxu hpar hO rfl (hnode rfl rfl rfl) hother ?_ (.inr ⟨k, hk, ?_, rfl⟩)
    · rw [setNode_self]
      exact (Nat.sub_eq_zero_of_le hlast).symm
    · rw [setNode_self]
  · rw [(hcut o).2.2.1] at hlast
    rw [heq]
    refine h.drop hxu hpar hO rfl (hnode rfl rfl rfl) hother ?_ (.inl ⟨?_, rfl, fun k hk ↦ ?_⟩)
    · rw [setNode_self]
      exact (Nat.sub_eq_zero_of_le hlast).symm
    · rw [setNode_self, (hcut o).2.2.2.1]
    · rw [← (hcut o).2.2.2.1] at hk
      exact absurd hk (hno k)

theorem Own.attach (h : s.Own log) (hp : p < s.used) (hsolo : s.Solo n)
    (hfresh : ∀ i b, s.Inode i → (s.nodes i).data = some b → (b = .xorg → log) → n.data ≠ some b)
    {slots : ℕ → Bool} {bytes : Buf → ℕ → UInt8}
    (hslots : ∀ k, slots k = true ↔ s.dataUsed k = true ∨ n.data = some (.slot k)) :
    Own log { s.attach p n with dataUsed := slots, bytes := bytes } := by
  have hself := attach_self hp n
  refine h.join rfl (fun x hx ↦ attach_keeps p n hx) ?_ ?_ (fun _ ↦ ?_) (fun i b hi hib hlog ↦ ?_)
    (fun k ↦ ?_)
  · rw [hself]
    exact hsolo.1
  · rw [hself]
    exact hsolo.2
  · rw [hself]
    exact Option.some_ne_none p
  · rw [hself]
    exact hfresh i b hi hib hlog
  · rw [hself]
    exact hslots k

theorem Change.own (hl : s.tree.Linked) (h : s.Own log) (hc : Change strict log s s') :
    s'.Own log := by
  cases hc with
  | spell _ hs => exact h.spelled hs
  | waste n => exact h.waste n
  | make p n _ hroom hsolo _ hdata =>
    refine h.attach hroom.used hsolo (fun i b _ _ _ ↦ ?_) (fun k ↦ ?_)
    · rw [hdata]
      exact nofun
    · rw [hdata]
      simp
  | file p n k _ hroom hsolo _ hdata hfree =>
    refine h.attach hroom.used hsolo (fun i b hi hib _ hnb ↦ ?_) (fun k' ↦ ?_)
    · rw [hdata] at hnb
      cases hnb
      rw [(h.slot k).2 ⟨i, hi, hib⟩] at hfree
      cases hfree
    · rw [hdata, update_apply]
      split_ifs with hk
      · simp [hk]
      · have hk' : k ≠ k' := fun hkk ↦ hk hkk.symm
        simp [hk']
  | log p n _ hroom hsolo _ hdata hno =>
    refine h.attach hroom.used hsolo (fun i b hi hib hlog hnb ↦ ?_) (fun k ↦ ?_)
    · rw [hdata] at hnb
      cases hnb
      exact hno (hlog rfl) i hi.1 hi.2 hib
    · rw [hdata]
      simp
  | share p n src _ hroom htype hsrc hfile howner =>
    have ho := h.owner src hsrc
    have hofile : (s.nodes (s.nodes src).owner).type = .file := by
      by_cases hself : (s.nodes src).owner = src
      · rw [hself, hfile]
      · exact (h.file src hsrc hself).2
    rw [← howner] at ho hofile
    exact h.share hroom.used ho hofile htype
  | remove p x hx => exact h.remove hl hx
  | rmdir p x hx hdir =>
    refine h.congr rfl rfl (fun y _ ↦ ?_)
    rw [cut_nodes]
    refine ⟨rfl, rfl, rfl, rfl, fun hydir ↦ ?_⟩
    have hyx : y ≠ x := by
      rintro rfl
      exact hydir (of_decide_eq_true hdir)
    rw [if_neg hyx]
  | move x p name hx =>
    refine h.congr (moveNode_used s x p name) ?_ (fun y _ ↦ ?_)
    · unfold moveNode
      cases (s.nodes x).parent with
      | none => rfl
      | some op => rfl
    · rw [moveNode_nodes]
      refine ⟨rfl, rfl, rfl, rfl, fun hydir ↦ ?_⟩
      split_ifs with hyx
      · subst hyx
        have hpar : (s.nodes y).parent ≠ none :=
          hx.2.resolve_left (fun hd ↦ hydir (of_decide_eq_true hd))
        exact iff_of_true (Option.some_ne_none p) hpar
      · exact Iff.rfl
  | touch _ ht => exact h.touched ht

theorem Own.weaken (h : s.Own True) : s.Own log :=
  { h with one := fun i j b hi hj hib hjb _ ↦ h.one i j b hi hj hib hjb (fun _ ↦ trivial) }

end Fs

end YabroOS.Vfs
