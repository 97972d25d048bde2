import YabroOS.Vfs.Acts

namespace YabroOS.Vfs

open Function

namespace Fs

variable {s s' : Fs} {x i p : ℕ} {n : Node} {name path : List UInt8} {b : Buf} {fixed : Prop}

theorem wrote_refl (h : (s.nodes x).type = .file) : Wrote s s x :=
  ⟨touched_refl s, h, fun _ _ _ ↦ rfl, fun _ ↦ rfl, id, fun _ _ ↦ rfl⟩

theorem wrote_clear (h : (s.nodes x).type = .file) :
    Wrote s (s.setNode (s.nodes x).owner { s.nodes (s.nodes x).owner with size := 0 }) x where
  touched := touched_setNode rfl
  regular := h
  size z _ hz := by rw [setNode_of_ne hz]
  capacity z := setNode_size_capacity s _ _ z
  fits _ := by
    rw [setNode_self]
    exact Nat.zero_le _
  bytes _ _ := rfl

theorem wrote_reopen (h : (s.nodes x).type = .file) (truncate : Bool) :
    Wrote s (s.reopen x truncate) x := by
  cases truncate with
  | false => exact (wrote_refl h).node
  | true => exact (wrote_clear h).node

structure Stored (s : Fs) : Prop where
  own : s.Own False
  room : ∀ i, s.Inode i → (s.nodes i).type = .file → (s.nodes i).size ≤ (s.nodes i).capacity
  full : ∀ i, s.Inode i → (s.nodes i).type = .file → 0 < (s.nodes i).nlink →
    (s.nodes i).data ≠ none ∧ (s.nodes i).capacity = vfsDataSlotSize
  link : ∀ x < s.used, (s.nodes x).type = .file → (s.nodes x).parent ≠ none →
    (s.nodes x).data = (s.nodes (s.nodes x).owner).data

theorem Placed.parent (h : s.Placed x) (hfile : (s.nodes x).type = .file) :
    (s.nodes x).parent ≠ none :=
  h.2.resolve_left (by simp [tree, hfile])

theorem Own.pos {log : Prop} (h : s.Own log) (hx : x < s.used) (hfile : (s.nodes x).type = .file)
    (hpar : (s.nodes x).parent ≠ none) :
    (s.nodes (s.nodes x).owner).type = .file ∧ 0 < (s.nodes (s.nodes x).owner).nlink := by
  have hofile : (s.nodes (s.nodes x).owner).type = .file := by
    by_cases hself : (s.nodes x).owner = x
    · rw [hself]
      exact hfile
    · exact (h.file x hx hself).2
  refine ⟨hofile, ?_⟩
  rw [h.count _ (h.owner x hx) (by rw [hofile]; exact nofun)]
  exact Finset.card_pos.2 ⟨x, mem_entries.2 ⟨hx, rfl, hpar⟩⟩

structure Stays (s s' : Fs) : Prop where
  used : s.used ≤ s'.used
  type : ∀ x < s.used, (s'.nodes x).type = (s.nodes x).type
  owner : ∀ x < s.used, (s.nodes x).type = .file → (s'.nodes x).owner = (s.nodes x).owner
  parent : ∀ x < s.used, (s.nodes x).type = .file → (s'.nodes x).parent ≠ none →
    (s.nodes x).parent ≠ none
  shared : ∀ x < s.used, (s.nodes x).owner ≠ x → (s'.nodes x).data = (s.nodes x).data
  inode : ∀ i, s.Inode i → (s.nodes i).type = .file → 0 < (s'.nodes i).nlink →
    0 < (s.nodes i).nlink ∧
    (s'.nodes i).data = (s.nodes i).data ∧ (s'.nodes i).capacity = (s.nodes i).capacity
  room : ∀ i, s.Inode i → (s.nodes i).type = .file → (s.nodes i).size ≤ (s.nodes i).capacity →
    (s'.nodes i).size ≤ (s'.nodes i).capacity
  new : ∀ x < s'.used, s.used ≤ x → (s'.nodes x).type = .file → (s'.nodes x).size ≤
    (s'.nodes x).capacity ∧ (s'.nodes x).data ≠ none ∧ (s'.nodes x).capacity = vfsDataSlotSize ∧
    (s'.nodes x).data = (s'.nodes (s'.nodes x).owner).data

theorem Stored.stays (h : s.Stored) (hown : s'.Own False) (hs : s.Stays s') : s'.Stored := by
  have hinode : ∀ {i}, s'.Inode i → (s'.nodes i).type = .file → i < s.used → s.Inode i ∧
      (s.nodes i).type = .file := by
    intro i hi hfile hlt
    have hfile := (hs.type i hlt).symm.trans hfile
    exact ⟨⟨hlt, (hs.owner i hlt hfile).symm.trans hi.2⟩, hfile⟩
  constructor
  · exact hown
  · intro i hi hfile
    by_cases hlt : i < s.used
    · obtain ⟨hi, hfile⟩ := hinode hi hfile hlt
      exact hs.room i hi hfile (h.room i hi hfile)
    · exact (hs.new i hi.1 (not_lt.1 hlt) hfile).1
  · intro i hi hfile hpos
    by_cases hlt : i < s.used
    · obtain ⟨hi, hfile⟩ := hinode hi hfile hlt
      obtain ⟨hpos, hdata, hcap⟩ := hs.inode i hi hfile hpos
      rw [hdata, hcap]
      exact h.full i hi hfile hpos
    · obtain ⟨-, hdata, hcap, -⟩ := hs.new i hi.1 (not_lt.1 hlt) hfile
      exact ⟨hdata, hcap⟩
  · intro x hx hfile hpar
    by_cases hlt : x < s.used
    · obtain ⟨-, hpos⟩ := hown.pos hx hfile hpar
      rw [hs.type x hlt] at hfile
      rw [hs.owner x hlt hfile] at hpos ⊢
      have hpar := hs.parent x hlt hfile hpar
      obtain ⟨-, hdata, -⟩ := hs.inode _ (h.own.owner x hlt) (h.own.pos hlt hfile hpar).1 hpos
      have hself : (s'.nodes x).data = (s.nodes x).data := by
        by_cases hxo : (s.nodes x).owner = x
        · rw [hxo] at hdata
          exact hdata
        · exact hs.shared x hlt hxo
      rw [hdata, hself]
      exact h.link x hlt hfile hpar
    · exact (hs.new x hx (not_lt.1 hlt) hfile).2.2.2

theorem Wrote.stays (h : Wrote s s' x) : s.Stays s' where
  used := h.touched.used.ge
  type y _ := by rw [h.touched.nodes y]
  owner y _ _ := by rw [h.touched.nodes y]
  parent y _ _ hpar := by
    rw [h.touched.nodes y] at hpar
    exact hpar
  shared y _ _ := by rw [h.touched.nodes y]
  inode i _ _ hpos := by
    rw [h.touched.nodes i] at hpos
    rw [h.capacity i, h.touched.nodes i]
    exact ⟨hpos, rfl, rfl⟩
  room i hi _ hle := by
    rw [h.capacity i]
    by_cases hio : i = (s.nodes x).owner
    · subst hio
      exact h.fits hle
    by_cases hix : i = x
    · subst hix
      exact absurd hi.2.symm hio
    rw [h.size i hix hio]
    exact hle
  new y hy hle := absurd hle (not_le.2 (h.touched.used ▸ hy))

def Sits (s s' : Fs) (x : ℕ) : Prop :=
  (s'.nodes x).owner = (s.nodes x).owner ∧ (s'.nodes x).nlink = (s.nodes x).nlink ∧
    (s'.nodes x).data = (s.nodes x).data ∧
    (s'.nodes x).capacity = (s.nodes x).capacity ∧ (s'.nodes x).size = (s.nodes x).size ∧
    ((s'.nodes x).parent ≠ none → (s.nodes x).parent ≠ none)

/-- Nothing has happened to the files, apart from new ones with a buffer of their own. -/
structure Quiet (s s' : Fs) : Prop where
  used : s.used ≤ s'.used
  type : ∀ x < s.used, (s'.nodes x).type = (s.nodes x).type
  sits : ∀ x < s.used, (s.nodes x).type = .file → Sits s s' x
  new : ∀ x < s'.used, s.used ≤ x → (s'.nodes x).type = .file →
    (s'.nodes x).size ≤ (s'.nodes x).capacity ∧
    (s'.nodes x).data ≠ none ∧ (s'.nodes x).capacity = vfsDataSlotSize ∧ (s'.nodes x).owner = x

theorem Quiet.stays (h : s.Quiet s') (hown : s.Own False) : s.Stays s' where
  used := h.used
  type := h.type
  owner x hx hfile := (h.sits x hx hfile).1
  parent x hx hfile := (h.sits x hx hfile).2.2.2.2.2
  shared x hx hself := (h.sits x hx (hown.file x hx hself).1).2.2.1
  inode i hi hfile hpos := by
    obtain ⟨-, hlink, hdata, hcap, -⟩ := h.sits i hi.1 hfile
    rw [hlink] at hpos
    exact ⟨hpos, hdata, hcap⟩
  room i hi hfile hle := by
    obtain ⟨-, -, -, hcap, hsize, -⟩ := h.sits i hi.1 hfile
    rw [hcap, hsize]
    exact hle
  new x hx hle hfile := by
    obtain ⟨hfits, hdata, hcap, hself⟩ := h.new x hx hle hfile
    exact ⟨hfits, hdata, hcap, by rw [hself]⟩

theorem quiet_of_sits (hused : s'.used = s.used) (htype : ∀ x, (s'.nodes x).type = (s.nodes x).type)
    (hsits : ∀ x, (s.nodes x).type = .file → Sits s s' x) : s.Quiet s' :=
  ⟨hused.ge, fun x _ ↦ htype x, fun x _ ↦ hsits x, fun _ hx hle ↦ absurd hle (not_le.2 (hused ▸ hx))⟩

theorem Spelled.quiet (h : s.Spelled s') : s.Quiet s' := by
  refine quiet_of_sits h.used (fun x ↦ by rw [h.nodes x]) (fun x _ ↦ ?_)
  rw [Sits, h.nodes x]
  exact ⟨rfl, rfl, rfl, rfl, rfl, id⟩

theorem attach_quiet (hp : p < s.used) {slots : ℕ → Bool} {bytes : Buf → ℕ → UInt8}
    (hfile : n.type = .file → n.size ≤ n.capacity ∧ n.data ≠ none ∧ n.capacity = vfsDataSlotSize ∧
      n.owner = s.used) :
    s.Quiet { s.attach p n with dataUsed := slots, bytes := bytes } := by
  have hself := attach_self hp n
  refine ⟨Nat.le_succ _, fun x hx ↦ ?_, fun x hx _ ↦ ?_, fun x hx hle hx' ↦ ?_⟩
  · show ((s.attach p n).nodes x).type = (s.nodes x).type
    rw [attach_old hx.ne]
  · show Sits s (s.attach p n) x
    rw [Sits, attach_old hx.ne]
    exact ⟨rfl, rfl, rfl, rfl, rfl, id⟩
  · obtain rfl : x = s.used := le_antisymm (Nat.lt_succ_iff.1 hx) hle
    dsimp only at hx' ⊢
    rw [hself] at hx' ⊢
    exact hfile hx'

theorem born_quiet (hp : p < s.used) (b : Buf) : s.Quiet (s.born p name b) := by
  cases b with
  | slot k => exact attach_quiet hp (fun _ ↦ ⟨Nat.zero_le _, Option.some_ne_none _, rfl, rfl⟩)
  | xorg => exact attach_quiet hp (fun _ ↦ ⟨Nat.zero_le _, Option.some_ne_none _, rfl, rfl⟩)

theorem waste_quiet (s : Fs) (n : Node) : s.Quiet (s.waste n) := by
  refine ⟨le_rfl, fun x hx ↦ by rw [waste_nodes hx.ne], fun x hx _ ↦ ?_,
    fun x hx hle ↦ absurd hle (not_le.2 hx)⟩
  rw [Sits, waste_nodes hx.ne]
  exact ⟨rfl, rfl, rfl, rfl, rfl, id⟩

theorem cut_quiet (p : ℕ) (hdir : (s.nodes x).type = .dir) : s.Quiet (s.cut p x) := by
  refine quiet_of_sits rfl (fun y ↦ by rw [cut_nodes]) (fun y hfile ↦ ?_)
  have hyx : y ≠ x := by
    rintro rfl
    rw [hdir] at hfile
    cases hfile
  rw [Sits, cut_nodes, if_neg hyx]
  exact ⟨rfl, rfl, rfl, rfl, rfl, id⟩

theorem moveNode_quiet (hx : s.Placed x) (p : ℕ) (name : List UInt8) :
    s.Quiet (s.moveNode x p name) := by
  refine quiet_of_sits (moveNode_used s x p name) (fun y ↦ by rw [moveNode_nodes]) (fun y hfile ↦ ?_)
  rw [Sits, moveNode_nodes]
  refine ⟨rfl, rfl, rfl, rfl, rfl, fun hpar ↦ ?_⟩
  by_cases hyx : y = x
  · subst hyx
    exact hx.parent hfile
  · rw [if_neg hyx] at hpar
    exact hpar

theorem boot_quiet (htype : (s.nodes x).type = .bootFile) (size : ℕ) (path : List UInt8) :
    s.Quiet (s.setNode x { s.nodes x with size := size, capacity := size, bootPath := path }) := by
  refine quiet_of_sits rfl (fun y ↦ ?_) (fun y hfile ↦ ?_)
  · rw [(touched_setNode rfl).nodes y]
  · have hyx : y ≠ x := by
      rintro rfl
      rw [htype] at hfile
      cases hfile
    rw [Sits, setNode_of_ne hyx]
    exact ⟨rfl, rfl, rfl, rfl, rfl, id⟩

theorem dropLink_of_ne {y : ℕ} (hy : y ≠ (s.nodes x).owner) :
    (s.vfsDropLink x).nodes y = s.nodes y := by
  obtain ⟨-, h⟩ | ⟨-, k, -, h⟩ | ⟨-, -, h⟩ := dropLink_cases s x rfl
  all_goals
    rw [h]
    exact setNode_of_ne hy _ _

/-- What becomes of the inode of an entry that is taken away. -/
structure Dropped (n n' : Node) : Prop where
  type : n'.type = n.type
  owner : n'.owner = n.owner
  parent : n'.parent = n.parent
  nlink : n'.nlink = n.nlink - 1
  many : 1 < n.nlink → n'.data = n.data ∧ n'.capacity = n.capacity ∧ n'.size = n.size
  last : n.nlink ≤ 1 → n'.size = 0

theorem dropLink_dropped {o : ℕ} (ho : (s.nodes x).owner = o) :
    Dropped (s.nodes o) ((s.vfsDropLink x).nodes o) := by
  obtain ⟨hmany, h⟩ | ⟨hlast, k, -, h⟩ | ⟨hlast, -, h⟩ := dropLink_cases s x ho
  · rw [h, setNode_self]
    exact ⟨rfl, rfl, rfl, rfl, fun _ ↦ ⟨rfl, rfl, rfl⟩, fun hle ↦ absurd hmany (not_lt.2 hle)⟩
  · have hnode : (s.vfsDropLink x).nodes o =
        { s.nodes o with nlink := 0, size := 0, data := none, capacity := 0 } := by
      rw [h]
      exact setNode_self _ _ _
    rw [hnode]
    exact ⟨rfl, rfl, rfl, (Nat.sub_eq_zero_of_le hlast).symm,
      fun hmany ↦ absurd hmany (not_lt.2 hlast), fun _ ↦ rfl⟩
  · rw [h, setNode_self]
    exact ⟨rfl, rfl, rfl, (Nat.sub_eq_zero_of_le hlast).symm,
      fun hmany ↦ absurd hmany (not_lt.2 hlast), fun _ ↦ rfl⟩

theorem dropLink_type (s : Fs) (x y : ℕ) : ((s.vfsDropLink x).nodes y).type = (s.nodes y).type := by
  by_cases hy : y = (s.nodes x).owner
  · rw [hy, (dropLink_dropped rfl).type]
  · rw [dropLink_of_ne hy]

theorem unlink_stays (hown : s.Own False) (p : ℕ) (hx : x < s.used) :
    s.Stays ((s.cut p x).vfsDropLink x) := by
  obtain ⟨o, ho⟩ : ∃ o, (s.nodes x).owner = o := ⟨_, rfl⟩
  have ho' : ((s.cut p x).nodes x).owner = o := by
    rw [cut_nodes]
    exact ho
  have hcut : Dropped ((s.cut p x).nodes o) (((s.cut p x).vfsDropLink x).nodes o) :=
    dropLink_dropped ho'
  rw [cut_nodes] at hcut
  have hne : ∀ {y}, y ≠ o → ((s.cut p x).vfsDropLink x).nodes y = (s.cut p x).nodes y :=
    fun hy ↦ dropLink_of_ne (ho' ▸ hy)
  have hself : s.Inode o := ho ▸ hown.owner x hx
  have hboth : ∀ {α : Type} (f : Node → α), (∀ y, f ((s.cut p x).nodes y) = f (s.nodes y)) →
      f (((s.cut p x).vfsDropLink x).nodes o) = f (s.nodes o) →
        ∀ y, f (((s.cut p x).vfsDropLink x).nodes y) = f (s.nodes y) := by
    intro α f hf hfo y
    by_cases hy : y = o
    · rw [hy, hfo]
    · rw [hne hy, hf]
  constructor
  · rw [dropLink_used]
    exact le_rfl
  · exact fun y _ ↦ hboth Node.type (fun y ↦ by rw [cut_nodes]) hcut.type y
  · exact fun y _ _ ↦ hboth Node.owner (fun y ↦ by rw [cut_nodes]) hcut.owner y
  · intro y _ _ hpar
    have hparent : (((s.cut p x).vfsDropLink x).nodes y).parent = if y = x then none
        else (s.nodes y).parent := by
      by_cases hy : y = o
      · rw [hy]
        exact hcut.parent
      · rw [hne hy, cut_nodes]
    rw [hparent] at hpar
    split_ifs at hpar
    · exact absurd rfl hpar
    · exact hpar
  · intro y _ hyo
    have hy : y ≠ o := by
      rintro rfl
      exact hyo hself.2
    rw [hne hy, cut_nodes]
  · intro i _ _ hpos
    by_cases hi : i = o
    · subst hi
      rw [hcut.nlink] at hpos
      dsimp only at hpos
      have hmany : 1 < (s.nodes i).nlink := by omega
      obtain ⟨hdata, hcap, -⟩ := hcut.many hmany
      exact ⟨by omega, hdata, hcap⟩
    · rw [hne hi, cut_nodes] at hpos ⊢
      exact ⟨hpos, rfl, rfl⟩
  · intro i _ _ hle
    by_cases hi : i = o
    · subst hi
      by_cases hmany : 1 < (s.nodes i).nlink
      · obtain ⟨-, hcap, hsize⟩ := hcut.many hmany
        rw [hcap, hsize]
        exact hle
      · rw [hcut.last (not_lt.1 hmany)]
        exact Nat.zero_le _
    · rw [hne hi, cut_nodes]
      exact hle
  · intro y hy hle
    rw [dropLink_used] at hy
    exact absurd hle (not_le.2 hy)

theorem share_old (s : Fs) (p src : ℕ) (name : List UInt8) {y : ℕ} (hy : y ≠ s.used) :
    (s.share p src name).nodes y = { s.nodes y with
      nlink := ((s.share p src name).nodes y).nlink, children :=
  ((s.share p src name).nodes y).children } ∧
      (y ≠ (s.nodes src).owner → ((s.share p src name).nodes y).nlink = (s.nodes y).nlink) := by
  obtain ⟨o, ho⟩ : ∃ o, (s.nodes src).owner = o := ⟨_, rfl⟩
  have hlink : (s.addLink o).nodes y = { s.nodes y with nlink := ((s.addLink o).nodes y).nlink } ∧
      (y ≠ o → ((s.addLink o).nodes y).nlink = (s.nodes y).nlink) := by
    by_cases hyo : y = o
    · subst hyo
      exact ⟨by rw [addLink, setNode_self], fun hyo ↦ absurd rfl hyo⟩
    · rw [addLink, setNode_of_ne hyo]
      exact ⟨rfl, fun _ ↦ rfl⟩
  have hy' : y ≠ (s.addLink (s.nodes src).owner).used := hy
  unfold share
  dsimp only
  rw [attach_old hy', ho, hlink.1]
  exact ⟨rfl, hlink.2⟩

theorem share_self (hp : p < s.used) (src : ℕ) (name : List UInt8) :
    (s.share p src name).nodes s.used = { s.fresh name .file (s.nodes src).mode with
      ino := (s.nodes (s.nodes src).owner).ino, owner := (s.nodes src).owner, nlink := 0,
      data := (s.nodes (s.nodes src).owner).data, size := (s.nodes (s.nodes src).owner).size,
      capacity := (s.nodes (s.nodes src).owner).capacity, parent := some p } :=
  attach_self (s := s.addLink (s.nodes src).owner) hp _

theorem share_stays (h : s.Stored) {src : ℕ} (hp : p < s.used) (hsrc : src < s.used)
    (hfile : (s.nodes src).type = .file) (hpar : (s.nodes src).parent ≠ none) :
    s.Stays (s.share p src name) := by
  have hold := fun {y : ℕ} (hy : y < s.used) ↦ share_old s p src name hy.ne
  have hinode := h.own.owner src hsrc
  obtain ⟨hofile, hpos⟩ := h.own.pos hsrc hfile hpar
  have hofull := h.full _ hinode hofile hpos
  constructor
  · exact Nat.le_succ _
  · exact fun y hy ↦ by rw [(hold hy).1]
  · exact fun y hy _ ↦ by rw [(hold hy).1]
  · intro y hy _ hpar
    rw [(hold hy).1] at hpar
    exact hpar
  · exact fun y hy _ ↦ by rw [(hold hy).1]
  · intro i hi _ hpos'
    have hposi : 0 < (s.nodes i).nlink := by
      by_cases hio : i = (s.nodes src).owner
      · exact hio ▸ hpos
      · rw [(hold hi.1).2 hio] at hpos'
        exact hpos'
    rw [(hold hi.1).1]
    exact ⟨hposi, rfl, rfl⟩
  · intro i hi _ hle
    rw [(hold hi.1).1]
    exact hle
  · intro y hy hle _
    obtain rfl : y = s.used := le_antisymm (Nat.lt_succ_iff.1 hy) hle
    rw [share_self hp]
    refine ⟨h.room _ hinode hofile, hofull.1, hofull.2, ?_⟩
    dsimp only
    rw [(hold hinode.1).1]

theorem Edit.quiet (h : Edit fixed s s') : s.Quiet s' ∨
    (∃ p src name, p < s.used ∧ s.Placed src ∧ (s.nodes src).type = .file ∧
      s' = s.share p src name) ∨
    ∃ p x, x ∈ s.tree.children p ∧ s' = (s.cut p x).vfsDropLink x := by
  cases h with
  | seen s' h => exact .inl h.looks.spelled.quiet
  | waste name => exact .inl (waste_quiet s _)
  | make p n h _ _ htype => exact .inl (attach_quiet h.used (fun hfile ↦ absurd hfile htype))
  | file path p name b h => exact .inl (born_quiet h.used b)
  | share p src name h hsrc hfile => exact .inr (.inl ⟨p, src, name, h.used, hsrc, hfile, rfl⟩)
  | unlink x p hx => exact .inr (.inr ⟨p, x, hx, rfl⟩)
  | rmdir x p _ hdir => exact .inl (cut_quiet p (of_decide_eq_true hdir))
  | move x p name hx => exact .inl (moveNode_quiet hx p name)
  | boot x size path htype => exact .inl (boot_quiet htype size path)

theorem Edit.stays (h : Edit fixed s s') (hl : s.tree.Linked) (hs : s.Stored) : s.Stays s' := by
  obtain h | ⟨p, src, name, hp, hsrc, hfile, rfl⟩ | ⟨p, x, hx, rfl⟩ := h.quiet
  · exact h.stays hs.own
  · exact share_stays hs hp hsrc.1 hfile (hsrc.parent hfile)
  · exact unlink_stays hs.own p (hl.mem_used hx)

theorem Act.stays (h : Act fixed s s') (hl : s.tree.Linked) (hs : s.Stored) : s.Stays s' := by
  have hwrote : ∀ {x s'}, s' = s ∨ Wrote s s' x → s.Stays s' := by
    rintro x s' (rfl | hw)
    · exact (Spelled.refl _).quiet.stays hs.own
    · exact hw.stays
  cases h with
  | edit s' h => exact h.stays hl hs
  | reopen x truncate _ hfile => exact (wrote_reopen hfile truncate).stays
  | write x off src => exact hwrote (wrote_write s x off src)
  | writeKernel x data => exact hwrote (wrote_writeKernel s x data)
  | truncate x len => exact hwrote (wrote_truncate s x len)

theorem Act.stored (h : Act fixed s s') (hl : s.tree.Linked) (hs : s.Stored) : s'.Stored :=
  hs.stays (h.change.own hl hs.own) (h.stays hl hs)

theorem Acts.stored (h : Acts fixed s s') (hsane : Sane fixed s) (hs : s.Stored) : s'.Stored := by
  induction h with
  | refl => exact hs
  | tail hacts hact ih => exact hact.stored (Acts.sane hacts hsane).linked ih

structure Lasts (s s' : Fs) : Prop where
  used : s.used ≤ s'.used
  type : ∀ x < s.used, (s'.nodes x).type = (s.nodes x).type
  owner : ∀ x < s.used, (s.nodes x).type = .file → (s'.nodes x).owner = (s.nodes x).owner

theorem Lasts.refl (s : Fs) : s.Lasts s := ⟨le_rfl, fun _ _ ↦ rfl, fun _ _ _ ↦ rfl⟩

theorem Lasts.trans {s'' : Fs} (h : s.Lasts s') (h' : s'.Lasts s'') : s.Lasts s'' where
  used := h.used.trans h'.used
  type x hx := (h'.type x (hx.trans_le h.used)).trans (h.type x hx)
  owner x hx hfile :=
    (h'.owner x (hx.trans_le h.used) ((h.type x hx).trans hfile)).trans (h.owner x hx hfile)

theorem Stays.lasts (h : s.Stays s') : s.Lasts s' := ⟨h.used, h.type, h.owner⟩

theorem Acts.lasts (h : Acts fixed s s') (hsane : Sane fixed s) (hst : s.Stored) : s.Lasts s' := by
  induction h with
  | refl => exact .refl s
  | tail hacts hact ih =>
    exact ih.trans (hact.stays (Acts.sane hacts hsane).linked (Acts.stored hacts hsane hst)).lasts

theorem Seen.stored (h : s.Seen s') (hsane : Sane False s) (hs : s.Stored) : s'.Stored := by
  have hacts : Acts False s s' := h.acts
  exact hacts.stored hsane hs

theorem run_stored (calls : List VfsCall) :
    (vfsInit.run calls).Stored ∧ Sane False (vfsInit.run calls) := by
  have hrun : ∀ (calls : List VfsCall) {s : Fs}, Sane False s → s.Stored → (s.run calls).Stored ∧
      Sane False (s.run calls) := by
    intro calls
    induction calls with
    | nil => exact fun hsane hs ↦ ⟨hs, hsane⟩
    | cons c rest ih =>
      intro s hsane hs
      have hacts : Acts False s (s.call c) := call_acts hsane False.elim
      exact ih (hacts.sane hsane) (hacts.stored hsane hs)
  have hall : ((List.range vfsInit.used).all fun x ↦ (vfsInit.nodes x).type ≠ .file ∨
      (vfsInit.nodes x).size ≤ (vfsInit.nodes x).capacity ∧ (vfsInit.nodes x).data ≠ none ∧
      (vfsInit.nodes x).capacity = vfsDataSlotSize ∧ (vfsInit.nodes x).owner = x) =
        true := by decide +kernel
  have hfile : ∀ x < vfsInit.used, (vfsInit.nodes x).type = .file →
      (vfsInit.nodes x).size ≤ (vfsInit.nodes x).capacity ∧
      (vfsInit.nodes x).data ≠ none ∧ (vfsInit.nodes x).capacity = vfsDataSlotSize ∧
        (vfsInit.nodes x).owner = x := by
    intro x hx hfile
    have hx := of_decide_eq_true (List.all_eq_true.1 hall x (List.mem_range.2 hx))
    exact hx.resolve_left (not_not.2 hfile)
  refine hrun calls vfsInit_sane ⟨vfsInit_sound.own.weaken, ?_, ?_, ?_⟩
  · exact fun i hi h ↦ (hfile i hi.1 h).1
  · exact fun i hi h _ ↦ ⟨(hfile i hi.1 h).2.1, (hfile i hi.1 h).2.2.1⟩
  · exact fun x hx h _ ↦ by rw [(hfile x hx h).2.2.2]

end Fs

end YabroOS.Vfs
