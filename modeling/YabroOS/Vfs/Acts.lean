import YabroOS.Vfs.Effects
import YabroOS.Vfs.WellFormed

namespace YabroOS.Vfs

open Fat Function

structure Plain (c : List UInt8) : Prop where
  nonempty : c ≠ []
  slash : slash ∉ c
  dot : c ≠ dot
  dotdot : c ≠ dotdot
  le : c.length ≤ vfsNameMax

theorem asciiLower_eq {b k : UInt8} (hk : k < 65) (h : asciiLower b = k) : b = k := by
  unfold asciiLower at h
  split_ifs at h with hb
  · obtain ⟨hb₁, hb₂⟩ := hb
    subst h
    rw [UInt8.lt_iff_toNat_lt, UInt8.toNat_add] at hk
    rw [UInt8.le_iff_toNat_le] at hb₁ hb₂
    have h65 : (65 : UInt8).toNat = 65 := rfl
    have h90 : (90 : UInt8).toNat = 90 := rfl
    have h32 : (32 : UInt8).toNat = 32 := rfl
    omega
  · exact h

theorem lower_eq {c d : List UInt8} (hd : ∀ k ∈ d, k < 65) (h : lower c = d) : c = d := by
  induction d generalizing c with
  | nil => exact List.map_eq_nil_iff.1 h
  | cons k d ih =>
    cases c with
    | nil => cases h
    | cons b c =>
      obtain ⟨hb, hc⟩ := List.cons_eq_cons.1 h
      rw [asciiLower_eq (hd k (.head _)) hb, ih (fun k hk ↦ hd k (.tail _ hk)) hc]

theorem Plain.of_lower {c d : List UInt8} (hc : Plain c) (h : lower d = lower c) : Plain d := by
  have hlen : d.length = c.length := by
    have hlen := congrArg List.length h
    rwa [lower, lower, List.length_map, List.length_map] at hlen
  have heq : ∀ {e : List UInt8}, (∀ k ∈ e, k < 65) → lower e = e → d = e → c = e := fun he hlow hde ↦
    lower_eq he (by rw [← h, hde, hlow])
  refine ⟨fun hd ↦ hc.nonempty ?_, fun hd ↦ hc.slash ?_, fun hd ↦ hc.dot ?_, fun hd ↦ hc.dotdot ?_,
    hlen ▸ hc.le⟩
  · rw [hd, List.length_nil] at hlen
    exact List.eq_nil_of_length_eq_zero hlen.symm
  · have hmem : asciiLower YabroOS.Vfs.slash ∈ lower c := by
      rw [← h]
      exact List.mem_map_of_mem hd
    obtain ⟨b, hb, hbs⟩ := List.mem_map.1 hmem
    rwa [asciiLower_eq (by decide) hbs] at hb
  · exact heq (by simp [YabroOS.Vfs.dot]) (by decide) hd
  · exact heq (by simp [YabroOS.Vfs.dotdot]) (by decide) hd

namespace Tree

variable {t t' : Tree} {x p cur e : ℕ} {name path parent : List UInt8}
  {parts parts' : List (List UInt8)}

theorem pick_mem (h : t.pick p name = some x) : t.isDir p = true ∧ x ∈ t.children p := by
  unfold pick at h
  split_ifs at h with hdir
  refine ⟨by simpa using hdir, ?_⟩
  obtain h | ⟨-, h⟩ := Option.or_eq_some_iff.1 h
  · exact List.mem_of_find?_eq_some h
  · exact List.mem_of_find?_eq_some h

theorem Sited.goTo_visible (h : t.Sited) (hcur : t.Visible cur) (hx : t.goTo cur parts = some x) :
    t.Visible x := by
  induction parts generalizing cur with
  | nil =>
    cases hx
    exact hcur
  | cons part rest ih =>
    rw [goTo] at hx
    split_ifs at hx
    · exact ih hcur hx
    · exact ih (h.visible_up hcur) hx
    · obtain ⟨z, hz, hx⟩ := Option.bind_eq_some_iff.1 hx
      rw [h.mr_visible hcur] at hz
      exact ih (visible_mr hcur (pick_mem hz).2) hx

theorem Sited.find_visible (h : t.Sited) (hx : t.find path = some x) : t.Visible x := by
  unfold find at hx
  split_ifs at hx
  exact h.goTo_visible .root hx

theorem goTo_append :
    t.goTo cur (parts ++ parts') = (t.goTo cur parts).bind (fun x ↦ t.goTo x parts') := by
  induction parts generalizing cur with
  | nil => rfl
  | cons part rest ih =>
    rw [List.cons_append, goTo, goTo]
    split_ifs
    · exact ih
    · exact ih
    · simp only [ih, Option.bind_assoc]

inductive Shown (t : Tree) : ℕ → Prop
  | root : Shown t root
  | child {x p : ℕ} : Shown t p → x ∈ t.children p → t.mounted x = none → Plain (t.name x) →
    Shown t x
  | mount {r x p : ℕ} : Shown t p → x ∈ t.children p → t.mounted x = some r → Plain (t.name x) →
    Shown t r

theorem Shown.visible (h : t.Shown x) : t.Visible x := by
  induction h with
  | root => exact .root
  | child _ hx hm _ ih => exact .child ih hx hm
  | mount _ hx hm _ ih => exact .mount ih hx hm

theorem shown_mr (hp : t.Shown p) (hx : x ∈ t.children p) (hname : Plain (t.name x)) :
    t.Shown (t.mr x) := by
  unfold mr
  cases hm : t.mounted x with
  | none => exact .child hp hx hm hname
  | some r => exact .mount hp hx hm hname

theorem Sited.shown_up (h : t.Sited) (hx : t.Shown x) : t.Shown (t.up x) := by
  cases hx with
  | root =>
    rw [up, h.root_parent]
    exact .root
  | @child _ p hp hx hm _ =>
    have hne : t.mounted p ≠ some x := fun hmp ↦ (h.mount p x hmp).2.2 p hx
    simp only [up, h.child _ _ hx, if_neg hne]
    exact hp
  | @mount _ z p hp hz hm _ =>
    simp only [up, (h.mount _ _ hm).1, if_pos hm, h.child _ _ hz, Option.getD_some]
    exact hp

theorem pick_low (h : t.pick p name = some x) : lower (t.name x) = lower name := by
  unfold pick at h
  split_ifs at h
  obtain h | ⟨-, h⟩ := Option.or_eq_some_iff.1 h
  · have hx := List.find?_some h
    rw [of_decide_eq_true hx]
  · have hx := List.find?_some h
    exact (of_decide_eq_true hx).2

theorem plain_take {c : List UInt8} (hc : c ≠ [] ∧ slash ∉ c) (hdot : c.take vfsNameMax ≠ dot)
    (hdotdot : c.take vfsNameMax ≠ dotdot) : Plain (c.take vfsNameMax) := by
  refine ⟨fun hnil ↦ ?_, fun hmem ↦ hc.2 (List.mem_of_mem_take hmem), hdot, hdotdot,
    List.length_take_le _ _⟩
  obtain h | h := List.take_eq_nil_iff.1 hnil
  · cases h
  · exact hc.1 h

theorem Sited.goTo_shown (h : t.Sited) (hparts : ∀ c ∈ parts, c ≠ [] ∧ slash ∉ c)
    (hcur : t.Shown cur) (hx : t.goTo cur parts = some x) : t.Shown x := by
  induction parts generalizing cur with
  | nil =>
    cases hx
    exact hcur
  | cons part rest ih =>
    have hrest : ∀ c ∈ rest, c ≠ [] ∧ slash ∉ c := fun c hc ↦ hparts c (.tail _ hc)
    rw [goTo] at hx
    split_ifs at hx with hdot hdotdot
    · exact ih hrest hcur hx
    · exact ih hrest (h.shown_up hcur) hx
    · obtain ⟨z, hz, hx⟩ := Option.bind_eq_some_iff.1 hx
      rw [h.mr_visible hcur.visible] at hz
      have hname := (plain_take (hparts part (.head _)) hdot hdotdot).of_lower (pick_low hz)
      exact ih hrest (shown_mr hcur (pick_mem hz).2 hname) hx

theorem Sited.find_shown (h : t.Sited) (hx : t.find path = some x) : t.Shown x := by
  unfold find at hx
  split_ifs at hx
  exact h.goTo_shown (fun c ↦ mem_components) .root hx

theorem free_of_pick (hdir : t.isDir p = true) (h : t.pick p name = none) : t.Free p name := by
  rw [pick, hdir, if_neg Bool.true_eq_false.mp, Option.or_eq_none_iff] at h
  intro y hy
  have hexact := List.find?_eq_none.1 h.1 y hy
  have hcase := List.find?_eq_none.1 h.2 y hy
  exact ⟨by simpa using hexact, fun hydir hlow ↦ hcase (decide_eq_true ⟨hydir, hlow⟩)⟩

theorem Sited.free_of_find (h : t.Sited) (hsplit : Fs.splitPath path = some (parent, name))
    (hp : t.find parent = some p) (hdir : t.isDir p = true) (hno : t.find path = none) :
    t.Free p name := by
  obtain ⟨hhead, hhead', -, hlen, -, hcomps⟩ := splitPath_some hsplit
  have hvis := h.find_visible hp
  simp only [find, hhead, hhead', if_true, hcomps, goTo_append] at hp hno
  rw [hp, Option.bind_some] at hno
  simp only [goTo, List.take_of_length_le hlen, h.mr_visible hvis] at hno
  split_ifs at hno
  have hpick : t.pick p name = none := by
    cases hpick : t.pick p name with
    | none => rfl
    | some z =>
      rw [hpick] at hno
      cases hno
  exact free_of_pick hdir hpick

theorem Sited.pick_of_find (h : t.Sited) (hsplit : Fs.splitPath path = some (parent, name))
    (hp : t.find parent = some p) (hdir : t.isDir p = true) (he : t.find path = some e)
    (hfile : t.isDir e = false) : t.pick p name = some e := by
  obtain ⟨hhead, hhead', -, hlen, -, hcomps⟩ := splitPath_some hsplit
  have hvis := h.find_visible hp
  simp only [find, hhead, hhead', if_true, hcomps, goTo_append] at hp he
  rw [hp, Option.bind_some] at he
  simp only [goTo, List.take_of_length_le hlen, h.mr_visible hvis] at he
  split_ifs at he
  · obtain rfl := Option.some.inj he
    rw [hfile] at hdir
    cases hdir
  · obtain rfl := Option.some.inj he
    rw [h.up_dir hdir] at hfile
    cases hfile
  · obtain ⟨z, hz, hze⟩ := Option.bind_eq_some_iff.1 he
    obtain rfl := Option.some.inj hze
    rw [hz, h.mr_file hfile]

theorem Sited.name_plain (h : t.Sited) (hsplit : Fs.splitPath path = some (parent, name))
    (hp : t.find parent = some p) (hdir : t.isDir p = true)
    (hfile : ∀ z, t.find path = some z → t.isDir z = false) : Plain name := by
  obtain ⟨hhead, hhead', hnil, hlen, hslash, hcomps⟩ := splitPath_some hsplit
  have hdots : name = dot ∨ name = dotdot → ∃ z, t.find path = some z ∧ t.isDir z = true := by
    simp only [find, hhead, hhead', if_true, hcomps, goTo_append] at hp ⊢
    rw [hp, Option.bind_some]
    simp only [goTo, List.take_of_length_le hlen]
    intro hname
    split_ifs with hdot hdotdot
    · exact ⟨p, rfl, hdir⟩
    · exact ⟨t.up p, rfl, h.up_dir hdir⟩
    · exact (hname.elim hdot hdotdot).elim
  have hno : ¬ (name = dot ∨ name = dotdot) := fun hname ↦ by
    obtain ⟨z, hz, hzdir⟩ := hdots hname
    rw [hfile z hz] at hzdir
    cases hzdir
  exact ⟨hnil, hslash, fun hdot ↦ hno (.inl hdot), fun hdotdot ↦ hno (.inr hdotdot), hlen⟩

theorem Sited.shown_cut (h : t.Sited) {ep : ℕ} (hempty : t.children e = [])
    (hmounted : t.mounted e = none) (hx : t.Shown x) (hxe : x ≠ e) : (t.cut ep e).Shown x := by
  have hne : ∀ {p y}, y ∈ t.children p → p ≠ e := by
    rintro p y hy rfl
    rw [hempty] at hy
    cases hy
  induction hx with
  | root => exact .root
  | child _ hx hm hname ih => exact .child (ih (hne hx)) (h.mem_cut.2 ⟨hx, fun _ ↦ hxe⟩) hm hname
  | mount _ hx hm hname ih =>
    refine .mount (ih (hne hx)) (h.mem_cut.2 ⟨hx, fun _ ↦ ?_⟩) hm hname
    rintro rfl
    rw [hmounted] at hm
    cases hm

theorem Sited.file_empty (h : t.Sited) (hfile : t.isDir e = false) :
    t.children e = [] ∧ t.mounted e = none := by
  have hpar : ∀ {y}, t.parent y ≠ some e := fun hy ↦ by
    rw [h.dir _ e hy] at hfile
    cases hfile
  refine ⟨List.eq_nil_iff_forall_not_mem.2 (fun y hy ↦ hpar (h.child e y hy)), ?_⟩
  exact Option.eq_none_iff_forall_ne_some.2 (fun r hr ↦ hpar (h.mount e r hr).1)

end Tree

namespace Fs

variable {s s' s'' s₁ s₂ : Fs} {x p : ℕ} {n : Node} {name path old new : List UInt8} {fixed : Prop}
  {r : Fs × ℤ}

structure Spot (fixed : Prop) (s : Fs) (p : ℕ) (name : List UInt8) : Prop where
  used : p < s.used
  dir : s.tree.isDir p = true
  le : name.length ≤ vfsNameMax
  reach : fixed → s.tree.Reach p
  free : fixed → ∀ y ∈ s.tree.children p, s.tree.name y ≠ name

/-- What the calls of `vfs.c` do that set no size of a file that keeps a name; `fixed` says that no
root of a mount is moved. -/
inductive Edit (fixed : Prop) (s : Fs) : Fs → Prop
  | seen (s' : Fs) (h : s.Seen s') : Edit fixed s s'
  | waste (name : List UInt8) : Edit fixed s (s.waste (s.fresh name .file (sIfreg + 0o666)))
  | make (p : ℕ) (n : Node) (h : Spot fixed s p n.name) (hn : New n) (hsolo : s.Solo n)
      (htype : n.type ≠ .file) (hdata : n.data = none) : Edit fixed s (s.attach p n)
  | file (path : List UInt8) (p : ℕ) (name : List UInt8) (b : Buf) (h : Spot fixed s p name)
      (hb : s.Gets path b) : Edit fixed s (s.born p name b)
  | share (p src : ℕ) (name : List UInt8) (h : Spot fixed s p name) (hsrc : s.Placed src)
      (hfile : (s.nodes src).type = .file) : Edit fixed s (s.share p src name)
  | unlink (x p : ℕ) (hx : x ∈ s.tree.children p) (hfile : s.tree.isDir x = false) : Edit fixed s
    ((s.cut p x).vfsDropLink x)
  | rmdir (x p : ℕ) (hx : x ∈ s.tree.children p) (hdir : s.tree.isDir x = true)
    (hmounted : s.tree.mounted x = none)
      (hempty : s.tree.children x = []) : Edit fixed s (s.cut p x)
  | move (x p : ℕ) (name : List UInt8) (hx : s.Placed x) (hp : p < s.used)
    (hdir : s.tree.isDir p = true)
      (hle : name.length ≤ vfsNameMax) (hroot : x ≠ root)
      (hs : fixed → s.tree.Shown p ∧ Plain name ∧ s.tree.parent x ≠ none ∧ ¬ s.tree.Above x p ∧
        (∀ q, s.tree.mounted q ≠ some x) ∧ ∀ y ∈ s.tree.children p, y ≠ x → s.tree.name y ≠ name) :
      Edit fixed s (s.moveNode x p name)
  | boot (x size : ℕ) (path : List UInt8) (htype : (s.nodes x).type = .bootFile) :
      Edit fixed s (s.setNode x { s.nodes x with size := size, capacity := size, bootPath := path })

inductive Act (fixed : Prop) (s : Fs) : Fs → Prop
  | edit (s' : Fs) (h : Edit fixed s s') : Act fixed s s'
  | reopen (x : ℕ) (truncate : Bool) (hx : x < s.used) (hfile : (s.nodes x).type = .file) : Act
    fixed s (s.reopen x truncate)
  | write (x off : ℕ) (src : List UInt8) : Act fixed s (s.vfsFileWrite x off src).1
  | writeKernel (x : ℕ) (data : List UInt8) : Act fixed s (s.vfsWriteKernelFile x data).1
  | truncate (x len : ℕ) : Act fixed s (s.vfsFileTruncate x len).1

def Acts (fixed : Prop) : Fs → Fs → Prop := Relation.ReflTransGen (Act fixed)

def Edits (fixed : Prop) : Fs → Fs → Prop := Relation.ReflTransGen (Edit fixed)

theorem Edits.acts (h : Edits fixed s s') : Acts fixed s s' :=
  Relation.ReflTransGen.mono (fun _ s' (h : Edit fixed _ s') ↦ Act.edit s' h) s s' h

theorem Seen.edits (h : s.Seen s') : Edits fixed s s' := Relation.ReflTransGen.single (.seen s' h)

theorem Seen.acts (h : s.Seen s') : Acts fixed s s' := Edits.acts h.edits

theorem reopen_touched (s : Fs) (x : ℕ) (truncate : Bool) : s.Touched (s.reopen x truncate) := by
  unfold reopen
  dsimp only
  split_ifs
  · exact (touched_setNode rfl).trans (touched_setNode rfl)
  · exact touched_setNode rfl

theorem Spot.room (h : Spot fixed s p name) : s.Room False p name := ⟨h.used, h.dir, False.elim⟩

theorem born_fresh_name (h : Spot fixed s p name) (type : NodeType) (mode : ℕ) :
    Spot fixed s p (s.fresh name type mode).name := by
  rw [fresh_name s h.le]
  exact h

theorem Edit.change (h : Edit fixed s s') : Change False False s s' := by
  cases h with
  | seen _ h => exact h.looks.change
  | waste name => exact .waste _ (fresh_new s name _ _)
  | make p n h hn hsolo htype hdata => exact .make p n hn h.room hsolo htype hdata
  | file path p name b h hb =>
    have hroom := (born_fresh_name h .file (sIfreg + 0o666)).room
    obtain ⟨-, rfl⟩ | ⟨-, k, rfl, hfree⟩ := hb
    · exact .log p
        { s.fresh name .file (sIfreg + 0o666) with data := some .xorg, capacity := vfsXorgLogCap }
        (fresh_new s name .file (sIfreg + 0o666)) hroom ⟨rfl, rfl⟩ rfl rfl False.elim
    · exact .file p
        { s.fresh name .file (sIfreg + 0o666) with
          data := some (.slot k), capacity := vfsDataSlotSize } k
        (fresh_new s name .file (sIfreg + 0o666)) hroom ⟨rfl, rfl⟩ rfl rfl hfree
  | share p src name h hsrc hfile =>
    exact .share p { s.fresh name .file (s.nodes src).mode with
        ino := _, owner := (s.nodes src).owner, nlink := 0, data := _, size := _, capacity := _ } src
      (fresh_new s name .file (s.nodes src).mode)
      (born_fresh_name h .file (s.nodes src).mode).room rfl hsrc.1 hfile rfl rfl
  | unlink x p hx hfile => exact .remove p x hx hfile
  | rmdir x p hx hdir => exact .rmdir p x hx hdir False.elim
  | move x p name hx hp hdir => exact .move x p name hx hp hdir False.elim
  | boot x size path => exact .touch _ (touched_setNode rfl)

theorem Act.edit_or_touched (h : Act fixed s s') : Edit fixed s s' ∨ s.Touched s' := by
  cases h with
  | edit s' h => exact .inl h
  | reopen x truncate => exact .inr (reopen_touched s x truncate)
  | write x off src => exact .inr (fileWrite_touched s x off src)
  | writeKernel x data => exact .inr (writeKernelFile_touched s x data)
  | truncate x len => exact .inr (fileTruncate_touched s x len)

theorem Act.change (h : Act fixed s s') : Change False False s s' := by
  obtain h | h := h.edit_or_touched
  · exact h.change
  · exact .touch s' h

theorem tree_born (hp : p < s.used) (hle : name.length ≤ vfsNameMax) (b : Buf) :
    (s.born p name b).tree = s.tree.attach p false name := by
  have hname : name.take vfsNameMax = name := List.take_of_length_le hle
  cases b with
  | slot k =>
    have htree := tree_attach hp (n := { s.fresh name .file (sIfreg + 0o666) with
      data := some (.slot k), capacity := vfsDataSlotSize })
        (fresh_new s name .file (sIfreg + 0o666))
    simp only [fresh, hname, reduceCtorEq, decide_false] at htree
    simp only [born, fresh, hname]
    exact htree
  | xorg =>
    have htree := tree_attach hp (n := { s.fresh name .file (sIfreg + 0o666) with
      data := some .xorg, capacity := vfsXorgLogCap }) (fresh_new s name .file (sIfreg + 0o666))
    simp only [fresh, hname, reduceCtorEq, decide_false] at htree
    simp only [born, fresh, hname]
    exact htree

theorem tree_share {src : ℕ} (hp : p < s.used) (hle : name.length ≤ vfsNameMax) :
    (s.share p src name).tree = s.tree.attach p false name := by
  have hname : name.take vfsNameMax = name := List.take_of_length_le hle
  have hused : p < (s.addLink (s.nodes src).owner).used := hp
  refine (tree_attach hused ⟨rfl, rfl, rfl⟩).trans ?_
  rw [tree_addLink]
  simp only [fresh, hname, reduceCtorEq, decide_false]

structure Sane (fixed : Prop) (s : Fs) : Prop where
  linked : s.tree.Linked
  owners : s.Owners
  sited : fixed → s.tree.Sited

theorem Edit.sited (h : Edit fixed s s') (hf : fixed) (hs : s.tree.Sited) : s'.tree.Sited := by
  cases h with
  | seen _ h => exact h.sited hs
  | waste name =>
    rw [tree_waste (fresh_new s name _ _)]
    exact hs.waste _ _
  | make p n h hn =>
    rw [tree_attach h.used hn]
    exact hs.attach h.dir (h.reach hf) (h.free hf) _
  | file path p name b h hb =>
    rw [tree_born h.used h.le]
    exact hs.attach h.dir (h.reach hf) (h.free hf) _
  | share p src name h =>
    rw [tree_share h.used h.le]
    exact hs.attach h.dir (h.reach hf) (h.free hf) _
  | unlink x p hx hfile =>
    rw [tree_dropLink, tree_cut]
    refine hs.cut hx (fun y hy ↦ ?_)
    have hdir := hs.dir y x hy
    rw [hfile] at hdir
    cases hdir
  | rmdir x p hx hdir hmounted hempty =>
    rw [tree_cut]
    refine hs.cut hx (fun y hy ↦ ?_)
    obtain hmem | hmount := hs.listed y x hy
    · rw [hempty] at hmem
      cases hmem
    · rw [hmounted] at hmount
      cases hmount
  | move x p name hx hp hdir hle hroot hg =>
    obtain ⟨hshown, -, -, habove, hmount, hfree⟩ := hg hf
    rw [tree_moveNode]
    exact hs.move hx.1 hdir (hs.visible_reach hshown.visible) habove hroot hmount hfree
  | boot x size path =>
    rw [(touched_setNode rfl).tree]
    exact hs

theorem Act.sited (h : Act fixed s s') (hf : fixed) (hs : s.tree.Sited) : s'.tree.Sited := by
  obtain h | h := h.edit_or_touched
  · exact h.sited hf hs
  · rw [h.tree]
    exact hs

theorem Act.sane (h : Act fixed s s') (hs : Sane fixed s) : Sane fixed s' :=
  ⟨steps_linked (h.change.steps hs.linked) hs.linked, h.change.owners hs.owners,
    fun hf ↦ h.sited hf (hs.sited hf)⟩

theorem Acts.sane (h : Acts fixed s s') (hs : Sane fixed s) : Sane fixed s' := by
  induction h with
  | refl => exact hs
  | tail _ hact ih => exact hact.sane ih

theorem Edit.sane (h : Edit fixed s s') (hs : Sane fixed s) : Sane fixed s' :=
  Act.sane (.edit s' h) hs

theorem Edits.sane (h : Edits fixed s s') (hs : Sane fixed s) : Sane fixed s' := h.acts.sane hs

theorem Seen.sane (h : s.Seen s') (hs : Sane fixed s) : Sane fixed s' := Edit.sane (.seen s' h) hs

theorem Site.parent (h : s.Site path s₁ p name) (hs : s.tree.Sited) :
    ∃ parent, splitPath path = some (parent, name) ∧ s₁.tree.find parent = some p := by
  obtain ⟨⟨parent, q⟩, hsplit, hp⟩ := Option.bind_eq_some_iff.1 (h.site hs.toNamed)
  obtain ⟨p', hp', hpp⟩ := Option.map_eq_some_iff.1 hp
  cases hpp
  exact ⟨parent, hsplit, ((h.seen.same hs.toNamed).find parent).trans hp'⟩

theorem Site.reach (h : s.Site path s₁ p name) (hs : s.tree.Sited) : s₁.tree.Reach p := by
  obtain ⟨parent, -, hp⟩ := h.parent hs
  rw [(h.seen.same hs.toNamed).find] at hp
  refine (hs.visible_reach (hs.find_visible hp)).congr (fun y q _ hq ↦ ?_)
  rw [h.seen.looks.alike.parent]
  exact hq

theorem Site.shown (h : s.Site path s₁ p name) (hs : s.tree.Sited) : s₁.tree.Shown p := by
  obtain ⟨parent, -, hp⟩ := h.parent hs
  exact (h.seen.sited hs).find_shown hp

theorem Site.plain (h : s.Site path s₁ p name) (hs : s.tree.Sited)
    (hfile : ∀ z, s.tree.find path = some z → s.tree.isDir z = false) : Plain name := by
  obtain ⟨parent, hsplit, hp⟩ := h.parent hs
  refine (h.seen.sited hs).name_plain hsplit hp h.dir
    (fun z hz ↦ (h.seen.isDir z).trans (hfile z ?_))
  exact ((h.seen.same hs.toNamed).find path).symm.trans hz

theorem Site.spot (h : s.Site path s₁ p name) (hs : Sane fixed s)
    (hno : fixed → s.tree.find path = none) : Spot fixed s₁ p name where
  used := h.placed.1
  dir := h.dir
  le := h.name_le
  reach hf := h.reach (hs.sited hf)
  free hf y hy hname := by
    have hsited := hs.sited hf
    obtain ⟨parent, hsplit, hp⟩ := h.parent hsited
    have hnone := ((h.seen.same hsited.toNamed).find path).trans (hno hf)
    exact ((h.seen.sited hsited).free_of_find hsplit hp h.dir hnone y hy).1 hname

/-- The call moves the root of a mount. -/
def Uproots (s : Fs) : VfsCall → Prop
  | .rename old new =>
    (s.vfsRename old new).2 = 0 ∧ ∃ x q, (s.vfsLookup old).2 = some x ∧ (s.nodes q).mounted = some x
  | _ => False

theorem Created.acts {truncate : Bool} {r : Fs × Option ℕ} (h : Created s path truncate r)
    (hs : Sane fixed s) : Acts fixed s r.1 := by
  cases h with
  | refused s₁ h => exact h.acts
  | opened s₁ x hx hfile =>
    have hseen := lookup_seen s path
    have hplaced := lookup_placed hs.linked (congrArg Prod.snd hx)
    rw [hx] at hseen
    exact hseen.acts.tail (.reopen x truncate (hseen.placed.2 hplaced).1 hfile)
  | wasted s₁ p name h => exact Edits.acts (h.seen.edits.tail (.waste name))
  | made s₁ p name b h hx hb =>
    have hspot : Spot fixed s₁ p name :=
      h.spot hs (fun hf ↦ (lookup_find (hs.sited hf).toNamed path).symm.trans hx)
    exact Edits.acts (h.seen.edits.tail (.file path p name b hspot hb))

theorem Made.edits {type : NodeType} {mode : ℕ} {r : Fs × Option ℕ} (h : Made s path type mode r)
    (hs : Sane fixed s) (htype : type ≠ .file) : Edits fixed s r.1 := by
  cases h with
  | refused s₁ h => exact h.edits
  | made s₁ p name h hx =>
    have hspot : Spot fixed s₁ p name :=
      h.spot hs (fun hf ↦ (lookup_find (hs.sited hf).toNamed _).symm.trans hx)
    exact h.seen.edits.tail
      (.make p _ (born_fresh_name hspot type mode) (fresh_new s₁ name type mode) ⟨rfl, rfl⟩
        htype rfl)

theorem Linking.edits (h : Linking s old new r) (hs : Sane fixed s) : Edits fixed s r.1 := by
  cases h with
  | refused s₁ rc h => exact h.edits
  | made s₁ src p name h hsrc hx hfile =>
    have hspot : Spot fixed s₁ p name := h.spot hs (fun hf ↦ hx (hs.sited hf).toNamed)
    exact h.seen.edits.tail
      (.share p src name hspot (h.seen.placed.2 (lookup_placed hs.linked hsrc)) hfile)

theorem Unlinked.edits (h : Unlinked s path r) : Edits fixed s r.1 := by
  cases h with
  | refused s₁ h => exact h.edits
  | cut s₁ x p hx hroot hfile hmem =>
    have hseen := lookup_seen s path
    rw [hx] at hseen
    exact hseen.edits.tail (.unlink x p hmem hfile)

theorem DirRemoved.edits (h : DirRemoved s path r) : Edits fixed s r.1 := by
  cases h with
  | refused s₁ rc h => exact h.edits
  | cut s₁ x p hx hroot hdir hmounted hempty hmem =>
    have hseen := lookup_seen s path
    rw [hx] at hseen
    exact hseen.edits.tail (.rmdir x p hmem hdir hmounted hempty)

theorem CanMove.not_above (h : s.CanMove old new s₁ x p name) (hs : s.tree.Sited) :
    ¬ s₁.tree.Above x p := by
  have hs₁ := h.site.seen.sited hs
  cases hdir : s₁.tree.isDir x with
  | false => exact hs₁.not_above_file hdir h.site.dir
  | true => exact not_above_of_isAncestor hs₁ (h.site.reach hs) (h.above hdir)

theorem CanMove.parent (h : s.CanMove old new s₁ x p name) (hs : s.tree.Sited) :
    s₁.tree.parent x ≠ none := by
  rw [h.site.seen.looks.alike.parent]
  refine hs.visible_parent (hs.find_visible (?_ : s.tree.find old = some x)) h.root
  rw [← lookup_find hs.toNamed, h.old]

theorem Renamed.edits (h : Renamed s old new r) (hs : Sane fixed s)
    (hfix : fixed → r.2 = 0 → ∀ x q, (s.vfsLookup old).2 = some x → (s.nodes q).mounted ≠ some x) :
    Edits fixed s r.1 := by
  have hmount : ∀ {s₁ : Fs}, s.Seen s₁ → ∀ q, s₁.tree.mounted q = (s.nodes q).mounted := fun h q ↦
    congrFun h.looks.alike.mounted q
  cases h with
  | refused s₁ h => exact h.edits
  | same s₁ x p name h => exact h.site.seen.edits
  | moved s₁ x p name h hx =>
    have hplaced := h.site.seen.placed.2 (lookup_placed hs.linked h.old)
    have hspot : Spot fixed s₁ p name := h.site.spot hs (fun hf ↦ hx (hs.sited hf).toNamed)
    refine h.site.seen.edits.tail
      (.move x p name hplaced hspot.used h.site.dir hspot.le h.root (fun hf ↦ ?_))
    have hsited := hs.sited hf
    have hplain := h.site.plain hsited (fun z hz ↦ by rw [hx hsited.toNamed] at hz; cases hz)
    refine ⟨h.site.shown hsited, hplain, h.parent hsited, h.not_above hsited, fun q ↦ ?_,
      fun y hy _ ↦ hspot.free hf y hy⟩
    rw [hmount h.site.seen]
    exact hfix hf rfl x q h.old
  | replaced s₁ s₂ x p name e ep h hx hne he hfile hlook =>
    have hplaced := h.site.seen.placed.2 (lookup_placed hs.linked h.old)
    have hused : ((s₁.cut ep e).vfsDropLink e).used = s₁.used := dropLink_used _ _
    have htree : ((s₁.cut ep e).vfsDropLink e).tree = s₁.tree.cut ep e := by
      rw [tree_dropLink, tree_cut]
    have hplaced' : ((s₁.cut ep e).vfsDropLink e).Placed x := by
      refine ⟨hused ▸ hplaced.1, ?_⟩
      rw [htree]
      refine hplaced.2.imp id (fun hpx ↦ ?_)
      obtain ⟨q, hq⟩ := Option.ne_none_iff_exists'.1 hpx
      rw [Tree.cut_parent.2 ⟨hne.symm, hq⟩]
      exact Option.some_ne_none q
    refine (h.site.seen.edits.tail (.unlink e ep he hfile)).tail
      (.move x p name hplaced' (hused ▸ h.site.placed.1) (by rw [htree]; exact h.site.dir)
        h.site.name_le h.root (fun hf ↦ ?_))
    have hsited := hs.sited hf
    have hs₁ := h.site.seen.sited hsited
    rw [htree]
    have hfind := hx hsited.toNamed
    obtain ⟨hempty, hmounted⟩ := hs₁.file_empty hfile
    have hpe : p ≠ e := by
      rintro rfl
      exact Bool.true_eq_false.mp (h.site.dir.symm.trans hfile)
    refine ⟨hs₁.shown_cut hempty hmounted (h.site.shown hsited) hpe,
      h.site.plain hsited (fun z hz ↦ ?_), ?_, ?_, fun q ↦ ?_, ?_⟩
    · obtain rfl := Option.some.inj (hfind.symm.trans hz)
      exact (h.site.seen.isDir e).symm.trans hfile
    · obtain ⟨q, hq⟩ := Option.ne_none_iff_exists'.1 (h.parent hsited)
      rw [Tree.cut_parent.2 ⟨hne.symm, hq⟩]
      exact Option.some_ne_none q
    · exact fun habove ↦ h.not_above hsited (habove.mono (fun y r hr ↦ (Tree.cut_parent.1 hr).2))
    · rw [show (s₁.tree.cut ep e).mounted q = s₁.tree.mounted q from rfl, hmount h.site.seen]
      exact hfix hf rfl x q h.old
    · intro y hy hyx hname
      obtain ⟨hmem, hye⟩ := hs₁.mem_cut.1 hy
      obtain ⟨parent, hsplit, hp⟩ := h.site.parent hsited
      have hfind₁ := ((h.site.seen.same hsited.toNamed).find new).trans hfind
      have hpick := hs₁.pick_of_find hsplit hp h.site.dir hfind₁ hfile
      obtain rfl := Option.some.inj ((hs₁.pick_exact h.site.dir hmem hname).symm.trans hpick)
      exact hye (Option.some.inj ((hs₁.child p y hmem).symm.trans (hs₁.child ep y he))) rfl

theorem ensureLoop_edits (hs : Sane fixed s) (parts : List (List UInt8)) (cur : List UInt8) :
    Edits fixed s (s.ensureLoop parts cur).1 := by
  induction parts generalizing s cur with
  | nil => exact .refl
  | cons part rest ih =>
    unfold ensureLoop
    split
    · exact .refl
    dsimp only
    generalize (if 1 < cur.length then cur ++ [slash] else cur) = base
    split
    · exact .refl
    generalize base ++ part = cur'
    have hlook := lookup_seen s cur'
    generalize s.vfsLookup cur' = r at hlook ⊢
    obtain ⟨s₁, r⟩ := r
    have hs₁ := hlook.sane hs
    cases r with
    | some x =>
      dsimp only
      split
      · exact hlook.edits.trans (ih hs₁ cur')
      · exact hlook.edits
    | none =>
    dsimp only
    have hmake : Edits fixed s₁ (s₁.vfsMkdir cur' 0o755).1 :=
      (makeNode_made hs₁.linked cur' .dir _).edits hs₁ (by decide)
    generalize s₁.vfsMkdir cur' 0o755 = r at hmake ⊢
    obtain ⟨s₂, r⟩ := r
    have hs₂ := hmake.sane hs₁
    have hto : Edits fixed s s₂ := hlook.edits.trans hmake
    cases r with
    | some x => exact hto.trans (ih hs₂ cur')
    | none =>
    dsimp only
    have hlook' := lookup_seen s₂ cur'
    generalize s₂.vfsLookup cur' = r at hlook' ⊢
    obtain ⟨s₃, r⟩ := r
    cases r with
    | some x => exact (hto.trans hlook'.edits).trans (ih (hlook'.sane hs₂) cur')
    | none => exact hto.trans hlook'.edits

theorem ensureDir_edits (hs : Sane fixed s) (path : List UInt8) :
    Edits fixed s (s.vfsEnsureDir path).1 := by
  unfold vfsEnsureDir
  split_ifs
  · exact .refl
  · exact .refl
  have hloop : Edits fixed s (s.ensureLoop (components path) [slash]).1 := ensureLoop_edits hs _ _
  generalize s.ensureLoop (components path) [slash] = r at hloop ⊢
  obtain ⟨s₁, r⟩ := r
  cases r with
  | false => exact hloop
  | true =>
    dsimp only
    have hlook := lookup_seen s₁ path
    generalize s₁.vfsLookup path = r at hlook ⊢
    obtain ⟨s₂, r⟩ := r
    cases r with
    | none => exact hloop.trans hlook.edits
    | some x => exact hloop.trans hlook.edits

/-- A directory of the importer, which does not look at mounts. -/
structure Stem (fixed : Prop) (s : Fs) (p : ℕ) : Prop where
  used : p < s.used
  dir : s.tree.isDir p = true
  reach : fixed → s.tree.Reach p

theorem lookupChild_seen (s : Fs) (d : ℕ) (hlen : name.length ≤ vfsNameMax) :
    s.Seen (s.vfsLookupChild d name).1 :=
  ⟨(lookupChild_spec s d hlen).looks, lookupChild_name s d name,
    fun h ↦ (lookupChild_reads h d hlen).same,
    fun h ↦ (lookupChild_reads h d hlen).named⟩

theorem Stem.seen (h : Stem fixed s p) (hs : s.Seen s') : Stem fixed s' p where
  used := hs.used ▸ h.used
  dir := (hs.isDir p).trans h.dir
  reach hf := (h.reach hf).congr (fun y q _ hq ↦ by rw [hs.looks.alike.parent]; exact hq)

theorem Stem.attach (h : Stem fixed s p) (hl : s.tree.Linked) (hn : New n) (hdir : n.type = .dir) :
    Stem fixed (s.attach p n) s.used where
  used := Nat.lt_succ_self _
  dir := by
    rw [tree_attach h.used hn]
    exact (update_self _ _ _).trans (decide_eq_true hdir)
  reach hf := by
    rw [tree_attach h.used hn]
    refine .child (Tree.attach_parent.2 (.inl ⟨rfl, rfl⟩)) ((h.reach hf).congr (fun y q _ hq ↦ ?_))
    exact Tree.attach_parent.2 (.inr ⟨(hl.used y q hq).1.ne, hq⟩)

theorem importLoop_edits (hs : Sane fixed s) (hb : Stem fixed s p) (path : List UInt8) (size : ℕ)
    (parts : List (List UInt8)) : Edits fixed s (importLoop path size s p parts).1 := by
  induction parts generalizing s p with
  | nil => exact .refl
  | cons part rest ih =>
    unfold importLoop
    have hspec := lookupChild_spec s p (take_length_le part)
    have hseen := lookupChild_seen s p (take_length_le part)
    have hresult := lookupChild_result s p (part.take vfsNameMax)
    have hlen := take_length_le part
    generalize part.take vfsNameMax = name at hspec hseen hresult hlen ⊢
    generalize s.vfsLookupChild p name = r at hspec hseen hresult ⊢
    obtain ⟨s₁, child⟩ := r
    have hs₁ := hseen.sane hs
    have hb₁ := hb.seen hseen
    cases child with
    | some x =>
      have hx : x ∈ s₁.tree.children p := by
        rw [hseen.looks.alike.children]
        exact hspec.mem
      dsimp only
      split_ifs with hrest hdir hboot
      · have hchild : Stem fixed s₁ x := ⟨hs₁.linked.mem_used hx, by simpa [isType, tree] using hdir,
          fun hf ↦ .child (hs₁.linked.child p x hx) (hb₁.reach hf)⟩
        exact hseen.edits.trans (ih hs₁ hchild)
      · exact hseen.edits
      · exact hseen.edits.tail (.boot x size _ (by simpa [isType] using hboot))
      · exact hseen.edits
    | none =>
      have hspot : Spot fixed s₁ p name := by
        refine ⟨hb₁.used, hb₁.dir, hlen, hb₁.reach, fun hf y hy hname ↦ ?_⟩
        have hpick := (hs₁.sited hf).pick_exact hb₁.dir hy hname
        rw [(hseen.same (hs.sited hf).toNamed).pick, ← hresult] at hpick
        cases hpick
      dsimp only
      rw [newNode_eq, newNode_eq]
      split_ifs with hrest
      · exact hseen.edits
      · have hmake : Edit fixed s₁ (s₁.attach p (s₁.fresh name .dir (sIfdir + 0o755))) :=
          .make p _ (born_fresh_name hspot .dir _) (fresh_new s₁ name .dir _) ⟨rfl, rfl⟩
            (by simp [fresh]) rfl
        dsimp only
        rw [grow_add hb₁.used]
        have hb₂ := hb₁.attach hs₁.linked (fresh_new s₁ name .dir (sIfdir + 0o755)) rfl
        exact (hseen.edits.tail hmake).trans (ih (hmake.sane hs₁) hb₂)
      · exact hseen.edits
      · dsimp only
        rw [grow_node, grow_setNode, grow_add hb₁.used]
        have hnew := fresh_new s₁ name .bootFile (sIfreg + 0o444)
        exact hseen.edits.tail (.make p _ (born_fresh_name hspot .bootFile (sIfreg + 0o444)) hnew
          ⟨rfl, rfl⟩ (by simp [fresh]) rfl)

theorem importBootFile_edits (hs : Sane fixed s) (path : List UInt8) (size : ℕ) :
    Edits fixed s (s.vfsImportBootFile path size).1 := by
  unfold vfsImportBootFile
  split_ifs
  · exact .refl
  · exact importLoop_edits hs ⟨hs.linked.root_used, hs.linked.root_dir, fun _ ↦ .root⟩ path size _

def VfsCall.Sizes : VfsCall → Prop
  | .createFile _ _ | .fileWrite _ _ _ | .writeKernelFile _ _ | .fileTruncate _ _ => True
  | _ => False

theorem call_edits (hs : Sane fixed s) {c : VfsCall} (hfix : fixed → ¬ s.Uproots c)
    (hc : ¬ VfsCall.Sizes c) : Edits fixed s (s.call c) := by
  cases c with
  | createFile | fileWrite | writeKernelFile | fileTruncate => exact absurd trivial hc
  | lookup path => exact (lookup_seen s path).edits
  | mkdir path mode => exact (makeNode_made hs.linked path .dir _).edits hs (by decide)
  | createSocket path mode => exact (makeNode_made hs.linked path .socket _).edits hs (by decide)
  | link old new => exact (link_linking hs.linked hs.owners old new).edits hs
  | unlink path => exact (unlink_unlinked s path).edits
  | rmdir path => exact (rmdir_dirRemoved s path).edits
  | rename old new =>
    exact (rename_renamed hs.linked old new).edits hs
      (fun hf hrc x q hx hq ↦ hfix hf ⟨hrc, x, q, hx, hq⟩)
  | ensureDir path => exact ensureDir_edits hs path
  | importBootFile path size => exact importBootFile_edits hs path size

theorem call_acts (hs : Sane fixed s) {c : VfsCall} (hfix : fixed → ¬ s.Uproots c) :
    Acts fixed s (s.call c) := by
  by_cases hc : VfsCall.Sizes c
  · cases c with
    | createFile path truncate => exact (createFile_created hs.linked path truncate).acts hs
    | fileWrite x off src => exact Relation.ReflTransGen.single (.write x off src)
    | writeKernelFile x data => exact Relation.ReflTransGen.single (.writeKernel x data)
    | fileTruncate x len => exact Relation.ReflTransGen.single (.truncate x len)
    | lookup | mkdir | createSocket | link | unlink | rmdir | rename | ensureDir | importBootFile =>
      exact hc.elim
  · exact (call_edits hs hfix hc).acts

theorem vfsInit_sane : Sane fixed vfsInit :=
  ⟨vfsInit_good.linked, vfsInit_good.owners, fun _ ↦ vfsInit_rooted.toSited⟩

theorem run_sane {calls : List VfsCall} (hs : Sane True s) (h : Spared Uproots s calls) :
    Sane True (s.run calls) := by
  induction calls generalizing s with
  | nil => exact hs
  | cons c rest ih =>
    have hcall : Acts True s (s.call c) := call_acts hs (fun _ ↦ h.1)
    exact ih (hcall.sane hs) h.2

theorem run_sited {calls : List VfsCall} (h : Spared Uproots vfsInit calls) :
    (vfsInit.run calls).tree.Sited :=
  (run_sane vfsInit_sane h).sited trivial

end Fs

end YabroOS.Vfs
