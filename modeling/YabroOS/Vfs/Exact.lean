import YabroOS.Vfs.ProcessPaths
import YabroOS.Vfs.OpenFiles

namespace YabroOS.Vfs

open Fat Function

def lastNamed (path : List UInt8) : List UInt8 :=
  ((components path).filter (· ≠ dot)).getLast?.getD []

namespace Tree

variable {t t' : Tree} {x y z d cur : ℕ} {c name : List UInt8} {parts parts' : List (List UInt8)}

def Matches (t : Tree) (z : ℕ) (c : List UInt8) : Prop :=
  t.name z = c ∨ t.isDir z = true ∧ lower (t.name z) = lower c

@[grind =]
def Chain (t : Tree) : ℕ → List (List UInt8) → ℕ → Prop
  | cur, [], x => cur = x
  | cur, c :: rest, x =>
    if c = dot then Chain t cur rest x
    else if c = dotdot then Chain t (t.up cur) rest x
    else ∃ z ∈ t.children (t.mr cur), t.Matches z c ∧ Chain t (t.mr z) rest x

theorem pick_matches (h : t.pick d name = some z) : t.Matches z name := by
  unfold pick at h
  split_ifs at h
  obtain h | ⟨-, h⟩ := Option.or_eq_some_iff.1 h
  · have hz := List.find?_some h
    exact .inl (of_decide_eq_true hz)
  · have hz := List.find?_some h
    exact .inr (of_decide_eq_true hz)

theorem Alike.chain (h : t.Alike t') (hx : t'.Chain cur parts x) : t.Chain cur parts x := by
  have hmr : t'.mr = t.mr := by
    funext y
    rw [mr, mr, h.mounted]
  have hup : t'.up = t.up := by
    funext y
    simp only [up, h.parent, h.mounted]
  induction parts generalizing cur with
  | nil => exact hx
  | cons c rest ih =>
    rw [Chain] at hx ⊢
    split_ifs at hx ⊢
    · exact ih hx
    · rw [hup] at hx
      exact ih hx
    · obtain ⟨z, hz, hname, hx⟩ := hx
      rw [h.children, hmr] at hz
      rw [hmr] at hx
      refine ⟨z, hz, ?_, ih hx⟩
      cases hdir : t.isDir z with
      | false =>
        rw [Matches, h.isDir, hdir, h.file z hdir] at hname
        exact .inl (hname.resolve_right (fun hbad ↦ Bool.false_ne_true hbad.1))
      | true =>
        refine .inr ⟨hdir, ?_⟩
        rw [← h.low z]
        exact hname.elim (fun hname ↦ congrArg lower hname) And.right

theorem chain_append :
    t.Chain cur (parts ++ parts') x ↔ ∃ y, t.Chain cur parts y ∧ t.Chain y parts' x := by
  induction parts generalizing cur with
  | nil => simp [Chain]
  | cons c rest ih =>
    rw [List.cons_append, Chain]
    simp only [Chain]
    split_ifs
    · exact ih
    · exact ih
    · simp only [ih]
      constructor
      · rintro ⟨z, hz, hname, y, hy, hx⟩
        exact ⟨y, ⟨z, hz, hname, hy⟩, hx⟩
      · rintro ⟨y, ⟨z, hz, hname, hy⟩, hx⟩
        exact ⟨z, hz, hname, y, hy, hx⟩

theorem Linked.chain_short (h : t.Linked) (hfit : ∀ y < t.used, (t.name y).length ≤ vfsNameMax)
    (hx : t.Chain cur parts x) : ∀ c ∈ parts, c.length ≤ vfsNameMax := by
  induction parts generalizing cur with
  | nil => exact nofun
  | cons c rest ih =>
    rw [Chain] at hx
    rw [List.forall_mem_cons]
    split_ifs at hx with hdot hdotdot
    · exact ⟨hdot ▸ by decide, ih hx⟩
    · exact ⟨hdotdot ▸ by decide, ih hx⟩
    · obtain ⟨z, hz, hname, hx⟩ := hx
      have hzfit := hfit z (h.mem_used hz)
      refine ⟨?_, ih hx⟩
      obtain rfl | ⟨-, hlow⟩ := hname
      · exact hzfit
      · have hlen := congrArg List.length hlow
        rw [lower, lower, List.length_map, List.length_map] at hlen
        exact hlen ▸ hzfit

theorem Linked.chain_placed (h : t.Linked) (hcur : t.isDir cur = true ∨ t.parent cur ≠ none)
    (hx : t.Chain cur parts x) : t.isDir x = true ∨ t.parent x ≠ none := by
  induction parts generalizing cur with
  | nil => exact hx ▸ hcur
  | cons c rest ih =>
    rw [Chain] at hx
    split_ifs at hx
    · exact ih hcur hx
    · exact ih (.inl (h.up_placed hcur)) hx
    · obtain ⟨z, hz, -, hx⟩ := hx
      refine ih ?_ hx
      unfold mr
      cases hm : t.mounted z with
      | none => exact .inr (by rw [Option.getD_none, h.child _ z hz]; exact Option.some_ne_none _)
      | some r => exact .inl (h.mounted z r hm).2

theorem Linked.file_name (h : t.Linked) (hcur : t.isDir cur = true) (hx : t.Chain cur parts x)
    (hfile : t.isDir x = false) : t.name x = (parts.filter (· ≠ dot)).getLast?.getD [] := by
  induction parts using List.reverseRecOn generalizing x with
  | nil =>
    cases hx
    rw [hcur] at hfile
    cases hfile
  | append_singleton parts c ih =>
    obtain ⟨y, hy, hx⟩ := chain_append.1 hx
    rw [Chain] at hx
    split_ifs at hx with hdot hdotdot
    · cases hx
      rw [List.filter_append, hdot, List.filter_cons_of_neg (by simp), List.filter_nil,
        List.append_nil]
      exact ih hy hfile
    · cases hx
      rw [h.up_placed (h.chain_placed (.inl hcur) hy)] at hfile
      cases hfile
    · obtain ⟨z, -, hname, hx⟩ := hx
      have hx : t.mr z = x := hx
      have hzx : z = x := hx ▸ (h.mr_file (hx ▸ hfile)).symm
      subst hzx
      rw [List.filter_append, List.filter_cons_of_pos (by simpa using hdot), List.filter_nil,
        List.getLast?_append,
        List.getLast?_singleton, Option.some_or, Option.getD_some]
      exact hname.resolve_right (fun hdir ↦ Bool.false_ne_true (hfile.symm.trans hdir.1))

end Tree

namespace Fs

variable {s s' : Fs} {x y p i cur : ℕ} {path old new : List UInt8} {parts : List (List UInt8)}

theorem walk_chain (hx : (s.walk cur parts).2 = some x) :
    s.tree.Chain cur (parts.map (·.take vfsNameMax)) x := by
  induction parts generalizing s cur with
  | nil => exact Option.some.inj hx
  | cons part rest ih =>
    rw [List.map_cons, Tree.Chain]
    by_cases h₁ : part.take vfsNameMax = dot
    · rw [walk_dot h₁] at hx
      rw [if_pos h₁]
      exact ih hx
    by_cases h₂ : part.take vfsNameMax = dotdot
    · rw [walk_dotdot h₂] at hx
      rw [if_neg h₁, if_pos h₂]
      exact ih hx
    rw [walk_child h₁ h₂] at hx
    rw [if_neg h₁, if_neg h₂]
    have hspec := lookupChild_spec s (s.mr cur) (take_length_le part)
    have hres := lookupChild_result s (s.mr cur) (part.take vfsNameMax)
    generalize s.vfsLookupChild (s.mr cur) (part.take vfsNameMax) = res at hspec hres hx
    obtain ⟨s₁, r⟩ := res
    cases r with
    | none => cases hx
    | some z =>
      have hmr : s₁.mr z = s.tree.mr z := by
        rw [← show s₁.tree.mr z = s₁.mr z from rfl, Tree.mr, Tree.mr, hspec.alike.mounted]
      have hpick := hres.symm
      refine ⟨z, (Tree.pick_mem hpick).2, Tree.pick_matches hpick, ?_⟩
      rw [← hmr]
      exact hspec.alike.chain (ih hx)

theorem lookup_chain (hx : (s.vfsLookup path).2 = some x) :
    s.tree.Chain root ((components path).map (·.take vfsNameMax)) x := by
  unfold vfsLookup at hx
  split_ifs at hx
  exact walk_chain hx

theorem lookup_last (hl : s.tree.Linked) (hx : (s.vfsLookup path).2 = some x)
    (hfile : s.tree.isDir x = false) : (s.nodes x).name = (lastNamed path).take vfsNameMax := by
  have hname := hl.file_name hl.root_dir (lookup_chain hx) hfile
  have hfilter : ((components path).map (·.take vfsNameMax)).filter (· ≠ dot) =
      ((components path).filter (· ≠ dot)).map (·.take vfsNameMax) := by
    rw [List.filter_map]
    refine congrArg _
      (List.filter_congr (fun c _ ↦ decide_eq_decide.2 (not_congr ⟨fun h ↦ ?_, fun h ↦ ?_⟩)))
    · by_contra hne
      exact take_ne (by decide) hne h
    · subst h
      rfl
  rw [hfilter, List.getLast?_map] at hname
  refine hname.trans ?_
  unfold lastNamed
  cases ((components path).filter (· ≠ dot)).getLast? with
  | none => rfl
  | some c => rfl

theorem lookup_last_iff (hl : s.tree.Linked) (hx : (s.vfsLookup path).2 = some x)
    (hfile : s.tree.isDir x = false) :
    (s.nodes x).name = lastNamed path ↔ (lastNamed path).length ≤ vfsNameMax := by
  rw [lookup_last hl hx hfile]
  constructor
  · intro h
    rw [← h]
    exact List.length_take_le _ _
  · exact List.take_of_length_le

/-- What holds of the links and the names of every state. -/
structure Fitted (s : Fs) : Prop where
  linked : s.tree.Linked
  owners : s.Owners
  fit : ∀ x < s.used, (s.nodes x).name.length ≤ vfsNameMax

theorem lookup_chain_iff (hs : s.Fitted) (hx : (s.vfsLookup path).2 = some x) :
    s.tree.Chain root (components path) x ↔ ∀ c ∈ components path, c.length ≤ vfsNameMax := by
  refine ⟨hs.linked.chain_short hs.fit, fun hshort ↦ ?_⟩
  have hmap : (components path).map (·.take vfsNameMax) = components path :=
    (List.map_congr_left (fun c hc ↦ List.take_of_length_le (hshort c hc))).trans (List.map_id _)
  rw [← hmap]
  exact lookup_chain hx

theorem length_update {f : ℕ → List UInt8} {k : ℕ} (hf : ∀ y < k, (f y).length ≤ vfsNameMax)
    {name : List UInt8} (hname : name.length ≤ vfsNameMax) {x y : ℕ} (hy : y ≠ x → y < k) :
    (update f x name y).length ≤ vfsNameMax := by
  rw [update_apply]
  split_ifs with hyx
  · exact hname
  · exact hf y (hy hyx)

theorem Edit.fit {fixed : Prop} (h : Edit fixed s s')
    (hfit : ∀ x < s.used, (s.tree.name x).length ≤ vfsNameMax) :
    ∀ y < s'.tree.used, (s'.tree.name y).length ≤ vfsNameMax := by
  have hattach : ∀ p d name, name.length ≤ vfsNameMax → ∀ y < (s.tree.attach p d name).used,
      ((s.tree.attach p d name).name y).length ≤ vfsNameMax := by
    intro p d name hle y hy
    have hy : y < s.used + 1 := hy
    exact length_update hfit hle (fun hne ↦ lt_of_le_of_ne (Nat.le_of_lt_succ hy) hne)
  cases h with
  | seen _ h =>
    intro y hy
    have hlen := congrArg List.length (h.looks.alike.low y)
    rw [lower, lower, List.length_map, List.length_map] at hlen
    rw [h.looks.alike.used] at hy
    exact hlen ▸ hfit y hy
  | waste name =>
    rw [tree_waste (fresh_new s name _ _)]
    exact fun y hy ↦ length_update hfit (List.length_take_le _ _) (fun _ ↦ hy)
  | make p n h hn =>
    rw [tree_attach h.used hn]
    exact hattach p _ _ h.le
  | file path p name b h hb =>
    rw [tree_born h.used h.le]
    exact hattach p _ _ h.le
  | share p src name h =>
    rw [tree_share h.used h.le]
    exact hattach p _ _ h.le
  | unlink x p hx hfile =>
    rw [tree_dropLink, tree_cut]
    exact hfit
  | rmdir x p hx hdir =>
    rw [tree_cut]
    exact hfit
  | move x p name hx hp hdir hle =>
    rw [tree_moveNode]
    exact fun y hy ↦ length_update hfit hle (fun _ ↦ hy)
  | boot x size path =>
    rw [(touched_setNode rfl).tree]
    exact hfit

theorem Act.fit {fixed : Prop} (h : Act fixed s s')
    (hfit : ∀ x < s.used, (s.tree.name x).length ≤ vfsNameMax) :
    ∀ y < s'.tree.used, (s'.tree.name y).length ≤ vfsNameMax := by
  obtain h | h := h.edit_or_touched
  · exact h.fit hfit
  · rw [h.tree]
    exact hfit

theorem Acts.fitted (h : Acts False s s') (hs : s.Fitted) : s'.Fitted := by
  induction h with
  | refl => exact hs
  | tail _ hact ih =>
    have hsane := hact.sane ⟨ih.linked, ih.owners, False.elim⟩
    exact ⟨hsane.linked, hsane.owners, hact.fit ih.fit⟩

theorem vfsInit_fitted : vfsInit.Fitted := by
  refine ⟨vfsInit_good.linked, vfsInit_good.owners, fun x hx ↦ ?_⟩
  have hall : (List.range vfsInit.used).all (fun x ↦ (vfsInit.nodes x).name.length ≤ vfsNameMax) =
      true := by decide +kernel
  exact of_decide_eq_true (List.all_eq_true.1 hall x (List.mem_range.2 hx))

theorem run_fitted (calls : List VfsCall) (hs : s.Fitted) : (s.run calls).Fitted := by
  induction calls generalizing s with
  | nil => exact hs
  | cons c rest ih =>
    exact ih (Acts.fitted (call_acts ⟨hs.linked, hs.owners, False.elim⟩ False.elim) hs)

/-- A file whose name is the last one of the path exactly if that is not too long. -/
def Called (s : Fs) (x : ℕ) (path : List UInt8) : Prop :=
  s.tree.isDir x = false ∧ ((s.nodes x).name = lastNamed path ↔ (lastNamed path).length ≤ vfsNameMax)

theorem Seen.called (h : s.Seen s') (hx : s'.Called x path) : s.Called x path := by
  obtain ⟨hdir, hname⟩ := hx
  rw [h.isDir] at hdir
  have hsame : (s'.nodes x).name = (s.nodes x).name := h.looks.alike.file x hdir
  exact ⟨hdir, hsame ▸ hname⟩

theorem lookup_called (hl : s.tree.Linked) (hx : (s.vfsLookup path).2 = some x)
    (hfile : s.tree.isDir x = false) : s.Called x path := ⟨hfile, lookup_last_iff hl hx hfile⟩

theorem Seen.size (h : s.Seen s') (i : ℕ) : (s'.nodes i).size = (s.nodes i).size := by
  rw [h.looks.spelled.nodes i]

theorem reopen_of_ne (truncate : Bool) (hi : i ≠ x) (ho : i ≠ (s.nodes x).owner) :
    (s.reopen x truncate).nodes i = s.nodes i := by
  unfold reopen
  dsimp only
  rw [setNode_of_ne hi]
  split_ifs
  · exact setNode_of_ne ho _ _
  · rfl

theorem born_size (hi : i ≠ s.used) (p : ℕ) (name : List UInt8) (b : Buf) :
    ((s.born p name b).nodes i).size = (s.nodes i).size := by
  have hattach : ∀ n, ((s.attach p n).nodes i).size = (s.nodes i).size := fun n ↦ by
    rw [attach_old hi]
  cases b with
  | slot k => exact hattach _
  | xorg => exact hattach _

theorem createFile_called (hs : s.Fitted) (truncate : Bool) (hi : i < s.used)
    (hsize : ((s.vfsCreateFile path truncate).1.nodes i).size ≠ (s.nodes i).size) :
    ∃ x, s.Called x path ∧ (i = x ∨ i = (s.nodes x).owner) := by
  have hcreated := createFile_created hs.linked path truncate
  generalize s.vfsCreateFile path truncate = r at hcreated hsize
  cases hcreated with
  | refused s₁ h => exact absurd (h.size i) hsize
  | opened s₁ x hx hfile =>
    have hseen := lookup_seen s path
    have hlook : (s.vfsLookup path).2 = some x := by rw [hx]
    rw [hx] at hseen
    have hdir : s.tree.isDir x = false := by
      rw [← hseen.isDir]
      simp [tree, hfile]
    refine ⟨x, lookup_called hs.linked hlook hdir, ?_⟩
    by_contra hno
    obtain ⟨hix, hio⟩ := not_or.1 hno
    have howner : (s₁.nodes x).owner = (s.nodes x).owner := by rw [hseen.looks.spelled.nodes x]
    have hnode : (s₁.reopen x truncate).nodes i = s₁.nodes i :=
      reopen_of_ne truncate hix (howner ▸ hio)
    exact hsize ((congrArg Node.size hnode).trans (hseen.size i))
  | wasted s₁ p name h =>
    have hne : i ≠ s₁.used := (h.seen.used ▸ hi).ne
    refine absurd (Eq.trans ?_ (h.seen.size i)) hsize
    exact congrArg Node.size (update_of_ne hne _ _)
  | made s₁ p name b h =>
    have hne : i ≠ s₁.used := (h.seen.used ▸ hi).ne
    exact absurd ((born_size hne p name b).trans (h.seen.size i)) hsize

theorem createFile_owner (hs : s.Fitted) {truncate : Bool} (hi : i < s.used)
    (hx : (s.vfsCreateFile path truncate).2 = some x)
    (ho : i = ((s.vfsCreateFile path truncate).1.nodes x).owner) :
    s.Called x path ∧ i = (s.nodes x).owner := by
  have hcreated := createFile_created hs.linked path truncate
  generalize s.vfsCreateFile path truncate = r at hcreated hx ho
  cases hcreated with
  | refused | wasted => cases hx
  | opened s₁ y hy hfile =>
    cases hx
    have hseen := lookup_seen s path
    have hlook : (s.vfsLookup path).2 = some x := by rw [hy]
    rw [hy] at hseen
    have hdir : s.tree.isDir x = false := by
      rw [← hseen.isDir]
      simp [tree, hfile]
    rw [(reopen_touched s₁ x truncate).nodes x, hseen.looks.spelled.nodes x] at ho
    exact ⟨lookup_called hs.linked hlook hdir, ho⟩
  | made s₁ p name b h =>
    cases hx
    have howner : ∀ n : Node, n.owner = s₁.used → ((s₁.attach p n).nodes s₁.used).owner = s₁.used :=
      fun n hn ↦ by
      rw [attach_self h.placed.1]
      exact hn
    have hself : ((s₁.born p name b).nodes s₁.used).owner = s₁.used := by
      cases b with
      | slot k => exact howner _ rfl
      | xorg => exact howner _ rfl
    exact absurd (ho.trans hself) (h.seen.used ▸ hi).ne

theorem resolveProcessPath_last {cwd cap : ℕ} {raw : List UInt8}
    (h : s.resolveProcessPath cwd raw cap = .ok path) : (lastNamed path).length ≤ vfsNameMax := by
  obtain ⟨parts, hstack, rfl, -⟩ := resolveProcessPath_canonical h
  unfold lastNamed
  rw [components_normalPath hstack.normal]
  cases hlast : (parts.filter (· ≠ dot)).getLast? with
  | none => exact Nat.zero_le _
  | some c => exact hstack.short c (List.mem_of_mem_filter (List.mem_of_getLast? hlast))

theorem truncate_size (hi : i ≠ (s.nodes x).owner) (len : ℕ) :
    ((s.vfsFileTruncate x len).1.nodes i).size = (s.nodes i).size := by
  unfold vfsFileTruncate
  dsimp only
  split_ifs
  · rfl
  · rfl
  · rw [setNode_of_ne hi, store_nodes]

theorem unlink_called (hs : s.Fitted) (hy : y ∈ (s.nodes p).children)
    (hno : y ∉ ((s.vfsUnlink path).1.nodes p).children) : s.Called y path := by
  have hun := unlink_unlinked s path
  generalize s.vfsUnlink path = r at hun hno
  cases hun with
  | refused s₁ h =>
    rw [show (s₁.nodes p).children = (s.nodes p).children from congrFun h.looks.alike.children p]
      at hno
    exact absurd hy hno
  | cut s₁ x q hx hroot hfile hmem =>
    have hseen := lookup_seen s path
    have hlook : (s.vfsLookup path).2 = some x := by rw [hx]
    rw [hx] at hseen
    have hmem' : y ∈ s₁.tree.children p := by
      rw [hseen.looks.alike.children]
      exact hy
    have hno' : y ∉ (s₁.tree.cut q x).children p := by
      have htree : ((s₁.cut q x).vfsDropLink x).tree = s₁.tree.cut q x := by
        rw [tree_dropLink, tree_cut]
      rw [← htree]
      exact hno
    obtain rfl : y = x := by
      by_contra hne
      exact hno' ((hseen.linked hs.linked).mem_cut.2 ⟨hmem', fun _ ↦ hne⟩)
    exact lookup_called hs.linked hlook ((hseen.isDir y).symm.trans hfile)

theorem rename_called (hs : s.Fitted) (hy : y ∈ (s.nodes p).children)
    (hfile : s.tree.isDir y = false) (hno : y ∉ ((s.vfsRename old new).1.nodes p).children) :
    s.Called y old ∨ s.Called y new := by
  have hren := rename_renamed hs.linked old new
  have hmove : ∀ {s₁ : Fs} {x q : ℕ} {name : List UInt8}, s₁.tree.Linked → y ∈ s₁.tree.children p →
      y ∉ (s₁.moveNode x q name).tree.children p → y = x := by
    intro s₁ x q name hl hmem hno
    by_contra hne
    rw [tree_moveNode] at hno
    exact hno (hl.mem_move.2 (.inr ⟨hmem, hne⟩))
  generalize s.vfsRename old new = r at hren hno
  cases hren with
  | refused s₁ h =>
    rw [show (s₁.nodes p).children = (s.nodes p).children from congrFun h.looks.alike.children p]
      at hno
    exact absurd hy hno
  | same s₁ x q name h =>
    rw [show (s₁.nodes p).children = (s.nodes p).children from congrFun
      h.site.seen.looks.alike.children p] at hno
    exact absurd hy hno
  | moved s₁ x q name h =>
    have hmem : y ∈ s₁.tree.children p := by
      rw [h.site.seen.looks.alike.children]
      exact hy
    obtain rfl := hmove (h.site.seen.linked hs.linked) hmem hno
    exact .inl (lookup_called hs.linked h.old hfile)
  | replaced s₁ s₂ x q name e ep h hx hne he hefile hlook =>
    have hl₁ := h.site.seen.linked hs.linked
    have hmem : y ∈ s₁.tree.children p := by
      rw [h.site.seen.looks.alike.children]
      exact hy
    have htree : ((s₁.cut ep e).vfsDropLink e).tree = s₁.tree.cut ep e := by
      rw [tree_dropLink, tree_cut]
    by_cases hye : y = e
    · subst hye
      have hl₂ := hlook.1.linked hs.linked
      have hfile₂ : s₂.tree.isDir y = false := (hlook.1.isDir y).trans hfile
      exact .inr (hlook.1.called (lookup_called hl₂ (by rw [hlook.2]) hfile₂))
    · have hmem' : y ∈ ((s₁.cut ep e).vfsDropLink e).tree.children p := by
        rw [htree]
        exact hl₁.mem_cut.2 ⟨hmem, fun _ ↦ hye⟩
      obtain rfl := hmove (htree ▸ hl₁.cut he) hmem' hno
      exact .inl (lookup_called hs.linked h.old hfile)

end Fs

namespace Files

open Fs

variable {st : Files} {path raw : List UInt8} {i x : ℕ}

theorem allocOpenOffset_fs {st' : Files} {offset : ℕ} {c : Fin 512}
    (h : st.allocOpenOffset offset = some (st', c)) : st'.fs = st.fs := by
  unfold allocOpenOffset at h
  split at h
  · cases h
  · cases h
    rfl

theorem openVnode_fs (st : Files) (table : Fin 32) (fd x flags : ℕ) :
    (st.openVnode table fd x flags).1.fs = st.fs ∨
    (st.openVnode table fd x flags).1.fs = (st.fs.vfsFileTruncate x 0).1 := by
  unfold openVnode
  split
  · exact .inl rfl
  have hst : (if flags.testBit 9 then { st with fs := (st.fs.vfsFileTruncate x 0).1 }
    else st).fs = st.fs ∨
      (if flags.testBit 9 then { st with fs := (st.fs.vfsFileTruncate x 0).1 } else st).fs =
        (st.fs.vfsFileTruncate x 0).1 := by
    split
    · exact .inr rfl
    · exact .inl rfl
  dsimp only
  generalize (if flags.testBit 9 then { st with fs := (st.fs.vfsFileTruncate x 0).1 } else st) =
    st₁ at hst ⊢
  generalize (if flags.testBit 10 then (st₁.fs.nodes x).size else 0) = offset
  cases halloc : st₁.allocOpenOffset offset with
  | none => exact hst
  | some r =>
    obtain ⟨st₂, c⟩ := r
    rw [← allocOpenOffset_fs halloc] at hst
    exact hst

theorem openVnode_size (table : Fin 32) (fd flags : ℕ) (hi : i ≠ (st.fs.nodes x).owner) :
    ((st.openVnode table fd x flags).1.fs.nodes i).size = (st.fs.nodes i).size := by
  obtain h | h := openVnode_fs st table fd x flags
  · rw [h]
  · rw [h, truncate_size hi]

theorem sysOpenResolved_called {cwd : ℕ} (hs : st.fs.Fitted)
    (hpath : st.fs.resolveProcessPath cwd raw 128 = .ok path) (table : Fin 32) (flags : ℕ)
    (hi : i < st.fs.used)
    (hsize : ((st.sysOpenResolved table path flags).1.fs.nodes i).size ≠ (st.fs.nodes i).size) :
    ∃ x, st.fs.tree.isDir x = false ∧ (st.fs.nodes x).name = lastNamed path ∧
      (i = x ∨ i = (st.fs.nodes x).owner) := by
  have hlast := resolveProcessPath_last hpath
  have hnamed : ∀ {x}, st.fs.Called x path → st.fs.tree.isDir x = false ∧
      (st.fs.nodes x).name = lastNamed path :=
    fun hx ↦ ⟨hx.1, hx.2.2 hlast⟩
  by_contra hno
  have hother : ∀ {x}, st.fs.Called x path → i ≠ x ∧ i ≠ (st.fs.nodes x).owner := by
    intro x hx
    obtain ⟨hdir, hname⟩ := hnamed hx
    exact ⟨fun h ↦ hno ⟨x, hdir, hname, .inl h⟩, fun h ↦ hno ⟨x, hdir, hname, .inr h⟩⟩
  have hseen := lookup_seen st.fs path
  have hs₁ : (st.fs.vfsLookup path).1.Fitted := Acts.fitted hseen.acts hs
  unfold sysOpenResolved at hsize
  cases hfd : st.findFreeFd table 0 with
  | none =>
    rw [hfd] at hsize
    exact hsize rfl
  | some fd =>
  rw [hfd] at hsize
  have hfound : ∀ r, (r = (st.fs.vfsLookup path).1.vfsCreateFile path (flags.testBit 9) ∨
      r = st.fs.vfsLookup path) →
      (∀ vn, r.2 = some vn → (r.1.nodes vn).type = .file → i ≠ (r.1.nodes vn).owner) ∧
        (r.1.nodes i).size = (st.fs.nodes i).size := by
    rintro r (rfl | rfl)
    · have hi₁ : i < (st.fs.vfsLookup path).1.used := hseen.used ▸ hi
      have hsame : (((st.fs.vfsLookup path).1.vfsCreateFile path (flags.testBit 9)).1.nodes
          i).size = (st.fs.nodes i).size := by
        by_contra hne
        obtain ⟨x, hx, hix⟩ :=
          createFile_called hs₁ (flags.testBit 9) hi₁ (fun h ↦ hne (h.trans (hseen.size i)))
        have howner : ((st.fs.vfsLookup path).1.nodes x).owner = (st.fs.nodes x).owner := by
          rw [hseen.looks.spelled.nodes x]
        have hno := hother (hseen.called hx)
        exact hix.elim hno.1 (fun h ↦ hno.2 (h.trans howner))
      refine ⟨fun vn hvn _ ho ↦ ?_, hsame⟩
      obtain ⟨hx, ho⟩ := createFile_owner hs₁ hi₁ hvn ho
      rw [hseen.looks.spelled.nodes vn] at ho
      exact (hother (hseen.called hx)).2 ho
    · refine ⟨fun vn hvn hfile ↦ ?_, hseen.size i⟩
      rw [hseen.looks.spelled.nodes vn] at hfile ⊢
      exact (hother
        (lookup_called hs.linked hvn
          (by simpa [tree] using fun h ↦ by rw [h] at hfile; cases hfile))).2
  have hif : ∀ r, r = (if (st.fs.vfsLookup path).2 = none ∧ flags.testBit 6 then
      (st.fs.vfsLookup path).1.vfsCreateFile path (flags.testBit 9) else st.fs.vfsLookup path) →
      r = (st.fs.vfsLookup path).1.vfsCreateFile path (flags.testBit 9) ∨
        r = st.fs.vfsLookup path := by
    rintro r rfl
    split_ifs
    · exact .inl rfl
    · exact .inr rfl
  obtain ⟨howner, hkept⟩ := hfound _ (hif _ rfl)
  dsimp only at hsize
  -- what becomes of the node that has been found or made
  generalize (if (st.fs.vfsLookup path).2 = none ∧ flags.testBit 6 then
    (st.fs.vfsLookup path).1.vfsCreateFile path (flags.testBit 9) else st.fs.vfsLookup path) =
      r at hsize howner hkept
  obtain ⟨fs, _ | vn⟩ := r
  · exact hsize hkept
  dsimp only at hsize howner hkept
  split_ifs at hsize with hregular
  · exact hsize ((openVnode_size table fd flags
      (howner vn rfl (by simpa [vfsFileIsRegular, isType] using hregular))).trans hkept)
  · exact hsize hkept

end Files

namespace Fs

/-- A lookup is exact when no component is too long, and a file that a call truncates or takes away
has the last name of its path when that is not too long; the paths of `sys_open` have no such
component. -/
theorem lookup_exact (calls : List VfsCall) : (vfsInit.run calls).Fitted ∧ ∀ s : Fs, s.Fitted →
    (∀ path x, (s.vfsLookup path).2 = some x →
      (s.tree.Chain root (components path) x ↔ ∀ c ∈ components path, c.length ≤ vfsNameMax)) ∧
    (∀ path truncate i, i < s.used →
      ((s.vfsCreateFile path truncate).1.nodes i).size ≠ (s.nodes i).size →
      ∃ x, s.Called x path ∧ (i = x ∨ i = (s.nodes x).owner)) ∧
    (∀ (st : Files) cwd raw path table flags i, st.fs = s →
      s.resolveProcessPath cwd raw 128 = .ok path → i < s.used →
      ((st.sysOpenResolved table path flags).1.fs.nodes i).size ≠ (s.nodes i).size →
        ∃ x, s.tree.isDir x = false ∧ (s.nodes x).name = lastNamed path ∧
          (i = x ∨ i = (s.nodes x).owner)) ∧
    (∀ path p y, y ∈ (s.nodes p).children → y ∉ ((s.vfsUnlink path).1.nodes p).children →
      s.Called y path) ∧
    ∀ old new p y, y ∈ (s.nodes p).children → s.tree.isDir y = false →
      y ∉ ((s.vfsRename old new).1.nodes p).children → s.Called y old ∨ s.Called y new := by
  refine ⟨run_fitted calls vfsInit_fitted, fun s hs ↦ ⟨?_, ?_, ?_, ?_, ?_⟩⟩
  · exact fun path x ↦ lookup_chain_iff hs
  · exact fun path truncate i ↦ createFile_called hs truncate
  · rintro st cwd raw path table flags i rfl hpath
    exact Files.sysOpenResolved_called hs hpath table flags
  · exact fun path p y ↦ unlink_called hs
  · exact fun old new p y ↦ rename_called hs

def shortFile : List UInt8 := text "/tmp/aaaaaaaaaaaaaaaaaaaaaaaaaaaaaaa"

/-- The path of a file with one more letter than a name can have is another file's. -/
theorem not_lookup_exact :
    ¬ ∀ (calls : List VfsCall) (path : List UInt8) (x : ℕ), ((vfsInit.run calls).vfsLookup path).2 =
    some x → (vfsInit.run calls).tree.Chain root (components path) x := by
  intro h
  obtain ⟨hlook, hlong⟩ :
      ((vfsInit.run [.createFile shortFile false]).vfsLookup (shortFile ++ [97])).2 = some 59 ∧
      ¬ ∀ c ∈ components (shortFile ++ [97]), c.length ≤ vfsNameMax := by decide +kernel
  have hshort : ∀ (calls : List VfsCall) (path : List UInt8) (x : ℕ),
      ((vfsInit.run calls).vfsLookup path).2 = some x →
      ∀ c ∈ components path, c.length ≤ vfsNameMax := by
    intro calls path x hx
    have hs := run_fitted calls vfsInit_fitted
    exact hs.linked.chain_short hs.fit (h calls path x hx)
  exact hlong (hshort _ _ _ hlook)

end Fs

end YabroOS.Vfs
