import YabroOS.Vfs.PathLaws
import YabroOS.Vfs.Unlinked

namespace YabroOS.Vfs

open Lib Function

namespace Fs

variable {s s' s'' : Fs} {x y o p z : ℕ} {path : List UInt8} {calls : List VfsCall}

/-- What holds after a run that moves no root of a mount and makes no second log of Xorg. -/
structure Live (s : Fs) : Prop where
  sound : Sound s
  sane : Sane True s
  stored : s.Stored

theorem Live.quiet_sane (h : s.Live) : Sane False s := ⟨h.sane.linked, h.sane.owners, False.elim⟩

theorem Live.call (h : s.Live) {c : VfsCall} (hclash : ¬ s.Clashes c) (hroot : ¬ s.Uproots c) :
    (s.call c).Live where
  sound := h.sound.changes (call_changes h.sound.good False.elim (fun _ ↦ hclash))
  sane := by
    have hacts : Acts True s (s.call c) := call_acts h.sane (fun _ ↦ hroot)
    exact hacts.sane h.sane
  stored := by
    have hacts : Acts False s (s.call c) := call_acts h.quiet_sane False.elim
    exact hacts.stored h.quiet_sane h.stored

theorem run_live (calls : List VfsCall) (hclash : Spared Clashes vfsInit calls)
    (hroot : Spared Uproots vfsInit calls) : (vfsInit.run calls).Live where
  sound := vfsInit_sound.run hclash
  sane := run_sane vfsInit_sane hroot
  stored := (run_stored calls).1

theorem Live.sited (h : s.Live) : s.tree.Sited := h.sane.sited trivial

theorem Live.lookup (h : s.Live) (path : List UInt8) : (s.vfsLookup path).1.Live :=
  h.call (c := .lookup path) id id

theorem Live.write (h : s.Live) (x off : ℕ) (src : List UInt8) :
    (s.vfsFileWrite x off src).1.Live :=
  h.call (c := .fileWrite x off src) id id

theorem Live.truncate (h : s.Live) (x len : ℕ) :
    (s.vfsFileTruncate x len).1.Live := h.call (c := .fileTruncate x len) id id

theorem Live.held (h : s.Live) (hy : s.HasName y) : ∃ b, s.Held y (s.nodes y).owner b :=
  h.stored.held hy.1 hy.2.1 hy.2.2

theorem Live.content_eq (h : s.Live) (hy : s.HasName y) (hz : s.HasName z)
    (howner : (s.nodes y).owner = (s.nodes z).owner) : s.content y = s.content z := by
  obtain ⟨b, hb⟩ := h.held hy
  obtain ⟨b', hb'⟩ := h.held hz
  have hdata := hb.data
  rw [howner, hb'.data] at hdata
  obtain rfl := Option.some.inj hdata
  rw [hb.content, hb'.content, howner]

theorem Live.length_content (h : s.Live) (hy : s.HasName y) :
    (s.content y).length = s.vfsFileSize y := by
  obtain ⟨b, hb⟩ := h.held hy
  have hreg : s.vfsFileIsRegular y = true := decide_eq_true hy.2.1
  rw [hb.content, length_window, vfsFileSize, if_pos hreg]

/-- The files keep their names, and those of other inodes their contents. -/
structure Spares (s s' : Fs) (o : ℕ) : Prop where
  hasName : ∀ y, s.HasName y → s'.HasName y
  owner : ∀ y, s.HasName y → (s'.nodes y).owner = (s.nodes y).owner
  same : ∀ y, s.HasName y → (s.nodes y).owner ≠ o → SameFile s s' y

theorem Spares.refl (s : Fs) (o : ℕ) : s.Spares s o :=
  ⟨fun _ h ↦ h, fun _ _ ↦ rfl, fun _ _ _ ↦ ⟨rfl, rfl⟩⟩

theorem Spares.trans (h : s.Spares s' o) (h' : s'.Spares s'' o) : s.Spares s'' o where
  hasName y hy := h'.hasName y (h.hasName y hy)
  owner y hy := (h'.owner y (h.hasName y hy)).trans (h.owner y hy)
  same y hy hne := by
    have hfirst := h.same y hy hne
    have hsecond := h'.same y (h.hasName y hy) (by rw [h.owner y hy]; exact hne)
    exact ⟨hsecond.1.trans hfirst.1, hsecond.2.trans hfirst.2⟩

theorem sameFile_of_spares (h : ∀ o, s.Spares s' o) (hy : s.HasName y) : SameFile s s' y :=
  (h ((s.nodes y).owner + 1)).same y hy (Nat.lt_succ_self _).ne

theorem Live.spares_wrote (h : s.Live) (hx : x < s.used) (hw : s' = s ∨ Wrote s s' x) :
    s.Spares s' (s.nodes x).owner := by
  have htouched : s.Touched s' := by
    obtain rfl | hw := hw
    · exact touched_refl _
    · exact hw.touched
  refine ⟨fun y hy ↦ htouched.hasName.2 hy, fun y _ ↦ ?_, fun y hy hne ↦ ?_⟩
  · rw [htouched.nodes y]
  · exact h.sound.own.sameFile hx hy.1 hne.symm hw

theorem Quiet.spares (h : s.Quiet s') (hown : s.Own False)
    (hpar : ∀ y < s.used, (s'.nodes y).parent = (s.nodes y).parent)
    (hbytes : ∀ i b, s.Inode i → (s.nodes i).data = some b → s'.bytes b = s.bytes b) (o : ℕ) :
    s.Spares s' o := by
  refine ⟨fun y hy ↦ ?_, fun y hy ↦ (h.sits y hy.1 hy.2.1).1, fun y hy _ ↦ ?_⟩
  · exact ⟨hy.1.trans_le h.used, (h.type y hy.1).trans hy.2.1, by rw [hpar y hy.1]; exact hy.2.2⟩
  have hinode := hown.owner y hy.1
  have hofile := (hown.pos hy.1 hy.2.1 hy.2.2).1
  obtain ⟨howner, -⟩ := h.sits y hy.1 hy.2.1
  obtain ⟨-, -, hdata, -, hsize, -⟩ := h.sits _ hinode.1 hofile
  have hreg : s.vfsFileIsRegular y = true := decide_eq_true hy.2.1
  have hreg' : s'.vfsFileIsRegular y = true := decide_eq_true ((h.type y hy.1).trans hy.2.1)
  have hfilesize : s'.vfsFileSize y = s.vfsFileSize y := by
    rw [vfsFileSize, vfsFileSize, if_pos hreg, if_pos hreg', howner, hsize]
  have hfiledata : s'.vfsFileData y = s.vfsFileData y := by
    rw [vfsFileData, vfsFileData, if_pos hreg, if_pos hreg', howner, hdata]
  refine ⟨?_, hfilesize⟩
  rw [content, content, hfilesize, hfiledata, vfsFileData, if_pos hreg]
  cases hb : (s.nodes (s.nodes y).owner).data with
  | none => rfl
  | some b =>
    dsimp only
    rw [hbytes _ b hinode hb]

theorem Seen.spares (h : s.Seen s') (hown : s.Own False) (o : ℕ) : s.Spares s' o := by
  have hspelled := h.looks.spelled
  refine hspelled.quiet.spares hown (fun y _ ↦ ?_) (fun _ b _ _ ↦ ?_) o
  · rw [hspelled.nodes y]
  · rw [hspelled.bytes]

theorem born_spares (hown : s.Own False) (hp : p < s.used) (name : List UInt8) {b : Buf}
    (hb : s.Gets path b) (o : ℕ) :
    s.Spares (s.born p name b) o := by
  refine (born_quiet hp b).spares hown (fun y hy ↦ ?_) (fun i b' hi hdata ↦ ?_) o
  · have hattach : ∀ n, ((s.attach p n).nodes y).parent = (s.nodes y).parent :=
      fun n ↦ by rw [attach_old hy.ne]
    cases b with
    | slot k => exact hattach _
    | xorg => exact hattach _
  · obtain ⟨-, rfl⟩ | ⟨-, k, rfl, hfree⟩ := hb
    · rfl
    · refine update_of_ne ?_ _ _
      rintro rfl
      rw [(hown.slot k).2 ⟨i, hi, hdata⟩] at hfree
      cases hfree

theorem Live.createFile_spares (h : s.Live) (hno : (s.vfsLookup path).2 = none) (truncate : Bool)
    (o : ℕ) : s.Spares (s.vfsCreateFile path truncate).1 o := by
  have hcreated := createFile_created h.sane.linked path truncate
  have hown := h.stored.own
  generalize s.vfsCreateFile path truncate = r at hcreated ⊢
  cases hcreated with
  | refused s₁ hseen => exact hseen.spares hown o
  | wasted s₁ p name hsite =>
    refine (hsite.seen.spares hown o).trans ?_
    have hchange : Change False False s s₁ := hsite.seen.looks.change
    have hown₁ := hchange.own h.sane.linked hown
    exact (waste_quiet s₁ _).spares hown₁ (fun y hy ↦ by rw [waste_nodes hy.ne]) (fun _ _ _ _ ↦ rfl) o
  | opened s₁ x hx hfile =>
    rw [hx] at hno
    cases hno
  | made s₁ p name b hsite hx hb =>
    refine (hsite.seen.spares hown _).trans ?_
    have hchange : Change False False s s₁ := hsite.seen.looks.change
    have hown₁ := hchange.own h.sane.linked hown
    exact born_spares hown₁ hsite.placed.1 name hb _

theorem Live.createFile_owner (h : s.Live) (hno : (s.vfsLookup path).2 = none) {truncate : Bool}
    (hz : (s.vfsCreateFile path truncate).2 = some z) :
    ((s.vfsCreateFile path truncate).1.nodes z).owner = s.used := by
  have hcreated := createFile_created h.sane.linked path truncate
  generalize s.vfsCreateFile path truncate = r at hcreated hz ⊢
  cases hcreated with
  | refused | wasted => cases hz
  | opened s₁ x hx hfile =>
    rw [hx] at hno
    cases hno
  | made s₁ p name b hsite hx hb =>
    cases hz
    have hself : ∀ n, ((s₁.attach p n).nodes s₁.used).owner = n.owner := fun n ↦ by
      rw [attach_self hsite.placed.1]
    rw [← hsite.seen.used]
    cases b with
    | slot k => exact hself _
    | xorg => exact hself _

structure Reached (s s' : Fs) (path : List UInt8) (z : ℕ) : Prop where
  name : s'.HasName z
  found : (s'.vfsLookup path).2 = some z
  origin : (s.vfsLookup path).2 = some z ∧ (s.nodes z).type = .file ∧ (s'.nodes z).owner =
    (s.nodes z).owner ∨ (s.vfsLookup path).2 = none ∧ (s'.nodes z).owner = s.used

def reach (s : Fs) (path : List UInt8) (create truncate : Bool) : Fs × Option ℕ :=
  if (s.vfsLookup path).2 = none ∧ create then (s.vfsLookup path).1.vfsCreateFile path truncate
  else s.vfsLookup path

theorem Live.reach (h : s.Live) (path : List UInt8) (create truncate : Bool)
    (hclash : create = true → ¬ (s.vfsLookup path).1.Clashes (.createFile path truncate)) :
    (s.reach path create truncate).1.Live ∧ (∀ o, s.Spares (s.reach path create truncate).1 o) ∧
      ∀ z, (s.reach path create truncate).2 = some z →
        ((s.reach path create truncate).1.nodes z).type = .file →
        s.Reached (s.reach path create truncate).1 path z := by
  have hlook := h.lookup path
  have hseen := lookup_seen s path
  have hstill := hseen.still h.sited
  have hspares : ∀ o, s.Spares (s.vfsLookup path).1 o := hseen.spares h.stored.own
  unfold Fs.reach
  split_ifs with hno
  · have hno₁ : ((s.vfsLookup path).1.vfsLookup path).2 = none := (hstill path).trans hno.1
    have hlive := hlook.call (c := .createFile path truncate) (hclash hno.2) id
    refine ⟨hlive, fun o ↦ (hspares o).trans (hlook.createFile_spares hno₁ truncate o), 
      fun z hz _ ↦ ⟨createFile_hasName hlook.quiet_sane hz, ?_, .inr ⟨hno.1, ?_⟩⟩⟩
    · exact ((createFile_created hlook.sane.linked path truncate).madeAt hlook.sited hlive.sited
        hz).2.found
    · rw [hlook.createFile_owner hno₁ hz, hseen.used]
  · refine ⟨hlook, hspares, fun z hz hfile ↦
      ⟨lookup_hasName h.quiet_sane hz hfile, (hstill path).trans hz, .inl ⟨hz, ?_, ?_⟩⟩⟩
    all_goals
      have hspelled := hseen.looks.spelled
      rw [hspelled.nodes z] at *
    · exact hfile

theorem Live.truncate_zero (h : s.Live) (hz : s.HasName z) :
    (s.vfsFileTruncate z 0).2 = 0 ∧ (s.vfsFileTruncate z 0).1.content z = [] ∧
    s.Touched (s.vfsFileTruncate z 0).1 ∧ s.Spares (s.vfsFileTruncate z 0).1 (s.nodes z).owner := by
  obtain ⟨b, hheld⟩ := h.held hz
  have hwrote := wrote_truncate s z 0
  obtain ⟨hbig, -⟩ | ⟨-, hrc, hleaves⟩ := hheld.truncate hheld.name 0
  · exact absurd hbig (Nat.not_lt_zero _)
  refine ⟨hrc, ?_, fileTruncate_touched s z 0, h.spares_wrote hz.1 hwrote⟩
  have hheld' : (s.vfsFileTruncate z 0).1.Held z (s.nodes z).owner b := by
    obtain heq | hwrote := hwrote
    · rw [heq]
      exact hheld
    · exact hwrote.held hheld.name hheld
  rw [hheld'.content, hleaves.size]
  rfl

/-- A path leads to a file of the inode of another one. -/
def Shares (s : Fs) (path : List UInt8) (y : ℕ) : Prop :=
  ∃ z, (s.vfsLookup path).2 = some z ∧ (s.nodes z).type = .file ∧
    (s.nodes z).owner = (s.nodes y).owner

theorem Reached.shares_iff (h : s.Reached s' path x) (hown : s.Own False) (hy : s.HasName y) :
    (s.nodes y).owner = (s'.nodes x).owner ↔ s.Shares path y := by
  obtain ⟨hx, hfile, howner⟩ | ⟨hno, howner⟩ := h.origin
  · rw [howner]
    refine ⟨fun heq ↦ ⟨x, hx, hfile, heq.symm⟩, ?_⟩
    rintro ⟨z, hz, -, heq⟩
    obtain rfl : x = z := Option.some.inj (hx.symm.trans hz)
    exact heq.symm
  · rw [howner]
    refine iff_of_false (hown.owner y hy.1).1.ne ?_
    rintro ⟨z, hz, -⟩
    exact absurd (hno.symm.trans hz) nofun

theorem Seen.hasName (h : s.Seen s') :
    s'.HasName x ↔ s.HasName x := by rw [HasName, HasName, h.used, h.looks.spelled.nodes x]

end Fs

end YabroOS.Vfs
