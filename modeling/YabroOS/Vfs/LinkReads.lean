import YabroOS.Vfs.FileBytes
import YabroOS.Vfs.OpenFiles

namespace YabroOS.Vfs

open Lib Function

namespace Fs

variable {s s' : Fs} {x y o p : ℕ} {b : Buf} {f : OpenFile} {calls : List VfsCall} {fixed : Prop}

def readNode (s : Fs) (y cap : ℕ) : List UInt8 :=
  match (s.nodes y).data with
  | none => []
  | some b => (List.range (min (s.nodes y).size (cap - 1))).map (s.bytes b)

/-- `vfs_read_file` on the path of a regular file; `none` stands for the paths of other nodes. -/
def vfsReadFile (s : Fs) (path : List UInt8) (cap : ℕ) : Fs × Option (List UInt8) :=
  if cap = 0 then (s, some [])
  else
    match s.vfsLookup path with
    | (s, none) => (s, some [])
    | (s, some y) => if s.vfsFileIsRegular y then (s, some (s.readNode y cap)) else (s, none)

def statSize (s : Fs) (y : ℕ) : ℕ :=
  if s.vfsFileIsRegular y ∨ s.isType y .bootFile then s.vfsFileSize y else 0

def readData (s : Fs) (f : OpenFile) (count cur : ℕ) : ℕ × List UInt8 :=
  let size := if s.vfsFileIsRegular f.vnode then s.vfsFileSize f.vnode else f.size
  let data := if s.vfsFileIsRegular f.vnode then s.vfsFileData f.vnode else f.data
  let n := min count (if cur < size then size - cur else 0)
  (n, match data with
    | none => []
    | some b => (List.range n).map (fun k ↦ s.bytes b (cur + k)))

/-- A descriptor that has just been opened for a node gives the bytes of its file, and its offset
for `O_APPEND` is their end. -/
structure Serves (st : Files) (f : OpenFile) (content : List UInt8) : Prop where
  append : f.flags.testBit 10 = true → st.fdOffsetGet f = content.length
  read : ∀ count cur, st.fs.readData f count cur =
    (((content.drop cur).take count).length, (content.drop cur).take count)
  pread : ∀ count off, st.fs.preadData f count off =
    (((content.drop off).take count).length, (content.drop off).take count)
  mmap : ∀ off len, st.fs.kernelFileReadAt f off len = some ((content.drop off).take len)

/-- A descriptor that has been open on a link for some time: only a mapping depends on the size that
it keeps. -/
structure Delivers (s : Fs) (f : OpenFile) (content : List UInt8) : Prop where
  read : ∀ count cur, s.readData f count cur =
    (((content.drop cur).take count).length, (content.drop cur).take count)
  pread : ∀ count off, s.preadData f count off =
    (((content.drop off).take count).length, (content.drop off).take count)
  mmap : (∀ off len, s.kernelFileReadAt f off len = some ((content.drop off).take len)) ↔
    content.length ≤ f.size

/-- All the ways to read a link give the bytes and the size of its inode. An open with `O_TRUNC`
truncates before that, as a call of its own. -/
structure Faithful (s : Fs) (y : ℕ) : Prop where
  file : ∀ path cap, (s.vfsLookup path).2 = some y →
    (s.vfsReadFile path cap).2 = some ((s.content y).take (cap - 1))
  stat : s.statSize y = (s.content y).length
  opened : ∀ (st : Files) (table : Fin 32) (fd flags : ℕ), st.fs = s → flags.testBit 9 = false →
    (st.openVnode table fd y flags).2 = fd →
    Serves (st.openVnode table fd y flags).1 ((st.openVnode table fd y flags).1.tables table fd)
      (s.content y)

theorem map_range_window (m : ℕ → UInt8) (n off count : ℕ) :
    (List.range (min count (n - off))).map (fun k ↦ m (off + k)) =
      ((window m n).drop off).take count := by
  refine List.ext_getElem? (fun k ↦ ?_)
  rw [List.getElem?_map, List.getElem?_take, List.getElem?_drop, getElem?_window]
  by_cases hk : k < min count (n - off)
  · rw [List.getElem?_range hk, Option.map_some, if_pos (by omega), if_pos (by omega)]
  · rw [List.getElem?_eq_none (by rw [List.length_range]; exact not_lt.1 hk), Option.map_none]
    split_ifs with hcount hn
    · omega
    · rfl
    · rfl

theorem length_drop_window (m : ℕ → UInt8) (n off count : ℕ) :
    (((window m n).drop off).take count).length = min count (n - off) := by
  rw [← map_range_window, List.length_map, List.length_range]

theorem Held.readData (h : s.Held y o b) (hf : f.vnode = y) (count cur : ℕ) :
    s.readData f count cur =
    ((((s.content y).drop cur).take count).length, ((s.content y).drop cur).take count) := by
  have hreg : s.vfsFileIsRegular y = true := decide_eq_true h.name.1
  have hmin : min count (if cur < (s.nodes o).size then (s.nodes o).size - cur else 0) =
      min count ((s.nodes o).size - cur) := by
    split_ifs with hcur
    · rfl
    · rw [Nat.sub_eq_zero_of_le (not_lt.1 hcur)]
  unfold Fs.readData
  rw [hf, if_pos hreg, if_pos hreg, h.content, length_drop_window]
  simp only [vfsFileSize, vfsFileData, hreg, if_true, h.name.2, h.data, hmin, map_range_window]

theorem Held.preadData (h : s.Held y o b) (hf : f.vnode = y) (count off : ℕ) :
    s.preadData f count off =
    ((((s.content y).drop off).take count).length, ((s.content y).drop off).take count) := by
  have hreg : s.vfsFileIsRegular y = true := decide_eq_true h.name.1
  unfold Fs.preadData
  rw [hf, if_pos hreg, if_pos hreg, h.content, length_drop_window]
  simp only [vfsFileSize, vfsFileData, hreg, if_true, h.name.2, h.data, map_range_window]
  split_ifs with hoff
  · rw [Nat.sub_eq_zero_of_le hoff, Nat.min_zero, ← map_range_window, Nat.sub_eq_zero_of_le hoff,
      Nat.min_zero]
    rfl
  · rfl

theorem Held.kernelFileReadAt (h : s.Held y o b) (hf : f.vnode = y) (huse : f.inUse = true)
    (hsize : (s.nodes o).size ≤ f.size) (off len : ℕ) :
    s.kernelFileReadAt f off len = some (((s.content y).drop off).take len) := by
  have hreg : s.vfsFileIsRegular y = true := decide_eq_true h.name.1
  have hnil : min len ((s.nodes o).size - off) = 0 →
      ((window (s.bytes b) (s.nodes o).size).drop off).take len = [] := by
    intro hzero
    rw [← map_range_window, hzero]
    rfl
  unfold Fs.kernelFileReadAt
  rw [hf, huse, if_neg Bool.true_eq_false.mp, h.content]
  simp only [vfsFileSize, vfsFileData, hreg, if_true, h.name.2, h.data]
  split_ifs with hempty hoff
  · rw [hnil (by omega)]
  · rw [hnil (by omega)]
  · have hwant : min (min len (f.size - off)) ((s.nodes o).size - off) =
        min len ((s.nodes o).size - off) := by omega
    rw [Option.map_some, hwant, map_range_window]

theorem Held.delivers (h : s.Held y o b) (hf : f.vnode = y) (huse : f.inUse = true) :
    s.Delivers f (s.content y) := by
  have hlen : (s.content y).length = (s.nodes o).size := by rw [h.content, length_window]
  refine ⟨h.readData hf, h.preadData hf, fun hall ↦ ?_,
    fun hsize ↦ h.kernelFileReadAt hf huse (hlen ▸ hsize)⟩
  by_contra hshort
  have hend := hall f.size 1
  unfold Fs.kernelFileReadAt at hend
  rw [huse, if_neg Bool.true_eq_false.mp, if_pos (.inl le_rfl)] at hend
  have hcut := congrArg List.length (Option.some.inj hend)
  rw [List.length_take, List.length_drop, List.length_nil] at hcut
  omega

theorem openVnode_file {st : Files} {table : Fin 32} {fd flags : ℕ}
    (hflags : flags.testBit 9 = false) (hrc : (st.openVnode table fd y flags).2 = fd) :
    (st.openVnode table fd y flags).1.fs = st.fs ∧
    ∃ c, (st.openVnode table fd y flags).1.tables table fd =
        ⟨true, flags, if flags.testBit 10 then (st.fs.nodes y).size else 0, some c,
          (st.fs.nodes y).size, (st.fs.nodes y).data, y⟩ ∧
      ((st.openVnode table fd y flags).1.openDescs c).offset =
        if flags.testBit 10 then (st.fs.nodes y).size else 0 := by
  unfold Files.openVnode at hrc ⊢
  simp only [hflags, Bool.false_eq_true, false_and, if_false] at hrc ⊢
  unfold Files.allocOpenOffset at hrc ⊢
  cases hfind : (List.finRange 512).find? (fun c ↦ (st.openDescs c).used = false) with
  | none =>
    rw [hfind] at hrc
    dsimp only at hrc
    omega
  | some c =>
    dsimp only [Files.setFd]
    refine ⟨rfl, c, ?_, ?_⟩
    · rw [update_self, update_self]
    · rw [update_self]

theorem Held.readFile (h : s.Held y o b) (hdata : (s.nodes y).data = some b)
    (hsize : (s.nodes y).size = (s.nodes o).size) {path : List UInt8}
    (hlook : (s.vfsLookup path).2 = some y) (cap : ℕ) :
    (s.vfsReadFile path cap).2 = some ((s.content y).take (cap - 1)) := by
  have hseen := lookup_seen s path
  obtain ⟨s₁, hlook⟩ : ∃ s₁, s.vfsLookup path = (s₁, some y) := ⟨_, Prod.ext rfl hlook⟩
  rw [hlook] at hseen
  have hspelled := hseen.looks.spelled
  have hreg : s₁.vfsFileIsRegular y = true := by
    rw [vfsFileIsRegular, isType, hspelled.nodes y]
    exact decide_eq_true h.name.1
  have hnode : s₁.readNode y cap = (s.content y).take (cap - 1) := by
    have hrange := map_range_window (s.bytes b) (s.nodes o).size 0 (cap - 1)
    rw [List.drop_zero, Nat.sub_zero] at hrange
    rw [h.content, ← hrange, readNode, hspelled.nodes y, hspelled.bytes, hdata]
    dsimp only
    rw [hsize, min_comm]
    simp only [Nat.zero_add]
  unfold vfsReadFile
  rw [hlook]
  by_cases hcap : cap = 0
  · rw [if_pos hcap, hcap]
    rfl
  · rw [if_neg hcap]
    dsimp only
    rw [if_pos hreg, hnode]

theorem openVnode_append (s : Fs) (y : ℕ) : ((Files.start s).openVnode 0 0 y (2 ^ 10)).2 = 0 ∧
    (((Files.start s).openVnode 0 0 y (2 ^ 10)).1.tables 0 0).flags.testBit 10 = true ∧
    ((Files.start s).openVnode 0 0 y (2 ^ 10)).1.fdOffsetGet
      (((Files.start s).openVnode 0 0 y (2 ^ 10)).1.tables 0 0) =
      (s.nodes y).size := by
  have hbits : (2 ^ 10).testBit 9 = false ∧ (2 ^ 10).testBit 10 = true := by decide
  have hrc : ((Files.start s).openVnode 0 0 y (2 ^ 10)).2 = (0 : ℕ) := by
    unfold Files.openVnode Files.allocOpenOffset
    simp only [hbits.1, Bool.false_eq_true, false_and, if_false]
    cases hfind : (List.finRange 512).find? (fun c ↦ ((Files.start s).openDescs c).used = false) with
    | none =>
      exact absurd rfl (of_decide_eq_false
        (Bool.not_eq_true _ ▸ List.find?_eq_none.1 hfind 0 (List.mem_finRange 0)))
    | some c => rfl
  obtain ⟨-, c, hf, hoff⟩ := openVnode_file hbits.1 hrc
  rw [if_pos hbits.2] at hf hoff
  refine ⟨hrc, ?_, ?_⟩
  · rw [hf]
    exact hbits.2
  · rw [hf]
    exact hoff

theorem Held.faithful (h : s.Held y o b) (hdata : (s.nodes y).data = some b) :
    s.Faithful y ↔ (s.nodes y).size = (s.nodes o).size := by
  have hreg : s.vfsFileIsRegular y = true := decide_eq_true h.name.1
  have hlen : (s.content y).length = (s.nodes o).size := by rw [h.content, length_window]
  constructor
  · intro hfaith
    obtain ⟨hrc, hflag, hoff⟩ := openVnode_append s y
    rw [← hoff, ← hlen]
    exact (hfaith.opened (.start s) 0 0 (2 ^ 10) rfl (by decide) hrc).append hflag
  · intro hsize
    refine ⟨fun path cap hlook ↦ h.readFile hdata hsize hlook cap, ?_,
      fun st table fd flags hfs hflags hrc ↦ ?_⟩
    · rw [statSize, if_pos (.inl hreg), vfsFileSize, if_pos hreg, h.name.2, hlen]
    · subst hfs
      obtain ⟨hfs, c, hf, hoff⟩ := openVnode_file hflags hrc
      rw [hf]
      constructor
      · intro happend
        have happend : flags.testBit 10 = true := happend
        rw [Files.fdOffsetGet]
        dsimp only
        rw [hoff, if_pos happend, hsize, hlen]
      · rw [hfs]
        exact h.readData rfl
      · rw [hfs]
        exact h.preadData rfl
      · rw [hfs]
        exact h.kernelFileReadAt rfl rfl hsize.ge

def HasName (s : Fs) (y : ℕ) : Prop :=
  y < s.used ∧ (s.nodes y).type = .file ∧ (s.nodes y).parent ≠ none

def Synced (s : Fs) : Prop := ∀ y, s.HasName y → (s.nodes y).size = (s.nodes (s.nodes y).owner).size

theorem Quiet.synced (h : s.Quiet s') (hown : s.Own False) (hs : s.Synced) : s'.Synced := by
  rintro y ⟨hy, hfile, hpar⟩
  by_cases hlt : y < s.used
  · rw [h.type y hlt] at hfile
    obtain ⟨howner, -, -, -, hsize, hparent⟩ := h.sits y hlt hfile
    have hpar := hparent hpar
    have hosize := (h.sits _ (hown.owner y hlt).1 (hown.pos hlt hfile hpar).1).2.2.2.2.1
    rw [howner, hsize, hosize]
    exact hs y ⟨hlt, hfile, hpar⟩
  · rw [(h.new y hy (not_lt.1 hlt) hfile).2.2.2]

theorem share_synced (hown : s.Own False) (hs : s.Synced) (hp : p < s.used) {src : ℕ}
    (hsrc : src < s.used) (name : List UInt8) : (s.share p src name).Synced := by
  rintro y ⟨hy, hfile, hpar⟩
  by_cases hlt : y < s.used
  · have hold := (share_old s p src name hlt.ne).1
    rw [hold] at hfile hpar
    rw [hold]
    dsimp only
    rw [(share_old s p src name (hown.owner y hlt).1.ne).1]
    exact hs y ⟨hlt, hfile, hpar⟩
  · obtain rfl : y = s.used := le_antisymm (Nat.lt_succ_iff.1 hy) (not_lt.1 hlt)
    rw [share_self hp]
    dsimp only
    rw [(share_old s p src name (hown.owner src hsrc).1.ne).1]

theorem unlink_synced (hown : s.Own False) (hown' : ((s.cut p x).vfsDropLink x).Own False)
    (hs : s.Synced) (hx : x < s.used) : ((s.cut p x).vfsDropLink x).Synced := by
  have hstays := unlink_stays hown p hx
  obtain ⟨o, ho⟩ : ∃ o, (s.nodes x).owner = o := ⟨_, rfl⟩
  have ho' : ((s.cut p x).nodes x).owner = o := by
    rw [cut_nodes]
    exact ho
  have hdrop : Dropped ((s.cut p x).nodes o) (((s.cut p x).vfsDropLink x).nodes o) :=
    dropLink_dropped ho'
  rw [cut_nodes] at hdrop
  rintro y ⟨hy, hfile, hpar⟩
  obtain ⟨-, hpos⟩ := hown'.pos hy hfile hpar
  rw [dropLink_used] at hy
  have hy : y < s.used := hy
  rw [hstays.type y hy] at hfile
  rw [hstays.owner y hy hfile] at hpos ⊢
  have hself := (hown.owner y hy).2
  -- the inode of a name that is left keeps its size
  have hsize : ∀ z, z = y ∨ z = (s.nodes y).owner →
      (((s.cut p x).vfsDropLink x).nodes z).size = (s.nodes z).size := by
    intro z hz
    by_cases hzo : z = o
    · subst hzo
      have hoy : (s.nodes y).owner = z := by
        obtain rfl | rfl := hz
        · rw [← ho]
          exact (hown.owner x hx).2
        · rfl
      rw [hoy, hdrop.nlink] at hpos
      exact (hdrop.many (by dsimp only at hpos ⊢; omega)).2.2
    · rw [dropLink_of_ne (ho' ▸ hzo), cut_nodes]
  rw [hsize y (.inl rfl), hsize _ (.inr rfl)]
  exact hs y ⟨hy, hfile, hstays.parent y hy hfile hpar⟩

theorem Edit.synced (h : Edit False s s') (hl : s.tree.Linked) (hst : s.Stored) (hs : s.Synced) :
    s'.Synced := by
  have hown' : s'.Own False := h.change.own hl hst.own
  obtain h | ⟨p, src, name, hp, hsrc, hfile, rfl⟩ | ⟨p, x, hx, rfl⟩ := h.quiet
  · exact h.synced hst.own hs
  · exact share_synced hst.own hs hp hsrc.1 name
  · exact unlink_synced hst.own hown' hs (hl.mem_used hx)

theorem Edits.synced (h : Edits False s s') (hsane : Sane False s) (hst : s.Stored)
    (hs : s.Synced) : s'.Synced := by
  induction h with
  | refl => exact hs
  | tail hedits hedit ih =>
    exact hedit.synced (Edits.sane hedits hsane).linked
      (Acts.stored (Edits.acts hedits) hsane hst) ih

/-- An inode has a name that has its own copy of the size, other than a certain one. -/
def HasOther (s : Fs) (o x : ℕ) : Prop := ∃ y, s.HasName y ∧ (s.nodes y).owner = o ∧ y ≠ o ∧ y ≠ x

/-- The call gives another size to a file that has a further name, whose copy stays as it is. -/
def Stales (s : Fs) : VfsCall → Prop
  | .fileWrite x off src => (s.nodes x).type = .file ∧ off < (s.nodes (s.nodes x).owner).capacity ∧
      (s.nodes (s.nodes x).owner).size < off +
        min src.length ((s.nodes (s.nodes x).owner).capacity - off) ∧
      s.HasOther (s.nodes x).owner x
  | .writeKernelFile x data =>
    (s.nodes x).type = .file ∧ data.length ≤ (s.nodes (s.nodes x).owner).capacity ∧
      data.length ≠ (s.nodes (s.nodes x).owner).size ∧ s.HasOther (s.nodes x).owner x
  | .fileTruncate x len => (s.nodes x).type = .file ∧ len ≤ (s.nodes (s.nodes x).owner).capacity ∧
      len ≠ (s.nodes (s.nodes x).owner).size ∧ s.HasOther (s.nodes x).owner (s.nodes x).owner
  | .createFile path truncate =>
    truncate = true ∧ ∃ x, (s.vfsLookup path).2 = some x ∧ (s.nodes x).type = .file ∧
      (s.nodes (s.nodes x).owner).size ≠ 0 ∧ s.HasOther (s.nodes x).owner x
  | _ => False

structure Sets (s s' : Fs) (o x len : ℕ) : Prop where
  touched : s.Touched s'
  inode : (s'.nodes o).size = len
  name : (s'.nodes x).size = len
  others : ∀ y, y ≠ o → y ≠ x → (s'.nodes y).size = (s.nodes y).size

theorem Sets.synced {len : ℕ} (h : Sets s s' o x len) (hs : s.Synced) (hown : s.Own False)
    (hx : (s.nodes x).owner = o) (ho : (s.nodes o).owner = o) :
    s'.Synced ↔ ¬ (len ≠ (s.nodes o).size ∧ s.HasOther o x) := by
  have hname : ∀ y, s'.HasName y ↔ s.HasName y := fun y ↦ by
    rw [HasName, HasName, h.touched.used, h.touched.nodes y]
  have howner : ∀ y, (s'.nodes y).owner = (s.nodes y).owner := fun y ↦ by rw [h.touched.nodes y]
  constructor
  · rintro hsync ⟨hlen, y, hy, hyo, hne, hnx⟩
    have hsize := hsync y ((hname y).2 hy)
    rw [howner, hyo, h.inode, h.others y hne hnx, hs y hy, hyo] at hsize
    exact hlen hsize.symm
  · intro hno y hy
    have hy := (hname y).1 hy
    rw [howner]
    by_cases hyo : (s.nodes y).owner = o
    · rw [hyo, h.inode]
      by_cases hne : y = o
      · rw [hne, h.inode]
      by_cases hnx : y = x
      · rw [hnx, h.name]
      have hlen : len = (s.nodes o).size := by
        by_contra hlen
        exact hno ⟨hlen, y, hy, hyo, hne, hnx⟩
      rw [h.others y hne hnx, hs y hy, hyo, hlen]
    · have hself := (hown.owner y hy.1).2
      have hne : y ≠ o := by
        rintro rfl
        exact hyo ho
      have hnx : y ≠ x := by
        rintro rfl
        exact hyo hx
      have honx : (s.nodes y).owner ≠ x := by
        intro hox
        rw [hox, hx] at hself
        exact hyo (hox.trans hself.symm)
      rw [h.others y hne hnx, h.others _ hyo honx]
      exact hs y hy

def Ended (s : Fs) : Prop := ∀ x, s.used ≤ x → (s.nodes x).type = .file → (s.nodes x).owner = x

theorem Ended.of (h : s.Ended) (hused : s.used ≤ s'.used)
    (hn : ∀ x, s'.used ≤ x → (s'.nodes x).owner = x ∨
    (s'.nodes x).type = (s.nodes x).type ∧ (s'.nodes x).owner = (s.nodes x).owner) : s'.Ended := by
  intro x hx hfile
  obtain hself | ⟨htype, howner⟩ := hn x hx
  · exact hself
  · rw [howner]
    exact h x (hused.trans hx) (htype ▸ hfile)

theorem Edit.ended (h : Edit fixed s s') (hs : s.Ended) : s'.Ended := by
  cases h with
  | seen s' h =>
    exact hs.of h.looks.spelled.used.ge
      (fun x _ ↦ by rw [h.looks.spelled.nodes x]; exact .inr ⟨rfl, rfl⟩)
  | waste name =>
    refine hs.of le_rfl (fun x _ ↦ ?_)
    by_cases hx : x = s.used
    · rw [hx]
      exact .inl (congrArg Node.owner (update_self s.used _ s.nodes))
    · rw [waste_nodes hx]
      exact .inr ⟨rfl, rfl⟩
  | make p n =>
    exact hs.of (Nat.le_succ _)
      (fun x hx ↦ by rw [attach_old (Nat.lt_of_succ_le hx).ne']; exact .inr ⟨rfl, rfl⟩)
  | file path p name b =>
    have hnew : ∀ n : Node, ∀ x, s.used + 1 ≤ x →
        ((s.attach p n).nodes x).type = (s.nodes x).type ∧
          ((s.attach p n).nodes x).owner = (s.nodes x).owner := by
      intro n x hx
      rw [attach_old (Nat.lt_of_succ_le hx).ne']
      exact ⟨rfl, rfl⟩
    cases b with
    | slot k => exact hs.of (Nat.le_succ _) (fun x hx ↦ .inr (hnew _ x hx))
    | xorg => exact hs.of (Nat.le_succ _) (fun x hx ↦ .inr (hnew _ x hx))
  | share p src name =>
    refine hs.of (Nat.le_succ _) (fun x hx ↦ ?_)
    rw [(share_old s p src name (Nat.lt_of_succ_le hx).ne').1]
    exact .inr ⟨rfl, rfl⟩
  | unlink x p =>
    have hused : ((s.cut p x).vfsDropLink x).used = s.used := dropLink_used _ _
    refine hs.of hused.ge (fun y _ ↦ .inr ⟨?_, ?_⟩)
    · rw [dropLink_type, cut_nodes]
    · rw [dropLink_owner, cut_nodes]
  | rmdir x p => exact hs.of le_rfl (fun y _ ↦ by rw [cut_nodes]; exact .inr ⟨rfl, rfl⟩)
  | move x p name =>
    exact hs.of (moveNode_used s x p name).ge
      (fun y _ ↦ by rw [moveNode_nodes]; exact .inr ⟨rfl, rfl⟩)
  | boot x size path =>
    exact hs.of le_rfl (fun y _ ↦ by rw [(touched_setNode rfl).nodes y]; exact .inr ⟨rfl, rfl⟩)

theorem Act.ended (h : Act fixed s s') (hs : s.Ended) : s'.Ended := by
  obtain hedit | ht := h.edit_or_touched
  · exact hedit.ended hs
  · exact hs.of ht.used.ge (fun x _ ↦ by rw [ht.nodes x]; exact .inr ⟨rfl, rfl⟩)

theorem Acts.ended (h : Acts fixed s s') (hs : s.Ended) : s'.Ended := by
  induction h with
  | refl => exact hs
  | tail _ hact ih => exact hact.ended ih

theorem Seen.ended (h : s.Seen s') (hs : s.Ended) : s'.Ended := by
  have hedit : Edit False s s' := .seen s' h
  exact hedit.ended hs

theorem Ended.inode (h : s.Ended) (hown : s.Own False) (hfile : (s.nodes x).type = .file) :
    (s.nodes (s.nodes x).owner).owner = (s.nodes x).owner := by
  by_cases hx : x < s.used
  · exact (hown.owner x hx).2
  · rw [h x (not_lt.1 hx) hfile, h x (not_lt.1 hx) hfile]

theorem sets_inode (s : Fs) (o len : ℕ) (d : Option Buf) (off : ℕ) (src : List UInt8) :
    Sets s ((s.store d off src).setNode o { (s.store d off src).nodes o with size := len }) o o
      len where
  touched := (touched_store s d off src).trans (touched_setNode rfl)
  inode := by rw [setNode_self]
  name := by rw [setNode_self]
  others y hy _ := by rw [setNode_of_ne hy, store_nodes]

theorem Sets.toName {len : ℕ} (h : Sets s s' o o len) (x : ℕ) {size : ℕ} (hsize : size = len) :
    Sets s (s'.setNode x { s'.nodes x with size := size }) o x len where
  touched := h.touched.trans (touched_setNode rfl)
  inode := by
    by_cases hx : o = x
    · rw [← hx, setNode_self]
      exact hsize
    · rw [setNode_of_ne hx]
      exact h.inode
  name := by
    rw [setNode_self]
    exact hsize
  others y hyo hyx := by
    rw [setNode_of_ne hyx]
    exact h.others y hyo hyo

theorem sets_reopen (s : Fs) (x : ℕ) (truncate : Bool) :
    Sets s (s.reopen x truncate)
    (s.nodes x).owner x (if truncate then 0 else (s.nodes (s.nodes x).owner).size) := by
  unfold reopen
  cases truncate with
  | false =>
    have hkeep : Sets s s (s.nodes x).owner (s.nodes x).owner (s.nodes (s.nodes x).owner).size :=
      ⟨touched_refl s, rfl, rfl, fun _ _ _ ↦ rfl⟩
    exact hkeep.toName x rfl
  | true =>
    have hset := sets_inode s (s.nodes x).owner 0 none 0 []
    exact hset.toName x hset.inode

theorem irregular (h : (s.nodes x).type ≠ .file) : s.vfsFileIsRegular x = false := decide_eq_false h

theorem regular (h : (s.nodes x).type = .file) : s.vfsFileIsRegular x ≠ false :=
  Names.regular ⟨h, rfl⟩

theorem write_synced (hst : s.Stored) (hend : s.Ended) (hs : s.Synced) (x off : ℕ)
    (src : List UInt8) :
    (s.vfsFileWrite x off src).1.Synced ↔ ¬ s.Stales (.fileWrite x off src) := by
  unfold vfsFileWrite
  by_cases hfile : (s.nodes x).type = .file
  · rw [if_neg (regular hfile)]
    dsimp only
    by_cases hoff : (s.nodes (s.nodes x).owner).capacity ≤ off
    · rw [if_pos hoff]
      exact iff_of_true hs (fun h ↦ not_lt.2 hoff h.2.1)
    rw [if_neg hoff]
    have hset := sets_inode s (s.nodes x).owner (max (s.nodes (s.nodes x).owner).size
      (off + (src.take ((s.nodes (s.nodes x).owner).capacity - off)).length))
        (s.nodes (s.nodes x).owner).data off
      (src.take ((s.nodes (s.nodes x).owner).capacity - off))
    have hiff := (hset.toName x hset.inode).synced hs hst.own rfl (hend.inode hst.own hfile)
    rw [store_nodes] at hiff ⊢
    rw [hiff, List.length_take, min_comm]
    refine not_congr ⟨fun h ↦ ⟨hfile, not_le.1 hoff, ?_, h.2⟩, fun h ↦ ⟨?_, h.2.2.2⟩⟩
    · exact not_le.1 (fun hle ↦ h.1 (max_eq_left hle))
    · exact (lt_max_of_lt_right h.2.2.1).ne'
  · rw [if_pos (irregular hfile)]
    exact iff_of_true hs (fun h ↦ hfile h.1)

theorem writeKernel_synced (hst : s.Stored) (hend : s.Ended) (hs : s.Synced) (x : ℕ)
    (data : List UInt8) :
    (s.vfsWriteKernelFile x data).1.Synced ↔ ¬ s.Stales (.writeKernelFile x data) := by
  unfold vfsWriteKernelFile
  by_cases hfile : (s.nodes x).type = .file
  · rw [if_neg (regular hfile)]
    dsimp only
    by_cases hlen : (s.nodes (s.nodes x).owner).capacity < data.length
    · rw [if_pos hlen]
      exact iff_of_true hs (fun h ↦ not_le.2 hlen h.2.1)
    rw [if_neg hlen]
    have hset := sets_inode s (s.nodes x).owner data.length (s.nodes (s.nodes x).owner).data 0 data
    rw [(hset.toName x rfl).synced hs hst.own rfl (hend.inode hst.own hfile)]
    exact not_congr ⟨fun h ↦ ⟨hfile, not_lt.1 hlen, h⟩, fun h ↦ h.2.2⟩
  · rw [if_pos (irregular hfile)]
    exact iff_of_true hs (fun h ↦ hfile h.1)

theorem truncate_synced (hst : s.Stored) (hend : s.Ended) (hs : s.Synced) (x len : ℕ) :
    (s.vfsFileTruncate x len).1.Synced ↔ ¬ s.Stales (.fileTruncate x len) := by
  unfold vfsFileTruncate
  by_cases hfile : (s.nodes x).type = .file
  · rw [if_neg (regular hfile)]
    dsimp only
    by_cases hlen : (s.nodes (s.nodes x).owner).capacity < len
    · rw [if_pos hlen]
      exact iff_of_true hs (fun h ↦ not_le.2 hlen h.2.1)
    rw [if_neg hlen]
    have hself := hend.inode hst.own hfile
    rw [(sets_inode s (s.nodes x).owner len _ _ _).synced hs hst.own hself hself]
    exact not_congr ⟨fun h ↦ ⟨hfile, not_lt.1 hlen, h⟩, fun h ↦ h.2.2⟩
  · rw [if_pos (irregular hfile)]
    exact iff_of_true hs (fun h ↦ hfile h.1)

theorem Spelled.hasOther (h : s.Spelled s') (o x : ℕ) : s'.HasOther o x ↔ s.HasOther o x := by
  refine exists_congr (fun y ↦ ?_)
  rw [HasName, HasName, h.used, h.nodes y]

theorem createFile_synced (hst : s.Stored) (hsane : Sane False s) (hend : s.Ended) (hs : s.Synced)
    (path : List UInt8) (truncate : Bool) :
    (s.vfsCreateFile path truncate).1.Synced ↔ ¬ s.Stales (.createFile path truncate) := by
  have hseen := lookup_seen s path
  have hcreated := createFile_created hsane.linked path truncate
  obtain ⟨s₁, r, hlook⟩ : ∃ s₁ r, s.vfsLookup path = (s₁, r) := ⟨_, _, rfl⟩
  rw [hlook] at hseen
  have hspelled := hseen.looks.spelled
  by_cases hfile : ∃ x, r = some x ∧ (s.nodes x).type = .file
  · obtain ⟨x, rfl, hfile⟩ := hfile
    have hfile₁ : (s₁.nodes x).type = .file := by
      rw [hspelled.nodes x]
      exact hfile
    have hs₁ : s₁.Synced := hseen.edits.synced hsane hst hs
    have hst₁ : s₁.Stored := hseen.stored hsane hst
    have hend₁ : s₁.Ended := hseen.ended hend
    rw [createFile_open hlook hfile₁,
      (sets_reopen s₁ x truncate).synced hs₁ hst₁.own rfl (hend₁.inode hst₁.own hfile₁),
      hspelled.hasOther]
    have howner : (s₁.nodes x).owner = (s.nodes x).owner := by rw [hspelled.nodes x]
    have hsize : (s₁.nodes (s.nodes x).owner).size = (s.nodes (s.nodes x).owner).size := by
      rw [hspelled.nodes]
    rw [howner, hsize]
    refine not_congr ⟨?_, ?_⟩
    · rintro ⟨hne, hother⟩
      cases truncate with
      | false => exact absurd rfl hne
      | true => exact ⟨rfl, x, congrArg Prod.snd hlook, hfile, hne.symm, hother⟩
    · rintro ⟨htrunc, y, hy, -, hne, hother⟩
      rw [hlook] at hy
      obtain rfl := Option.some.inj hy
      rw [if_pos htrunc]
      exact ⟨hne.symm, hother⟩
  · have hno : ¬ s.Stales (.createFile path truncate) := by
      rintro ⟨-, x, hx, hx', -⟩
      rw [hlook] at hx
      exact hfile ⟨x, hx, hx'⟩
    refine iff_of_true ?_ hno
    have hedits : Edits False s (s.vfsCreateFile path truncate).1 := by
      generalize s.vfsCreateFile path truncate = made at hcreated
      cases hcreated with
      | refused s₂ h => exact h.edits
      | opened s₂ x hx hfile₂ =>
        obtain ⟨rfl, rfl⟩ : s₁ = s₂ ∧ r = some x := Prod.mk.inj (hlook.symm.trans hx)
        rw [hspelled.nodes x] at hfile₂
        exact absurd ⟨x, rfl, hfile₂⟩ hfile
      | wasted s₂ p name h => exact h.seen.edits.tail (.waste name)
      | made s₂ p name b h hx hb =>
        exact h.seen.edits.tail (.file path p name b (h.spot hsane False.elim) hb)
    exact hedits.synced hsane hst hs

theorem call_synced (hst : s.Stored) (hsane : Sane False s) (hend : s.Ended) (hs : s.Synced)
    (c : VfsCall) : (s.call c).Synced ↔ ¬ s.Stales c := by
  have hedits : ¬ VfsCall.Sizes c → (s.call c).Synced :=
    fun hc ↦ (call_edits hsane False.elim hc).synced hsane hst hs
  cases c with
  | createFile path truncate => exact createFile_synced hst hsane hend hs path truncate
  | fileWrite x off src => exact write_synced hst hend hs x off src
  | writeKernelFile x data => exact writeKernel_synced hst hend hs x data
  | fileTruncate x len => exact truncate_synced hst hend hs x len
  | lookup | mkdir | createSocket | link | unlink | rmdir | rename | ensureDir | importBootFile =>
    exact iff_of_true (hedits id) id

theorem Ended.setNode {n : Node} (h : s.Ended) (htype : n.type = (s.nodes x).type)
    (howner : n.owner = (s.nodes x).owner) : (s.setNode x n).Ended := by
  refine h.of le_rfl (fun y _ ↦ .inr ?_)
  by_cases hy : y = x
  · rw [hy, setNode_self]
    exact ⟨htype, howner⟩
  · rw [setNode_of_ne hy]
    exact ⟨rfl, rfl⟩

theorem Ended.newNode {name : List UInt8} {type : NodeType} {mode : ℕ} (h : s.Ended)
    (hnew : s.newNode name type mode = some (s', x)) : s'.Ended := by
  unfold Fs.newNode at hnew
  split_ifs at hnew
  obtain ⟨rfl, rfl⟩ := Prod.mk.inj (Option.some.inj hnew)
  refine h.of (Nat.le_succ _) (fun y hy ↦ .inr ?_)
  have hne : y ≠ s.used := (Nat.lt_of_succ_le hy).ne'
  dsimp only
  rw [update_of_ne hne]
  exact ⟨rfl, rfl⟩

theorem Ended.add (h : s.Ended) (p x : ℕ) : (s.add p x).Ended := by
  have hparent : (s.setNode x { s.nodes x with parent := some p }).Ended := h.setNode rfl rfl
  refine Ended.setNode hparent ?_ ?_
  · rfl
  · rfl

theorem Ended.make (h : s.Ended) (m : Make) : (s.make m).Ended := by
  unfold Fs.make
  cases hnew : s.newNode m.name m.type m.mode with
  | none => exact h
  | some r =>
    obtain ⟨s₁, x⟩ := r
    have htarget : (s₁.setNode x { s₁.nodes x with linkTarget := m.target }).Ended :=
      (h.newNode hnew).setNode rfl rfl
    exact htarget.add m.parent x

theorem Ended.makes (h : s.Ended) (makes : List Make) : (makes.foldl Fs.make s).Ended := by
  induction makes generalizing s with
  | nil => exact h
  | cons m makes ih => exact ih (h.make m)

theorem Ended.vfsMount (h : s.Ended) (target name : String) (makes : ℕ → List Make) :
    (s.vfsMount target name makes).Ended := by
  have hlook : (s.vfsLookup (text target)).1.Ended := (lookup_seen s _).ended h
  unfold Fs.vfsMount
  generalize s.vfsLookup (text target) = found at hlook
  obtain ⟨s₁, _ | mp⟩ := found
  · exact hlook
  dsimp only
  split_ifs
  · exact hlook
  refine Ended.setNode (Ended.makes ?_ _) rfl rfl
  unfold mountRoot
  cases hnew : s₁.newNode (text name) .dir (sIfdir + 0o755) with
  | none => exact hlook
  | some r => exact (hlook.newNode hnew).setNode rfl rfl

theorem Ended.createWith (h : s.Ended) (hs : Sound s) (path content : String) :
    (s.createWith path content).Ended := by
  have hsane : Sane False s := ⟨hs.good.linked, hs.good.owners, False.elim⟩
  have hcreate := Acts.ended ((createFile_created hs.good.linked (text path) false).acts hsane) h
  unfold Fs.createWith
  generalize s.vfsCreateFile (text path) false = made at hcreate
  obtain ⟨s₁, _ | x⟩ := made
  · exact hcreate
  · have hact : Act False s₁ (s₁.vfsWriteKernelFile x (text content)).1 :=
      .writeKernel x (text content)
    exact hact.ended hcreate

theorem vfsInit_ended : vfsInit.Ended := by
  have hroot : initRoot.Ended := by
    intro x hx hfile
    have hne : x ≠ root := Nat.one_le_iff_ne_zero.1 hx
    simp only [initRoot, update_of_ne hne] at hfile
    cases hfile
  have hdirs : initDirs.Ended := hroot.makes initTree
  have hrelease : initRelease.Ended := hdirs.createWith initDirs_sound _ _
  have hhostname : initHostname.Ended := hrelease.createWith initRelease_sound _ _
  have hmotd : initMotd.Ended := hhostname.createWith initHostname_sound _ _
  have hproc : initProc.Ended := hmotd.vfsMount _ _ _
  exact hproc.vfsMount _ _ _

theorem vfsInit_synced : vfsInit.Synced := by
  have hall : ((List.range vfsInit.used).all fun x ↦ (vfsInit.nodes x).type ≠ .file ∨
      (vfsInit.nodes x).size = (vfsInit.nodes (vfsInit.nodes x).owner).size) =
        true := by decide +kernel
  rintro x ⟨hx, hfile, -⟩
  have hx := of_decide_eq_true (List.all_eq_true.1 hall x (List.mem_range.2 hx))
  exact hx.resolve_left (not_not.2 hfile)

theorem run_synced (hst : s.Stored) (hsane : Sane False s) (hend : s.Ended) (hs : s.Synced) :
    (∀ k, (s.run (calls.take k)).Synced) ↔ Spared Stales s calls := by
  induction calls generalizing s with
  | nil =>
    refine iff_of_true (fun k ↦ ?_) trivial
    rw [List.take_nil]
    exact hs
  | cons c rest ih =>
    have hacts : Acts False s (s.call c) := call_acts hsane False.elim
    have hcall := call_synced hst hsane hend hs c
    have ih := fun h ↦ ih (hacts.stored hsane hst) (hacts.sane hsane) (hacts.ended hend) h
    constructor
    · intro h
      have hnext := h 1
      exact ⟨hcall.1 hnext, (ih hnext).1 (fun k ↦ h (k + 1))⟩
    · rintro ⟨hno, hrest⟩ k
      cases k with
      | zero => exact hs
      | succ k => exact (ih (hcall.2 hno)).2 hrest k

theorem Stored.faithful (h : s.Stored) (hy : s.HasName y) :
    s.Faithful y ↔ (s.nodes y).size = (s.nodes (s.nodes y).owner).size := by
  obtain ⟨hused, hfile, hpar⟩ := hy
  obtain ⟨b, hheld⟩ := h.held hused hfile hpar
  exact hheld.faithful ((h.link y hused hfile hpar).trans hheld.data)

/-- Hard links are alike in a run exactly if no call gives a file with a further name another size.
-/
theorem run_links (calls : List VfsCall) :
    ((∀ k y, (vfsInit.run (calls.take k)).HasName y → (vfsInit.run (calls.take k)).Faithful y) ↔
      Spared Stales vfsInit calls) ∧
    ∀ y, (vfsInit.run calls).HasName y → ∀ f : OpenFile, f.inUse = true → f.vnode = y →
      (vfsInit.run calls).Delivers f ((vfsInit.run calls).content y) := by
  constructor
  · have hnone : ∀ s : Fs, s.run [] = s := fun _ ↦ rfl
    obtain ⟨hst, hsane⟩ := run_stored []
    rw [hnone] at hst hsane
    rw [← run_synced hst hsane vfsInit_ended vfsInit_synced]
    refine forall_congr' (fun k ↦ forall₂_congr (fun y hy ↦ ?_))
    exact (run_stored (calls.take k)).1.faithful hy
  · rintro y ⟨hused, hfile, hpar⟩ f huse hf
    obtain ⟨b, hheld⟩ := (run_stored calls).1.held hused hfile hpar
    exact hheld.delivers hf huse

def twoLinks : List VfsCall :=
  [.createFile (text "/f") false, .link (text "/f") (text "/g"), .fileWrite 59 0 [97]]

/-- The second name still has the size of before the write. -/
theorem not_run_links :
    ¬ ∀ (calls : List VfsCall) (y : ℕ), (vfsInit.run calls).HasName y →
      (vfsInit.run calls).Faithful y := by
  intro h
  obtain ⟨hname, hlook, hfile, hcontent⟩ : (vfsInit.run twoLinks).HasName 60 ∧
      ((vfsInit.run twoLinks).vfsLookup (text "/g")).2 = some 60 ∧
      ((vfsInit.run twoLinks).vfsReadFile (text "/g") 2).2 = some [] ∧
      (vfsInit.run twoLinks).content 60 = [97] := by
    unfold HasName
    decide +kernel
  have hfaith := (h twoLinks 60 hname).file (text "/g") 2 hlook
  rw [hfile, hcontent] at hfaith
  exact absurd hfaith (by decide)

end Fs

end YabroOS.Vfs
