import YabroOS.Lib.GrowArray
import YabroOS.Lib.Runs
import YabroOS.Vfs.Stored

namespace YabroOS.Vfs

open Lib Function

/-- The calls on the bytes of a regular file; the last one is `vfs_create_file` with `truncate` on a
path that is there. -/
inductive FileOp
  | write (y off : ℕ) (src : List UInt8)
  | truncate (y len : ℕ)
  | writeKernel (y : ℕ) (data : List UInt8)
  | recreate (path : List UInt8)

def FileOp.op : FileOp → GrowOp UInt8
  | .write _ off src => .write off src
  | .truncate _ len => .resize len
  | .writeKernel _ data => .replace data
  | .recreate _ => .clear

def Returns (rc : ℤ) : Option ℕ → Prop
  | some n => rc = n
  | none => rc < 0

namespace Fs

variable {s s' : Fs} {x y o : ℕ} {b : Buf} {ops : List FileOp} {op : FileOp}
  {a : GrowArray UInt8 vfsDataSlotSize}

def fileOp (s : Fs) : FileOp → Fs × ℤ
  | .write y off src => s.vfsFileWrite y off src
  | .truncate y len => s.vfsFileTruncate y len
  | .writeKernel y data => s.vfsWriteKernelFile y data
  | .recreate path =>
    match s.vfsCreateFile path true with
    | (s, none) => (s, -1)
    | (s, some _) => (s, 0)

def fileOps (s : Fs) : List FileOp → Fs × List ℤ
  | [] => (s, [])
  | op :: ops =>
    (((s.fileOp op).1.fileOps ops).1, (s.fileOp op).2 :: ((s.fileOp op).1.fileOps ops).2)

def Names (s : Fs) (y o : ℕ) : Prop := (s.nodes y).type = .file ∧ (s.nodes y).owner = o

/-- The call is made on a name of the inode. -/
def On (s : Fs) (o : ℕ) : FileOp → Prop
  | .write y _ _ => s.Names y o
  | .truncate y _ => s.Names y o
  | .writeKernel y _ => s.Names y o
  | .recreate path => ∃ y, (s.vfsLookup path).2 = some y ∧ s.Names y o

/-- The call writes beyond the end of the file, where the buffer before the offset has bytes of
earlier contents. -/
def Exposes (s : Fs) (o : ℕ) : FileOp → Prop
  | .write _ off _ => off < (s.nodes o).capacity ∧
      ∃ b, (s.nodes o).data = some b ∧ ∃ k, (s.nodes o).size ≤ k ∧ k < off ∧ s.bytes b k ≠ 0
  | _ => False

structure Held (s : Fs) (x o : ℕ) (b : Buf) : Prop where
  name : s.Names x o
  data : (s.nodes o).data = some b
  capacity : (s.nodes o).capacity = vfsDataSlotSize
  fits : (s.nodes o).size ≤ vfsDataSlotSize

theorem Held.content (h : s.Held x o b) : s.content x = window (s.bytes b) (s.nodes o).size := by
  have hreg : s.vfsFileIsRegular x = true := decide_eq_true h.name.1
  rw [Fs.content, vfsFileData, vfsFileSize, if_pos hreg, if_pos hreg, h.name.2, h.data]
  rfl

theorem Wrote.held (h : Wrote s s' y) (hy : s.Names y o) (hx : s.Held x o b) : s'.Held x o b where
  name := by
    rw [Names, h.touched.nodes x]
    exact hx.name
  data := by
    rw [h.touched.nodes o]
    exact hx.data
  capacity := (h.capacity o).trans hx.capacity
  fits := by
    have hfits := h.fits
    rw [hy.2, hx.capacity] at hfits
    exact hfits hx.fits

theorem store_put (s : Fs) (b : Buf) (off : ℕ) (src : List UInt8) :
    (s.store (some b) off src).bytes b = put (s.bytes b) off src := by
  refine (update_self _ _ _).trans (funext fun k ↦ ?_)
  unfold put
  by_cases hk : k < off
  · rw [if_pos hk, if_neg (by omega)]
  rw [if_neg hk]
  by_cases hin : k < off + src.length
  · rw [if_pos ⟨not_lt.1 hk, hin⟩, List.getD_eq_getElem?_getD, List.getElem?_eq_getElem (by omega),
      Option.getD_some,
      Option.getD_some]
  · rw [if_neg (fun h ↦ hin h.2), List.getElem?_eq_none (by omega), Option.getD_none]

theorem setNode_sizes (s : Fs) (o y len : ℕ) :
    (((s.setNode o { s.nodes o with size := len }).setNode y
      { (s.setNode o { s.nodes o with size := len }).nodes y with
        size := ((s.setNode o { s.nodes o with size := len }).nodes o).size }).nodes o).size =
          len := by
  rw [setNode_self]
  by_cases hy : o = y
  · rw [← hy, setNode_self]
  · rw [setNode_of_ne hy, setNode_self]

theorem createFile_open {s₁ : Fs} {path : List UInt8} {truncate : Bool}
    (h : s.vfsLookup path = (s₁, some y)) (hfile : (s₁.nodes y).type = .file) :
    s.vfsCreateFile path truncate = (s₁.reopen y truncate, some y) := by
  have htype : s₁.isType y .file = true := decide_eq_true hfile
  unfold vfsCreateFile
  rw [h]
  dsimp only
  rw [if_pos htype]
  rfl

structure Leaves (s' : Fs) (o : ℕ) (b : Buf) (len : ℕ) (m : ℕ → UInt8) : Prop where
  size : (s'.nodes o).size = len
  bytes : s'.bytes b = m

theorem Names.regular (hy : s.Names y o) : s.vfsFileIsRegular y ≠ false := by
  rw [show s.vfsFileIsRegular y = true from decide_eq_true hy.1]
  exact nofun

theorem Held.write (h : s.Held x o b) (hy : s.Names y o) (off : ℕ) (src : List UInt8) :
    (vfsDataSlotSize ≤ off ∧ s.vfsFileWrite y off src = (s, -28)) ∨
    (off < vfsDataSlotSize ∧
      (s.vfsFileWrite y off src).2 = (src.take (vfsDataSlotSize - off)).length ∧
      (s.vfsFileWrite y off src).1.Leaves o b
        (max (s.nodes o).size (off + (src.take (vfsDataSlotSize - off)).length))
        (put (s.bytes b) off (src.take (vfsDataSlotSize - off)))) := by
  unfold vfsFileWrite
  rw [if_neg (hy.regular)]
  dsimp only
  rw [hy.2, h.capacity]
  by_cases hoff : vfsDataSlotSize ≤ off
  · exact .inl ⟨hoff, if_pos hoff⟩
  rw [if_neg hoff, h.data]
  refine .inr ⟨not_le.1 hoff, rfl, ?_, store_put s b off _⟩
  rw [setNode_sizes, store_nodes]

theorem Held.truncate (h : s.Held x o b) (hy : s.Names y o) (len : ℕ) :
    (vfsDataSlotSize < len ∧ s.vfsFileTruncate y len = (s, -1)) ∨
    (len ≤ vfsDataSlotSize ∧ (s.vfsFileTruncate y len).2 = 0 ∧
      (s.vfsFileTruncate y len).1.Leaves o b len
      (put (s.bytes b) (s.nodes o).size (List.replicate (len - (s.nodes o).size) 0))) := by
  unfold vfsFileTruncate
  rw [if_neg (hy.regular)]
  dsimp only
  rw [hy.2, h.capacity]
  by_cases hlen : vfsDataSlotSize < len
  · exact .inl ⟨hlen, if_pos hlen⟩
  rw [if_neg hlen, h.data]
  refine .inr ⟨not_lt.1 hlen, rfl, ?_, store_put s b _ _⟩
  rw [setNode_self]

theorem Held.writeKernel (h : s.Held x o b) (hy : s.Names y o) (data : List UInt8) :
    (vfsDataSlotSize < data.length ∧ s.vfsWriteKernelFile y data = (s, -1)) ∨
    (data.length ≤ vfsDataSlotSize ∧ (s.vfsWriteKernelFile y data).2 = 0 ∧
      (s.vfsWriteKernelFile y data).1.Leaves o b data.length (put (s.bytes b) 0 data)) := by
  unfold vfsWriteKernelFile
  rw [if_neg (hy.regular)]
  dsimp only
  rw [hy.2, h.capacity]
  by_cases hlen : vfsDataSlotSize < data.length
  · exact .inl ⟨hlen, if_pos hlen⟩
  rw [if_neg hlen, h.data]
  refine .inr ⟨not_lt.1 hlen, rfl, ?_, store_put s b _ _⟩
  by_cases hyo : o = y
  · rw [← hyo, setNode_self]
  · rw [setNode_of_ne hyo, setNode_self]

theorem Held.seen (h : s.Held x o b) (hs : s.Spelled s') : s'.Held x o b := by
  obtain ⟨hname, hdata, hcap, hfits⟩ := h
  constructor
  · rw [Names, hs.nodes x]
    exact hname
  all_goals
    rw [hs.nodes o]
    assumption

theorem Held.recreate (h : s.Held x o b) {path : List UInt8} (hlook : (s.vfsLookup path).2 = some y)
    (hy : s.Names y o) :
    (s.fileOp (.recreate path)).2 = 0 ∧ (s.fileOp (.recreate path)).1.Held x o b ∧
      ((s.fileOp (.recreate path)).1.nodes o).size = 0 := by
  have hseen := lookup_seen s path
  obtain ⟨s₁, hlook⟩ : ∃ s₁, s.vfsLookup path = (s₁, some y) := ⟨_, Prod.ext rfl hlook⟩
  rw [hlook] at hseen
  have hs := hseen.looks.spelled
  have hy₁ : s₁.Names y o := by
    rw [Names, hs.nodes y]
    exact hy
  have hcreate : s.fileOp (.recreate path) = (s₁.reopen y true, 0) := by
    unfold fileOp
    dsimp only
    rw [createFile_open hlook hy₁.1]
  rw [hcreate]
  refine ⟨rfl, (wrote_reopen hy₁.1 true).held hy₁ (h.seen hs), ?_⟩
  have hsizes := setNode_sizes s₁ o y 0
  unfold reopen
  dsimp only
  rw [if_pos rfl, hy₁.2]
  exact hsizes

theorem Held.step (h : s.Held x o b) (hop : s.On o op) (ha : s.content x = a.list) :
    (s.fileOp op).1.Held x o b ∧ Returns (s.fileOp op).2 (a.step 0 op.op).2 ∧
      ((s.fileOp op).1.content x = (a.step 0 op.op).1.list ↔ ¬ s.Exposes o op) := by
  have hheld : ∀ {y s'}, s.Names y o → s' = s ∨ Wrote s s' y → s'.Held x o b := by
    rintro y s' hy (rfl | hw)
    · exact h
    · exact hw.held hy h
  have hcontent := h.content
  rw [ha] at hcontent
  cases op with
  | write y off src =>
    have hheld := hheld hop (wrote_write s y off src)
    refine ⟨hheld, ?_⟩
    simp only [FileOp.op, GrowArray.step, fileOp, Exposes, h.capacity]
    obtain ⟨hoff, heq⟩ | ⟨hoff, hrc, hsize, hbytes⟩ := h.write hop off src
    · rw [heq, dif_neg (not_lt.2 hoff)]
      exact ⟨(by decide : (-28 : ℤ) < 0), iff_of_true ha (fun hex ↦ not_lt.2 hoff hex.1)⟩
    · rw [dif_pos hoff, hrc, List.length_take]
      refine ⟨rfl, ?_⟩
      rw [hheld.content, hsize, hbytes]
      dsimp only
      rw [hcontent, window_put]
      constructor
      · rintro hzero ⟨-, b', hb', k, hk, hoffk, hne⟩
        obtain rfl := Option.some.inj (h.data.symm.trans hb')
        exact hne (hzero k hk hoffk)
      · intro hno k hk hoffk
        by_contra hne
        exact hno ⟨hoff, b, h.data, k, hk, hoffk, hne⟩
  | truncate y len =>
    have hheld := hheld hop (wrote_truncate s y len)
    refine ⟨hheld, ?_⟩
    simp only [FileOp.op, GrowArray.step, fileOp]
    obtain ⟨hlen, heq⟩ | ⟨hlen, hrc, hsize, hbytes⟩ := h.truncate hop len
    · rw [heq, dif_neg (not_le.2 hlen)]
      exact ⟨(by decide : (-1 : ℤ) < 0), iff_of_true ha not_false⟩
    · rw [dif_pos hlen, hrc]
      refine ⟨rfl, iff_of_true ?_ not_false⟩
      rw [hheld.content, hsize, hbytes]
      dsimp only
      rw [hcontent, window_fill]
  | writeKernel y data =>
    have hheld := hheld hop (wrote_writeKernel s y data)
    refine ⟨hheld, ?_⟩
    simp only [FileOp.op, GrowArray.step, fileOp]
    obtain ⟨hlen, heq⟩ | ⟨hlen, hrc, hsize, hbytes⟩ := h.writeKernel hop data
    · rw [heq, dif_neg (not_le.2 hlen)]
      exact ⟨(by decide : (-1 : ℤ) < 0), iff_of_true ha not_false⟩
    · rw [dif_pos hlen, hrc]
      refine ⟨rfl, iff_of_true ?_ not_false⟩
      rw [hheld.content, hsize, hbytes, window_put_zero]
  | recreate path =>
    obtain ⟨y, hlook, hy⟩ := hop
    obtain ⟨hrc, hheld, hsize⟩ := h.recreate hlook hy
    refine ⟨hheld, ?_, iff_of_true ?_ not_false⟩
    · rw [hrc]
      rfl
    · rw [hheld.content, hsize]
      rfl

/-- The bytes that are read are those of the array, and the calls return what it returns, after each
call. -/
def Follows (s : Fs) (x : ℕ) (a : GrowArray UInt8 vfsDataSlotSize) (ops : List FileOp) : Prop :=
  ∀ k, (s.fileOps (ops.take k)).1.content x = (a.run 0 ((ops.take k).map FileOp.op)).1.list ∧
    List.Forall₂ Returns (s.fileOps (ops.take k)).2 (a.run 0 ((ops.take k).map FileOp.op)).2

theorem follows_cons (ha : s.content x = a.list)
    (hrc : Returns (s.fileOp op).2 (a.step 0 op.op).2) :
    s.Follows x a (op :: ops) ↔ (s.fileOp op).1.Follows x (a.step 0 op.op).1 ops := by
  constructor
  · intro h k
    obtain ⟨hcontent, hreturns⟩ := h (k + 1)
    exact ⟨hcontent, (List.forall₂_cons.1 hreturns).2⟩
  · intro h k
    cases k with
    | zero => exact ⟨ha, .nil⟩
    | succ k => exact ⟨(h k).1, .cons hrc (h k).2⟩

theorem Held.follows (h : s.Held x o b) (ha : s.content x = a.list)
    (hops : Along (fun s op ↦ (s.fileOp op).1) (fun s op ↦ s.On o op) s ops) :
    s.Follows x a ops ↔ Along (fun s op ↦ (s.fileOp op).1) (fun s op ↦ ¬ s.Exposes o op) s ops := by
  induction ops generalizing s a with
  | nil => exact iff_of_true (fun k ↦ by rw [List.take_nil]; exact ⟨ha, .nil⟩) trivial
  | cons op ops ih =>
    obtain ⟨hheld, hrc, hiff⟩ := h.step hops.1 ha
    rw [follows_cons ha hrc, Along]
    constructor
    · intro hfollows
      have hcontent := (hfollows 0).1
      exact ⟨hiff.1 hcontent, (ih hheld hcontent hops.2).1 hfollows⟩
    · intro hno
      exact (ih hheld (hiff.2 hno.1) hops.2).2 hno.2

theorem Stored.held (h : s.Stored) (hx : x < s.used) (hfile : (s.nodes x).type = .file)
    (hpar : (s.nodes x).parent ≠ none) : ∃ b, s.Held x (s.nodes x).owner b := by
  obtain ⟨hofile, hpos⟩ := h.own.pos hx hfile hpar
  have hinode := h.own.owner x hx
  obtain ⟨hdata, hcap⟩ := h.full _ hinode hofile hpos
  obtain ⟨b, hb⟩ := Option.ne_none_iff_exists'.1 hdata
  exact ⟨b, ⟨hfile, rfl⟩, hb, hcap, hcap ▸ h.room _ hinode hofile⟩

/-- The bytes of a regular file are those of a growable array exactly if no write beyond the end
shows what an earlier content has left in the buffer. -/
theorem run_follows (calls : List VfsCall) (path : List UInt8) (x : ℕ)
    (hx : ((vfsInit.run calls).vfsLookup path).2 = some x)
    (hfile : ((vfsInit.run calls).nodes x).type = .file) (a : GrowArray UInt8 vfsDataSlotSize)
    (ha : (vfsInit.run calls).content x = a.list) (ops : List FileOp)
    (hops : Along (fun s op ↦ (s.fileOp op).1)
      (fun s op ↦ s.On ((vfsInit.run calls).nodes x).owner op) (vfsInit.run calls) ops) :
    (vfsInit.run calls).Follows x a ops ↔ Along (fun s op ↦ (s.fileOp op).1)
      (fun s op ↦ ¬ s.Exposes ((vfsInit.run calls).nodes x).owner op) (vfsInit.run calls) ops := by
  obtain ⟨hs, hsane⟩ := run_stored calls
  have hplaced := lookup_placed hsane.linked hx
  obtain ⟨b, hheld⟩ := hs.held hplaced.1 hfile (hplaced.parent hfile)
  exact hheld.follows ha hops

def emptyFile : List VfsCall := [.createFile (text "/f") false]

def cutFile : List FileOp := [.write 59 0 [97, 98, 99], .truncate 59 0, .write 59 2 [100]]

theorem cutFile_on :
    Along (fun s op ↦ (s.fileOp op).1) (fun s op ↦ s.On 59 op) (vfsInit.run emptyFile) cutFile := by
  simp only [cutFile, Along, On, Names]
  decide +kernel

theorem emptyFile_path : ((vfsInit.run emptyFile).vfsLookup (text "/f")).2 = some 59 ∧
    ((vfsInit.run emptyFile).nodes 59).type = .file ∧ ((vfsInit.run emptyFile).nodes 59).owner =
    59 ∧ (vfsInit.run emptyFile).content 59 = [] := by decide +kernel

theorem run_follows_cutFile : (vfsInit.run emptyFile).Follows 59 ⟨[], Nat.zero_le _⟩ cutFile ↔
    Along (fun s op ↦ (s.fileOp op).1) (fun s op ↦ ¬ s.Exposes 59 op)
    (vfsInit.run emptyFile) cutFile := by
  obtain ⟨hx, hfile, howner, hcontent⟩ := emptyFile_path
  have hiff := run_follows emptyFile (text "/f") 59 hx hfile ⟨[], Nat.zero_le _⟩ hcontent cutFile
    (by rw [howner]; exact cutFile_on)
  rw [howner] at hiff
  exact hiff

/-- The bytes that were cut off are there again. -/
theorem not_run_follows : ¬ ∀ (calls : List VfsCall) (path : List UInt8) (x : ℕ),
    ((vfsInit.run calls).vfsLookup path).2 = some x → ((vfsInit.run calls).nodes x).type = .file →
    ∀ a : GrowArray UInt8 vfsDataSlotSize, (vfsInit.run calls).content x = a.list →
      ∀ ops : List FileOp,
    Along (fun s op ↦ (s.fileOp op).1) (fun s op ↦ s.On ((vfsInit.run calls).nodes x).owner op)
    (vfsInit.run calls) ops → (vfsInit.run calls).Follows x a ops := by
  intro h
  obtain ⟨hx, hfile, howner, hcontent⟩ := emptyFile_path
  have hfollows :=
    h emptyFile (text "/f") 59 hx hfile ⟨[], Nat.zero_le _⟩ hcontent cutFile
      (by rw [howner]; exact cutFile_on)
  obtain ⟨hread, harray⟩ : ((vfsInit.run emptyFile).fileOps (cutFile.take 3)).1.content 59 =
      [97, 98, 100] ∧
      ((⟨[], Nat.zero_le _⟩ : GrowArray UInt8 vfsDataSlotSize).run 0
        ((cutFile.take 3).map FileOp.op)).1.list = [0, 0, 100] := by
    decide +kernel
  have hsame := (hfollows 3).1
  rw [hread, harray] at hsame
  exact absurd hsame (by decide)

end Fs

end YabroOS.Vfs
