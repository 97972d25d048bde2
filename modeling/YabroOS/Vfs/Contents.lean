import YabroOS.Vfs.Init
import Mathlib.Data.Set.Card

namespace YabroOS.Vfs

open Function

namespace Fs

variable {s s' : Fs} {x y : ℕ} {calls : List VfsCall}

def content (s : Fs) (y : ℕ) : List UInt8 :=
  match s.vfsFileData y with
  | none => []
  | some b => (List.range (s.vfsFileSize y)).map (s.bytes b)

def SameFile (s s' : Fs) (y : ℕ) : Prop :=
  s'.content y = s.content y ∧ s'.vfsFileSize y = s.vfsFileSize y

/-- Every buffer has one owner, every link is counted, and no file is changed through another. -/
structure Owned (s : Fs) : Prop where
  buffer : ∀ i j b, s.Inode i → s.Inode j → 0 < (s.nodes i).nlink → 0 < (s.nodes j).nlink →
    (s.nodes i).data = some b → (s.nodes j).data = some b → i = j
  slot : ∀ k, s.dataUsed k = true ↔ ∃ i, s.Inode i ∧ 0 < (s.nodes i).nlink ∧
    (s.nodes i).data = some (.slot k)
  nlink : ∀ i, s.Inode i → (s.nodes i).type ≠ .dir →
    (s.nodes i).nlink = Set.ncard {x | (s.nodes x).owner = i ∧ ∃ p, x ∈ (s.nodes p).children}
  write : ∀ x y off src, x < s.used → y < s.used → (s.nodes x).owner ≠ (s.nodes y).owner →
    SameFile s (s.vfsFileWrite x off src).1 y
  writeKernel : ∀ x y data, x < s.used → y < s.used → (s.nodes x).owner ≠ (s.nodes y).owner →
    SameFile s (s.vfsWriteKernelFile x data).1 y
  truncate : ∀ x y len, x < s.used → y < s.used → (s.nodes x).owner ≠ (s.nodes y).owner →
    SameFile s (s.vfsFileTruncate x len).1 y

structure Wrote (s s' : Fs) (x : ℕ) : Prop where
  touched : s.Touched s'
  regular : (s.nodes x).type = .file
  size : ∀ z, z ≠ x → z ≠ (s.nodes x).owner → (s'.nodes z).size = (s.nodes z).size
  capacity : ∀ z, (s'.nodes z).capacity = (s.nodes z).capacity
  fits : (s.nodes (s.nodes x).owner).size ≤ (s.nodes (s.nodes x).owner).capacity →
    (s'.nodes (s.nodes x).owner).size ≤ (s.nodes (s.nodes x).owner).capacity
  bytes : ∀ b, (s.nodes (s.nodes x).owner).data ≠ some b → s'.bytes b = s.bytes b

theorem store_bytes {b : Buf} {d : Option Buf} (h : d ≠ some b) (off : ℕ) (src : List UInt8) :
    (s.store d off src).bytes b = s.bytes b := by
  cases d with
  | none => rfl
  | some b' => exact update_of_ne (fun hbb ↦ h (congrArg some hbb.symm)) _ _

theorem store_nodes (s : Fs) (d : Option Buf) (off : ℕ) (src : List UInt8) :
    (s.store d off src).nodes = s.nodes := by
  cases d with
  | none => rfl
  | some b => rfl

theorem setNode_size_capacity (s : Fs) (x len z : ℕ) :
    ((s.setNode x { s.nodes x with size := len }).nodes z).capacity = (s.nodes z).capacity := by
  by_cases hz : z = x
  · subst hz
    rw [setNode_self]
  · rw [setNode_of_ne hz]

theorem wrote_owner (hreg : (s.nodes x).type = .file) (off : ℕ) {len : ℕ} (src : List UInt8)
    (hlen : (s.nodes (s.nodes x).owner).size ≤ (s.nodes (s.nodes x).owner).capacity →
      len ≤ (s.nodes (s.nodes x).owner).capacity) :
    Wrote s ((s.store (s.nodes (s.nodes x).owner).data off src).setNode (s.nodes x).owner
      { (s.store (s.nodes (s.nodes x).owner).data off src).nodes (s.nodes x).owner with
        size := len }) x where
  touched := (touched_store s _ _ _).trans (touched_setNode rfl)
  regular := hreg
  size z _ hz := by rw [setNode_of_ne hz, store_nodes]
  capacity z := by rw [setNode_size_capacity, store_nodes]
  fits h := by
    rw [setNode_self]
    exact hlen h
  bytes b hb := store_bytes hb off src

theorem Wrote.node (h : Wrote s s' x) :
    Wrote s (s'.setNode x { s'.nodes x with size := (s'.nodes (s.nodes x).owner).size }) x where
  touched := h.touched.trans (touched_setNode rfl)
  regular := h.regular
  size z hzx hzo := by
    rw [setNode_of_ne hzx]
    exact h.size z hzx hzo
  capacity z := by
    rw [setNode_size_capacity]
    exact h.capacity z
  fits hle := by
    by_cases hself : (s.nodes x).owner = x
    · rw [hself, setNode_self, ← hself]
      exact h.fits hle
    · rw [setNode_of_ne hself]
      exact h.fits hle
  bytes := h.bytes

theorem wrote_write (s : Fs) (x off : ℕ) (src : List UInt8) :
    (s.vfsFileWrite x off src).1 = s ∨ Wrote s (s.vfsFileWrite x off src).1 x := by
  unfold vfsFileWrite
  split
  · exact .inl rfl
  next hreg =>
  have hreg : (s.nodes x).type = .file := by simpa [vfsFileIsRegular, isType] using hreg
  dsimp only
  split
  · exact .inl rfl
  next hoff =>
  refine .inr (wrote_owner hreg _ _ (fun hle ↦ ?_)).node
  rw [store_nodes, List.length_take]
  omega

theorem wrote_writeKernel (s : Fs) (x : ℕ) (data : List UInt8) :
    (s.vfsWriteKernelFile x data).1 = s ∨ Wrote s (s.vfsWriteKernelFile x data).1 x := by
  unfold vfsWriteKernelFile
  split
  · exact .inl rfl
  next hreg =>
  have hreg : (s.nodes x).type = .file := by simpa [vfsFileIsRegular, isType] using hreg
  dsimp only
  split
  · exact .inl rfl
  next hlen =>
  have hw := (wrote_owner hreg 0 data (fun _ ↦ not_lt.1 hlen)).node
  rw [setNode_self] at hw
  exact .inr hw

theorem wrote_truncate (s : Fs) (x len : ℕ) :
    (s.vfsFileTruncate x len).1 = s ∨ Wrote s (s.vfsFileTruncate x len).1 x := by
  unfold vfsFileTruncate
  split
  · exact .inl rfl
  next hreg =>
  have hreg : (s.nodes x).type = .file := by simpa [vfsFileIsRegular, isType] using hreg
  dsimp only
  split
  · exact .inl rfl
  next hlen =>
  exact .inr (wrote_owner hreg _ _ (fun _ ↦ not_lt.1 hlen))

theorem Own.sameFile (h : s.Own True) (hx : x < s.used) (hy : y < s.used)
    (hne : (s.nodes x).owner ≠ (s.nodes y).owner) (hw : s' = s ∨ Wrote s s' x) :
    SameFile s s' y := by
  obtain rfl | hw := hw
  · exact ⟨rfl, rfl⟩
  have htype : ∀ z, (s'.nodes z).type = (s.nodes z).type := fun z ↦ by rw [hw.touched.nodes z]
  have howner : ∀ z, (s'.nodes z).owner = (s.nodes z).owner := fun z ↦ by rw [hw.touched.nodes z]
  have hdata : ∀ z, (s'.nodes z).data = (s.nodes z).data := fun z ↦ by rw [hw.touched.nodes z]
  have hox := h.owner x hx
  have hoy := h.owner y hy
  have hoyx : (s.nodes y).owner ≠ x := by
    intro heq
    have hself := hoy.2
    rw [heq] at hself
    exact hne (hself.trans heq.symm)
  have hsize : s'.vfsFileSize y = s.vfsFileSize y := by
    unfold vfsFileSize vfsFileIsRegular isType
    simp only [htype, howner, hw.size _ hoyx hne.symm]
    split_ifs with hreg hboot
    · rfl
    · have hofile : (s.nodes (s.nodes x).owner).type = .file := by
        by_cases hself : (s.nodes x).owner = x
        · rw [hself]
          exact hw.regular
        · exact (h.file x hx hself).2
      have hboot := of_decide_eq_true hboot
      refine hw.size y ?_ ?_
      · rintro rfl
        rw [hw.regular] at hboot
        cases hboot
      · rintro rfl
        rw [hofile] at hboot
        cases hboot
    · rfl
  refine ⟨?_, hsize⟩
  have hfd : s'.vfsFileData y = s.vfsFileData y := by
    unfold vfsFileData vfsFileIsRegular isType
    simp only [htype, howner, hdata]
  unfold content
  rw [hfd, hsize]
  cases hb : s.vfsFileData y with
  | none => rfl
  | some b =>
    dsimp only
    have hby : (s.nodes (s.nodes y).owner).data = some b := by
      unfold vfsFileData at hb
      split_ifs at hb
      exact hb
    rw [hw.bytes b (fun hbx ↦ hne (h.one _ _ b hox hoy hbx hby (fun _ ↦ trivial)))]

theorem Own.ncard_entries (h : s.Own True) (hl : s.tree.Linked) {i : ℕ}
    (hdir : (s.nodes i).type ≠ .dir) :
    Set.ncard {x | (s.nodes x).owner = i ∧ ∃ p, x ∈ (s.nodes p).children} = (s.entries i).card := by
  rw [← Set.ncard_coe_finset]
  congr 1
  ext x
  simp only [Set.mem_ofPred_eq, Finset.mem_coe, mem_entries]
  constructor
  · rintro ⟨hxo, p, hx⟩
    refine ⟨hl.mem_used hx, hxo, ?_⟩
    rw [show (s.nodes x).parent = some p from hl.child p x hx]
    exact Option.some_ne_none p
  · rintro ⟨hx, hxo, hpar⟩
    obtain ⟨p, hp⟩ := Option.ne_none_iff_exists'.1 hpar
    refine ⟨hxo, p, hl.file x p hp (decide_eq_false ?_)⟩
    by_cases hself : (s.nodes x).owner = x
    · rw [← hself, hxo]
      exact hdir
    · rw [(h.file x hx hself).1]
      exact nofun

theorem Sound.owned (h : Sound s) : s.Owned where
  buffer i j b hi hj _ _ hib hjb := h.own.one i j b hi hj hib hjb (fun _ ↦ trivial)
  slot k := by
    rw [h.own.slot k]
    exact exists_congr
      (fun i ↦ ⟨fun hi ↦ ⟨hi.1, h.own.alive i k hi.1 hi.2, hi.2⟩, fun hi ↦ ⟨hi.1, hi.2.2⟩⟩)
  nlink i hi hdir := by
    rw [h.own.ncard_entries h.good.linked hdir]
    exact h.own.count i hi hdir
  write x y off src hx hy hne := h.own.sameFile hx hy hne (wrote_write s x off src)
  writeKernel x y data hx hy hne := h.own.sameFile hx hy hne (wrote_writeKernel s x data)
  truncate x y len hx hy hne := h.own.sameFile hx hy hne (wrote_truncate s x len)

def run (s : Fs) (calls : List VfsCall) : Fs := calls.foldl call s

/-- No call of the sequence meets a condition in the state that it is made in. -/
def Spared (bad : Fs → VfsCall → Prop) : Fs → List VfsCall → Prop
  | _, [] => True
  | s, c :: rest => ¬ bad s c ∧ Spared bad (s.call c) rest

theorem Sound.run (h : Sound s) (hs : Spared Clashes s calls) : Sound (s.run calls) := by
  induction calls generalizing s with
  | nil => exact h
  | cons c rest ih => exact ih (h.changes (call_changes h.good False.elim (fun _ ↦ hs.1))) hs.2

/-- Files do not share their data in a run that makes no log of Xorg while an inode has its buffer.
-/
theorem run_owned (calls : List VfsCall) (h : Spared Clashes vfsInit calls) :
    (vfsInit.run calls).Owned :=
  (vfsInit_sound.run h).owned

def logTwice : List VfsCall :=
  [.createFile xorgLogPath true, .rename xorgLogPath (text "/var/log/Xorg.0.log.old"),
    .createFile xorgLogPath true]

/-- The log is made once, and a second file beside it. -/
theorem run_owned_log :
    Spared Clashes vfsInit [.createFile xorgLogPath true, .createFile (text "/tmp/a") false] ∧
    (vfsInit.run [.createFile xorgLogPath true, .createFile (text "/tmp/a") false]).Owned := by
  obtain ⟨hnone, hne⟩ : (∀ i < vfsInit.used, (vfsInit.nodes i).data ≠ some .xorg) ∧
      text "/tmp/a" ≠ xorgLogPath := by
    decide +kernel
  have hspared : Spared Clashes vfsInit [.createFile xorgLogPath true,
      .createFile (text "/tmp/a") false] := by
    refine ⟨?_, ?_, trivial⟩
    · rintro ⟨-, -, i, hi, -, hdata⟩
      exact hnone i hi hdata
    · rintro ⟨hpath, -⟩
      exact hne hpath
  exact ⟨hspared, run_owned _ hspared⟩

/-- The log is renamed and made again: two files have its buffer. -/
theorem not_run_owned : ¬ ∀ calls, (vfsInit.run calls).Owned := by
  intro h
  obtain ⟨hinode, hnode⟩ :
      ((59 < (vfsInit.run logTwice).used ∧ ((vfsInit.run logTwice).nodes 59).owner = 59) ∧
        60 < (vfsInit.run logTwice).used ∧ ((vfsInit.run logTwice).nodes 60).owner = 60) ∧
      (0 < ((vfsInit.run logTwice).nodes 59).nlink ∧ 0 < ((vfsInit.run logTwice).nodes 60).nlink) ∧
      ((vfsInit.run logTwice).nodes 59).data = some .xorg ∧
        ((vfsInit.run logTwice).nodes 60).data = some .xorg := by
    decide +kernel
  have heq := (h logTwice).buffer 59 60 .xorg hinode.1 hinode.2 hnode.1.1 hnode.1.2 hnode.2.1
    hnode.2.2
  cases heq

end Fs

end YabroOS.Vfs
