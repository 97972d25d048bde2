import YabroOS.Vfs.FileOpens

namespace YabroOS.Box

open Vfs

/-- The process that runs a command: its descriptor table and directory, what `pseudo_lookup` says
of a path and the type of its node (whether it is a directory), the files of the boot image, and
`sys_open` of what is not a file of the tree. -/
structure Caller where
  table : Fin 32
  cwd : ℕ
  pseudo : List UInt8 → Option NodeType → Option Bool
  bootFile : List UInt8 → Bool
  openOther : Files → List UInt8 → ℕ → Files × ℤ

def baseNameB (p : List UInt8) : List UInt8 := p.rtakeWhile (· ≠ slash)

def makeChildPathB (dir name : List UInt8) (cap : ℕ) : Option (List UInt8) :=
  if cap < 2 ∨ cap ≤ dir.length then none
  else
    let slashed := dir ≠ [] ∧ dir.getLast? ≠ some slash
    if slashed ∧ cap ≤ dir.length + 1 then none
    else
      let out := if slashed then dir ++ [slash] else dir
      if name ≠ [] ∧ cap ≤ out.length + name.length then none else some (out ++ name)

namespace Caller

variable (k : Caller)

def resolve (s : Fs) (path : List UInt8) : Option (List UInt8) :=
  match Fs.userCopyCstr (some path) with
  | none => none
  | some raw => (s.resolveProcessPath k.cwd raw 128).toOption

/-- `sys_stat`, as far as the commands look at it: whether the path is a directory. -/
def sysStat (s : Fs) (path : List UInt8) : Fs × Option Bool :=
  match k.resolve s path with
  | none => (s, none)
  | some p =>
    match s.vfsLookup p with
    | (s, x) =>
      (s, match k.pseudo p (x.map fun x ↦ (s.nodes x).type), x with
        | some dir, _ => some dir
        | none, some x => some (s.isType x .dir)
        | none, none => if k.bootFile p then some false else none)

def statIsDirB (s : Fs) (path : List UInt8) : Fs × Bool :=
  ((k.sysStat s path).1, (k.sysStat s path).2 = some true)

/-- What `sys_open` opens as a file of the tree, or refuses: no device, no directory and no file of
the boot image. -/
def Plain (s : Fs) (p : List UInt8) (flags : ℕ) : Prop :=
  match (s.vfsLookup p).2 with
  | none => k.pseudo p none = none ∧ (flags.testBit 6 = true ∨ k.bootFile p = false)
  | some x =>
    k.pseudo p (some (s.nodes x).type) = none ∧ (s.nodes x).type ≠ .dir ∧
      ((s.nodes x).type = .bootFile → flags % 4 ≠ 0)

instance (s : Fs) (p : List UInt8) (flags : ℕ) : Decidable (k.Plain s p flags) := by
  unfold Plain
  split <;> infer_instance

def sysOpen (st : Files) (path : List UInt8) (flags : ℕ) : Files × ℤ :=
  match k.resolve st.fs path with
  | none => (st, -36)
  | some p =>
    if k.Plain st.fs p flags then st.sysOpenResolved k.table p flags else k.openOther st p flags

def writeAll (fd : ℕ) : ℕ → Files → List UInt8 → Files × Bool
  | 0, st, data => (st, data = [])
  | n + 1, st, data =>
    if data = [] then (st, true)
    else
      match st.sysWrite k.table fd (some data) with
      | (st, w) => if w ≤ 0 then (st, false) else writeAll fd n st (data.drop w.toNat)

/-- The loop of `cp_one`, with its `rc`; none when the rounds have not been enough. -/
def copyLoop (fin fout : ℕ) : ℕ → Files → Files × Option ℤ
  | 0, st => (st, none)
  | n + 1, st =>
    let f := st.tables k.table fin
    let data := (st.fs.readData f 1024 (st.fdOffsetGet f)).2
    match st.sysRead k.table fin 1024 true true with
    | (st, r) =>
      if r < 0 then (st, some 1)
      else if r = 0 then (st, some 0)
      else
        match k.writeAll fout data.length st data with
        | (st, ok) => if ok then copyLoop fin fout n st else (st, some 1)

/-- `cp_one` up to the descriptor of the source. -/
def openSource (st : Files) (src : List UInt8) : Files × Option ℕ :=
  match k.sysStat st.fs src with
  | (s, some false) =>
    match k.sysOpen { st with fs := s } src 0 with
    | (st, fin) => (st, if fin < 0 then none else some fin.toNat)
  | (s, _) => ({ st with fs := s }, none)

/-- `cp_one`. The number of rounds of its loop is bounded by the bytes that a file can have. -/
def cpOne (st : Files) (src dst : List UInt8) : Files × Option ℤ :=
  if src = dst then (st, some 1)
  else
    match k.openSource st src with
    | (st, none) => (st, some 1)
    | (st, some fin) =>
      match k.sysOpen st dst (1 + 64 + 512) with
      | (st, fout) =>
        if fout < 0 then ((st.sysClose k.table fin).1, some 1)
        else
          match k.copyLoop fin fout.toNat (vfsDataSlotSize + 1) st with
          | (st, rc) => (((st.sysClose k.table fin).1.sysClose k.table fout.toNat).1, rc)

/-- What `cmd_cp` with one source calls `cp_one` with: the state after `stat_is_dir_b` and the
destination. -/
def destination (st : Files) (src dest : List UInt8) : Files × Option (List UInt8) :=
  match k.statIsDirB st.fs dest with
  | (s, dir) =>
    ({ st with fs := s }, if dir then makeChildPathB dest (baseNameB src) 256 else some dest)

def cmdCp (st : Files) (src dest : List UInt8) : Files × Option ℤ :=
  match k.destination st src dest with
  | (st, none) => (st, some 1)
  | (st, some out) =>
    match k.cpOne st src out with
    | (st, rc) => (st, rc.map fun rc ↦ if rc = 0 then 0 else 1)

end Caller

end YabroOS.Box

namespace YabroOS.Box.Caller

open Vfs Lib Function

variable {k : Caller} {st : Files} {fin fout y z off off' : ℕ} {c c' : Fin 512}
  {data src dst : List UInt8} {s : Fs}

structure Transfer (k : Caller) (st : Files) (fin fout y z : ℕ) (c c' : Fin 512) (off off' : ℕ) :
    Prop where
  live : st.fs.Live
  source : st.At k.table fin y c off
  dest : st.At k.table fout z c' off'
  flags : (st.tables k.table fout).flags = 1 + 64 + 512
  sourceFd : fin < maxFiles
  destFd : fout < maxFiles
  ne : fin ≠ fout
  cells : c ≠ c'
  sourceName : st.fs.HasName y
  destName : st.fs.HasName z

theorem Transfer.seekSource (h : k.Transfer st fin fout y z c c' off off') (v size : ℕ) :
    (st.fdOffsetSet k.table fin v size).fs = st.fs ∧
      k.Transfer (st.fdOffsetSet k.table fin v size) fin fout y z c c' v off' := by
  obtain ⟨hsource, -, hfs⟩ := h.source.offsetSet v size
  obtain ⟨hdest, hsame⟩ := h.source.offsetSet_other h.dest h.ne.symm h.cells.symm v size
  exact ⟨hfs, hfs ▸ h.live, hsource, hdest, hsame ▸ h.flags, h.sourceFd, h.destFd, h.ne, h.cells,
    hfs ▸ h.sourceName, hfs ▸ h.destName⟩

theorem Transfer.seekDest (h : k.Transfer st fin fout y z c c' off off') (v size : ℕ) :
    (st.fdOffsetSet k.table fout v size).fs = st.fs ∧
      k.Transfer (st.fdOffsetSet k.table fout v size) fin fout y z c c' off v := by
  obtain ⟨hdest, hflags, hfs⟩ := h.dest.offsetSet v size
  obtain ⟨hsource, -⟩ := h.dest.offsetSet_other h.source h.ne h.cells v size
  exact ⟨hfs, hfs ▸ h.live, hsource, hdest, hflags.trans h.flags, h.sourceFd, h.destFd, h.ne,
    h.cells, hfs ▸ h.sourceName,
    hfs ▸ h.destName⟩

theorem Transfer.read (h : k.Transfer st fin fout y z c c' off off') :
    (st.fs.readData (st.tables k.table fin) 1024 (st.fdOffsetGet (st.tables k.table fin))).2 =
      ((st.fs.content y).drop off).take 1024 ∧
      ∃ st', st.sysRead k.table fin 1024 true true =
        (st', ((((st.fs.content y).drop off).take 1024).length : ℤ)) ∧ st'.fs = st.fs ∧
        k.Transfer st' fin fout y z c c' (off + (((st.fs.content y).drop off).take 1024).length)
          off' := by
  obtain ⟨b, hheld⟩ := h.live.held h.sourceName
  have hread := hheld.readData h.source.vnode 1024 off
  have huse : st.inUse k.table fin = true := decide_eq_true ⟨h.sourceFd, h.source.inUse⟩
  rw [h.source.fdOffsetGet, hread]
  refine ⟨rfl, ?_⟩
  have hcount := congrArg Prod.fst hread
  unfold Fs.readData at hcount
  dsimp only at hcount
  have hsys : ∃ size, st.sysRead k.table fin 1024 true true =
      (st.fdOffsetSet k.table fin (off + (((st.fs.content y).drop off).take 1024).length) size,
        ((((st.fs.content y).drop off).take 1024).length : ℤ)) := by
    unfold Files.sysRead
    rw [huse, if_neg Bool.true_eq_false.mp, if_neg (fun hbad ↦ Bool.true_eq_false.mp hbad.2)]
    dsimp only
    rw [if_neg (fun hbad ↦ Bool.true_eq_false.mp hbad.2.2), h.source.fdOffsetGet, hcount]
    exact ⟨_, rfl⟩
  obtain ⟨size, hsys⟩ := hsys
  obtain ⟨hfs, hmoved⟩ := h.seekSource (off + (((st.fs.content y).drop off).take 1024).length) size
  exact ⟨_, hsys, hfs, hmoved⟩

theorem Transfer.write (h : k.Transfer st fin fout y z c c' off off')
    (hoff : (st.fs.content z).length = off') (hne : data ≠ []) (hshort : data.length ≤ 1024)
    (hfit : off' + data.length ≤ vfsDataSlotSize) :
    ∃ st', k.writeAll fout data.length st data = (st', true) ∧ st.fs.Appended st'.fs z data ∧
      k.Transfer st' fin fout y z c c' off (off' + data.length) := by
  have huse : st.inUse k.table fout = true := decide_eq_true ⟨h.destFd, h.dest.inUse⟩
  have hreg : st.fs.vfsFileIsRegular z = true := decide_eq_true h.destName.2.1
  obtain ⟨s, hloop, happended⟩ := h.live.writeLoop_end h.destName hoff (Nat.zero_le data.length)
    (by rw [Nat.sub_zero]; exact hfit) (Nat.sub_le data.length 0)
  rw [Nat.sub_zero] at hloop
  rw [List.drop_zero] at happended
  have hsys : st.sysWrite k.table fout (some data) =
      (({ st with fs := s } : Files).fdOffsetSet k.table fout (off' + data.length)
        (s.vfsFileSize z), (data.length : ℤ)) := by
    unfold Files.sysWrite
    rw [if_neg (not_le.2 h.destFd)]
    dsimp only
    rw [if_neg (by omega),
      if_neg hne, huse, if_neg Bool.true_eq_false.mp, h.dest.vnode, h.flags, hreg, if_neg (by decide),
      h.dest.fdOffsetGet, show Nat.testBit (1 + 64 + 512) 10 = false from rfl, hloop]
  have hfs : k.Transfer { st with fs := s } fin fout y z c c' off off' :=
    ⟨happended.live, h.source.withFs s, h.dest.withFs s, h.flags, h.sourceFd, h.destFd, h.ne,
      h.cells,
      happended.touched.hasName.2 h.sourceName, happended.touched.hasName.2 h.destName⟩
  obtain ⟨hsame, hmoved⟩ := hfs.seekDest (off' + data.length) (s.vfsFileSize z)
  refine ⟨_, ?_, hsame ▸ happended, hmoved⟩
  obtain ⟨n, hn⟩ : ∃ n, data.length = n + 1 :=
    ⟨data.length - 1, by have := List.length_pos_iff.2 hne; omega⟩
  have hdone : ∀ n st, k.writeAll fout n st [] = (st, true) := by
    intro n st
    cases n with
    | zero => rfl
    | succ n => rfl
  conv_lhs => rw [hn, writeAll, if_neg hne, hsys]
  dsimp only
  rw [if_neg (by omega), Int.toNat_natCast, List.drop_length, hdone]

theorem Transfer.copyLoop {n : ℕ} (h : k.Transfer st fin fout y z c c' off off')
    (hoff : (st.fs.content z).length = off')
    (hdiff : (st.fs.content y).drop off ≠ [] → (st.fs.nodes y).owner ≠ (st.fs.nodes z).owner)
    (hfit : off' + ((st.fs.content y).drop off).length ≤ vfsDataSlotSize)
    (hn : ((st.fs.content y).drop off).length < n) :
    ∃ st', k.copyLoop fin fout n st = (st', some 0) ∧
      st.fs.Appended st'.fs z ((st.fs.content y).drop off) := by
  induction n generalizing st off off' with
  | zero => omega
  | succ n ih =>
    obtain ⟨hdata, st₁, hread, hfs₁, h₁⟩ := h.read
    rw [Caller.copyLoop, hdata, hread]
    dsimp only
    rw [if_neg (by omega)]
    by_cases hend : (st.fs.content y).drop off = []
    · rw [hend, List.take_nil, List.length_nil, if_pos Nat.cast_zero]
      exact ⟨st₁, rfl, by rw [hfs₁]; exact h.live.appended_refl z⟩
    have hlen := List.length_pos_iff.2 hend
    have htake : (((st.fs.content y).drop off).take 1024).length =
        min 1024 ((st.fs.content y).drop off).length := List.length_take
    rw [if_neg (by omega)]
    have hne : ((st.fs.content y).drop off).take 1024 ≠ [] := List.ne_nil_of_length_pos (by omega)
    obtain ⟨st₂, hwrite, happended, h₂⟩ :=
      h₁.write (by rw [hfs₁]; exact hoff) hne (by omega) (by omega)
    rw [hwrite]
    dsimp only
    rw [if_pos rfl]
    rw [hfs₁] at happended
    have hsame : st₂.fs.content y = st.fs.content y :=
      (happended.spares.same y h.sourceName (hdiff hend)).1
    have hrest : (st₂.fs.content y).drop (off + (((st.fs.content y).drop off).take 1024).length) =
        ((st.fs.content y).drop off).drop (((st.fs.content y).drop off).take 1024).length := by
          rw [hsame, List.drop_drop]
    have hjoin : ((st.fs.content y).drop off).take 1024 ++ ((st.fs.content y).drop off).drop
        (((st.fs.content y).drop off).take 1024).length = (st.fs.content y).drop off := by
      conv_rhs => rw [← List.take_append_drop 1024 ((st.fs.content y).drop off)]
      congr 1
      rw [htake]
      rcases Nat.le_total 1024 ((st.fs.content y).drop off).length with hle | hle
      · rw [Nat.min_eq_left hle]
      · rw [Nat.min_eq_right hle, List.drop_length, List.drop_eq_nil_of_le hle]
    have hleft := congrArg List.length hjoin
    rw [List.length_append] at hleft
    obtain ⟨st', hloop, hall⟩ := ih h₂ (by rw [happended.content, List.length_append, hoff])
      (fun _ ↦ by
        rw [happended.touched.nodes y, happended.touched.nodes z]
        exact hdiff hend) (by rw [hrest]; omega) (by rw [hrest]; omega)
    rw [hrest] at hall
    refine ⟨st', hloop, ?_⟩
    have hboth := happended.trans hall
    rwa [hjoin] at hboth

def Regular (k : Caller) (s : Fs) (path : List UInt8) (y : ℕ) : Prop :=
  ∃ p, k.resolve s path = some p ∧ (s.vfsLookup p).2 = some y ∧ (s.nodes y).type = .file ∧
    k.pseudo p (some .file) = none

/-- A path that opens for a copy as a file of the tree, if at all, and not as a second log of Xorg.
-/
def Ordinary (k : Caller) (s : Fs) (path : List UInt8) : Prop :=
  ∀ p, k.resolve s path = some p → k.Plain s p (1 + 64 + 512) ∧
    ¬ (s.vfsLookup p).1.Clashes (.createFile p true)

/-- A copy of a file that returns: the file and all but the one at the path keep their bytes, and if
it returns 0 there are the bytes of the file at the path. The path and what it leads to are those of
the files when the copy opens it. -/
structure Faithful (s opening : Fs) (path : Option (List UInt8)) (y : ℕ) (r : Files × Option ℤ) :
    Prop where
  returns : ∃ rc, r.2 = some rc
  same : ∀ z, s.HasName z → (z = y ∨ ∀ p, path = some p → ¬ opening.Shares p z) →
    Fs.SameFile s r.1.fs z
  copied : r.2 = some 0 → ∃ p z, path = some p ∧ (r.1.fs.vfsLookup p).2 = some z ∧
    (r.1.fs.nodes z).type = .file ∧ r.1.fs.content z = s.content y

def opening (k : Caller) (st : Files) (src dst : List UInt8) : Fs × Option (List UInt8) :=
  ((k.openSource st src).1.fs, k.resolve (k.openSource st src).1.fs dst)

/-- `cp_one` comes to open the inode of its own source. -/
def Clobbers (k : Caller) (st : Files) (src dst : List UInt8) (y : ℕ) : Prop :=
  src ≠ dst ∧ (k.openSource st src).2 ≠ none ∧ (k.openSource st src).1.findFreeFd k.table 0 ≠ none ∧
    (∃ p, (k.opening st src dst).2 = some p ∧ (k.opening st src dst).1.Shares p y) ∧
      st.fs.content y ≠ []

theorem sysClose_fs (st : Files) (t : Fin 32) (fd : ℕ) : (st.sysClose t fd).1.fs = st.fs :=
  (@Files.close_shifts st t fd (fun _ ↦ True) (fun _ ↦ True) trivial).fs

theorem sysStat_live (h : s.Live) (path : List UInt8) :
    (k.sysStat s path).1.Live ∧ ∀ o, s.Spares (k.sysStat s path).1 o := by
  unfold sysStat
  cases k.resolve s path with
  | none => exact ⟨h, .refl s⟩
  | some p => exact ⟨h.lookup p, (Fs.lookup_seen s p).spares h.stored.own⟩

theorem openSource_spec (h : st.fs.Live) (hsrc : k.Regular (k.sysStat st.fs src).1 src y) :
    (k.openSource st src).1.fs.Live ∧ (∀ o, st.fs.Spares (k.openSource st src).1.fs o) ∧
      ∀ fin, (k.openSource st src).2 = some fin → (k.openSource st src).1.fs.HasName y ∧
        fin < maxFiles ∧
        ∃ c, (k.openSource st src).1.At k.table fin y c 0 ∧
          ((k.openSource st src).1.openDescs c).used = true := by
  obtain ⟨hlive, hspares⟩ := @sysStat_live k st.fs h src
  unfold openSource
  generalize k.sysStat st.fs src = r at hlive hspares hsrc
  obtain ⟨s, d⟩ := r
  rcases d with _ | d
  · exact ⟨hlive, hspares, nofun⟩
  cases d with
  | true => exact ⟨hlive, hspares, nofun⟩
  | false =>
    obtain ⟨p, hres, hlook, hfile, hpseudo⟩ := hsrc
    dsimp only at hlive hspares hres hlook hfile ⊢
    have hplain : k.Plain s p 0 := by
      unfold Plain
      rw [hlook]
      exact ⟨by rw [hfile]; exact hpseudo, by rw [hfile]; exact nofun,
        fun hboot ↦ absurd (hfile.symm.trans hboot) nofun⟩
    obtain ⟨st', r, hopen, hend⟩ :=
      @Files.sysOpenResolved_spec { st with fs := s } k.table p 0 hlive rfl nofun
    have hsys : k.sysOpen { st with fs := s } src 0 = (st', r) := by
      unfold sysOpen
      rw [hres]
      dsimp only
      rw [if_pos hplain, hopen]
    rw [hsys]
    dsimp only at hend ⊢
    obtain ⟨hneg, hlive', hquiet, -⟩ | ⟨z, hleads, -, hend⟩ := hend
    · rw [if_pos hneg]
      exact ⟨hlive', fun o ↦ (hspares o).trans (hquiet o), nofun⟩
    · refine ⟨hleads.live, fun o ↦ (hspares o).trans (hleads.spares o nofun), fun fin hfin ↦ ?_⟩
      obtain hneg | ⟨fd, c, rfl, hgains⟩ := hend
      · rw [if_pos hneg] at hfin
        cases hfin
      rw [if_neg (by omega), Int.toNat_natCast] at hfin
      obtain rfl := Option.some.inj hfin
      obtain ⟨hz, -⟩ | ⟨hnone, -⟩ := hleads.reached.origin
      · obtain rfl : z = y := Option.some.inj (hz.symm.trans hlook)
        exact ⟨hleads.reached.name, hgains.bound, c, hgains.at_, hgains.used⟩
      · exact absurd (hnone.symm.trans hlook) nofun

theorem openDest_spec (h : st.fs.Live) (hdst : k.Ordinary st.fs dst) :
    ∃ st' r, k.sysOpen st dst (1 + 64 + 512) = (st', r) ∧
      (r < 0 ∧ (∀ o, st.fs.Spares st'.fs o) ∧
          (st.findFreeFd k.table 0 = none ∨ ∀ p z, k.resolve st.fs dst = some p →
            (st.fs.vfsLookup p).2 = some z → (st.fs.nodes z).type ≠ .file) ∨
        ∃ p z, k.resolve st.fs dst = some p ∧ st.Leads st' p (1 + 64 + 512) z ∧
          st.findFreeFd k.table 0 ≠ none ∧
            (r < 0 ∨ ∃ fd c, r = (fd : ℕ) ∧ st.Gains st' k.table fd z c (1 + 64 + 512))) := by
  unfold sysOpen
  unfold Ordinary at hdst
  cases hres : k.resolve st.fs dst with
  | none => exact ⟨_, _, rfl, .inl ⟨by decide, .refl _, .inr nofun⟩⟩
  | some p =>
    obtain ⟨hplain, hclash⟩ := hdst p hres
    obtain ⟨st', r, hopen, hend⟩ :=
      @Files.sysOpenResolved_spec st k.table p (1 + 64 + 512) h rfl (fun _ ↦ hclash)
    refine ⟨st', r, by dsimp only; rw [if_pos hplain, hopen], ?_⟩
    obtain ⟨hneg, -, hquiet, hwhy⟩ | ⟨z, hend⟩ := hend
    · refine .inl ⟨hneg, hquiet, hwhy.imp_right fun hwhy p' z hp' ↦ ?_⟩
      obtain rfl := Option.some.inj hp'
      exact hwhy z
    · exact .inr ⟨p, z, rfl, hend⟩

theorem copyLoop_leads {st₁ : Files} {p : List UInt8} {fd : ℕ} {c c' : Fin 512}
    (hy : st₁.fs.HasName y) (hfin : fin < maxFiles) (hat : st₁.At k.table fin y c 0)
    (hused : (st₁.openDescs c).used = true) (hleads : st₁.Leads st p (1 + 64 + 512) z)
    (hgains : st₁.Gains st k.table fd z c' (1 + 64 + 512)) :
    ∃ st', k.copyLoop fin fd (vfsDataSlotSize + 1) st = (st', some 0) ∧
      st.fs.Appended st'.fs z (st.fs.content y) := by
  have hspares := hleads.spares _ (fun _ ↦ rfl)
  have hname := hspares.hasName y hy
  obtain ⟨hfd, hcell, hsource⟩ := hgains.other hat hused
  have htransfer : k.Transfer st fin fd y z c c' 0 0 :=
    ⟨hleads.live, hsource, hgains.at_, hgains.flags, hfin, hgains.bound, hfd, hcell, hname,
      hleads.reached.name⟩
  have hempty := hleads.empty rfl
  have hlen : (st.fs.content y).length ≤ vfsDataSlotSize := by
    obtain ⟨b, hheld⟩ := hleads.live.held hname
    rw [hheld.content, length_window]
    exact hheld.fits
  obtain ⟨st', hloop, happended⟩ :=
    htransfer.copyLoop (n := vfsDataSlotSize + 1) (by rw [hempty, List.length_nil])
    (fun hne howner ↦
      hne (by rw [List.drop_zero, hleads.live.content_eq hname hleads.reached.name howner, hempty]))
    (by rw [List.drop_zero, Nat.zero_add]; exact hlen)
      (by rw [List.drop_zero]; exact Nat.lt_succ_of_le hlen)
  rw [List.drop_zero] at happended
  exact ⟨st', hloop, happended⟩

theorem cpOne_leads (h : st.fs.Live) (hsrc : k.Regular (k.sysStat st.fs src).1 src y)
    (hdst : k.Ordinary (k.openSource st src).1.fs dst) :
    ∃ st' rc, k.cpOne st src dst = (st', some rc) ∧
      (rc ≠ 0 ∧ (∀ o, st.fs.Spares st'.fs o) ∧
          (src = dst ∨ (k.openSource st src).2 = none ∨
            (k.openSource st src).1.findFreeFd k.table 0 = none ∨
            ∀ p z, (k.opening st src dst).2 = some p → ((k.opening st src dst).1.vfsLookup p).2 =
              some z → ((k.opening st src dst).1.nodes z).type ≠ .file) ∨
        ∃ p z st₂ data, (src ≠ dst ∧ (k.openSource st src).2 ≠ none ∧
          (k.openSource st src).1.findFreeFd k.table 0 ≠ none) ∧
          (k.opening st src dst).2 = some p ∧ (k.openSource st src).1.Leads st₂ p (1 + 64 + 512) z ∧
          st₂.fs.Appended st'.fs z data ∧
            (rc ≠ 0 ∧ data = [] ∨ rc = 0 ∧ data = st₂.fs.content y)) := by
  obtain ⟨hlive, hspares, hopened⟩ := openSource_spec h hsrc
  obtain ⟨st₂, r, hopen, hend⟩ := openDest_spec hlive hdst
  unfold opening cpOne
  by_cases hsame : src = dst
  · rw [if_pos hsame]
    exact ⟨st, 1, rfl, .inl ⟨by decide, .refl _, .inl hsame⟩⟩
  rw [if_neg hsame]
  generalize k.openSource st src = s₁ at hlive hspares hopened hopen hend
  obtain ⟨st₁, _ | fin⟩ := s₁
  · exact ⟨st₁, 1, rfl, .inl ⟨by decide, hspares, .inr (.inl rfl)⟩⟩
  dsimp only at hlive hspares hopened hopen hend ⊢
  rw [hopen]
  dsimp only
  obtain ⟨hy, hfin, c, hat, hused⟩ := hopened fin rfl
  obtain ⟨hneg, hquiet, hwhy⟩ | ⟨p, z, hres, hleads, hroom, hend⟩ := hend
  · rw [if_pos hneg]
    refine ⟨_, 1, rfl, .inl ⟨by decide, fun o ↦ ?_, .inr (.inr hwhy)⟩⟩
    rw [sysClose_fs]
    exact (hspares o).trans (hquiet o)
  refine Exists.imp (fun st' ↦ Exists.imp fun rc ↦ And.imp_right fun hx ↦ .inr ⟨p, z, st₂, hx⟩) ?_
  obtain hneg | ⟨fd, c', rfl, hgains⟩ := hend
  · rw [if_pos hneg]
    refine ⟨_, 1, rfl, [], ⟨hsame, nofun, hroom⟩, hres, hleads, ?_, .inl ⟨by decide, rfl⟩⟩
    rw [sysClose_fs]
    exact hleads.live.appended_refl z
  · obtain ⟨st', hloop, happended⟩ := copyLoop_leads hy hfin hat hused hleads hgains
    rw [if_neg (by omega), Int.toNat_natCast, hloop]
    refine ⟨_, 0, rfl, st₂.fs.content y, ⟨hsame, nofun, hroom⟩, hres, hleads, ?_, .inr ⟨rfl, rfl⟩⟩
    rw [sysClose_fs, sysClose_fs]
    exact happended

theorem sysStat_seen (k : Caller) (s : Fs) (path : List UInt8) : s.Seen (k.sysStat s path).1 := by
  unfold sysStat
  cases k.resolve s path with
  | none => exact .refl s
  | some p => exact Fs.lookup_seen s p

theorem Regular.hasName {path : List UInt8} (h : k.Regular s path y) (hs : s.Live) :
    s.HasName y := by
  obtain ⟨p, -, hlook, hfile, -⟩ := h
  exact (Fs.lookup_placed hs.sane.linked hlook).hasName hfile

theorem appended_shared {s' : Fs} {data : List UInt8} (hs : s.Live)
    (happended : s.Appended s' z data) (hy : s.HasName y) (hz : s.HasName z)
    (hempty : s.content z = []) (howner : (s.nodes y).owner = (s.nodes z).owner)
    (hdata : data = [] ∨ data = s.content y) : s.content y = [] ∧ s'.content y = [] := by
  have hnone : s.content y = [] := (hs.content_eq hy hz howner).trans hempty
  refine ⟨hnone, ?_⟩
  have hafter : (s'.nodes y).owner = (s'.nodes z).owner := by
    rw [happended.touched.nodes y, happended.touched.nodes z]
    exact howner
  rw [happended.live.content_eq (happended.touched.hasName.2 hy) (happended.touched.hasName.2 hz)
    hafter, happended.content, hempty,
    List.nil_append]
  obtain rfl | rfl := hdata
  · rfl
  · exact hnone

theorem cpOne_clobbers (h : st.fs.Live) (hsrc : k.Regular (k.sysStat st.fs src).1 src y)
    (hdst : k.Ordinary (k.openSource st src).1.fs dst) (hclobbers : k.Clobbers st src dst y) :
    (k.cpOne st src dst).1.fs.content y = [] := by
  obtain ⟨hne, hopened, hroom, ⟨p', hp', hshares⟩, -⟩ := hclobbers
  obtain ⟨hlive, hspares, -⟩ := openSource_spec h hsrc
  have hy : st.fs.HasName y :=
    (sysStat_seen k st.fs src).hasName.1 (hsrc.hasName (sysStat_live h src).1)
  have hy₁ := (hspares 0).hasName y hy
  obtain ⟨st', rc, hrun, hend⟩ := cpOne_leads h hsrc hdst
  rw [hrun]
  obtain ⟨-, -, hwhy⟩ | ⟨p, z, st₂, data, -, hp, hleads, happended, hdata⟩ := hend
  · obtain hsame | hnone | hfull | hother := hwhy
    · exact absurd hsame hne
    · exact absurd hnone hopened
    · exact absurd hfull hroom
    · obtain ⟨z, hz, hfile, -⟩ := hshares
      exact absurd hfile (hother p' z hp' hz)
  obtain rfl : p = p' := Option.some.inj (hp.symm.trans hp')
  have hspares₂ := hleads.spares _ (fun _ ↦ rfl)
  refine (appended_shared hleads.live happended (hspares₂.hasName y hy₁) hleads.reached.name
    (hleads.empty rfl) ?_ (hdata.imp And.right And.right)).2
  rw [hspares₂.owner y hy₁]
  exact (hleads.reached.shares_iff hlive.stored.own hy₁).2 hshares

theorem cpOne_faithful (h : st.fs.Live) (hsrc : k.Regular (k.sysStat st.fs src).1 src y)
    (hdst : k.Ordinary (k.openSource st src).1.fs dst) (hno : ¬ k.Clobbers st src dst y) :
    Faithful st.fs (k.opening st src dst).1 (k.opening st src dst).2 y (k.cpOne st src dst) := by
  obtain ⟨hlive, hspares, -⟩ := openSource_spec h hsrc
  have hy : st.fs.HasName y :=
    (sysStat_seen k st.fs src).hasName.1 (hsrc.hasName (sysStat_live h src).1)
  obtain ⟨st', rc, hrun, hend⟩ := cpOne_leads h hsrc hdst
  rw [hrun]
  obtain ⟨hrc, hquiet, -⟩ | ⟨p, z, st₂, data, hopen, hp, hleads, happended, hdata⟩ := hend
  · exact ⟨⟨rc, rfl⟩, fun x hx _ ↦ Fs.sameFile_of_spares hquiet hx,
      fun hzero ↦ absurd (Option.some.inj hzero) hrc⟩
  have hbefore := (hspares (st₂.fs.nodes z).owner).trans (hleads.spares _ (fun _ ↦ rfl))
  have hall := hbefore.trans happended.spares
  -- the inodes that are one when the destination is open were one before
  have hshares : ∀ x, st.fs.HasName x → (st.fs.nodes x).owner = (st₂.fs.nodes z).owner →
      (k.openSource st src).1.fs.Shares p x := by
    intro x hx howner
    refine (hleads.reached.shares_iff hlive.stored.own ((hspares 0).hasName x hx)).1 ?_
    rw [(hspares 0).owner x hx]
    exact howner
  have hnothing : (st.fs.nodes y).owner = (st₂.fs.nodes z).owner → st.fs.content y = [] := by
    intro howner
    by_contra hne
    exact hno ⟨hopen.1, hopen.2.1, hopen.2.2, ⟨p, hp, hshares y hy howner⟩, hne⟩
  have hend : (st.fs.nodes y).owner = (st₂.fs.nodes z).owner → st₂.fs.content y = [] ∧
      st'.fs.content y = [] := by
    intro howner
    refine appended_shared hleads.live happended (hbefore.hasName y hy) hleads.reached.name
      (hleads.empty rfl) ?_ (hdata.imp And.right And.right)
    rw [hbefore.owner y hy]
    exact howner
  refine ⟨⟨rc, rfl⟩, fun x hx hother ↦ ?_, fun hzero ↦ ⟨p, z, hp, ?_, ?_, ?_⟩⟩
  · by_cases howner : (st.fs.nodes x).owner = (st₂.fs.nodes z).owner
    · obtain rfl | hother := hother
      · have hsame : st'.fs.content x = st.fs.content x := by rw [(hend howner).2, hnothing howner]
        refine ⟨hsame, ?_⟩
        rw [← happended.live.length_content (hall.hasName x hx), ← h.length_content hx, hsame]
      · exact absurd (hshares x hx howner) (hother p hp)
    · exact hall.same x hx howner
  · rw [Fs.lookup_find happended.live.sited.toNamed, happended.touched.tree,
      ← Fs.lookup_find hleads.live.sited.toNamed]
    exact hleads.reached.found
  · exact (happended.touched.hasName.2 hleads.reached.name).2.1
  · obtain rfl := Option.some.inj hzero
    obtain rfl : data = st₂.fs.content y := (hdata.resolve_left (fun hbad ↦ hbad.1 rfl)).2
    rw [happended.content, hleads.empty rfl, List.nil_append]
    by_cases howner : (st.fs.nodes y).owner = (st₂.fs.nodes z).owner
    · rw [(hend howner).1, hnothing howner]
    · exact (hbefore.same y hy howner).1

def copyOpening (k : Caller) (st : Files) (src dest : List UInt8) : Fs × Option (List UInt8) :=
  match k.destination st src dest with
  | (st, none) => (st.fs, none)
  | (st, some out) => k.opening st src out

def Copies (k : Caller) (st : Files) (src dest : List UInt8) (y : ℕ) : Prop :=
  Faithful st.fs (k.copyOpening st src dest).1 (k.copyOpening st src dest).2 y (k.cmdCp st src dest)

theorem Faithful.before {s₀ o : Fs} {path : Option (List UInt8)} {r : Files × Option ℤ}
    (h : Faithful s₀ o path y r) (hspares : ∀ i, s.Spares s₀ i) (hy : s.HasName y) :
    Faithful s o path y r := by
  have hsame : ∀ x, s.HasName x → Fs.SameFile s s₀ x := fun _ ↦ Fs.sameFile_of_spares hspares
  refine ⟨h.returns, fun x hx hother ↦ ?_, fun hzero ↦ ?_⟩
  · have hafter := h.same x ((hspares 0).hasName x hx) hother
    exact ⟨hafter.1.trans (hsame x hx).1, hafter.2.trans (hsame x hx).2⟩
  · obtain ⟨p, z, hp, hlook, hfile, hcontent⟩ := h.copied hzero
    exact ⟨p, z, hp, hlook, hfile, hcontent.trans (hsame y hy).1⟩

/-- A copy is faithful except when the destination leads to the inode of the source, and the source
has bytes. -/
theorem cmdCp_iff (calls : List VfsCall) (hclash : Fs.Spared Fs.Clashes Fs.vfsInit calls)
    (hroot : Fs.Spared Fs.Uproots Fs.vfsInit calls)
    (k : Caller) (st : Files) (hst : st.fs = Fs.vfsInit.run calls) (src dest : List UInt8) (y : ℕ)
    (hsrc : k.Regular (k.sysStat (k.destination st src dest).1.fs src).1 src y)
    (hdst : ∀ out, (k.destination st src dest).2 = some out →
      k.Ordinary (k.openSource (k.destination st src dest).1 src).1.fs out) :
    k.Copies st src dest y ↔
      ¬ ∃ out, (k.destination st src dest).2 = some out ∧
        k.Clobbers (k.destination st src dest).1 src out y := by
  have hlive : st.fs.Live := hst ▸ Fs.run_live calls hclash hroot
  have hdest : (k.destination st src dest).1.fs.Live ∧
      (∀ o, st.fs.Spares (k.destination st src dest).1.fs o) ∧
      st.fs.Seen (k.destination st src dest).1.fs :=
        ⟨(sysStat_live hlive dest).1, (sysStat_live hlive dest).2, sysStat_seen k st.fs dest⟩
  unfold Copies copyOpening cmdCp
  generalize k.destination st src dest = d at hsrc hdst hdest
  obtain ⟨st₀, out⟩ := d
  dsimp only at hsrc hdst hdest ⊢
  obtain ⟨hlive₀, hspares, hseen⟩ := hdest
  have hy₀ : st₀.fs.HasName y :=
    (sysStat_seen k st₀.fs src).hasName.1 (hsrc.hasName (sysStat_live hlive₀ src).1)
  have hy := hseen.hasName.1 hy₀
  have hsame : ∀ x, st.fs.HasName x → Fs.SameFile st.fs st₀.fs x :=
    fun _ ↦ Fs.sameFile_of_spares hspares
  cases out with
  | none =>
    refine iff_of_true ⟨⟨1, rfl⟩, fun x hx _ ↦ hsame x hx,
      fun hzero ↦ absurd (Option.some.inj hzero) (by decide)⟩ ?_
    rintro ⟨out, hnone, -⟩
    cases hnone
  | some out =>
    have hord := hdst out rfl
    dsimp only
    constructor
    · rintro hcopies ⟨out', hout, hclobbers⟩
      obtain rfl := Option.some.inj hout
      have hempty := cpOne_clobbers hlive₀ hsrc hord hclobbers
      refine hclobbers.2.2.2.2 ?_
      rw [(hsame y hy).1, ← (hcopies.same y hy (.inl rfl)).1]
      exact hempty
    · intro hno
      have hfaithful := cpOne_faithful hlive₀ hsrc hord (fun hclobbers ↦ hno ⟨out, rfl, hclobbers⟩)
      obtain ⟨⟨rc, hrc⟩, hkept, hcopied⟩ := hfaithful.before hspares hy
      generalize k.cpOne st₀ src out = r at hrc hkept hcopied
      obtain ⟨st', o⟩ := r
      obtain rfl : o = some rc := hrc
      refine ⟨⟨_, rfl⟩, hkept, fun hzero ↦ hcopied ?_⟩
      by_cases hrc : rc = 0
      · exact congrArg some hrc
      · dsimp only [Option.map] at hzero
        rw [if_neg hrc] at hzero
        exact absurd (Option.some.inj hzero) (by decide)

def oneByte : List VfsCall := [.createFile (text "/f") false, .fileWrite 59 0 [97]]

theorem oneByte_spared :
    Fs.Spared Fs.Clashes Fs.vfsInit oneByte ∧ Fs.Spared Fs.Uproots Fs.vfsInit oneByte :=
  ⟨⟨fun h ↦ absurd h.1 (by decide), not_false, trivial⟩, not_false, not_false, trivial⟩

/-- A process in the root, where no path is a device or a file of the boot image. -/
def shellCaller : Caller where
  table := 0
  cwd := root
  pseudo _ _ := none
  bootFile _ := false
  openOther st _ _ := (st, -2)

theorem start_fs (s : Fs) : (Files.start s).fs = s := rfl

def oneFile : Files := Files.start (Fs.vfsInit.run oneByte)

theorem oneByte_regular : ∀ dest ∈ [text "/g", text "/./f"],
    shellCaller.Regular
    (shellCaller.sysStat (shellCaller.destination oneFile (text "/f") dest).1.fs (text "/f")).1
      (text "/f") 59 := by
  intro dest hdest
  refine ⟨text "/f", ?_⟩
  revert dest
  decide +kernel

theorem oneByte_ordinary : ∀ dest ∈ [text "/g", text "/./f"], ∀ out,
    (shellCaller.destination oneFile (text "/f") dest).2 = some out →
    shellCaller.Ordinary
      (shellCaller.openSource (shellCaller.destination oneFile (text "/f") dest).1 (text "/f")).1.fs
      out := by
  have hplain : ∀ dest ∈ [text "/g", text "/./f"],
      (shellCaller.destination oneFile (text "/f") dest).2 = some dest ∧
      ∃ p ∈ [text "/g", text "/f"], p ≠ Fs.xorgLogPath ∧
        shellCaller.resolve
          (shellCaller.openSource (shellCaller.destination oneFile (text "/f") dest).1
            (text "/f")).1.fs dest = some p ∧
        shellCaller.Plain
          (shellCaller.openSource (shellCaller.destination oneFile (text "/f") dest).1
            (text "/f")).1.fs p (1 + 64 + 512) := by decide +kernel
  intro dest hdest out hout p hp
  obtain ⟨hsame, q, -, hne, hres, hopens⟩ := hplain dest hdest
  obtain rfl := Option.some.inj (hout.symm.trans hsame)
  obtain rfl := Option.some.inj (hp.symm.trans hres)
  exact ⟨hopens, fun hbad ↦ hne hbad.1⟩

/-- A copy to a path that leads nowhere. -/
theorem cmdCp_iff_new : shellCaller.Copies oneFile (text "/f") (text "/g") 59 := by
  refine (cmdCp_iff oneByte oneByte_spared.1 oneByte_spared.2 shellCaller oneFile (start_fs _)
    (text "/f") (text "/g") 59
    (oneByte_regular _ (by decide)) (oneByte_ordinary _ (by decide))).2 ?_
  rintro ⟨out, hout, -, -, -, ⟨p, hp, z, hz, -⟩, -⟩
  obtain ⟨hdest, hopening, hnone⟩ : (shellCaller.destination oneFile (text "/f") (text "/g")).2 =
      some (text "/g") ∧
      (shellCaller.opening (shellCaller.destination oneFile (text "/f") (text "/g")).1 (text "/f")
        (text "/g")).2 = some (text "/g") ∧
      ((shellCaller.opening (shellCaller.destination oneFile (text "/f") (text "/g")).1 (text "/f")
        (text "/g")).1.vfsLookup (text "/g")).2 = none := by decide +kernel
  obtain rfl := Option.some.inj (hout.symm.trans hdest)
  obtain rfl := Option.some.inj (hp.symm.trans hopening)
  exact absurd (hz.symm.trans hnone) nofun

/-- A copy of a file to itself by another spelling returns 0 and takes its byte. -/
theorem not_copies :
    ¬ ∀ (calls : List VfsCall), Fs.Spared Fs.Clashes Fs.vfsInit calls →
    Fs.Spared Fs.Uproots Fs.vfsInit calls →
    ∀ (k : Caller) (st : Files), st.fs = Fs.vfsInit.run calls → ∀ (src dest : List UInt8) (y : ℕ),
    k.Regular (k.sysStat (k.destination st src dest).1.fs src).1 src y →
    (∀ out, (k.destination st src dest).2 = some out →
      k.Ordinary (k.openSource (k.destination st src dest).1 src).1.fs out) →
    k.Copies st src dest y := by
  intro h
  have hcopies := h oneByte oneByte_spared.1 oneByte_spared.2 shellCaller oneFile (start_fs _)
    (text "/f") (text "/./f") 59 (oneByte_regular _ (by decide)) (oneByte_ordinary _ (by decide))
  obtain ⟨hname, hbyte, hempty⟩ : (59 < oneFile.fs.used ∧ (oneFile.fs.nodes 59).type = .file ∧
      (oneFile.fs.nodes 59).parent ≠ none) ∧
      oneFile.fs.content 59 = [97] ∧
        (shellCaller.cmdCp oneFile (text "/f") (text "/./f")).1.fs.content 59 = [] := by
          decide +kernel
  have hsame := (hcopies.same 59 hname (.inl rfl)).1
  rw [hempty, hbyte] at hsame
  exact absurd hsame (by decide)

end YabroOS.Box.Caller
