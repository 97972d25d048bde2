import YabroOS.Vfs.Descriptors
import YabroOS.Vfs.LinkReads

namespace YabroOS.Vfs

open Lib Function

namespace Fs

variable {s s' : Fs} {x y i p : ℕ} {o : Option ℕ}

structure Gone (s : Fs) (i : ℕ) : Prop where
  inode : s.Inode i
  file : (s.nodes i).type = .file
  nlink : (s.nodes i).nlink = 0
  size : (s.nodes i).size = 0

theorem Gone.ne (h : s.Gone i) (hown : s.Own False) (hx : s.HasName x) : (s.nodes x).owner ≠ i := by
  rintro rfl
  have hpos := (hown.pos hx.1 hx.2.1 hx.2.2).2
  rw [h.nlink] at hpos
  exact lt_irrefl 0 hpos

theorem Placed.hasName (h : s.Placed x) (hfile : (s.nodes x).type = .file) : s.HasName x :=
  ⟨h.1, hfile, h.parent hfile⟩

theorem Quiet.gone (h : s.Quiet s') (hi : s.Gone i) : s'.Gone i := by
  obtain ⟨howner, hlink, -, -, hsize, -⟩ := h.sits i hi.inode.1 hi.file
  exact ⟨⟨hi.inode.1.trans_le h.used, howner.trans hi.inode.2⟩, (h.type i hi.inode.1).trans hi.file,
    hlink.trans hi.nlink, hsize.trans hi.size⟩

theorem unlink_gone (p x : ℕ) (hi : s.Gone i) : ((s.cut p x).vfsDropLink x).Gone i := by
  have hcut : (s.cut p x).Gone i := by
    refine ⟨⟨hi.inode.1, ?_⟩, ?_, ?_, ?_⟩
    all_goals rw [cut_nodes]
    · exact hi.inode.2
    · exact hi.file
    · exact hi.nlink
    · exact hi.size
  by_cases hix : i = ((s.cut p x).nodes x).owner
  · have hdrop : Dropped ((s.cut p x).nodes i) (((s.cut p x).vfsDropLink x).nodes i) :=
      dropLink_dropped hix.symm
    refine ⟨⟨?_, hdrop.owner.trans hcut.inode.2⟩, hdrop.type.trans hcut.file, ?_, ?_⟩
    · rw [dropLink_used]
      exact hcut.inode.1
    · rw [hdrop.nlink, hcut.nlink]
    · exact hdrop.last (by rw [hcut.nlink]; exact Nat.zero_le _)
  · have hsame := dropLink_of_ne hix
    refine ⟨⟨?_, ?_⟩, ?_, ?_, ?_⟩
    · rw [dropLink_used]
      exact hcut.inode.1
    all_goals rw [hsame]
    · exact hcut.inode.2
    · exact hcut.file
    · exact hcut.nlink
    · exact hcut.size

theorem share_gone (hown : s.Own False) (p : ℕ) {src : ℕ} (hsrc : s.HasName src) (name : List UInt8)
    (hi : s.Gone i) : (s.share p src name).Gone i := by
  obtain ⟨hold, hlink⟩ := share_old s p src name hi.inode.1.ne
  have hlink := hlink (hi.ne hown hsrc).symm
  refine ⟨⟨hi.inode.1.trans (Nat.lt_succ_self _), ?_⟩, ?_, hlink.trans hi.nlink, ?_⟩
  all_goals rw [hold]
  · exact hi.inode.2
  · exact hi.file
  · exact hi.size

theorem Edit.gone {fixed : Prop} (h : Edit fixed s s') (hown : s.Own False) (hi : s.Gone i) :
    s'.Gone i := by
  obtain h | ⟨p, src, name, -, hsrc, hfile, rfl⟩ | ⟨p, x, hx, rfl⟩ := h.quiet
  · exact h.gone hi
  · exact share_gone hown p (hsrc.hasName hfile) name hi
  · exact unlink_gone p x hi

theorem Edits.gone {fixed : Prop} (h : Edits fixed s s') (hsane : Sane fixed s) (hst : s.Stored)
    (hi : s.Gone i) : s'.Gone i := by
  induction h with
  | refl => exact hi
  | tail hedits hedit ih => exact hedit.gone (Acts.stored (Edits.acts hedits) hsane hst).own ih

theorem Wrote.gone (h : Wrote s s' x) (hx : (s.nodes x).owner ≠ i) (hi : s.Gone i) : s'.Gone i := by
  have hix : i ≠ x := by
    rintro rfl
    exact hx hi.inode.2
  refine ⟨⟨h.touched.used ▸ hi.inode.1, ?_⟩, ?_, ?_, (h.size i hix hx.symm).trans hi.size⟩
  all_goals rw [h.touched.nodes i]
  · exact hi.inode.2
  · exact hi.file
  · exact hi.nlink

end Fs

def VfsCall.target : VfsCall → Option ℕ
  | .fileWrite x _ _ => some x
  | .writeKernelFile x _ => some x
  | .fileTruncate x _ => some x
  | _ => none

namespace Fs

variable {s s' : Fs} {x y i p : ℕ} {o : Option ℕ} {c : VfsCall}

def Off (s : Fs) (o : Option ℕ) (c : VfsCall) : Prop :=
  ∀ x, c.target = some x → some (s.nodes x).owner ≠ o

theorem call_gone (hsane : Sane False s) (hst : s.Stored) (hoff : s.Off (some i) c)
    (hi : s.Gone i) : (s.call c).Gone i := by
  have hwrote : ∀ {x s'}, (s.nodes x).owner ≠ i → s' = s ∨ Wrote s s' x → s'.Gone i := by
    rintro x s' hx (rfl | hw)
    · exact hi
    · exact hw.gone hx hi
  cases c with
  | createFile path truncate =>
    have hcreated := createFile_created hsane.linked path truncate
    show (s.vfsCreateFile path truncate).1.Gone i
    generalize s.vfsCreateFile path truncate = made at hcreated
    have hedits : ∀ {s₁}, Edits False s s₁ → s₁.Gone i := fun h ↦ h.gone hsane hst hi
    cases hcreated with
    | refused s₁ h => exact hedits h.edits
    | opened s₁ x hx hfile =>
      have hseen := lookup_seen s path
      have hplaced := lookup_placed hsane.linked (congrArg Prod.snd hx)
      rw [hx] at hseen
      have hi₁ : s₁.Gone i := hedits hseen.edits
      have hst₁ : s₁.Stored := hseen.stored hsane hst
      exact (wrote_reopen hfile truncate).gone
        (hi₁.ne hst₁.own ((hseen.placed.2 hplaced).hasName hfile)) hi₁
    | wasted s₁ p name h => exact hedits (h.seen.edits.tail (.waste name))
    | made s₁ p name b h hx hb =>
      exact hedits (h.seen.edits.tail (.file path p name b (h.spot hsane False.elim) hb))
  | fileWrite x off src =>
    exact hwrote (fun h ↦ hoff x rfl (congrArg some h)) (wrote_write s x off src)
  | writeKernelFile x data =>
    exact hwrote (fun h ↦ hoff x rfl (congrArg some h)) (wrote_writeKernel s x data)
  | fileTruncate x len =>
    exact hwrote (fun h ↦ hoff x rfl (congrArg some h)) (wrote_truncate s x len)
  | lookup | mkdir | createSocket | link | unlink | rmdir | rename | ensureDir | importBootFile =>
    exact (call_edits hsane False.elim id).gone hsane hst hi

structure Calm (o : Option ℕ) (s : Fs) : Prop where
  stored : s.Stored
  sane : Sane False s
  gone : ∀ i, o = some i → s.Gone i

def Led (o : Option ℕ) : Fs → Fs → Prop :=
  Relation.ReflTransGen (fun s s' ↦ ∃ c, s.Off o c ∧ s' = s.call c)

theorem Calm.call (h : s.Calm o) (hoff : s.Off o c) : (s.call c).Calm o ∧ s.Lasts (s.call c) := by
  have hacts : Acts False s (s.call c) := call_acts h.sane False.elim
  refine ⟨⟨hacts.stored h.sane h.stored, hacts.sane h.sane, fun i hi ↦ ?_⟩,
    hacts.lasts h.sane h.stored⟩
  rw [hi] at hoff
  exact call_gone h.sane h.stored hoff (h.gone i hi)

theorem Led.calm (h : Led o s s') (hs : s.Calm o) : s'.Calm o ∧ s.Lasts s' := by
  induction h with
  | refl => exact ⟨hs, .refl s⟩
  | tail _ hc ih =>
    obtain ⟨c, hoff, rfl⟩ := hc
    obtain ⟨hcalm, hlasts⟩ := ih.1.call hoff
    exact ⟨hcalm, ih.2.trans hlasts⟩

theorem Led.single (c : VfsCall) (hoff : s.Off o c) : Led o s (s.call c) :=
  Relation.ReflTransGen.single ⟨c, hoff, rfl⟩

theorem Led.quiet (h : Led o s s') (hc : c.target = none) : Led o s (s'.call c) :=
  h.tail ⟨c, fun x hx ↦ absurd (hc.symm.trans hx) (nofun : none ≠ some x), rfl⟩

theorem Calm.off (h : s.Calm o) (hx : s.HasName x) : some (s.nodes x).owner ≠ o := by
  intro ho
  exact (h.gone _ ho.symm).ne h.stored.own hx rfl

theorem Touched.hasName (h : s.Touched s') : s'.HasName x ↔ s.HasName x := by
  rw [HasName, HasName, h.used, h.nodes x]

theorem createFile_hasName (hsane : Sane False s) {path : List UInt8} {truncate : Bool}
    (hx : (s.vfsCreateFile path truncate).2 = some x) :
    (s.vfsCreateFile path truncate).1.HasName x := by
  have hcreated := createFile_created hsane.linked path truncate
  generalize s.vfsCreateFile path truncate = made at hcreated hx ⊢
  cases hcreated with
  | refused s₁ h => cases hx
  | opened s₁ y hy hfile =>
    have hseen := lookup_seen s path
    have hplaced := lookup_placed hsane.linked (congrArg Prod.snd hy)
    rw [hy] at hseen
    obtain rfl := Option.some.inj hx
    exact (reopen_touched s₁ y truncate).hasName.2 ((hseen.placed.2 hplaced).hasName hfile)
  | wasted s₁ p name h => cases hx
  | made s₁ p name b h hnone hb =>
    obtain rfl := Option.some.inj hx
    have hp := (h.spot hsane False.elim).used
    cases b with
    | slot k =>
      have hself :=
        attach_self hp
          { s₁.fresh name .file (sIfreg + 0o666) with
            data := some (.slot k), capacity := vfsDataSlotSize }
      refine ⟨Nat.lt_succ_self _, congrArg Node.type hself, ?_⟩
      rw [show ((s₁.born p name (.slot k)).nodes s₁.used).parent =
        some p from congrArg Node.parent hself]
      exact Option.some_ne_none p
    | xorg =>
      have hself :=
        attach_self hp { s₁.fresh name .file (sIfreg + 0o666) with
          data := some .xorg, capacity := vfsXorgLogCap }
      refine ⟨Nat.lt_succ_self _, congrArg Node.type hself, ?_⟩
      rw [show ((s₁.born p name .xorg).nodes s₁.used).parent =
        some p from congrArg Node.parent hself]
      exact Option.some_ne_none p

theorem lookup_hasName (hsane : Sane False s) {path : List UInt8}
    (hx : (s.vfsLookup path).2 = some x) (hfile : ((s.vfsLookup path).1.nodes x).type = .file) :
    (s.vfsLookup path).1.HasName x :=
  ((lookup_seen s path).placed.2 (lookup_placed hsane.linked hx)).hasName hfile

end Fs

namespace Files

variable {st st' : Files} {t : Fin 32} {fd x : ℕ} {o : Option ℕ} {free : Fin 32 × ℕ → Prop}
  {moved : ℕ → Prop} {s : Fs}

structure Made (free : Fin 32 × ℕ → Prop) (moved : ℕ → Prop) (o : Option ℕ) (st st' : Files) :
    Prop where
  led : Fs.Led o st.fs st'.fs
  shifts : Shifts free moved { st with fs := st'.fs } st'

theorem Made.of (hs : Fs.Led o st.fs s) (h : Shifts free moved { st with fs := s } st') :
    Made free moved o st st' := by
  obtain rfl := h.fs
  exact ⟨hs, h⟩

theorem Made.refl (st : Files) : Made free moved o st st := .of .refl .refl

theorem Made.fs (h : Fs.Led o st.fs s) : Made free moved o st { st with fs := s } := .of h .refl

theorem allocOpenOffset_cases (st : Files) (offset : ℕ) : st.allocOpenOffset offset = none ∨
    ∃ c, (st.openDescs c).used = false ∧
      st.allocOpenOffset offset =
        some ({ st with openDescs := update st.openDescs c ⟨offset, 1, true⟩ }, c) := by
  unfold allocOpenOffset
  cases hfind : (List.finRange 512).find? (fun c ↦ (st.openDescs c).used = false) with
  | none => exact .inl rfl
  | some c =>
    exact .inr ⟨c,
      of_decide_eq_true
        (List.find?_some (p := fun c ↦ decide ((st.openDescs c).used = false)) hfind), rfl⟩

theorem openVnode_made (hx : st.fs.HasName x) (hfd : fd < maxFiles)
    (hfree : (st.tables t fd).inUse = false) (hoff : some (st.fs.nodes x).owner ≠ o) (flags : ℕ) :
    Made free moved o st (st.openVnode t fd x flags).1 := by
  unfold openVnode
  split
  · exact .refl st
  dsimp only
  have hst : ∃ s, (if flags.testBit 9 then { st with fs := (st.fs.vfsFileTruncate x 0).1 }
    else st) = { st with fs := s } ∧
      Fs.Led o st.fs s ∧ x < s.used ∧ (s.nodes x).type = .file := by
    split
    · have htouched := Fs.fileTruncate_touched st.fs x 0
      refine ⟨(st.fs.vfsFileTruncate x 0).1, rfl, .single (.fileTruncate x 0) (fun y hy ↦ ?_),
        htouched.used ▸ hx.1, ?_⟩
      · rw [← Option.some.inj hy]
        exact hoff
      · rw [htouched.nodes x]
        exact hx.2.1
    · exact ⟨st.fs, rfl, .refl, hx.1, hx.2.1⟩
  obtain ⟨s, hs, hled, hfile⟩ := hst
  rw [hs]
  obtain hnone | ⟨c, hunused, hsome⟩ :=
    allocOpenOffset_cases { st with fs := s } (if flags.testBit 10 then (s.nodes x).size else 0)
  · rw [hnone]
    exact .fs hled
  · rw [hsome]
    exact .of hled (.single (.opened t fd _ c _ hfd hfree hunused rfl rfl hfile))

theorem Made.after (hs : Fs.Led o st.fs s) (h : Made free moved o { st with fs := s } st') :
    Made free moved o st st' :=
  .of (hs.trans h.led) h.shifts

theorem findFreeFd_free {min : ℕ} (h : st.findFreeFd t min = some fd) :
    fd < maxFiles ∧ (st.tables t fd).inUse = false := by
  unfold findFreeFd at h
  have hfree :=
    of_decide_eq_true
      (List.find?_some (p := fun fd ↦ decide (min ≤ fd ∧ (st.tables t fd).inUse = false)) h)
  exact ⟨List.mem_range.1 (List.mem_of_find?_eq_some h), hfree.2⟩

theorem open_made (hcalm : st.fs.Calm o) (t : Fin 32) (path : List UInt8) (flags : ℕ) :
    Made free moved o st (st.sysOpenResolved t path flags).1 := by
  unfold sysOpenResolved
  cases hfd : st.findFreeFd t 0 with
  | none => exact .refl st
  | some fd =>
  obtain ⟨hlt, hfree⟩ := findFreeFd_free hfd
  have hlook : Fs.Led o st.fs (st.fs.vfsLookup path).1 := Fs.Led.quiet (c := .lookup path) .refl rfl
  have hcreate : Fs.Led o st.fs ((st.fs.vfsLookup path).1.vfsCreateFile path (flags.testBit 9)).1 :=
    hlook.quiet (c := .createFile path (flags.testBit 9)) rfl
  have hfound : ∀ r : Fs × Option ℕ, r = (if (st.fs.vfsLookup path).2 = none ∧ flags.testBit 6 then
      (st.fs.vfsLookup path).1.vfsCreateFile path (flags.testBit 9) else st.fs.vfsLookup path) →
      Fs.Led o st.fs r.1 ∧ ∀ x, r.2 = some x → (r.1.nodes x).type = .file → r.1.HasName x := by
    rintro r rfl
    split_ifs
    · exact ⟨hcreate, fun x hx _ ↦ Fs.createFile_hasName (hlook.calm hcalm).1.sane hx⟩
    · exact ⟨hlook, fun x hx hfile ↦ Fs.lookup_hasName hcalm.sane hx hfile⟩
  dsimp only
  generalize (if (st.fs.vfsLookup path).2 = none ∧ flags.testBit 6 then
      (st.fs.vfsLookup path).1.vfsCreateFile path (flags.testBit 9) else st.fs.vfsLookup path) =
        r at hfound ⊢
  obtain ⟨hled, hname⟩ := hfound r rfl
  obtain ⟨s, _ | x⟩ := r
  · exact .fs hled
  · dsimp only
    split_ifs with hreg
    · have hx := hname x rfl (of_decide_eq_true hreg)
      have hoff : some (s.nodes x).owner ≠ o := (hled.calm hcalm).1.off hx
      have hmade := @openVnode_made { st with fs := s } t fd x o free moved hx hlt hfree hoff flags
      exact .after hled hmade
    · exact .fs hled

theorem inUse_of (h : ¬ st.inUse t fd = false) : (st.tables t fd).inUse = true ∧ fd < maxFiles := by
  have huse := of_decide_eq_true (Bool.eq_true_of_not_eq_false h)
  exact ⟨huse.2, huse.1⟩

theorem close_shifts (h : free (t, fd)) : Shifts free moved st (st.sysClose t fd).1 := by
  unfold sysClose
  split_ifs with huse
  · exact .refl
  · exact .single (.closed t fd (inUse_of huse).1 h)

theorem dup_shifts (min : ℕ) (cloexec : Bool) :
    Shifts free moved st (st.sysDupInternal t fd min cloexec).1 := by
  unfold sysDupInternal
  by_cases huse : st.inUse t fd = false
  · rw [if_pos huse]
    exact .refl
  rw [if_neg huse]
  cases hfd : st.findFreeFd t min with
  | none => exact .refl
  | some n =>
    obtain ⟨hlt, hfree⟩ := findFreeFd_free hfd
    dsimp only
    exact .single (.copied t fd t n _ (inUse_of huse).1 hlt (.inr hfree))

theorem dup2_shifts {new : ℕ} (h : free (t, new)) :
    Shifts free moved st (st.sysDup2 t fd new).1 := by
  unfold sysDup2
  by_cases huse : st.inUse t fd = false ∨ maxFiles ≤ new
  · rw [if_pos huse]
    exact .refl
  obtain ⟨huse', hlt⟩ := not_or.1 huse
  rw [if_neg huse]
  by_cases hsame : fd = new
  · rw [if_pos hsame]
    exact .refl
  rw [if_neg hsame]
  dsimp only
  have hclose : Shifts free moved st (if (st.tables t new).inUse then (st.sysClose t new).1
      else st) ∧
      ((if (st.tables t new).inUse then (st.sysClose t new).1 else st).tables t fd).inUse =
        true := by
    split_ifs
    · refine ⟨close_shifts h, ?_⟩
      unfold sysClose
      split_ifs
      · exact (inUse_of huse').1
      · obtain ⟨d, hd, -⟩ := releaseOpenOffset_cells st (st.tables t new).sharedOffset
        rw [hd, setFd_tables _ t new closedFile (t, fd), if_neg (fun h ↦ hsame (Prod.mk.inj h).2)]
        exact (inUse_of huse').1
    · exact ⟨.refl, (inUse_of huse').1⟩
  exact hclose.1.tail (.copied t fd t new _ hclose.2 (not_le.1 hlt) (.inl h))

theorem clone_shifts (src : Fin 32) {dst : Fin 32} (h : ∀ fd, free (dst, fd)) :
    Shifts free moved st (st.taskFdTableClone src dst) := by
  unfold taskFdTableClone
  have hloop : ∀ l : List ℕ, (∀ fd ∈ l, fd < maxFiles) → ∀ st₁, Shifts free moved st st₁ →
      Shifts free moved st (l.foldl (fun st fd ↦
      if (st.tables src fd).inUse then st.fdCopyScalar src fd dst fd id
      else st.setFd dst fd (st.tables src fd)) st₁) := by
    intro l
    induction l with
    | nil => exact fun _ _ h ↦ h
    | cons fd l ih =>
      intro hl st₁ h₁
      rw [List.foldl_cons]
      refine ih (fun fd' hfd' ↦ hl fd' (List.mem_cons_of_mem _ hfd')) _ ?_
      have hlt := hl fd List.mem_cons_self
      by_cases huse : (st₁.tables src fd).inUse = true
      · rw [if_pos huse]
        exact h₁.tail (.copied src fd dst fd id huse hlt (.inl (h fd)))
      · rw [if_neg huse]
        exact h₁.tail (.cleared dst fd _ hlt (Bool.eq_false_of_not_eq_true huse) (h fd))
  exact hloop _ (fun fd hfd ↦ List.mem_range.1 hfd) st .refl

theorem offset_shifts (huse : (st.tables t fd).inUse = true) (v size : ℕ)
    (h : moved (st.tables t fd).vnode ∨ v = st.fdOffsetGet (st.tables t fd)) :
    Shifts free moved st (st.fdOffsetSet t fd v size) := by
  have hkept : Shift free moved st
      (st.setFd t fd { st.tables t fd with offset := v, size := size }) := .kept t fd _ rfl rfl rfl
  have hself : (st.setFd t fd { st.tables t fd with offset := v, size := size }).tables t fd =
      { st.tables t fd with offset := v, size := size } := by
    rw [setFd_tables _ t fd _ (t, fd), if_pos rfl]
  unfold fdOffsetSet
  dsimp only
  split
  · exact .single hkept
  · next c hc =>
    refine .tail (.single hkept) (.sought t fd c v ?_ ?_)
    · rw [links, hself, OpenFile.link, if_pos huse]
      exact hc
    · rw [hself]
      refine h.imp_right (fun hv ↦ ?_)
      rw [hv, fdOffsetGet, hc]
      rfl

theorem write_led (hoff : some (s.nodes x).owner ≠ o) (append : Bool) (data : List UInt8)
    (k off done : ℕ) : Fs.Led o s (writeLoop x append data k s off done).1 := by
  induction k generalizing s off done with
  | zero => exact .refl
  | succ k ih =>
    unfold writeLoop
    by_cases hdone : data.length ≤ done
    · rw [if_pos hdone]
      exact .refl
    rw [if_neg hdone]
    dsimp only
    generalize (if append then s.vfsFileSize x else off) = at'
    have hled : Fs.Led o s
        (s.vfsFileWrite x at' ((data.drop done).take (min 256 (data.length - done)))).1 :=
      .single (.fileWrite x at' _) (fun y hy ↦ Option.some.inj hy ▸ hoff)
    have htouched :=
      Fs.fileWrite_touched s x at' ((data.drop done).take (min 256 (data.length - done)))
    generalize s.vfsFileWrite x at' ((data.drop done).take (min 256 (data.length - done))) =
      r at hled htouched ⊢
    obtain ⟨s₁, w⟩ := r
    dsimp only
    split_ifs
    · exact hled
    · exact hled
    · exact hled
    · refine hled.trans (ih ?_ _ _)
      rw [htouched.nodes x]
      exact hoff

theorem write_made
    (h : (st.tables t fd).inUse = true → moved (st.tables t fd).vnode ∧
      some (st.fs.nodes (st.tables t fd).vnode).owner ≠ o)
    (data : Option (List UInt8)) : Made free moved o st (st.sysWrite t fd data).1 := by
  unfold sysWrite
  split
  · exact .refl st
  split
  · exact .refl st
  · next data =>
    split
    · exact .refl st
    split
    · exact .refl st
    by_cases huse : st.inUse t fd = false
    · rw [if_pos huse]
      exact .refl st
    rw [if_neg huse]
    dsimp only
    split
    · exact .refl st
    obtain ⟨huse, -⟩ := inUse_of huse
    obtain ⟨hmoved, hoff⟩ := h huse
    have hled :=
      write_led hoff ((st.tables t fd).flags.testBit 10) data data.length
        (st.fdOffsetGet (st.tables t fd)) 0
    generalize writeLoop (st.tables t fd).vnode ((st.tables t fd).flags.testBit 10) data data.length
      st.fs (st.fdOffsetGet (st.tables t fd)) 0 = r at hled ⊢
    obtain ⟨s, off, done, _ | rc⟩ := r
    · exact .of hled (@offset_shifts { st with fs := s } t fd free moved huse off _ (.inl hmoved))
    · exact .fs hled

theorem read_shifts
    (h : (st.tables t fd).inUse = true → moved (st.tables t fd).vnode ∨
      st.fs.vfsFileIsRegular (st.tables t fd).vnode = true ∧
        st.fs.vfsFileSize (st.tables t fd).vnode = 0)
    (count : ℕ) (rangeOk copied : Bool) :
    Shifts free moved st (st.sysRead t fd count rangeOk copied).1 := by
  unfold sysRead
  by_cases huse : st.inUse t fd = false
  · rw [if_pos huse]
    exact .refl
  rw [if_neg huse]
  obtain ⟨huse, -⟩ := inUse_of huse
  split
  · exact .refl
  have hzero : moved (st.tables t fd).vnode ∨ (if st.fs.vfsFileIsRegular (st.tables t fd).vnode then
      st.fs.vfsFileSize (st.tables t fd).vnode else (st.tables t fd).size) = 0 :=
    (h huse).imp_right (fun ⟨hreg, hzero⟩ ↦ by rw [if_pos hreg, hzero])
  dsimp only
  generalize (if st.fs.vfsFileIsRegular (st.tables t fd).vnode then
    st.fs.vfsFileSize (st.tables t fd).vnode else (st.tables t fd).size) = size at hzero ⊢
  generalize (if st.fs.vfsFileIsRegular (st.tables t fd).vnode then
    st.fs.vfsFileData (st.tables t fd).vnode else (st.tables t fd).data) = data
  have hnone : moved (st.tables t fd).vnode ∨
      min count (if st.fdOffsetGet (st.tables t fd) < size then
      size - st.fdOffsetGet (st.tables t fd) else 0) = 0 :=
    hzero.imp_right (fun hzero ↦ by rw [hzero, if_neg (Nat.not_lt_zero _), Nat.min_zero])
  generalize min count (if st.fdOffsetGet (st.tables t fd) < size then size -
    st.fdOffsetGet (st.tables t fd) else 0) = n at hnone ⊢
  split
  · exact .refl
  · exact offset_shifts huse _ _ (hnone.imp_right (fun hnone ↦ by rw [hnone]; rfl))

theorem ftruncate_made
    (h : (st.tables t fd).inUse = true → some (st.fs.nodes (st.tables t fd).vnode).owner ≠ o)
    (len : ℕ) : Made free moved o st (st.sysFtruncate t fd len).1 := by
  unfold sysFtruncate
  by_cases huse : st.inUse t fd = false
  · rw [if_pos huse]
    exact .refl st
  rw [if_neg huse]
  dsimp only
  split
  · exact .refl st
  have hled : Fs.Led o st.fs (st.fs.vfsFileTruncate (st.tables t fd).vnode len).1 :=
    .single (.fileTruncate (st.tables t fd).vnode len)
      (fun y hy ↦ Option.some.inj hy ▸ h (inUse_of huse).1)
  split
  · exact .fs hled
  · exact .of hled (.single (.kept t fd _ rfl rfl rfl))

theorem lseek_shifts (h : (st.tables t fd).inUse = true → moved (st.tables t fd).vnode) (off : ℤ)
    (whence : ℕ) : Shifts free moved st (st.sysLseek t fd off whence).1 := by
  unfold sysLseek
  by_cases huse : st.inUse t fd = false
  · rw [if_pos huse]
    exact .refl
  rw [if_neg huse]
  obtain ⟨huse, -⟩ := inUse_of huse
  dsimp only
  split
  · exact .refl
  · exact offset_shifts huse _ _ (.inl (h huse))

inductive DescCall
  | file (c : FileCall)
  | lseek (table : Fin 32) (fd : ℕ) (off : ℤ) (whence : ℕ)

def step (st : Files) : DescCall → Files
  | .file c => st.call c
  | .lseek table fd off whence => (st.sysLseek table fd off whence).1

def steps (st : Files) (l : List DescCall) : Files := l.foldl step st

/-- A call closes or replaces only some descriptors, moves the offsets of some files only, and does
not write to an inode. -/
def May (free : Fin 32 × ℕ → Prop) (moved : ℕ → Prop) (o : Option ℕ) (st : Files) : DescCall → Prop
  | .file (.close t fd) => free (t, fd)
  | .file (.dup2 t _ newFd) => free (t, newFd)
  | .file (.cloneTable _ dst) => ∀ fd, free (dst, fd)
  | .file (.write t fd _) => (st.tables t fd).inUse = true →
      moved (st.tables t fd).vnode ∧ some (st.fs.nodes (st.tables t fd).vnode).owner ≠ o
  | .file (.read t fd _ _ _) => (st.tables t fd).inUse = true → moved (st.tables t fd).vnode ∨
      st.fs.vfsFileIsRegular (st.tables t fd).vnode = true ∧
        st.fs.vfsFileSize (st.tables t fd).vnode = 0
  | .file (.ftruncate t fd _) =>
    (st.tables t fd).inUse = true → some (st.fs.nodes (st.tables t fd).vnode).owner ≠ o
  | .file (.vfs c) => st.fs.Off o c
  | .lseek t fd _ _ => (st.tables t fd).inUse = true → moved (st.tables t fd).vnode
  | _ => True

theorem Made.shift (h : Shifts free moved st st') : Made free moved o st st' := .of .refl h

theorem step_made (hcalm : st.fs.Calm o) {c : DescCall} (h : st.May free moved o c) :
    Made free moved o st (st.step c) := by
  cases c with
  | lseek t fd off whence => exact .shift (lseek_shifts h off whence)
  | file c =>
    cases c with
    | «open» t path flags => exact open_made hcalm t path flags
    | close t fd => exact .shift (close_shifts h)
    | dup t fd min cloexec => exact .shift (dup_shifts min cloexec)
    | dup2 t fd newFd => exact .shift (dup2_shifts h)
    | cloneTable src dst =>
      have hshifts : Shifts free moved st (st.taskFdTableClone src dst) := clone_shifts src h
      exact .shift hshifts
    | write t fd data => exact write_made h data
    | read t fd count rangeOk copied => exact .shift (read_shifts h count rangeOk copied)
    | ftruncate t fd len => exact ftruncate_made h len
    | vfs c => exact .fs (.single c h)

theorem Made.opened (h : Made free moved o st st') (hcalm : st.fs.Calm o) (ho : st.Opened) :
    st'.Opened := by
  obtain ⟨-, hlasts⟩ := h.led.calm hcalm
  exact h.shifts.opened (ho.lasts hlasts.used hlasts.type)

theorem steps_opened (hcalm : st.fs.Calm none) (ho : st.Opened) (l : List DescCall) :
    (st.steps l).fs.Calm none ∧ (st.steps l).Opened := by
  induction l generalizing st with
  | nil => exact ⟨hcalm, ho⟩
  | cons c l ih =>
    have hany : st.May (fun _ ↦ True) (fun _ ↦ True) none c := by
      have hsome : ∀ i : ℕ, some i ≠ none := fun i ↦ Option.some_ne_none i
      cases c with
      | lseek => exact fun _ ↦ trivial
      | file c =>
        cases c with
        | write => exact fun _ ↦ ⟨trivial, hsome _⟩
        | read => exact fun _ ↦ .inl trivial
        | ftruncate => exact fun _ ↦ hsome _
        | vfs c => exact fun _ _ ↦ hsome _
        | «open» | close | dup | dup2 => trivial
        | cloneTable => exact fun _ ↦ trivial
    have hmade := step_made hcalm hany
    exact ih (hmade.led.calm hcalm).1 (hmade.opened hcalm ho)

/-- A call on other descriptors than this one that writes to other files. -/
def Elsewhere (st : Files) (t : Fin 32) (fd i : ℕ) : DescCall → Prop
  | .file (.close t' fd') => (t', fd') ≠ (t, fd)
  | .file (.dup2 t' _ newFd) => (t', newFd) ≠ (t, fd)
  | .file (.cloneTable _ dst) => dst ≠ t
  | .file (.write t' fd' _) => (st.fs.nodes (st.tables t' fd').vnode).owner ≠ i
  | .file (.ftruncate t' fd' _) => (st.fs.nodes (st.tables t' fd').vnode).owner ≠ i
  | .file (.vfs c) => st.fs.Off (some i) c
  | .lseek t' fd' _ _ => (st.fs.nodes (st.tables t' fd').vnode).owner ≠ i
  | _ => True

structure Keeps (st : Files) (t : Fin 32) (fd i : ℕ) (c : Fin 512) (off : ℕ) : Prop where
  calm : st.fs.Calm (some i)
  opened : st.Opened
  place : ∃ y, (st.fs.nodes y).owner = i ∧ st.At t fd y c off

theorem Keeps.step {i off : ℕ} {c : Fin 512} {d : DescCall} (h : st.Keeps t fd i c off)
    (hd : st.Elsewhere t fd i d) : (st.step d).Keeps t fd i c off := by
  obtain ⟨y, hy, hat⟩ := h.place
  have hgone := h.calm.gone i rfl
  have hmay : st.May (· ≠ (t, fd)) (fun x ↦ (st.fs.nodes x).owner ≠ i) (some i) d := by
    cases d with
    | lseek => exact fun _ ↦ hd
    | file c =>
      cases c with
      | write => exact fun _ ↦ ⟨hd, fun h ↦ hd (Option.some.inj h)⟩
      | read t' fd' =>
        intro huse
        by_cases hi : (st.fs.nodes (st.tables t' fd').vnode).owner = i
        · have hreg : st.fs.vfsFileIsRegular (st.tables t' fd').vnode = true :=
            decide_eq_true (h.opened.fine t' fd' huse).2.1
          refine .inr ⟨hreg, ?_⟩
          rw [Fs.vfsFileSize, if_pos hreg, hi, hgone.size]
        · exact .inl hi
      | ftruncate => exact fun _ h ↦ hd (Option.some.inj h)
      | vfs c => exact hd
      | «open» | dup => trivial
      | close | dup2 => exact hd
      | cloneTable => exact fun _ h ↦ hd (Prod.mk.inj h).1
  have hmade := step_made h.calm hmay
  obtain ⟨hcalm, hlasts⟩ := hmade.led.calm h.calm
  refine ⟨hcalm, hmade.opened h.calm h.opened, y, ?_, ?_⟩
  · obtain ⟨hlt, hfile, -⟩ := h.opened.fine t fd hat.inUse
    rw [hat.vnode] at hlt hfile
    exact (hlasts.owner y hlt hfile).trans hy
  · have hopened : ({ st with fs := (st.step d).fs } : Files).Opened :=
      h.opened.lasts hlasts.used hlasts.type
    have hstart : ({ st with fs := (st.step d).fs } : Files).At t fd y c off :=
      ⟨hat.inUse, hat.vnode, hat.cell, hat.offset⟩
    have hkeeps : ∀ {st₁}, Shifts (· ≠ (t, fd)) (fun x ↦ (st.fs.nodes x).owner ≠ i)
        { st with fs := (st.step d).fs } st₁ → st₁.At t fd y c off := by
      intro st₁ hshifts
      induction hshifts with
      | refl => exact hstart
      | tail hs hshift ih => exact hshift.keeps (Shifts.opened hs hopened) (not_not.2 hy) ih
    exact hkeeps hmade.shifts

theorem Keeps.steps {i off : ℕ} {c : Fin 512} {l : List DescCall} (h : st.Keeps t fd i c off)
    (hl : Along Files.step (fun st d ↦ st.Elsewhere t fd i d) st l) :
    (st.steps l).Keeps t fd i c off := by
  induction l generalizing st with
  | nil => exact h
  | cons d l ih => exact ih (h.step hl.1) hl.2

end Files

namespace Fs

variable {s s' : Fs} {i : ℕ}

structure Spent (s : Fs) (i : ℕ) : Prop where
  inode : s.Inode i
  file : (s.nodes i).type = .file
  size : (s.nodes i).nlink = 0 → (s.nodes i).size = 0

theorem Spent.of (h : s.Spent i) (hs : s.Lasts s')
    (hsize : (s'.nodes i).nlink = 0 → (s.nodes i).nlink = 0 ∧ (s'.nodes i).size = (s.nodes i).size ∨
    (s'.nodes i).size = 0) : s'.Spent i where
  inode := ⟨h.inode.1.trans_le hs.used, (hs.owner i h.inode.1 h.file).trans h.inode.2⟩
  file := (hs.type i h.inode.1).trans h.file
  size hzero := by
    obtain ⟨hlink, hsame⟩ | hnone := hsize hzero
    · exact hsame.trans (h.size hlink)
    · exact hnone

theorem Edit.spent {fixed : Prop} (h : Edit fixed s s') (hl : s.tree.Linked) (hst : s.Stored)
    (hi : s.Spent i) : s'.Spent i := by
  have hlasts := (h.stays hl hst).lasts
  have hown' : s'.Own False := h.change.own hl hst.own
  obtain h | ⟨p, src, name, -, hsrc, hfile, rfl⟩ | ⟨p, x, hx, rfl⟩ := h.quiet
  · obtain ⟨-, hlink, -, -, hsize, -⟩ := h.sits i hi.inode.1 hi.file
    exact hi.of hlasts (fun hzero ↦ .inl ⟨hlink.symm.trans hzero, hsize⟩)
  · refine hi.of hlasts (fun hzero ↦ .inl ?_)
    obtain ⟨hold, hlink⟩ := share_old s p src name hi.inode.1.ne
    -- the source is a name of the inode that it has been linked to
    have hne : i ≠ (s.nodes src).owner := by
      intro howner
      obtain ⟨hsame, -⟩ := share_old s p src name hsrc.1.ne
      have hpos :=
        (hown'.pos (x := src) (hsrc.1.trans (Nat.lt_succ_self _)) (by rw [hsame]; exact hfile)
        (by rw [hsame]; exact hsrc.parent hfile)).2
      rw [hsame] at hpos
      dsimp only at hpos
      rw [← howner, hzero] at hpos
      exact lt_irrefl 0 hpos
    exact ⟨(hlink hne).symm.trans hzero, by rw [hold]⟩
  · by_cases hix : i = ((s.cut p x).nodes x).owner
    · have hdrop : Dropped ((s.cut p x).nodes i) (((s.cut p x).vfsDropLink x).nodes i) :=
        dropLink_dropped hix.symm
      refine hi.of hlasts (fun hzero ↦ .inr (hdrop.last ?_))
      have hlink := hdrop.nlink
      omega
    · refine hi.of hlasts (fun hzero ↦ .inl ?_)
      rw [dropLink_of_ne hix, cut_nodes] at hzero ⊢
      exact ⟨hzero, rfl⟩

theorem Edits.spent {fixed : Prop} (h : Edits fixed s s') (hsane : Sane fixed s) (hst : s.Stored)
    (hi : s.Spent i) : s'.Spent i := by
  induction h with
  | refl => exact hi
  | tail hedits hedit ih =>
    exact hedit.spent (Edits.sane hedits hsane).linked (Acts.stored (Edits.acts hedits) hsane hst) ih

/-- The call takes away the last name of an inode. -/
def TakesLast (s : Fs) (i : ℕ) (c : VfsCall) : Prop :=
  (∃ y, s.HasName y ∧ (s.nodes y).owner = i) ∧ ¬ ∃ y, (s.call c).HasName y ∧
    ((s.call c).nodes y).owner = i

theorem TakesLast.gone {c : VfsCall} (h : s.TakesLast i c) (hc : ¬ VfsCall.Sizes c)
    (hsane : Sane False s) (hst : s.Stored) : (s.call c).Gone i := by
  obtain ⟨⟨y, hy, rfl⟩, hnone⟩ := h
  have hedits : Edits False s (s.call c) := call_edits hsane False.elim hc
  have hst' : (s.call c).Stored := Acts.stored (Edits.acts hedits) hsane hst
  obtain ⟨hfile, hpos⟩ := hst.own.pos hy.1 hy.2.1 hy.2.2
  have hspent :=
    hedits.spent hsane hst ⟨hst.own.owner y hy.1, hfile, fun hzero ↦ absurd hzero hpos.ne'⟩
  have hlink : ((s.call c).nodes (s.nodes y).owner).nlink = 0 := by
    rw [hst'.own.count _ hspent.inode (by rw [hspent.file]; exact nofun), Finset.card_eq_zero,
      Finset.eq_empty_iff_forall_notMem]
    intro z hz
    obtain ⟨hlt, hzo, hpar⟩ := mem_entries.1 hz
    refine hnone ⟨z, ⟨hlt, ?_, hpar⟩, hzo⟩
    by_cases hself : ((s.call c).nodes z).owner = z
    · rw [← hself, hzo]
      exact hspent.file
    · exact (hst'.own.file z hlt hself).1
  exact ⟨hspent.inode, hspent.file, hlink, hspent.size hlink⟩

end Fs

/-- What is seen through a descriptor of a file. -/
structure FdView where
  offset : ℕ
  stat : ℕ
  read : ℕ → ℕ × List UInt8
  pread : ℕ → ℕ → ℕ × List UInt8
  mapped : ℕ → ℕ → Option (List UInt8)
  seek : ℤ → ℕ → ℤ

def FdView.empty (offset : ℕ) : FdView where
  offset := offset
  stat := 0
  read _ := (0, [])
  pread _ _ := (0, [])
  mapped _ _ := some []
  seek off whence := Files.seekTo (Files.seekBase offset 0 whence) off

namespace Files

variable {st : Files} {t : Fin 32} {fd i : ℕ}

def view (st : Files) (t : Fin 32) (fd : ℕ) : FdView where
  offset := st.fdOffsetGet (st.tables t fd)
  stat := st.fs.statSize (st.tables t fd).vnode
  read count := st.fs.readData (st.tables t fd) count (st.fdOffsetGet (st.tables t fd))
  pread count off := st.fs.preadData (st.tables t fd) count off
  mapped off len := st.fs.kernelFileReadAt (st.tables t fd) off len
  seek off whence := (st.sysLseek t fd off whence).2

theorem Keeps.view {off : ℕ} {c : Fin 512} (h : st.Keeps t fd i c off) :
    st.view t fd = .empty off := by
  obtain ⟨y, hy, hat⟩ := h.place
  obtain ⟨-, hfile, -⟩ := h.opened.fine t fd hat.inUse
  have hreg : st.fs.vfsFileIsRegular (st.tables t fd).vnode = true := decide_eq_true hfile
  have hsize : st.fs.vfsFileSize (st.tables t fd).vnode = 0 := by
    rw [Fs.vfsFileSize, if_pos hreg, hat.vnode, hy, (h.calm.gone i rfl).size]
  have hoffset : st.fdOffsetGet (st.tables t fd) = off := by
    rw [fdOffsetGet, hat.cell]
    exact hat.offset
  have huse : st.inUse t fd = true := decide_eq_true ⟨h.opened.bound t fd hat.inUse, hat.inUse⟩
  have hstat : st.fs.statSize (st.tables t fd).vnode = 0 := by
    rw [Fs.statSize, if_pos (.inl hreg), hsize]
  have hread : ∀ count cur, st.fs.readData (st.tables t fd) count cur = (0, []) := by
    intro count cur
    unfold Fs.readData
    simp only [hreg, if_true, hsize, Nat.not_lt_zero, if_false, Nat.min_zero, List.range_zero,
      List.map_nil]
    split
    · rfl
    · rfl
  have hpread : ∀ count off, st.fs.preadData (st.tables t fd) count off = (0, []) := by
    intro count off
    unfold Fs.preadData
    simp only [hreg, if_true, hsize, Nat.zero_le]
  have hmapped : ∀ off len, st.fs.kernelFileReadAt (st.tables t fd) off len = some [] := by
    intro off len
    unfold Fs.kernelFileReadAt
    rw [hat.inUse, if_neg Bool.true_eq_false.mp]
    split
    · rfl
    · simp only [if_true, hsize, Nat.zero_le]
  have hseek : ∀ off' whence, (st.sysLseek t fd off' whence).2 =
      (FdView.empty off).seek off' whence := by
    intro off' whence
    unfold sysLseek
    rw [if_neg (by rw [huse]; exact Bool.true_eq_false.mp)]
    dsimp only
    rw [hoffset, hsize]
    split
    · rfl
    · rfl
  unfold Files.view
  simp only [hoffset, hstat, hread, hpread, hmapped, hseek]
  rfl

theorem start_opened (s : Fs) : (start s).Opened := by
  have hnone : (start s).links = fun _ ↦ none := rfl
  refine ⟨fun t fd huse ↦ ?_, fun t fd huse ↦ ?_, fun q q' c hq ↦ ?_, fun c ↦ ?_,
    fun c hc ↦ absurd rfl hc⟩
  · cases huse
  · cases huse
  · rw [hnone] at hq
    cases hq
  · rw [pointers_eq_zero (fun q _ ↦ by rw [hnone]; exact nofun)]
    exact Nat.zero_le _

def Reached (st : Files) : Prop := ∃ l, st = (start Fs.vfsInit).steps l

def inode (st : Files) (t : Fin 32) (fd : ℕ) : ℕ := (st.fs.nodes (st.tables t fd).vnode).owner

theorem start_calm {s : Fs} (h : s.Calm none) : (start s).fs.Calm none := h

theorem vfsInit_calm : Fs.vfsInit.Calm none := by
  have hnone : ∀ s : Fs, s.run [] = s := fun _ ↦ rfl
  obtain ⟨hst, hsane⟩ := Fs.run_stored []
  rw [hnone] at hst hsane
  exact ⟨hst, hsane, nofun⟩

theorem Reached.healthy (h : st.Reached) : st.fs.Calm none ∧ st.Opened := by
  obtain ⟨l, rfl⟩ := h
  exact steps_opened (start_calm vfsInit_calm) (start_opened _) l

/-- A file that loses its last name is empty for those who have it open, with their offsets as
before, and no call on other files changes that. -/
theorem reached_unlinked (st : Files) (hst : st.Reached) (t : Fin 32) (fd : ℕ)
    (hopen : (st.tables t fd).inUse = true)
    (c : VfsCall) (hc : (∃ path, c = .unlink path) ∨ ∃ old new, c = .rename old new)
    (hlast : st.fs.TakesLast (st.inode t fd) c)
    (l : List DescCall)
    (hl : Along step (fun st' d ↦ st'.Elsewhere t fd (st.inode t fd) d)
      (st.step (.file (.vfs c))) l) :
    ((st.step (.file (.vfs c))).steps l).view t fd = .empty (st.view t fd).offset := by
  obtain ⟨hcalm, hopened⟩ := hst.healthy
  obtain ⟨hlt, hfile, hcell⟩ := hopened.fine t fd hopen
  obtain ⟨cell, hcell⟩ := Option.ne_none_iff_exists'.1 hcell
  have hsizes : ¬ Fs.VfsCall.Sizes c := by
    obtain ⟨path, rfl⟩ | ⟨old, new, rfl⟩ := hc
    · exact id
    · exact id
  have hgone := hlast.gone hsizes hcalm.sane hcalm.stored
  obtain ⟨hcalm', hlasts⟩ := hcalm.call (c := c) (fun x _ ↦ Option.some_ne_none _)
  have hkeeps : (st.step (.file (.vfs c))).Keeps t fd (st.inode t fd) cell
      (st.view t fd).offset := by
    refine ⟨⟨hcalm'.stored, hcalm'.sane, fun i hi ↦ Option.some.inj hi ▸ hgone⟩,
      hopened.lasts hlasts.used hlasts.type,
      (st.tables t fd).vnode, hlasts.owner _ hlt hfile, hopen, rfl, hcell, ?_⟩
    show (st.openDescs cell).offset = st.fdOffsetGet (st.tables t fd)
    rw [fdOffsetGet, hcell]
  exact (hkeeps.steps hl).view

def openFile : Files := (start Fs.vfsInit).steps
  [.file (.vfs (.createFile (text "/f") false)), .file (.open 0 (text "/f") 0),
    .file (.vfs (.fileWrite 59 0 [97]))]

theorem openFile_reached : openFile.Reached := ⟨_, rfl⟩

theorem openFile_descriptor : (openFile.tables 0 0).inUse = true ∧ openFile.inode 0 0 = 59 ∧
    (openFile.view 0 0).offset = 0 ∧ (openFile.view 0 0).pread 1 0 = (1, [97]) := by decide +kernel

theorem openFile_last : openFile.fs.TakesLast 59 (.unlink (text "/f")) := by
  obtain ⟨hname, hnone⟩ : (openFile.fs.HasName 59 ∧ (openFile.fs.nodes 59).owner = 59) ∧
      ((List.range (openFile.fs.call (.unlink (text "/f"))).used).all fun y ↦
      ((openFile.fs.call (.unlink (text "/f"))).nodes y).parent = none ∨
      ((openFile.fs.call (.unlink (text "/f"))).nodes y).owner ≠ 59) = true := by
    unfold Fs.HasName
    decide +kernel
  refine ⟨⟨59, hname⟩, ?_⟩
  rintro ⟨y, ⟨hlt, -, hpar⟩, howner⟩
  exact (of_decide_eq_true (List.all_eq_true.1 hnone y (List.mem_range.2 hlt))).elim hpar
    (fun hne ↦ hne howner)

/-- The next file takes the slot of the one that is gone, and is not seen through the descriptor. -/
theorem reached_unlinked_reuse : ((openFile.step (.file (.vfs (.unlink (text "/f"))))).steps
    [.file (.vfs (.createFile (text "/g") false)), .file (.vfs (.fileWrite 60 0 [98]))]).view 0 0 =
      .empty 0 := by
  obtain ⟨huse, hinode, hoffset, -⟩ := openFile_descriptor
  have helse : Along step (fun st' d ↦ st'.Elsewhere 0 0 59 d)
      (openFile.step (.file (.vfs (.unlink (text "/f")))))
      [.file (.vfs (.createFile (text "/g") false)), .file (.vfs (.fileWrite 60 0 [98]))] := by
    refine ⟨nofun, fun x hx ↦ ?_, trivial⟩
    obtain rfl := Option.some.inj hx
    decide +kernel
  have hview := reached_unlinked openFile openFile_reached 0 0 huse (.unlink (text "/f"))
    (.inl ⟨_, rfl⟩) (by rw [hinode]; exact openFile_last) _ (by rw [hinode]; exact helse)
  rw [hoffset] at hview
  exact hview

/-- The byte of the file is gone with its name. -/
theorem not_reached_unlinked :
    ¬ ∀ (st : Files), st.Reached → ∀ (t : Fin 32) (fd : ℕ), (st.tables t fd).inUse = true →
    ∀ c : VfsCall, ((∃ path, c = .unlink path) ∨ ∃ old new, c = .rename old new) →
      st.fs.TakesLast (st.inode t fd) c →
    ∀ l : List DescCall, Along step (fun st' d ↦ st'.Elsewhere t fd (st.inode t fd) d)
    (st.step (.file (.vfs c))) l →
    ((st.step (.file (.vfs c))).steps l).view t fd = st.view t fd := by
  intro h
  obtain ⟨huse, hinode, -, hbyte⟩ := openFile_descriptor
  have hview :=
    h openFile openFile_reached 0 0 huse (.unlink (text "/f")) (.inl ⟨_, rfl⟩)
      (by rw [hinode]; exact openFile_last) [] trivial
  have hgone : ((openFile.step (.file (.vfs (.unlink (text "/f"))))).view 0 0).pread 1 0 =
      (0, []) := by decide +kernel
  have hsame : ((openFile.step (.file (.vfs (.unlink (text "/f"))))).view 0 0).pread 1 0 =
      (openFile.view 0 0).pread 1 0 :=
    congrArg (fun v ↦ v.pread 1 0) hview
  rw [hgone, hbyte] at hsame
  exact absurd hsame (by decide)

end Files

end YabroOS.Vfs
