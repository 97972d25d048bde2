import YabroOS.Vfs.Spares

namespace YabroOS.Vfs.Fs

open Lib Function

variable {s s' : Fs} {x y z off : ℕ} {src pre : List UInt8}

theorem Live.write_end (h : s.Live) (hz : s.HasName z) (hoff : (s.content z).length = off)
    (hfit : off + src.length ≤ vfsDataSlotSize)
    (hne : src ≠ []) :
    (s.vfsFileWrite z off src).2 = src.length ∧
      (s.vfsFileWrite z off src).1.content z = s.content z ++ src ∧
      s.Touched (s.vfsFileWrite z off src).1 ∧
        s.Spares (s.vfsFileWrite z off src).1 (s.nodes z).owner := by
  obtain ⟨b, hheld⟩ := h.held hz
  have hlen := List.length_pos_iff.2 hne
  have hcontent := hheld.content
  have hsize : (s.nodes (s.nodes z).owner).size = off := by rw [← hoff, hcontent, length_window]
  have hwrote := wrote_write s z off src
  have htake : src.take (vfsDataSlotSize - off) = src := List.take_of_length_le (by omega)
  obtain ⟨hfull, -⟩ | ⟨-, hrc, hleaves⟩ := hheld.write hheld.name off src
  · omega
  rw [htake] at hrc hleaves
  refine ⟨hrc, ?_, ?_, h.spares_wrote hz.1 hwrote⟩
  · have hheld' : (s.vfsFileWrite z off src).1.Held z (s.nodes z).owner b := by
      obtain heq | hwrote := hwrote
      · rw [heq]
        exact hheld
      · exact hwrote.held hheld.name hheld
    rw [hheld'.content, hleaves.size, hleaves.bytes, hsize, Nat.max_eq_right (Nat.le_add_right _ _),
      window_put_end le_rfl,
      List.drop_eq_nil_of_le length_window.le, List.append_nil, hcontent, hsize]
  · obtain heq | hwrote := hwrote
    · rw [heq]
      exact touched_refl s
    · exact hwrote.touched

structure Appended (s s' : Fs) (z : ℕ) (data : List UInt8) : Prop where
  live : s'.Live
  content : s'.content z = s.content z ++ data
  touched : s.Touched s'
  spares : s.Spares s' (s.nodes z).owner

theorem Live.appended_refl (h : s.Live) (z : ℕ) :
    s.Appended s z [] := ⟨h, (List.append_nil _).symm, touched_refl s, .refl s _⟩

theorem Appended.trans {s'' : Fs} {data data' : List UInt8} (h : s.Appended s' z data)
    (h' : s'.Appended s'' z data') : s.Appended s'' z (data ++ data') where
  live := h'.live
  content := by rw [h'.content, h.content, List.append_assoc]
  touched := h.touched.trans h'.touched
  spares := by
    have hspares := h'.spares
    rw [h.touched.nodes z] at hspares
    exact h.spares.trans hspares

theorem Live.writeLoop_end {data : List UInt8} {k done : ℕ} (h : s.Live) (hz : s.HasName z)
    (hoff : (s.content z).length = off) (hdone : done ≤ data.length)
    (hfit : off + (data.length - done) ≤ vfsDataSlotSize) (hk : data.length - done ≤ k) :
    ∃ s', Files.writeLoop z false data k s off done =
      (s', off + (data.length - done), data.length, none) ∧ s.Appended s' z (data.drop done) := by
  induction k generalizing s off done with
  | zero =>
    obtain rfl : done = data.length := by omega
    exact ⟨s, by rw [Files.writeLoop, Nat.sub_self, Nat.add_zero],
      by rw [List.drop_length]; exact h.appended_refl z⟩
  | succ k ih =>
    rw [Files.writeLoop]
    by_cases hall : data.length ≤ done
    · obtain rfl : done = data.length := by omega
      rw [if_pos hall, Nat.sub_self, Nat.add_zero, List.drop_length]
      exact ⟨s, rfl, h.appended_refl z⟩
    rw [if_neg hall, if_neg Bool.false_ne_true]
    have hlen : ((data.drop done).take (min 256 (data.length - done))).length =
        min 256 (data.length - done) := by
      rw [List.length_take, List.length_drop]
      omega
    have hne : (data.drop done).take (min 256 (data.length - done)) ≠ [] := by
      refine List.ne_nil_of_length_pos ?_
      rw [hlen]
      omega
    obtain ⟨hrc, hcontent, htouched, hspares⟩ := h.write_end hz hoff (by rw [hlen]; omega) hne
    have hlive := h.write z off ((data.drop done).take (min 256 (data.length - done)))
    dsimp only
    generalize s.vfsFileWrite z off ((data.drop done).take (min 256 (data.length - done))) =
      r at hrc hcontent htouched hspares hlive
    obtain ⟨s₁, w⟩ := r
    rw [hlen] at hrc
    obtain rfl : w = (min 256 (data.length - done) : ℕ) := hrc
    dsimp only at hcontent htouched hspares hlive ⊢
    rw [if_neg (by omega), Int.toNat_natCast, if_neg (lt_irrefl _)]
    have hfirst : s.Appended s₁ z ((data.drop done).take (min 256 (data.length - done))) :=
      ⟨hlive, hcontent, htouched, hspares⟩
    obtain ⟨s', hloop, happended⟩ :=
      @ih s₁ (off + min 256 (data.length - done)) (done + min 256 (data.length - done)) hlive
      (htouched.hasName.2 hz) (by rw [hcontent, List.length_append, hoff, hlen]) (by omega)
        (by omega) (by omega)
    refine ⟨s', ?_, ?_⟩
    · rw [hloop]
      congr 2
      omega
    · have hboth := hfirst.trans happended
      rwa [← List.drop_drop, List.take_append_drop] at hboth

end YabroOS.Vfs.Fs

namespace YabroOS.Vfs.Files

open Function

variable {st st' : Files} {t : Fin 32} {fd fd' y y' off off' flags : ℕ} {c c' : Fin 512}

theorem At.fdOffsetGet (h : st.At t fd y c off) : st.fdOffsetGet (st.tables t fd) = off := by
  rw [Files.fdOffsetGet, h.cell]
  exact h.offset

theorem fdOffsetSet_eq (h : st.At t fd y c off) (v size : ℕ) : st.fdOffsetSet t fd v size =
    { st.setFd t fd { st.tables t fd with offset := v, size := size } with
      openDescs := update st.openDescs c { st.openDescs c with offset := v } } := by
  unfold fdOffsetSet
  dsimp only
  rw [h.cell]
  rfl

theorem At.offsetSet (h : st.At t fd y c off) (v size : ℕ) :
    (st.fdOffsetSet t fd v size).At t fd y c v ∧
    ((st.fdOffsetSet t fd v size).tables t fd).flags = (st.tables t fd).flags ∧
      (st.fdOffsetSet t fd v size).fs = st.fs := by
  have hself : ((st.fdOffsetSet t fd v size).tables t fd) =
      { st.tables t fd with offset := v, size := size } := by
    rw [fdOffsetSet_eq h]
    simp only [setFd, update_self]
  refine ⟨⟨?_, ?_, ?_, ?_⟩, by rw [hself], by rw [fdOffsetSet_eq h]; rfl⟩
  · rw [hself]
    exact h.inUse
  · rw [hself]
    exact h.vnode
  · rw [hself]
    exact h.cell
  · rw [fdOffsetSet_eq h]
    dsimp only
    rw [update_self]

theorem At.offsetSet_other (h : st.At t fd y c off) (h' : st.At t fd' y' c' off') (hne : fd' ≠ fd)
    (hcell : c' ≠ c) (v size : ℕ) :
    (st.fdOffsetSet t fd v size).At t fd' y' c' off' ∧
      ((st.fdOffsetSet t fd v size).tables t fd') = st.tables t fd' := by
  have hsame : ((st.fdOffsetSet t fd v size).tables t fd') = st.tables t fd' := by
    rw [fdOffsetSet_eq h]
    simp only [setFd, update_self, update_of_ne hne]
  refine ⟨⟨?_, ?_, ?_, ?_⟩, hsame⟩
  · rw [hsame]
    exact h'.inUse
  · rw [hsame]
    exact h'.vnode
  · rw [hsame]
    exact h'.cell
  · rw [fdOffsetSet_eq h]
    dsimp only
    rw [update_of_ne hcell]
    exact h'.offset

theorem At.withFs (h : st.At t fd y c off) (s : Fs) :
    ({ st with fs := s } : Files).At t fd y c off :=
  ⟨h.inUse, h.vnode, h.cell, h.offset⟩

structure Gains (st st' : Files) (t : Fin 32) (fd z : ℕ) (c : Fin 512) (flags : ℕ) : Prop where
  at_ : st'.At t fd z c 0
  flags : (st'.tables t fd).flags = flags
  bound : fd < maxFiles
  free : (st.tables t fd).inUse = false
  unused : (st.openDescs c).used = false
  used : (st'.openDescs c).used = true
  frame : ∀ fd' c', fd' ≠ fd → c' ≠ c → (st'.tables t fd') = st.tables t fd' ∧
    st'.openDescs c' = st.openDescs c'

theorem Gains.other (h : st.Gains st' t fd y c flags) (h' : st.At t fd' y' c' off')
    (hused : (st.openDescs c').used = true) :
    fd' ≠ fd ∧ c' ≠ c ∧ st'.At t fd' y' c' off' := by
  have hfd : fd' ≠ fd := by
    rintro rfl
    exact Bool.true_eq_false.mp (h'.inUse.symm.trans h.free)
  have hc : c' ≠ c := by
    rintro rfl
    exact Bool.true_eq_false.mp (hused.symm.trans h.unused)
  obtain ⟨htable, hcell⟩ := h.frame fd' c' hfd hc
  refine ⟨hfd, hc, ?_, ?_, ?_, ?_⟩
  · rw [htable]
    exact h'.inUse
  · rw [htable]
    exact h'.vnode
  · rw [htable]
    exact h'.cell
  · rw [hcell]
    exact h'.offset

/-- An open of a regular file: the file is cut first, if the flags say so, and then there is a
descriptor for it or no room. -/
theorem openVnode_spec {z flags : ℕ} (h : st.fs.Live) (hz : st.fs.HasName z) (hfd : fd < maxFiles)
    (hfree : (st.tables t fd).inUse = false)
    (happend : flags.testBit 10 = false) :
    ∃ st' r, st.openVnode t fd z flags = (st', r) ∧
      st'.fs = (if flags.testBit 9 then (st.fs.vfsFileTruncate z 0).1 else st.fs) ∧
      (r < 0 ∨ r = fd ∧ ∃ c, st.Gains st' t fd z c flags) := by
  obtain ⟨hrc, -⟩ := h.truncate_zero hz
  unfold openVnode
  rw [if_neg (fun hbad ↦ by rw [hrc] at hbad; exact lt_irrefl _ hbad.2)]
  dsimp only
  rw [happend]
  have hst : (if flags.testBit 9 then { st with fs := (st.fs.vfsFileTruncate z 0).1 } else st) =
      { st with fs := if flags.testBit 9 then (st.fs.vfsFileTruncate z 0).1 else st.fs } := by
    split_ifs
    · rfl
    · rfl
  rw [hst]
  generalize (if flags.testBit 9 then (st.fs.vfsFileTruncate z 0).1 else st.fs) = s
  obtain hnone | ⟨c, hunused, hsome⟩ := allocOpenOffset_cases { st with fs := s } 0
  · rw [if_neg Bool.false_ne_true, hnone]
    exact ⟨_, _, rfl, rfl, .inl (by decide)⟩
  · rw [if_neg Bool.false_ne_true, hsome]
    refine ⟨_, _, rfl, rfl, .inr ⟨rfl, c, ?_⟩⟩
    have hself : ∀ f : OpenFile,
        (({ st with fs := s, openDescs := update st.openDescs c ⟨0, 1, true⟩ } : Files).setFd t fd
          f).tables t fd = f := by
      intro f
      simp only [setFd, update_self]
    refine ⟨⟨?_, ?_, ?_, ?_⟩, ?_, hfd, hfree, hunused, ?_, fun fd' c' hfd' hc' ↦ ⟨?_, ?_⟩⟩
    · exact congrArg OpenFile.inUse (hself _)
    · exact congrArg OpenFile.vnode (hself _)
    · exact congrArg OpenFile.sharedOffset (hself _)
    · exact congrArg OpenDescState.offset (update_self c _ st.openDescs)
    · exact congrArg OpenFile.flags (hself _)
    · exact congrArg OpenDescState.used (update_self c _ st.openDescs)
    · simp only [setFd, update_self, update_of_ne hfd']
    · exact update_of_ne hc' _ _

structure Leads (st st' : Files) (path : List UInt8) (flags z : ℕ) : Prop where
  live : st'.fs.Live
  spares : ∀ o, (flags.testBit 9 = true → o = (st'.fs.nodes z).owner) → st.fs.Spares st'.fs o
  reached : st.fs.Reached st'.fs path z
  empty : flags.testBit 9 = true → st'.fs.content z = []

theorem sysOpenResolved_spec {path : List UInt8} {flags : ℕ} (h : st.fs.Live)
    (happend : flags.testBit 10 = false)
    (hclash : flags.testBit 6 = true →
      ¬ (st.fs.vfsLookup path).1.Clashes (.createFile path (flags.testBit 9))) :
    ∃ st' r, st.sysOpenResolved t path flags = (st', r) ∧
      (r < 0 ∧ st'.fs.Live ∧ (∀ o, st.fs.Spares st'.fs o) ∧
          (st.findFreeFd t 0 = none ∨ ∀ z, (st.fs.vfsLookup path).2 = some z →
            (st.fs.nodes z).type ≠ .file) ∨
        ∃ z, st.Leads st' path flags z ∧ st.findFreeFd t 0 ≠ none ∧
          (r < 0 ∨ ∃ fd c, r = (fd : ℕ) ∧ st.Gains st' t fd z c flags)) := by
  obtain ⟨hlive, hspares, hreach⟩ := h.reach path (flags.testBit 6) (flags.testBit 9) hclash
  unfold sysOpenResolved
  cases hfd : st.findFreeFd t 0 with
  | none => exact ⟨_, _, rfl, .inl ⟨by decide, h, fun o ↦ .refl _ o, .inl rfl⟩⟩
  | some fd =>
  obtain ⟨hlt, hfree⟩ := findFreeFd_free hfd
  dsimp only
  rw [← Fs.reach]
  have hfound : ∀ z, (st.fs.vfsLookup path).2 = some z →
      st.fs.reach path (flags.testBit 6) (flags.testBit 9) = st.fs.vfsLookup path := by
    intro z hz
    rw [Fs.reach, if_neg (fun hbad ↦ Option.some_ne_none z (hz.symm.trans hbad.1))]
  have hsame : ∀ z, ((st.fs.vfsLookup path).1.nodes z).type = (st.fs.nodes z).type := by
    intro z
    rw [(Fs.lookup_seen st.fs path).looks.spelled.nodes z]
  generalize st.fs.reach path (flags.testBit 6) (flags.testBit 9) =
    made at hlive hspares hreach hfound ⊢
  obtain ⟨s, _ | z⟩ := made
  · refine ⟨_, _, rfl, .inl ⟨by decide, hlive, hspares, .inr fun z hz ↦ ?_⟩⟩
    have hnone := congrArg Prod.snd (hfound z hz)
    exact absurd (hnone.trans hz).symm (Option.some_ne_none z)
  dsimp only at hlive hspares hreach ⊢
  by_cases hreg : s.vfsFileIsRegular z = true
  · rw [if_pos hreg]
    have hreached := hreach z rfl (of_decide_eq_true hreg)
    obtain ⟨st', r, hopen, hfs, hend⟩ :=
      @openVnode_spec { st with fs := s } t fd z flags hlive hreached.name hlt hfree happend
    refine ⟨st', r, hopen, .inr ⟨z, ?_, Option.some_ne_none fd, ?_⟩⟩
    · dsimp only at hfs
      by_cases hcut : flags.testBit 9 = true
      · rw [if_pos hcut] at hfs
        obtain ⟨-, hempty, htouched, hcutspares⟩ := hlive.truncate_zero hreached.name
        have howner : ∀ x, (st'.fs.nodes x).owner = (s.nodes x).owner := fun x ↦ by
          rw [hfs, htouched.nodes x]
        have hlive' : st'.fs.Live := hfs ▸ hlive.truncate z 0
        refine ⟨hlive', fun o ho ↦ ?_, ⟨?_, ?_, ?_⟩, fun _ ↦ by rw [hfs]; exact hempty⟩
        · rw [ho hcut, howner z, hfs]
          exact (hspares _).trans hcutspares
        · rw [hfs]
          exact htouched.hasName.2 hreached.name
        · rw [Fs.lookup_find hlive'.sited.toNamed, hfs, htouched.tree,
            ← Fs.lookup_find hlive.sited.toNamed]
          exact hreached.found
        · rw [howner z]
          exact hreached.origin
      · rw [if_neg hcut] at hfs
        subst hfs
        exact ⟨hlive, fun o _ ↦ hspares o, hreached, fun hbad ↦ absurd hbad hcut⟩
    · obtain hneg | ⟨rfl, c, hgains⟩ := hend
      · exact .inl hneg
      · exact .inr ⟨fd, c, rfl, hgains.at_, hgains.flags, hgains.bound, hgains.free, hgains.unused,
          hgains.used, hgains.frame⟩
  · rw [if_neg hreg]
    refine ⟨_, _, rfl, .inl ⟨by decide, hlive, hspares, .inr fun y hy hfile ↦ hreg ?_⟩⟩
    have hlook := hfound y hy
    obtain rfl : z = y := Option.some.inj ((congrArg Prod.snd hlook).trans hy)
    have htype := hsame z
    rw [← hlook] at htype
    exact decide_eq_true (htype.trans hfile)

end YabroOS.Vfs.Files
