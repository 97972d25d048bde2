import YabroOS.Lib.Links
import YabroOS.Vfs.OpenFiles

namespace YabroOS.Vfs

open Lib Function

def OpenFile.link (f : OpenFile) : Option (Fin 512) := if f.inUse then f.sharedOffset else none

def OpenFile.Fine (s : Fs) (f : OpenFile) : Prop :=
  f.inUse = true → f.vnode < s.used ∧ (s.nodes f.vnode).type = .file ∧ f.sharedOffset ≠ none

namespace Files

variable {st st' : Files} {t : Fin 32} {fd y off : ℕ} {f : OpenFile} {c : Fin 512}
  {free : Fin 32 × ℕ → Prop} {moved : ℕ → Prop}

def seekBase (cur size : ℕ) : ℕ → Option ℤ
  | 0 => some 0
  | 1 => some cur
  | 2 => some size
  | _ => none

def seekTo (base : Option ℤ) (off : ℤ) : ℤ :=
  match base with
  | none => -22
  | some base =>
    if (0 < off ∧ 2 ^ 63 - 1 - off < base) ∨ (off < 0 ∧ base < -2 ^ 63 - off) ∨ base + off < 0 then
      -22 else base + off

def sysLseek (st : Files) (table : Fin 32) (fd : ℕ) (off : ℤ) (whence : ℕ) : Files × ℤ :=
  if st.inUse table fd = false then (st, -9)
  else
    let f := st.tables table fd
    let n := seekTo (seekBase (st.fdOffsetGet f) (st.fs.vfsFileSize f.vnode) whence) off
    if n < 0 then (st, n) else (st.fdOffsetSet table fd n.toNat f.size, n)

def links (st : Files) (q : Fin 32 × ℕ) : Option (Fin 512) := (st.tables q.1 q.2).link

def places : Finset (Fin 32 × ℕ) := Finset.univ ×ˢ Finset.range maxFiles

structure Opened (st : Files) : Prop where
  fine : ∀ t fd, (st.tables t fd).Fine st.fs
  bound : ∀ t fd, (st.tables t fd).inUse = true → fd < maxFiles
  alike : ∀ q q' c, st.links q = some c → st.links q' = some c →
    (st.tables q.1 q.2).vnode = (st.tables q'.1 q'.2).vnode
  covered : Covered places st.links (OpenDescState.refs ∘ st.openDescs)
    (OpenDescState.used ∘ st.openDescs)

/-- What the calls do to the tables and the offsets: which descriptors they replace, and the offsets
of which files they move. -/
inductive Shift (free : Fin 32 × ℕ → Prop) (moved : ℕ → Prop) (st : Files) : Files → Prop
  | opened (t : Fin 32) (fd : ℕ) (f : OpenFile) (c : Fin 512) (offset : ℕ) (hfd : fd < maxFiles)
    (hplace : (st.tables t fd).inUse = false)
      (hc : (st.openDescs c).used = false) (huse : f.inUse = true) (hf : f.sharedOffset = some c)
      (hfile : f.vnode < st.fs.used ∧ (st.fs.nodes f.vnode).type = .file) :
      Shift free moved st
        ({ st with openDescs := update st.openDescs c ⟨offset, 1, true⟩ }.setFd t fd f)
  | closed (t : Fin 32) (fd : ℕ) (huse : (st.tables t fd).inUse = true) (hplace : free (t, fd)) :
      Shift free moved st
        ((st.releaseOpenOffset (st.tables t fd).sharedOffset).setFd t fd closedFile)
  | copied (src : Fin 32) (fd : ℕ) (dst : Fin 32) (newFd : ℕ) (flags : ℕ → ℕ)
    (huse : (st.tables src fd).inUse = true)
      (hfd : newFd < maxFiles) (hplace : free (dst, newFd) ∨ (st.tables dst newFd).inUse = false) :
      Shift free moved st (st.fdCopyScalar src fd dst newFd flags)
  | cleared (t : Fin 32) (fd : ℕ) (f : OpenFile) (hfd : fd < maxFiles) (hf : f.inUse = false)
      (hplace : free (t, fd)) : Shift free moved st (st.setFd t fd f)
  | kept (t : Fin 32) (fd : ℕ) (f : OpenFile) (huse : f.inUse = (st.tables t fd).inUse)
    (hf : f.sharedOffset = (st.tables t fd).sharedOffset)
      (hv : f.vnode = (st.tables t fd).vnode) : Shift free moved st (st.setFd t fd f)
  | sought (t : Fin 32) (fd : ℕ) (c : Fin 512) (v : ℕ) (hc : st.links (t, fd) = some c)
      (hv : moved (st.tables t fd).vnode ∨ v = (st.openDescs c).offset) :
      Shift free moved st
        { st with openDescs := update st.openDescs c { st.openDescs c with offset := v } }

def Shifts (free : Fin 32 × ℕ → Prop) (moved : ℕ → Prop) : Files → Files → Prop :=
  Relation.ReflTransGen (Shift free moved)

theorem setFd_tables (st : Files) (t : Fin 32) (fd : ℕ) (f : OpenFile) (q : Fin 32 × ℕ) :
    (st.setFd t fd f).tables q.1 q.2 = if q = (t, fd) then f else st.tables q.1 q.2 := by
  obtain ⟨t', fd'⟩ := q
  unfold setFd
  dsimp only
  by_cases ht : t' = t
  · subst ht
    by_cases hfd : fd' = fd
    · subst hfd
      rw [if_pos rfl, update_self, update_self]
    · rw [if_neg (fun h ↦ hfd (Prod.mk.inj h).2), update_self, update_of_ne hfd]
  · rw [if_neg (fun h ↦ ht (Prod.mk.inj h).1), update_of_ne ht]

theorem setFd_links (st : Files) (t : Fin 32) (fd : ℕ) (f : OpenFile) :
    (st.setFd t fd f).links = update st.links (t, fd) f.link := by
  funext q
  rw [links, setFd_tables, update_apply]
  split_ifs
  · rfl
  · rfl

theorem recount_offset (st : Files) (c c' : Fin 512) (refs : ℕ) (used : Bool) :
    (update st.openDescs c { st.openDescs c with refs := refs, used := used } c').offset =
      (st.openDescs c').offset := by
  by_cases hc : c' = c
  · rw [hc, update_self]
  · rw [update_of_ne hc]

theorem releaseOpenOffset_cells (st : Files) (c : Option (Fin 512)) :
    ∃ d, st.releaseOpenOffset c = { st with openDescs := d } ∧
      ∀ c', (d c').offset = (st.openDescs c').offset := by
  cases c with
  | none => exact ⟨st.openDescs, rfl, fun _ ↦ rfl⟩
  | some c =>
    unfold releaseOpenOffset
    dsimp only
    by_cases hzero : (st.openDescs c).refs = 0
    · rw [if_pos hzero]
      exact ⟨st.openDescs, rfl, fun _ ↦ rfl⟩
    · rw [if_neg hzero]
      exact ⟨_, rfl, fun c' ↦ recount_offset st c c' _ _⟩

theorem retainOpenOffset_cells (st : Files) (c : Option (Fin 512)) :
    ∃ d, st.retainOpenOffset c = { st with openDescs := d } ∧
      ∀ c', (d c').offset = (st.openDescs c').offset := by
  cases c with
  | none => exact ⟨st.openDescs, rfl, fun _ ↦ rfl⟩
  | some c => exact ⟨_, rfl, fun c' ↦ recount_offset st c c' _ _⟩

theorem Shift.fs (h : Shift free moved st st') : st'.fs = st.fs := by
  cases h with
  | opened | cleared | kept | sought => rfl
  | closed t fd =>
    obtain ⟨d, hd, -⟩ := releaseOpenOffset_cells st (st.tables t fd).sharedOffset
    rw [hd]
    rfl
  | copied src fd dst newFd flags =>
    unfold fdCopyScalar
    dsimp only
    obtain ⟨d, hd, -⟩ :=
      retainOpenOffset_cells
        (st.setFd dst newFd { st.tables src fd with flags := flags (st.tables src fd).flags })
      (st.tables src fd).sharedOffset
    rw [hd]
    rfl

theorem Shifts.fs (h : Shifts free moved st st') : st'.fs = st.fs := by
  induction h with
  | refl => rfl
  | tail _ hshift ih => exact hshift.fs.trans ih

theorem mem_places {q : Fin 32 × ℕ} : q ∈ places ↔ q.2 < maxFiles := by
  simp [places]

theorem Opened.place (h : st.Opened) {q : Fin 32 × ℕ} (hq : st.links q = some c) :
    (st.tables q.1 q.2).inUse = true ∧ q ∈ places := by
  have huse : (st.tables q.1 q.2).inUse = true := by
    by_contra hno
    rw [links, OpenFile.link, if_neg hno] at hq
    cases hq
  exact ⟨huse, mem_places.2 (h.bound q.1 q.2 huse)⟩

theorem Opened.set (h : st.Opened) {d : Fin 512 → OpenDescState} (hf : f.Fine st.fs)
    (hfd : f.inUse = true → fd < maxFiles)
    (halike : ∀ c, f.link = some c → ∀ q, q ≠ (t, fd) → st.links q = some c →
      (st.tables q.1 q.2).vnode = f.vnode)
    (hc : Covered places (update st.links (t, fd) f.link) (OpenDescState.refs ∘ d)
      (OpenDescState.used ∘ d)) :
    ({ st with openDescs := d }.setFd t fd f).Opened := by
  have htables : ∀ q : Fin 32 × ℕ, ({ st with openDescs := d }.setFd t fd f).tables q.1 q.2 =
      if q = (t, fd) then f else st.tables q.1 q.2 :=
        fun q ↦ setFd_tables { st with openDescs := d } t fd f q
  have hlinks : ({ st with openDescs := d }.setFd t fd f).links = update st.links (t, fd) f.link :=
    setFd_links { st with openDescs := d } t fd f
  refine ⟨fun t' fd' ↦ ?_, fun t' fd' ↦ ?_, fun q q' c hq hq' ↦ ?_, ?_⟩
  · rw [htables (t', fd')]
    split_ifs
    · exact hf
    · exact h.fine t' fd'
  · rw [htables (t', fd')]
    split_ifs with hq
    · obtain ⟨-, rfl⟩ := Prod.mk.inj hq
      exact hfd
    · exact h.bound t' fd'
  · rw [hlinks, update_apply] at hq hq'
    rw [htables q, htables q']
    split_ifs at hq hq' with hqt hqt' hqt'
    · rw [if_pos hqt, if_pos hqt']
    · rw [if_pos hqt, if_neg hqt', halike c hq q' hqt' hq']
    · rw [if_neg hqt, if_pos hqt', halike c hq' q hqt hq]
    · rw [if_neg hqt, if_neg hqt']
      exact h.alike q q' c hq hq'
  · rw [hlinks]
    exact hc

theorem link_none (h : f.inUse = false) : f.link = none := by
  rw [OpenFile.link, if_neg (by rw [h]; exact Bool.false_ne_true)]

theorem link_some (h : f.inUse = true) : f.link = f.sharedOffset := if_pos h

theorem not_fine (h : f.inUse = false) (s : Fs) : f.Fine s := by
  intro hf
  rw [h] at hf
  cases hf

theorem Opened.openedAt (h : st.Opened) (hfd : fd < maxFiles) (hc : (st.openDescs c).used = false)
    (huse : f.inUse = true) (hf : f.sharedOffset = some c)
    (hfile : f.vnode < st.fs.used ∧ (st.fs.nodes f.vnode).type = .file) (offset : ℕ) :
    ({ st with openDescs := update st.openDescs c ⟨offset, 1, true⟩ }.setFd t fd f).Opened := by
  have hunused : (OpenDescState.used ∘ st.openDescs) c = false := hc
  have hlink : f.link = some c := (link_some huse).trans hf
  refine h.set (fun _ ↦ ⟨hfile.1, hfile.2, by rw [hf]; exact Option.some_ne_none c⟩) (fun _ ↦ hfd)
    (fun c' hc' q _ hq ↦ ?_) ?_
  · obtain rfl := Option.some.inj (hlink.symm.trans hc')
    have hused := h.covered.used_of_link (h.place hq).2 hq
    rw [hunused] at hused
    cases hused
  · rw [comp_update, comp_update, hlink]
    exact h.covered.fresh (mem_places.2 hfd) hunused

theorem Opened.closedAt (h : st.Opened) (huse : (st.tables t fd).inUse = true) :
    ((st.releaseOpenOffset (st.tables t fd).sharedOffset).setFd t fd closedFile).Opened := by
  have hmem : (t, fd) ∈ places := mem_places.2 (h.bound t fd huse)
  obtain ⟨c, hc⟩ := Option.ne_none_iff_exists'.1 (h.fine t fd huse).2.2
  have hlink : st.links (t, fd) = some c := (link_some huse).trans hc
  have hset : ∀ descs, Covered places (update st.links (t, fd) none) (OpenDescState.refs ∘ descs)
      (OpenDescState.used ∘ descs) →
      ({ st with openDescs := descs }.setFd t fd closedFile).Opened :=
    fun descs hcov ↦ h.set (not_fine rfl _) (fun hf ↦ absurd hf Bool.false_ne_true)
      (fun c' hc' ↦ by cases hc') hcov
  rw [hc]
  unfold releaseOpenOffset
  dsimp only
  by_cases hzero : (st.openDescs c).refs = 0
  · rw [if_pos hzero]
    exact hset st.openDescs (h.covered.drop hmem)
  · rw [if_neg hzero]
    refine hset _ ?_
    rw [comp_update, comp_update]
    exact h.covered.unlink hmem hlink

theorem Opened.copiedAt (h : st.Opened) {src : Fin 32} {new : ℕ}
    (huse : (st.tables src fd).inUse = true) (hnew : new < maxFiles) (t : Fin 32) (flags : ℕ → ℕ) :
    (st.fdCopyScalar src fd t new flags).Opened := by
  obtain ⟨c, hc⟩ := Option.ne_none_iff_exists'.1 (h.fine src fd huse).2.2
  have hlink : st.links (src, fd) = some c := (link_some huse).trans hc
  have hcopied : st.fdCopyScalar src fd t new flags =
      { st with openDescs := update st.openDescs c { st.openDescs c with
        refs := (st.openDescs c).refs + 1 } }.setFd t new
        { st.tables src fd with flags := flags (st.tables src fd).flags } :=
    congrArg (retainOpenOffset
      (st.setFd t new { st.tables src fd with flags := flags (st.tables src fd).flags })) hc
  rw [hcopied]
  refine h.set (h.fine src fd) (fun _ ↦ hnew) (fun c' hc' q _ hq ↦ ?_) ?_
  · exact h.alike q (src, fd) c' hq hc'
  · have hcopy : OpenFile.link { st.tables src fd with flags := flags (st.tables src fd).flags } =
      some c := hlink
    rw [comp_update, comp_update, hcopy]
    have hkeep : update (OpenDescState.used ∘ st.openDescs) c (st.openDescs c).used =
        OpenDescState.used ∘ st.openDescs :=
      update_eq_self c _
    dsimp only
    rw [hkeep]
    exact h.covered.link (mem_places.2 hnew) (h.covered.used_of_link (h.place hlink).2 hlink)

theorem Opened.keptAt (h : st.Opened) (huse : f.inUse = (st.tables t fd).inUse)
    (hf : f.sharedOffset = (st.tables t fd).sharedOffset) (hv : f.vnode = (st.tables t fd).vnode) :
    (st.setFd t fd f).Opened := by
  have hlink : f.link = st.links (t, fd) := by rw [OpenFile.link, huse, hf]; rfl
  refine h.set (d := st.openDescs) ?_ ?_ (fun c hc q _ hq ↦ ?_) ?_
  · unfold OpenFile.Fine
    rw [huse, hf, hv]
    exact h.fine t fd
  · rw [huse]
    exact h.bound t fd
  · rw [hv]
    exact h.alike q (t, fd) c hq (hlink.symm.trans hc)
  · rw [hlink, update_eq_self]
    exact h.covered

theorem Shift.opened_of (h : Shift free moved st st') (ho : st.Opened) : st'.Opened := by
  cases h with
  | opened t fd f c offset hfd _ hc huse hf hfile => exact ho.openedAt hfd hc huse hf hfile offset
  | closed t fd huse => exact ho.closedAt huse
  | copied src fd dst newFd flags huse hfd => exact ho.copiedAt huse hfd dst flags
  | cleared t fd f hfd hf =>
    refine ho.set (d := st.openDescs) (not_fine hf _) (fun huse ↦ ?_) (fun c hc ↦ ?_) ?_
    · rw [hf] at huse
      cases huse
    · rw [link_none hf] at hc
      cases hc
    · rw [link_none hf]
      exact ho.covered.drop (mem_places.2 hfd)
  | kept t fd f huse hf hv => exact ho.keptAt huse hf hv
  | sought t fd c v hc hv =>
    refine ⟨ho.fine, ho.bound, ho.alike, ?_⟩
    have hrefs : update (OpenDescState.refs ∘ st.openDescs) c (st.openDescs c).refs =
        OpenDescState.refs ∘ st.openDescs :=
      update_eq_self c _
    have hused : update (OpenDescState.used ∘ st.openDescs) c (st.openDescs c).used =
        OpenDescState.used ∘ st.openDescs :=
      update_eq_self c _
    rw [comp_update, comp_update]
    dsimp only
    rw [hrefs, hused]
    exact ho.covered

theorem Shifts.opened (h : Shifts free moved st st') (ho : st.Opened) : st'.Opened := by
  induction h with
  | refl => exact ho
  | tail _ hshift ih => exact hshift.opened_of ih

theorem Opened.lasts {s : Fs} (h : st.Opened) (hused : st.fs.used ≤ s.used)
    (htype : ∀ x < st.fs.used, (s.nodes x).type = (st.fs.nodes x).type) :
    ({ st with fs := s } : Files).Opened := by
  refine ⟨fun t fd huse ↦ ?_, h.bound, h.alike, h.covered⟩
  obtain ⟨hlt, hfile, hcell⟩ := h.fine t fd huse
  exact ⟨hlt.trans_le hused, (htype _ hlt).trans hfile, hcell⟩

structure At (st : Files) (t : Fin 32) (fd y : ℕ) (c : Fin 512) (off : ℕ) : Prop where
  inUse : (st.tables t fd).inUse = true
  vnode : (st.tables t fd).vnode = y
  cell : (st.tables t fd).sharedOffset = some c
  offset : (st.openDescs c).offset = off

theorem At.link (h : st.At t fd y c off) :
    st.links (t, fd) = some c := (link_some h.inUse).trans h.cell

theorem At.set {fd' : ℕ} {t' : Fin 32} {d : Fin 512 → OpenDescState} (h : st.At t fd y c off)
    (hne : (t', fd') ≠ (t, fd)) (hoff : (d c).offset = (st.openDescs c).offset) :
    ({ st with openDescs := d }.setFd t' fd' f).At t fd y c off := by
  have hsame : ({ st with openDescs := d }.setFd t' fd' f).tables t fd = st.tables t fd := by
    rw [setFd_tables _ t' fd' f (t, fd), if_neg hne.symm]
  refine ⟨?_, ?_, ?_, hoff.trans h.offset⟩
  all_goals rw [hsame]
  · exact h.inUse
  · exact h.vnode
  · exact h.cell

theorem Shift.keeps (h : Shift (· ≠ (t, fd)) moved st st') (ho : st.Opened) (hmoved : ¬ moved y)
    (hat : st.At t fd y c off) : st'.At t fd y c off := by
  have hplace : ∀ {t' fd'}, (t', fd') ≠ (t, fd) ∨ (st.tables t' fd').inUse = false →
      (t', fd') ≠ (t, fd) := by
    rintro t' fd' (hne | hfree) heq
    · exact hne heq
    · obtain ⟨rfl, rfl⟩ := Prod.mk.inj heq
      rw [hat.inUse] at hfree
      cases hfree
  cases h with
  | opened t' fd' f c' offset hfd hfree hc huse hf hfile =>
    have hcc : c ≠ c' := by
      rintro rfl
      have hused : (st.openDescs c).used = true :=
        ho.covered.used_of_link (ho.place hat.link).2 hat.link
      rw [hc] at hused
      cases hused
    exact hat.set (hplace (.inr hfree)) (by rw [update_of_ne hcc])
  | closed t' fd' huse hne =>
    obtain ⟨d, hd, hoff⟩ := releaseOpenOffset_cells st (st.tables t' fd').sharedOffset
    rw [hd]
    exact hat.set hne (hoff c)
  | copied src fd₁ dst fd' flags huse hfd hfree =>
    have hkept :=
      hat.set (d := st.openDescs)
        (f := { st.tables src fd₁ with flags := flags (st.tables src fd₁).flags })
        (hplace hfree) rfl
    unfold fdCopyScalar
    dsimp only
    obtain ⟨d, hd, hoff⟩ :=
      retainOpenOffset_cells
        (st.setFd dst fd' { st.tables src fd₁ with flags := flags (st.tables src fd₁).flags })
      (st.tables src fd₁).sharedOffset
    rw [hd]
    exact ⟨hkept.inUse, hkept.vnode, hkept.cell, (hoff c).trans hkept.offset⟩
  | cleared t' fd' f hfd hf hne => exact hat.set (d := st.openDescs) hne rfl
  | kept t' fd' f huse hf hv =>
    by_cases heq : (t', fd') = (t, fd)
    · obtain ⟨rfl, rfl⟩ := Prod.mk.inj heq
      have hself : (st.setFd t' fd' f).tables t' fd' = f := by
        rw [setFd_tables st t' fd' f (t', fd'), if_pos rfl]
      refine ⟨?_, ?_, ?_, hat.offset⟩
      all_goals rw [hself]
      · exact huse.trans hat.inUse
      · exact hv.trans hat.vnode
      · exact hf.trans hat.cell
    · exact hat.set (d := st.openDescs) heq rfl
  | sought t' fd' c' v hc hv =>
    refine ⟨hat.inUse, hat.vnode, hat.cell, ?_⟩
    by_cases hcc : c = c'
    · subst hcc
      dsimp only
      rw [update_self]
      have hvnode := (ho.alike (t', fd') (t, fd) c hc hat.link).trans hat.vnode
      obtain hm | rfl := hv
      · exact absurd (hvnode ▸ hm) hmoved
      · exact hat.offset
    · dsimp only
      rw [update_of_ne hcc]
      exact hat.offset

end Files

end YabroOS.Vfs
