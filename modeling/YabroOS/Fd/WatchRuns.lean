import YabroOS.Fd.Watches

namespace YabroOS.Watches

open Lib Function Errno

variable {s s' s'' : Watches} {table table' child : Fin 32} {p q : Fin 32 × ℕ} {e : Fin 4}
  {f f' : Handle} {fd : ℤ} {n : ℕ}

def Holds (s : Watches) (table : Fin 32) (e : Fin 4) : Prop :=
  ∃ fd f, s.files (table, fd) = some f ∧ f.epoll = some e

/-- Every number that an instance watches stands, in every table from which it can be asked, for the
object that was registered. -/
def Follows (s : Watches) : Prop :=
  ∀ table e, s.Holds table e → ∀ i, ((s.epolls e).w i).used = true →
    ∃ f, s.handle table ((s.epolls e).w i).fd = some f ∧ ((s.epolls e).w i).obj = some f.obj

def links (s : Watches) (p : Fin 32 × ℕ) : Option (Fin 4) := (s.files p).bind Handle.epoll

def places : Finset (Fin 32 × ℕ) := Finset.univ ×ˢ Finset.range maxFiles

structure Tied (s : Watches) : Prop where
  inside : ∀ p, maxFiles ≤ p.2 → s.files p = none
  counted : Counted places s.links (fun e ↦ (s.epolls e).refs) (fun e ↦ (s.epolls e).used)

/-- No instance that the table can ask watches a number. -/
def Unwatched (s : Watches) (table : Fin 32) (fd : ℤ) : Prop :=
  ∀ e, s.Holds table e → ∀ i, ((s.epolls e).w i).used = true → ((s.epolls e).w i).fd ≠ fd

/-- The number stands for one open object in the table and in every table that can ask the instance.
-/
def Registrable (s : Watches) (table : Fin 32) (e : Fin 4) (fd : ℤ) : Prop :=
  ∃ f, s.handle table fd = some f ∧ ∀ table', s.Holds table' e →
    ∃ f', s.handle table' fd = some f' ∧ f'.obj = f.obj

/-- `EPOLL_CTL_ADD` takes a watch for the number. -/
def Adds (s : Watches) (e : Fin 4) (fd : ℤ) (ev : Option (UInt32 × UInt64)) : Prop :=
  0 ≤ fd ∧ fd < maxFiles + 3 ∧ ev ≠ none ∧ s.slotOf e fd = none ∧
    ∃ i, ((s.epolls e).w i).used = false

/-- Open descriptors are closed or replaced only when their watches are gone, and numbers registered
only where they mean the same to all. -/
def Orderly (s : Watches) : Op → Prop
  | .close table fd => (s.handle table fd).isSome → s.Unwatched table fd
  | .dup2 table oldfd newfd => (s.handle table oldfd).isSome → (s.handle table newfd).isSome →
      oldfd ≠ newfd → s.Unwatched table newfd
  | .epollCtl table epfd op fd ev => op = epollCtlAdd →
      ∀ e, (s.handle table epfd).bind Handle.epoll = some e → s.Adds e fd ev →
        s.Registrable table e fd
  | _ => True

theorem mem_places : p ∈ places ↔ p.2 < maxFiles := by
  simp [places]

theorem Tied.mem (h : Tied s) (hf : s.files p = some f) : p ∈ places := by
  rw [mem_places]
  by_contra hc
  rw [h.inside p (not_lt.1 hc)] at hf
  cases hf

theorem handle_some (h : s.handle table fd = some f) :
    0 ≤ fd ∧ fd < maxFiles ∧ s.files (table, fd.toNat) = some f := by
  rw [handle] at h
  split_ifs at h with hc
  exact ⟨hc.1, hc.2, h⟩

theorem handle_of_files (h₀ : 0 ≤ fd) (h₁ : fd < maxFiles) :
    s.handle table fd = s.files (table, fd.toNat) := by
  rw [handle, if_pos ⟨h₀, h₁⟩]

theorem findFreeFd_some (h : s.findFreeFd table = some n) :
    n < maxFiles ∧ s.files (table, n) = none := by
  unfold findFreeFd at h
  have hfree := find_range_some h
  exact hfree

def Fewer (s s' : Watches) : Prop :=
  ∀ e i, ((s'.epolls e).w i).used = true → (s'.epolls e).w i = (s.epolls e).w i

theorem Fewer.trans (h : Fewer s s') (h' : Fewer s' s'') : Fewer s s'' := by
  intro e i hu
  have heq := h' e i hu
  rw [heq] at hu ⊢
  exact h e i hu

theorem fewer_refl (s : Watches) : Fewer s s := fun _ _ _ ↦ rfl

/-- An invariant about the watches that are left goes over when every table that can ask an instance
has the numbers of its watches from one that could before. -/
theorem Follows.of (h : Follows s) (hw : Fewer s s')
    (hstep : ∀ table e i, s'.Holds table e → ((s'.epolls e).w i).used = true →
      ∃ table₀, s.Holds table₀ e ∧
      ∀ f, s.handle table₀ ((s.epolls e).w i).fd = some f →
        s'.handle table ((s.epolls e).w i).fd = some f) :
    Follows s' := by
  intro table e hh i hu
  obtain ⟨table₀, hh₀, hfd⟩ := hstep table e i hh hu
  have heq := hw e i hu
  rw [heq] at hu ⊢
  obtain ⟨f, hf, hobj⟩ := h table₀ e hh₀ i hu
  exact ⟨f, hfd f hf, hobj⟩

theorem handle_update_of_free (hp : s.files p = none) (hs : s'.files = update s.files p (some f'))
    (hf : s.handle table fd = some f) : s'.handle table fd = some f := by
  obtain ⟨h₀, h₁, hfile⟩ := handle_some hf
  rw [handle_of_files h₀ h₁, hs, update_of_ne]
  · exact hfile
  · rintro rfl
    rw [hp] at hfile
    cases hfile

theorem links_update (s : Watches) (p : Fin 32 × ℕ) (a : Option Handle) :
    (fun q ↦ (update s.files p a q).bind Handle.epoll) = update s.links p (a.bind Handle.epoll) := by
  funext q
  by_cases hq : q = p
  · subst hq
    simp
  · simp [update_of_ne hq, links]

theorem epolls_update {α : Type} (g : Instance → α) (s : Watches) (e : Fin 4) (st : Instance) :
    (fun j ↦ g (update s.epolls e st j)) = update (fun j ↦ g (s.epolls j)) e (g st) := by
  funext j
  by_cases hj : j = e
  · rw [hj, update_self, update_self]
  · rw [update_of_ne hj, update_of_ne hj]

theorem used_update (s : Watches) (e : Fin 4) (st : Instance) (h : st.used = (s.epolls e).used) :
    (fun j ↦ (update s.epolls e st j).used) = fun j ↦ (s.epolls j).used := by
  rw [epolls_update Instance.used, h, update_eq_self]

theorem fewer_update {st : Instance} (he : s'.epolls = update s.epolls e st)
    (hw : ∀ i, (st.w i).used = true → st.w i = (s.epolls e).w i) : Fewer s s' := by
  intro j i hu
  rw [he] at hu ⊢
  by_cases hj : j = e
  · subst hj
    rw [update_self] at hu ⊢
    exact hw i hu
  · rw [update_of_ne hj]

theorem Instance.cleared_used (st : Instance) (i : Fin 128) :
    (Instance.cleared st i).used = false := rfl

theorem Tied.refs_lt (h : Tied s) (e : Fin 4) : (s.epolls e).refs < 2 ^ 32 - 1 := by
  have hle := h.counted.refs_le e
  have hcard : places.card = 16384 := by simp [places, maxFiles]
  rw [hcard] at hle
  omega

theorem inside_update (h : Tied s) (hp : p ∈ places) (a : Option Handle) (q : Fin 32 × ℕ)
    (hq : maxFiles ≤ q.2) : update s.files p a q = none := by
  have hne : q ≠ p := by
    rintro rfl
    rw [mem_places] at hp
    omega
  rw [update_of_ne hne]
  exact h.inside q hq

structure Changed (s s' : Watches) (files : Fin 32 × ℕ → Option Handle) : Prop where
  files : s'.files = files
  fewer : Fewer s s'
  tied : Tied s'

theorem closeAt_changed (h : Tied s) (p : Fin 32 × ℕ) :
    Changed s (s.closeAt p) (update s.files p none) := by
  rw [closeAt]
  split
  · next hp =>
    rw [← hp, update_eq_self]
    exact ⟨rfl, fewer_refl s, h⟩
  next f hf =>
  have hmem := h.mem hf
  have hlink : s.links p = f.epoll := by
    rw [links, hf]
    rfl
  cases he : f.epoll with
  | none =>
    refine ⟨rfl, fewer_refl s, inside_update h hmem none, ?_⟩
    change Counted _ (fun q ↦ (update s.files p none q).bind Handle.epoll) _ _
    rw [links_update]
    exact h.counted.skip (hlink.trans he)
  | some e =>
    have hused := h.counted.used_of_link hmem (hlink.trans he)
    simp only [epollReleaseFile, hused, if_neg (by decide : ¬ true = false)]
    by_cases hone : 1 < (s.epolls e).refs
    · rw [if_pos hone]
      refine ⟨rfl, fewer_update rfl fun _ _ ↦ rfl, inside_update h hmem none, ?_⟩
      change Counted _ (fun q ↦ (update s.files p none q).bind Handle.epoll)
        (fun j ↦ (update s.epolls e _ j).refs)
        fun j ↦ (update s.epolls e _ j).used
      rw [links_update, epolls_update Instance.refs, used_update s e _ hused.symm]
      exact h.counted.unlink hmem (hlink.trans he) hone
    · rw [if_neg hone]
      refine ⟨rfl, fewer_update rfl fun i hu ↦ ?_, inside_update h hmem none, ?_⟩
      · rw [Instance.cleared_used] at hu
        cases hu
      · change Counted _ (fun q ↦ (update s.files p none q).bind Handle.epoll)
          (fun j ↦ (update s.epolls e _ j).refs) fun j ↦ (update s.epolls e _ j).used
        rw [links_update, epolls_update Instance.refs, epolls_update Instance.used]
        exact h.counted.unlink_last hmem (hlink.trans he) hone

theorem copyAt_changed (h : Tied s) (src : Fin 32 × ℕ) {dst : Fin 32 × ℕ}
    (hdst : s.files dst = none) (hin : dst ∈ places) :
    Changed s (s.copyAt src dst) (update s.files dst (s.files src)) := by
  rw [copyAt]
  split
  · next hp =>
    rw [hp, ← hdst, update_eq_self]
    exact ⟨rfl, fewer_refl s, h⟩
  next f hf =>
  rw [hf]
  have hnone : s.links dst = none := by
    rw [links, hdst]
    rfl
  cases he : f.epoll with
  | none =>
    refine ⟨rfl, fewer_refl s, inside_update h hin _, ?_⟩
    change Counted _ (fun q ↦ (update s.files dst (some f) q).bind Handle.epoll) _ _
    rw [links_update, Option.bind_some, he]
    exact h.counted.skip hnone
  | some e =>
    have hlink : s.links src = some e := by
      rw [links, hf]
      exact he
    have hused := h.counted.used_of_link (h.mem hf) hlink
    simp only [epollRetainFile, hused, h.refs_lt e, and_self, if_true]
    refine ⟨rfl, fewer_update rfl fun _ _ ↦ rfl, inside_update h hin _, ?_⟩
    change Counted _ (fun q ↦ (update s.files dst (some f) q).bind Handle.epoll)
      (fun j ↦ (update s.epolls e _ j).refs) fun j ↦ (update s.epolls e _ j).used
    rw [links_update, epolls_update Instance.refs, used_update s e _ hused.symm,
      Option.bind_some, he]
    exact h.counted.link hin hnone hused

theorem Holds.of_update {f : Option Handle} (hh : s'.Holds table e)
    (hf : s'.files = update s.files p f) (hne : ∀ g, f = some g → g.epoll ≠ some e) :
    s.Holds table e := by
  obtain ⟨k, g, hg, hge⟩ := hh
  rw [hf] at hg
  by_cases hk : (table, k) = p
  · rw [hk, update_self] at hg
    exact absurd hge (hne g hg)
  · rw [update_of_ne hk] at hg
    exact ⟨k, g, hg, hge⟩

structure Inv (s : Watches) : Prop extends Tied s where
  follows : Follows s

theorem Inv.closeAt (h : Inv s) (hu : s.Unwatched table n) : Inv (s.closeAt (table, n)) := by
  have hc := closeAt_changed h.toTied (table, n)
  refine ⟨hc.tied, h.follows.of hc.fewer fun table' e i hh hi ↦ ?_⟩
  have hhold : s.Holds table' e := hh.of_update hc.files nofun
  refine ⟨table', hhold, fun f hf ↦ ?_⟩
  obtain ⟨h₀, h₁, hfile⟩ := handle_some hf
  rw [handle_of_files h₀ h₁, hc.files, update_of_ne]
  · exact hfile
  · intro heq
    obtain ⟨rfl, hn⟩ := Prod.mk.inj heq
    have hu' : ((s.epolls e).w i).used = true := by
      rw [← hc.fewer e i hi]
      exact hi
    exact hu e hhold i hu' (by omega)

theorem Inv.copyAt (h : Inv s) {m : ℕ} (hdst : s.files (table, n) = none) (hn : n < maxFiles) :
    Inv (s.copyAt (table, m) (table, n)) := by
  have hc := copyAt_changed h.toTied (table, m) hdst (mem_places.2 hn)
  refine ⟨hc.tied, h.follows.of hc.fewer fun table' e i hh hi ↦ ⟨table', ?_, fun f hf ↦ ?_⟩⟩
  · obtain ⟨k, g, hg, hge⟩ := hh
    rw [hc.files] at hg
    by_cases hk : (table', k) = (table, n)
    · obtain ⟨rfl, rfl⟩ := Prod.mk.inj hk
      rw [update_self] at hg
      exact ⟨m, g, hg, hge⟩
    · rw [update_of_ne hk] at hg
      exact ⟨k, g, hg, hge⟩
  · obtain ⟨h₀, h₁, hfile⟩ := handle_some hf
    rw [handle_of_files h₀ h₁, hc.files, update_of_ne]
    · exact hfile
    · intro heq
      rw [heq, hdst] at hfile
      cases hfile

theorem Inv.create (h : Inv s) (table : Fin 32) : Inv (s.create table) := by
  rw [Watches.create]
  split
  · exact h
  next n hn =>
  obtain ⟨hlt, hfree⟩ := findFreeFd_some hn
  have hmem : (table, n) ∈ places := mem_places.2 hlt
  refine ⟨⟨inside_update h.toTied hmem _, ?_⟩, h.follows.of (fewer_refl s) fun table' e i hh hi ↦
    ⟨table', ?_, ?_⟩⟩
  · change Counted _ (fun q ↦ (update s.files (table, n) _ q).bind Handle.epoll) _ _
    rw [links_update]
    refine h.counted.skip ?_
    rw [links, hfree]
    rfl
  · refine hh.of_update rfl fun g hg hge ↦ ?_
    cases hg
    cases hge
  · exact fun f hf ↦ handle_update_of_free hfree rfl hf

theorem Inv.epollCreate1 (h : Inv s) (table : Fin 32) : Inv (s.sysEpollCreate1 table) := by
  rw [sysEpollCreate1]
  split
  · exact h
  next n hn =>
  split
  · exact h
  next e he =>
  obtain ⟨hlt, hfree⟩ := findFreeFd_some hn
  have hunused : (s.epolls e).used = false := firstFree_decide he
  have hmem : (table, n) ∈ places := mem_places.2 hlt
  have hnone : s.links (table, n) = none := by
    rw [links, hfree]
    rfl
  refine ⟨⟨inside_update h.toTied hmem _, ?_⟩,
    h.follows.of (fewer_update rfl fun i hu ↦ ?_) fun table' e' i hh hi ↦ ?_⟩
  · change Counted _ (fun q ↦ (update s.files (table, n) _ q).bind Handle.epoll)
      (fun j ↦ (update s.epolls e _ j).refs) fun j ↦ (update s.epolls e _ j).used
    rw [links_update, epolls_update Instance.refs, epolls_update Instance.used]
    exact h.counted.fresh hmem hnone hunused
  · rw [Instance.cleared_used] at hu
    cases hu
  · have hne : e' ≠ e := by
      rintro rfl
      change ((update s.epolls e' _ e').w i).used = true at hi
      rw [update_self] at hi
      cases hi
    refine ⟨table', ?_, fun f hf ↦ handle_update_of_free hfree rfl hf⟩
    refine hh.of_update rfl fun g hg hge ↦ ?_
    cases hg
    exact hne (Option.some.inj hge).symm

theorem fork_changed (h : Tied s) (hne : table ≠ child) {l : List ℕ} (hl : l.Nodup)
    (hlt : ∀ fd ∈ l, fd < maxFiles) (hfree : ∀ fd ∈ l, s.files (child, fd) = none) :
    Changed s (l.foldl (fun s fd ↦ s.copyAt (table, fd) (child, fd)) s)
      (fun p ↦ if p.1 = child ∧ p.2 ∈ l then s.files (table, p.2) else s.files p) := by
  induction l generalizing s with
  | nil => exact ⟨by simp, fewer_refl s, h⟩
  | cons fd l ih =>
    rw [List.nodup_cons] at hl
    have hc := copyAt_changed h (table, fd) (hfree fd List.mem_cons_self)
      (mem_places.2 (hlt fd List.mem_cons_self))
    have hother : ∀ q : Fin 32 × ℕ, q ≠ (child, fd) →
        (s.copyAt (table, fd) (child, fd)).files q = s.files q := by
      intro q hq
      rw [hc.files, update_of_ne hq]
    have hc' := ih hc.tied hl.2 (fun n hn ↦ hlt n (List.mem_cons_of_mem _ hn)) fun n hn ↦ by
      rw [hother _ fun heq ↦ hl.1 ((Prod.mk.inj heq).2 ▸ hn)]
      exact hfree n (List.mem_cons_of_mem _ hn)
    refine ⟨?_, hc.fewer.trans hc'.fewer, hc'.tied⟩
    rw [List.foldl_cons, hc'.files]
    funext q
    by_cases hq : q = (child, fd)
    · subst hq
      rw [if_neg fun hx ↦ hl.1 hx.2, if_pos ⟨rfl, List.mem_cons_self⟩, hc.files, update_self]
    · rw [hother q hq, hother _ fun heq ↦ hne (Prod.mk.inj heq).1]
      refine if_congr ?_ rfl rfl
      rw [List.mem_cons]
      refine and_congr_right fun hq₁ ↦
        ⟨.inr, fun hx ↦ hx.resolve_left fun hq₂ ↦ hq (Prod.ext hq₁ hq₂)⟩

theorem Inv.fork (h : Inv s) (hidle : s.Idle child) : Inv (s.fork table child) := by
  by_cases hne : table = child
  · have hsame : ∀ l : List ℕ, (∀ fd ∈ l, fd < maxFiles) →
        l.foldl (fun s fd ↦ s.copyAt (table, fd) (child, fd)) s = s := by
      intro l hl
      induction l with
      | nil => rfl
      | cons fd l ih =>
        have hcopy : s.copyAt (table, fd) (child, fd) = s := by
          simp only [Watches.copyAt, hne, hidle fd (hl fd List.mem_cons_self)]
        rw [List.foldl_cons, hcopy]
        exact ih fun n hn ↦ hl n (List.mem_cons_of_mem _ hn)
    rw [Watches.fork, hsame _ fun fd hfd ↦ List.mem_range.1 hfd]
    exact h
  have hc : Changed s (s.fork table child) _ := fork_changed h.toTied hne List.nodup_range
    (fun fd hfd ↦ List.mem_range.1 hfd) fun fd hfd ↦ hidle fd (List.mem_range.1 hfd)
  -- The child's numbers stand for what they do in the parent's table.
  refine ⟨hc.tied, h.follows.of hc.fewer fun table' e i hh hi ↦ ?_⟩
  refine ⟨if table' = child then table else table', ?_, fun f hf ↦ ?_⟩
  · obtain ⟨k, g, hg, hge⟩ := hh
    rw [hc.files] at hg
    dsimp only at hg
    by_cases htable : table' = child
    · rw [if_pos htable]
      by_cases hk : k < maxFiles
      · rw [if_pos ⟨htable, List.mem_range.2 hk⟩] at hg
        exact ⟨k, g, hg, hge⟩
      · rw [if_neg fun hx ↦ hk (List.mem_range.1 hx.2), h.inside _ (not_lt.1 hk)] at hg
        cases hg
    · rw [if_neg htable]
      rw [if_neg fun hx ↦ htable hx.1] at hg
      exact ⟨k, g, hg, hge⟩
  · obtain ⟨h₀, h₁, hfile⟩ := handle_some hf
    rw [handle_of_files h₀ h₁, hc.files]
    dsimp only
    by_cases htable : table' = child
    · rw [if_pos htable] at hfile
      rw [if_pos ⟨htable, List.mem_range.2 (by omega)⟩]
      exact hfile
    · rw [if_neg htable] at hfile
      rw [if_neg fun hx ↦ htable hx.1]
      exact hfile

theorem exit_changed (h : Tied s) (table : Fin 32) (l : List ℕ) :
    Changed s (l.foldl (fun s fd ↦ s.closeAt (table, fd)) s)
      (fun p ↦ if p.1 = table ∧ p.2 ∈ l then none else s.files p) := by
  induction l generalizing s with
  | nil => exact ⟨by simp, fewer_refl s, h⟩
  | cons fd l ih =>
    have hc := closeAt_changed h (table, fd)
    have hc' := ih hc.tied
    refine ⟨?_, hc.fewer.trans hc'.fewer, hc'.tied⟩
    rw [List.foldl_cons, hc'.files]
    funext q
    by_cases hq : q = (table, fd)
    · subst hq
      rw [hc.files, update_self, if_pos (⟨rfl, List.mem_cons_self⟩ : table = table ∧ fd ∈ fd :: l),
        ite_self]
    · rw [hc.files, update_of_ne hq]
      refine if_congr ?_ rfl rfl
      rw [List.mem_cons]
      refine and_congr_right fun hq₁ ↦
        ⟨.inr, fun hx ↦ hx.resolve_left fun hq₂ ↦ hq (Prod.ext hq₁ hq₂)⟩

theorem Inv.exit (h : Inv s) (table : Fin 32) : Inv (s.exit table) := by
  have hc : Changed s (s.exit table) _ := exit_changed h.toTied table (List.range maxFiles)
  refine ⟨hc.tied, h.follows.of hc.fewer fun table' e i hh hi ↦ ⟨table', ?_, fun f hf ↦ ?_⟩⟩
  · obtain ⟨k, g, hg, hge⟩ := hh
    rw [hc.files] at hg
    dsimp only at hg
    split_ifs at hg
    exact ⟨k, g, hg, hge⟩
  · obtain ⟨h₀, h₁, hfile⟩ := handle_some hf
    have hne : table' ≠ table := by
      rintro rfl
      obtain ⟨k, g, hg, -⟩ := hh
      rw [hc.files] at hg
      dsimp only at hg
      by_cases hk : k < maxFiles
      · rw [if_pos ⟨rfl, List.mem_range.2 hk⟩] at hg
        cases hg
      · rw [if_neg fun hx ↦ hk (List.mem_range.1 hx.2), h.inside _ (not_lt.1 hk)] at hg
        cases hg
    rw [handle_of_files h₀ h₁, hc.files]
    dsimp only
    rw [if_neg fun hx ↦ hne hx.1]
    exact hfile

theorem setWatch_epolls (s : Watches) (e e' : Fin 4) (i j : Fin 128) (x : Watch) :
    ((s.setWatch e i x).epolls e').w j = if e' = e ∧ j = i then x else (s.epolls e').w j := by
  simp only [setWatch]
  by_cases he : e' = e
  · subst he
    rw [update_self]
    dsimp only
    by_cases hj : j = i
    · rw [hj, update_self, if_pos ⟨rfl, rfl⟩]
    · rw [update_of_ne hj, if_neg fun hc ↦ hj hc.2]
  · rw [update_of_ne he, if_neg fun hc ↦ he hc.1]

theorem Tied.setWatch (h : Tied s) (e : Fin 4) (i : Fin 128) (x : Watch) :
    Tied (s.setWatch e i x) := by
  have hrefs : (fun j ↦ ((s.setWatch e i x).epolls j).refs) = fun j ↦ (s.epolls j).refs := by
    simp only [Watches.setWatch]
    rw [epolls_update Instance.refs, update_eq_self]
  have hused : (fun j ↦ ((s.setWatch e i x).epolls j).used) = fun j ↦ (s.epolls j).used := by
    simp only [Watches.setWatch]
    exact used_update s e _ rfl
  refine ⟨h.inside, ?_⟩
  rw [hrefs, hused]
  exact h.counted

theorem Inv.setWatch (h : Inv s) {i : Fin 128} {x : Watch}
    (hx : x.used = true → ∀ table, s.Holds table e → ∃ f, s.handle table x.fd = some f ∧
      x.obj = some f.obj) :
    Inv (s.setWatch e i x) := by
  refine ⟨h.toTied.setWatch e i x, fun table e' hh j hu ↦ ?_⟩
  rw [setWatch_epolls] at hu ⊢
  split_ifs at hu ⊢ with hc
  · obtain ⟨rfl, -⟩ := hc
    exact hx hu table hh
  · exact h.follows table e' hh j hu

theorem Inv.epollCtl (h : Inv s) {epfd op : ℤ} {ev : Option (UInt32 × UInt64)}
    (ho : s.Orderly (.epollCtl table epfd op fd ev)) :
    Inv (s.sysEpollCtl table epfd op fd ev).1 := by
  rw [sysEpollCtl]
  split
  · exact h
  next e he =>
  by_cases h₁ : fd < 0 ∨ maxFiles + 3 ≤ fd
  · rw [if_pos h₁]
    exact h
  by_cases h₂ : (s.epolls e).used = false
  · rw [if_neg h₁, if_pos h₂]
    exact h
  by_cases h₃ : op ≠ epollCtlDel ∧ ev = none
  · rw [if_neg h₁, if_neg h₂, if_pos h₃]
    exact h
  rw [if_neg h₁, if_neg h₂, if_neg h₃]
  dsimp only
  by_cases hdel : op = epollCtlDel
  · rw [if_pos hdel]
    split
    · exact h
    · exact h.setWatch nofun
  rw [if_neg hdel]
  by_cases hadd : op = epollCtlAdd
  · rw [if_pos hadd]
    split
    · exact h
    next hslot =>
    split
    · exact h
    next i hi =>
      have hadds : s.Adds e fd ev :=
        ⟨by omega, by omega, fun hev ↦ h₃ ⟨hdel, hev⟩, by simpa using hslot, i, firstFree_decide hi⟩
      refine h.setWatch fun _ table' hh ↦ ?_
      obtain ⟨f, hf, hall⟩ := ho hadd e he hadds
      obtain ⟨f', hf', hobj⟩ := hall table' hh
      refine ⟨f', hf', ?_⟩
      dsimp only
      rw [hf, hobj]
      rfl
  rw [if_neg hadd]
  by_cases hmod : op = epollCtlMod
  · rw [if_pos hmod]
    split
    · exact h
    · next i hi => exact h.setWatch fun hu table' hh ↦ h.follows table' e hh i hu
  · rw [if_neg hmod]
    exact h

theorem Inv.unwatched (h : Inv s) (hfd : ¬ (s.handle table fd).isSome = true) :
    s.Unwatched table fd := by
  rintro e hh i hu rfl
  obtain ⟨f, hf, -⟩ := h.follows table e hh i hu
  rw [hf] at hfd
  exact hfd rfl

theorem Inv.step (h : Inv s) (op : Op) (ho : s.Orderly op) : Inv (s.step op) := by
  cases op with
  | create table => exact h.create table
  | epollCreate1 table => exact h.epollCreate1 table
  | close table fd =>
    simp only [Watches.step, sysClose]
    split_ifs with hopen
    · obtain ⟨f, hf⟩ := Option.isSome_iff_exists.1 hopen
      obtain ⟨h₀, -, -⟩ := handle_some hf
      refine h.closeAt ?_
      rw [Int.toNat_of_nonneg h₀]
      exact ho hopen
    · exact h
  | dup table oldfd =>
    simp only [Watches.step, sysDup]
    split_ifs
    · split
      · exact h
      · next n hn =>
        obtain ⟨hlt, hfree⟩ := findFreeFd_some hn
        exact h.copyAt hfree hlt
    · exact h
  | dup2 table oldfd newfd =>
    simp only [Watches.step, sysDup2]
    split_ifs with hc
    · obtain ⟨hold, h₀, h₁, hne⟩ := hc
      have hclose : Inv (s.closeAt (table, newfd.toNat)) := by
        refine h.closeAt ?_
        rw [Int.toNat_of_nonneg h₀]
        by_cases hnew : (s.handle table newfd).isSome
        · exact ho hold hnew hne
        · exact h.unwatched hnew
      refine hclose.copyAt ?_ (by omega)
      rw [(closeAt_changed h.toTied _).files, update_self]
    · exact h
  | fork table child =>
    simp only [Watches.step]
    split_ifs with hidle
    · exact h.fork hidle
    · exact h
  | exit table => exact h.exit table
  | epollCtl table epfd op fd ev => exact h.epollCtl ho

theorem inv_init : Inv init := by
  refine ⟨⟨fun p hp ↦ ?_, fun e ↦ ?_, fun e ↦ by simp [init]⟩, fun table e hh i hu ↦ nomatch hu⟩
  · simp only [init, maxFiles] at hp ⊢
    exact if_neg (by omega)
  · have hzero : pointers places init.links e = 0 := by
      refine pointers_eq_zero fun q _ ↦ ?_
      rw [links]
      simp only [init]
      split_ifs
      · exact nofun
      · exact nofun
    rw [hzero]
    rfl

/-- An event that is reported concerns the object that was registered. -/
def Faithful (s : Watches) : Prop :=
  ∀ table ready epfd maxevents l, s.sysEpollWait table ready epfd maxevents = .ok l →
    ∀ r ∈ l, r.concerns ≠ none ∧ r.concerns = r.registered

/-- An object that is not registered under its number can be, as long as a watch is free. -/
def Reusable (s : Watches) : Prop :=
  ∀ table epfd e n f ev, (s.handle table epfd).bind Handle.epoll = some e →
    s.handle table n = some f → (∀ i, ((s.epolls e).w i).used = true → ((s.epolls e).w i).fd = n →
      ((s.epolls e).w i).obj ≠ some f.obj) →
    (∃ i, ((s.epolls e).w i).used = false) → (s.sysEpollCtl table epfd epollCtlAdd n (some ev)).2 = 0

theorem holds_of_handle {epfd : ℤ} (he : (s.handle table epfd).bind Handle.epoll = some e) :
    s.Holds table e := by
  obtain ⟨f, hf, hfe⟩ := Option.bind_eq_some_iff.1 he
  exact ⟨_, f, (handle_some hf).2.2, hfe⟩

theorem Inv.faithful (h : Inv s) : Faithful s := by
  intro table ready epfd maxevents l hl r hr
  rw [sysEpollWait] at hl
  split at hl
  · cases hl
  next e he =>
  split_ifs at hl
  cases hl
  obtain ⟨i, -, hi⟩ := List.mem_filterMap.1 (List.mem_of_mem_take hr)
  rw [report] at hi
  split_ifs at hi with hused
  cases hi
  obtain ⟨f, hf, hobj⟩ := h.follows table e (holds_of_handle he) i hused.1
  dsimp only
  rw [hf, hobj]
  exact ⟨nofun, rfl⟩

theorem Inv.reusable (h : Inv s) : Reusable s := by
  intro table epfd e n f ev he hf hnot hroom
  have hh := holds_of_handle he
  obtain ⟨h₀, h₁, -⟩ := handle_some hf
  have hused : (s.epolls e).used = true := by
    obtain ⟨m, g, hg, hge⟩ := hh
    refine h.counted.used_of_link (h.mem hg) ?_
    rw [links, hg]
    exact hge
  have hslot : s.slotOf e n = none := by
    rw [slotOf, firstFree_eq_none]
    intro i
    rw [decide_eq_false_iff_not]
    rintro ⟨hu, hfd⟩
    obtain ⟨g, hg, hobj⟩ := h.follows table e hh i hu
    rw [hfd, hf] at hg
    cases hg
    exact hnot i hu hfd hobj
  simp only [sysEpollCtl, he, hused, hslot]
  rw [if_neg (by omega), if_neg (by decide), if_neg (by simp), if_neg (by decide), if_pos trivial,
    if_neg (by simp)]
  split
  · next hfull =>
    obtain ⟨i, hi⟩ := hroom
    have hall := firstFree_eq_none.1 hfull i
    rw [hi] at hall
    cases hall
  · rfl

/-- In every run of orderly calls the events that are reported concern the objects that were
registered, and every other object can be registered. -/
theorem watches_follow (l : List Op) (h : Along step Orderly init l) :
    Faithful (l.foldl step init) ∧ Reusable (l.foldl step init) := by
  have hinv : Inv (l.foldl step init) := h.invariant (fun s op hs ho ↦ hs.step op ho) inv_init
  exact ⟨hinv.faithful, hinv.reusable⟩

theorem create_both : (init.step (.create 0)).step (.epollCreate1 0) =
    { files := update (update init.files (0, 3) (some ⟨3, none⟩)) (0, 4) (some ⟨4, some 0⟩)
      epolls := update init.epolls 0 ⟨true, 1, Instance.cleared (init.epolls 0)⟩
      births := 5 } := by
  have h₁ : init.findFreeFd 0 = some 3 := by decide +kernel
  have hcreate : init.create 0 =
      { init with files := update init.files (0, 3) (some ⟨3, none⟩), births := 4 } := by
    simp only [create, h₁]
    rfl
  have h₂ : (init.create 0).findFreeFd 0 = some 4 := by decide +kernel
  have h₃ : firstFree (fun e ↦ decide (((init.create 0).epolls e).used = false)) = some 0 := by
    decide +kernel
  change (init.create 0).sysEpollCreate1 0 = _
  rw [sysEpollCreate1, h₂]
  dsimp only
  rw [h₃]
  dsimp only
  rw [hcreate]

theorem holds_create_both {table : Fin 32}
    (h : ((init.step (.create 0)).step (.epollCreate1 0)).Holds table e) : table = 0 := by
  obtain ⟨n, f, hf, hfe⟩ := h
  rw [create_both] at hf
  dsimp only at hf
  by_cases h₁ : (table, n) = (0, 4)
  · exact (Prod.mk.inj h₁).1
  by_cases h₂ : (table, n) = (0, 3)
  · exact (Prod.mk.inj h₂).1
  rw [update_of_ne h₁, update_of_ne h₂] at hf
  simp only [init] at hf
  split_ifs at hf with h₃
  exact h₃.1

/-- A registration that is withdrawn before its descriptor is closed, with a fork in between. -/
theorem watches_follow_forked :
    let l := [Op.create 0, .epollCreate1 0, .epollCtl 0 4 epollCtlAdd 3 (some (1, 7)), .fork 0 1,
      .epollCtl 0 4 epollCtlDel 3 none, .close 0 3, .create 0]
    Along step Orderly init l ∧ Faithful (l.foldl step init) ∧ Reusable (l.foldl step init) := by
  intro l
  have hadd : ((init.step (.create 0)).step (.epollCreate1 0)).Registrable 0 0 3 := by
    have hthree : ((init.step (.create 0)).step (.epollCreate1 0)).handle 0 3 = some ⟨3, none⟩ := by
      decide +kernel
    refine ⟨⟨3, none⟩, hthree, fun table' hh ↦ ⟨⟨3, none⟩, ?_, rfl⟩⟩
    rw [holds_create_both hh]
    exact hthree
  have hepoll : (((init.step (.create 0)).step (.epollCreate1 0)).handle 0 4).bind Handle.epoll =
      some 0 := by decide +kernel
  have hnone : ∀ e i, (((((((init.step (.create 0)).step (.epollCreate1 0)).step
      (.epollCtl 0 4 epollCtlAdd 3 (some (1, 7)))).step (.fork 0 1)).step
        (.epollCtl 0 4 epollCtlDel 3 none)).epolls e).w
      i).used = false := by decide +kernel
  have hrun : Along step Orderly init l := by
    refine ⟨trivial, trivial, fun _ e he _ ↦ ?_, trivial, fun hc ↦ absurd hc (by decide),
      fun _ e _ i hu ↦ ?_, trivial, trivial⟩
    · rw [Option.some.inj (he.symm.trans hepoll)]
      exact hadd
    · exact absurd ((hnone e i).symm.trans hu) (by decide)
  exact ⟨hrun, watches_follow l hrun⟩

/-- A watch outlives the descriptor: its next event comes from the object that has got the number
since, which cannot be registered itself. -/
theorem watch_outlives_descriptor :
    let s := [Op.create 0, .epollCreate1 0, .epollCtl 0 4 epollCtlAdd 3 (some (1, 7)), .close 0 3,
      .create 0].foldl step init
    s.sysEpollWait 0 (fun _ events ↦ events) 4 1 = .ok [⟨1, 7, some 3, some 5⟩] ∧
      s.handle 0 3 = some ⟨5, none⟩ ∧
        (s.sysEpollCtl 0 4 epollCtlAdd 3 (some (1, 7))).2 = -eexist := by
  decide +kernel

end YabroOS.Watches
