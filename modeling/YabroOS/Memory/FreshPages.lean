import YabroOS.Memory.Contents

namespace YabroOS.Memory

open Lib Function

theorem Pmm.Holding.ne_zero {p p' : Pmm} {N : Multiset ℕ} {f : ℕ} (h : p.Holding N p')
    (hf : f ∈ N) : f ≠ 0 := by
  obtain ⟨l, t, hinv⟩ := h.inv
  have hmem : f ∈ p'.frames := by
    rw [h.frames]
    exact (h.free f hf).1
  have hle := (hinv.toSound.bounds hmem).1
  rintro rfl
  rw [zero_mul] at hle
  exact absurd hle (by decide)

namespace Tab

variable {p q q' : Pmm} {n virt : ℕ} {N : Multiset ℕ}

/-- The tables below a table, as far as the walks of the kernel get. -/
def reached (p : Pmm) : (n : ℕ) → Tab n → ℕ
  | 0, _ => 0
  | n + 1, t => Slots.total (fun _ e ↦
      match e with
      | .huge _ _ => 0
      | .next _ f c => if p.table f then 1 + reached p n c else 0) t

def entryReached (p : Pmm) (n : ℕ) : Entry (Tab n) → ℕ
  | .huge _ _ => 0
  | .next _ f c => if p.table f then 1 + reached p n c else 0

theorem reached_succ (t : Tab (n + 1)) :
    reached p (n + 1) t = Slots.total (fun _ e ↦ entryReached p n e) t := by
  refine Slots.total_congr (fun _ e _ ↦ ?_)
  cases e <;> rfl

theorem reached_empty (n : ℕ) : reached p n (empty n) = 0 := by
  cases n <;> rfl

theorem holding_ensureUserChild {e : Option (Entry (Tab n))} {o : Option (PteFlags × ℕ × Tab n)}
    (h : p.Holding N q) (hc : ensureUserChild q n e = (q', o)) :
    (o = none → p.Holding N q') ∧ ∀ fl f c, o = some (fl, f, c) →
      ∃ M, p.Holding (M + N) q' ∧
        entryReached p n (.next fl f c) = e.elim 0 (entryReached p n) + M.card := by
  have hnew : newUserTable q n = (q', o) → e.elim 0 (entryReached p n) = 0 →
      (o = none → p.Holding N q') ∧ ∀ fl f c, o = some (fl, f, c) →
        ∃ M, p.Holding (M + N) q' ∧
          entryReached p n (.next fl f c) = e.elim 0 (entryReached p n) + M.card := by
    intro hq hzero
    simp only [newUserTable] at hq
    split at hq
    · next q₁ ha =>
      cases hq
      exact ⟨fun _ ↦ h.allocTable_none ha, fun _ _ _ ho ↦ by cases ho⟩
    · next q₁ f₁ ha =>
      cases hq
      obtain ⟨hhold, htab⟩ := h.allocTable_some ha
      refine ⟨fun ho ↦ absurd ho (Option.some_ne_none _), fun fl f c ho ↦ ⟨{f₁}, ?_, ?_⟩⟩
      · rwa [Multiset.singleton_add]
      · cases ho
        simp [entryReached, htab, reached_empty, hzero]
  unfold ensureUserChild at hc
  split at hc
  · next fl₁ f₁ c₁ =>
    have hsame : q.table f₁ = true → ∀ fl : PteFlags, p.Holding (0 + N) q ∧
        entryReached p n (.next fl f₁ c₁) = (some (.next fl₁ f₁ c₁) : Option (Entry (Tab n))).elim 0
          (entryReached p n) + (0 : Multiset ℕ).card :=
      fun _ _ ↦ ⟨by rwa [zero_add], rfl⟩
    split_ifs at hc with htab hfl
    · cases hc
      refine ⟨fun ho ↦ absurd ho (Option.some_ne_none _), fun fl f c ho ↦ ?_⟩
      cases ho
      exact ⟨0, hsame htab _⟩
    · cases hc
      refine ⟨fun ho ↦ absurd ho (Option.some_ne_none _), fun fl f c ho ↦ ?_⟩
      cases ho
      exact ⟨0, hsame htab _⟩
    · refine hnew hc ?_
      have hp : p.table f₁ = false := by
        rw [← h.toFixed.table]
        simpa using htab
      simp [entryReached, hp]
  · next hne =>
    refine hnew hc ?_
    cases e with
    | none => rfl
    | some e =>
      cases e with
      | huge fl f => rfl
      | next fl f c => exact absurd rfl (hne fl f c)

theorem holding_mapLeaf {t t' : Tab n} {e : Pte} {ok : Bool} (h : p.Holding N q)
    (hc : mapLeaf n q t virt e = (q', t', ok)) :
    ∃ M, p.Holding (M + N) q' ∧ reached p n t' = reached p n t + M.card := by
  induction n generalizing q q' N ok with
  | zero =>
    cases hc
    exact ⟨0, by rwa [zero_add], rfl⟩
  | succ n ih =>
    simp only [mapLeaf] at hc
    split at hc
    · next q₁ he =>
      cases hc
      exact ⟨0, by rw [zero_add]; exact (holding_ensureUserChild h he).1 rfl, rfl⟩
    · next q₁ fl f c he =>
      obtain ⟨M, hM, hcount⟩ := (holding_ensureUserChild h he).2 fl f c rfl
      cases hm : mapLeaf n q₁ c virt e with
      | mk q₂ r =>
      obtain ⟨c', ok'⟩ := r
      rw [hm] at hc
      cases hc
      obtain ⟨M', hM', hcount'⟩ := ih hM hm
      refine ⟨M' + M, by rwa [add_assoc], ?_⟩
      have htab : p.table f = true := by
        rw [← hM.toFixed.table]
        exact (Vmm.ensureUserChild_some he).1
      have hnext : ∀ c, entryReached p n (.next fl f c) = 1 + reached p n c := fun c ↦ if_pos htab
      rw [hnext] at hcount
      rw [reached_succ, reached_succ, Slots.total_set, Slots.total_erase _ t (idx (n + 1) virt),
        hnext, Multiset.card_add]
      have helim : (Slots.get? t (idx (n + 1) virt)).elim 0 (fun e ↦ entryReached p n e) + M.card =
          1 + reached p n c := hcount.symm
      dsimp only
      omega

theorem reached_setLeaf (t : Tab n) (virt : ℕ) (o : Option Pte) :
    reached p n (setLeaf n t virt o) = reached p n t := by
  induction n with
  | zero => rfl
  | succ n ih =>
    simp only [setLeaf]
    split
    · next fl f c hc =>
      rw [reached_succ, reached_succ, Slots.total_set, Slots.total_of_get? _ hc]
      simp only [entryReached, ih]
    · rfl

theorem walk_mapLeaf_false {frame : ℕ} {t t' : Tab n} {e : Pte}
    (h : mapLeaf n q t virt e = (q', t', false)) : walk q' n frame t' virt = none := by
  induction n generalizing q q' frame with
  | zero => cases h
  | succ n ih =>
    simp only [mapLeaf] at h
    simp only [walk]
    split_ifs
    swap
    · rfl
    split at h
    · next q₁ he =>
      cases h
      split
      · next fl f c hc =>
        refine Vmm.walk_of_table ?_
        rw [Pmm.table_congr (Vmm.hhdm_ensureUserChild he)]
        rw [hc] at he
        unfold ensureUserChild at he
        dsimp only at he
        split_ifs at he with htab
        · cases he
        · cases he
        · simpa using htab
      · rfl
    · next q₁ fl f c he =>
      cases hm : mapLeaf n q₁ c virt e with
      | mk q₂ r =>
      obtain ⟨c', ok'⟩ := r
      rw [hm] at h
      cases h
      simp only [Slots.get?_set_self]
      exact ih hm

theorem reached_congr (hh : q.hhdm = p.hhdm) (t : Tab n) : reached q n t = reached p n t := by
  induction n with
  | zero => rfl
  | succ n ih =>
    rw [reached_succ, reached_succ]
    refine Slots.total_congr (fun _ e _ ↦ ?_)
    cases e with
    | huge fl f => rfl
    | next fl f c => simp only [entryReached, Pmm.table_congr hh, ih]

end Tab

namespace Vmm

variable {s s' s'' : Vmm} {p : Pmm} {root virt va frame : ℕ} {flags : PteFlags} {N : Multiset ℕ}
    {rc : ℤ}

def tables (s : Vmm) (root : ℕ) : ℕ := (s.spaces.get? root).elim 0 (Tab.reached s.pmm 3)

theorem tables_congr (hsp : s'.spaces = s.spaces) (hh : s'.pmm.hhdm = s.pmm.hhdm) :
    s'.tables root = s.tables root := by
  unfold tables
  rw [hsp]
  cases s.spaces.get? root with
  | none => rw [Option.elim_none, Option.elim_none]
  | some t => exact Tab.reached_congr hh t

theorem tables_setLeaf {o : Option Pte} (hsp : s'.spaces = setLeafIn s.spaces root virt o)
    (hh : s'.pmm.hhdm = s.pmm.hhdm) : s'.tables root = s.tables root := by
  unfold tables
  rw [hsp]
  cases ht : s.spaces.get? root with
  | none => simp only [setLeafIn, ht, Option.elim_none]
  | some t =>
    simp only [setLeafIn, ht, Slots.get?_set_self, Option.elim_some]
    rw [Tab.reached_setLeaf, Tab.reached_congr hh]

theorem userMap_books (h : p.Holding N s.pmm) (hu : s.user = some root)
    (hc : s.vmmUserMap virt frame flags = (s', rc)) :
    ∃ M, p.Holding (M + N) s'.pmm ∧ s'.tables root = s.tables root + M.card := by
  have hsame : p.Holding (0 + N) s.pmm ∧ s.tables root = s.tables root + (0 : Multiset ℕ).card :=
    ⟨by rwa [zero_add], by rw [Multiset.card_zero, add_zero]⟩
  simp only [vmmUserMap, hu] at hc
  split at hc
  · cases hc
    exact ⟨0, hsame⟩
  split at hc
  · cases hc
    exact ⟨0, hsame⟩
  next t ht =>
  cases hm : Tab.mapLeaf 3 s.pmm t virt (userPte frame flags) with
  | mk q r =>
  obtain ⟨t', ok⟩ := r
  rw [hm] at hc
  cases hc
  obtain ⟨M, hM, hcount⟩ := Tab.holding_mapLeaf h hm
  refine ⟨M, hM, ?_⟩
  simp only [tables, Slots.get?_set_self, ht, Option.elim_some]
  rw [Tab.reached_congr hM.hhdm, Tab.reached_congr h.hhdm, hcount]

theorem off_userMap_fail (hu : s.user = some root) (hnone : s.vmmUserTranslateCr3 root virt = none)
    (hc : s.vmmUserMap virt frame flags = (s', rc)) (hrc : rc ≠ 0) :
    Off root (fun _ ↦ False) s s' := by
  have hoff := off_userMap hu virt frame flags
  have hafter : s'.vmmUserTranslateCr3 root virt = none := by
    simp only [vmmUserMap, hu] at hc
    split at hc
    · cases hc
      exact hnone
    split at hc
    · cases hc
      exact hnone
    next t ht =>
    cases hm : Tab.mapLeaf 3 s.pmm t virt (userPte frame flags) with
    | mk q r =>
    obtain ⟨t', ok⟩ := r
    rw [hm] at hc
    cases hc
    cases ok with
    | true => exact absurd rfl hrc
    | false =>
      simp only [vmmUserTranslateCr3, Slots.get?_set_self]
      split_ifs
      · exact Tab.walk_mapLeaf_false hm
      · rfl
  rw [hc] at hoff
  refine ⟨fun r va _ ↦ ?_, fun r va e _ he ↦ ?_⟩
  · by_cases hpage : r = root ∧ Pmm.pageOf va = Pmm.pageOf virt
    · obtain ⟨rfl, hpage⟩ := hpage
      rw [← translate_pageOf, hpage, translate_pageOf, hafter, ← translate_pageOf, hpage,
        translate_pageOf, hnone]
    · exact hoff.translate r va (fun hr hp ↦ hpage ⟨hr, hp⟩)
  · have hb := userMap_bytes s virt frame flags
    rw [hc] at hb
    rw [show s'.bytes = s.bytes from hb]

section AllocMap

variable {q : Pmm} {b : ℕ → UInt8}

theorem allocMap_done (hs : s.Framed) (hu : s.user = some root) (h : p.Holding N s.pmm)
    (ha : s.pmm.pmmAllocPage = (q, some frame))
    (hc : vmmUserMap { s with pmm := q, bytes := update s.bytes frame b } va frame flags = (s', 0)) :
    ∃ M, p.Holding (frame ::ₘ (M + N)) s'.pmm ∧ s'.tables root = s.tables root + M.card ∧
      Off root (· = Pmm.pageOf va) s s' ∧
        s'.vmmUserTranslateCr3 root va = some (userPte frame flags) ∧ s'.bytes frame = b := by
  have hu₁ : ({ s with pmm := q, bytes := update s.bytes frame b } : Vmm).user = some root := hu
  have hoff := (off_alloc (P := (· = Pmm.pageOf va)) hs ha b).trans (off_userMap hu₁ va frame flags)
  have hkept := userMap_frame { s with pmm := q, bytes := update s.bytes frame b } va frame flags
  have hbytes := userMap_bytes { s with pmm := q, bytes := update s.bytes frame b } va frame flags
  obtain ⟨M, hM, htab⟩ := userMap_books (h.alloc_some ha) hu₁ hc
  have htab₁ : ({ s with pmm := q, bytes := update s.bytes frame b } : Vmm).tables root =
    s.tables root :=
    tables_congr rfl (hhdm_alloc ha)
  have he := translate_userMap hc
  rw [hc] at hoff hkept hbytes
  rw [translate_eq_of_user (hkept.2.2.1.trans hu)] at he
  refine ⟨M, by rwa [← Multiset.add_cons], htab.trans (by rw [htab₁]), hoff, he, ?_⟩
  exact (congrFun hbytes frame).trans (update_self _ _ _)

theorem allocMap_failed (hs : s.Framed) (hu : s.user = some root) (h : p.Holding N s.pmm)
    (ha : s.pmm.pmmAllocPage = (q, some frame)) (hnone : s.vmmUserTranslateCr3 root va = none)
    (hc : vmmUserMap { s with pmm := q, bytes := update s.bytes frame b } va frame flags = (s', rc))
    (hrc : rc ≠ 0) :
    ∃ M, p.Holding (M + N) (s'.pmm.pmmFreePage (frame * pageSize)) ∧
      ({ s' with pmm := s'.pmm.pmmFreePage (frame * pageSize) } : Vmm).tables root =
        s.tables root + M.card ∧
      Off root (fun _ ↦ False) s { s' with pmm := s'.pmm.pmmFreePage (frame * pageSize) } := by
  have hu₁ : ({ s with pmm := q, bytes := update s.bytes frame b } : Vmm).user = some root := hu
  have halloc : Off root (fun _ ↦ False) s { s with pmm := q, bytes := update s.bytes frame b } :=
    off_alloc hs ha b
  have hnone₁ : ({ s with pmm := q, bytes := update s.bytes frame b } : Vmm).vmmUserTranslateCr3
    root va = none :=
    (halloc.translate root va (fun _ ↦ id)).trans hnone
  obtain ⟨M, hM, htab⟩ := userMap_books (h.alloc_some ha) hu₁ hc
  have htab₁ : ({ s with pmm := q, bytes := update s.bytes frame b } : Vmm).tables root =
    s.tables root :=
    tables_congr rfl (hhdm_alloc ha)
  have hfree : ({ s' with pmm := s'.pmm.pmmFreePage (frame * pageSize) } : Vmm).tables root =
    s'.tables root :=
    tables_congr rfl (Pmm.pmmFreePage_hhdm _ _)
  rw [Multiset.add_cons] at hM
  exact ⟨M, hM.free_page, hfree.trans (htab.trans (by rw [htab₁])),
    (halloc.trans (off_userMap_fail hu₁ hnone₁ hc hrc)).trans (.pmm (Pmm.pmmFreePage_hhdm _ _))⟩

theorem fail_none (h : p.Holding N s.pmm) (ha : s.pmm.pmmAllocPage = (q, none)) :
    ∃ M, p.Holding (M + N) q ∧ ({ s with pmm := q } : Vmm).tables root = s.tables root + M.card ∧
      Off root (fun _ ↦ False) s { s with pmm := q } :=
  ⟨0, (zero_add N).symm ▸ h.alloc_none ha, tables_congr rfl (hhdm_alloc ha), .pmm (hhdm_alloc ha)⟩

theorem fail_freed (h : p.Holding N s.pmm) (ha : s.pmm.pmmAllocPage = (q, some frame)) :
    ∃ M, p.Holding (M + N) (q.pmmFreePage (frame * pageSize)) ∧
      ({ s with pmm := q.pmmFreePage (frame * pageSize) } : Vmm).tables root =
        s.tables root + M.card ∧
      Off root (fun _ ↦ False) s { s with pmm := q.pmmFreePage (frame * pageSize) } := by
  have hhdm := (Pmm.pmmFreePage_hhdm q (frame * pageSize)).trans (hhdm_alloc ha)
  exact ⟨0, (zero_add N).symm ▸ (h.alloc_some ha).free_page, tables_congr rfl hhdm, .pmm hhdm⟩

end AllocMap

/-- A step of a loop that maps a fresh page and fails without a trace but for new tables; `free`
says whether it relies on a page that is not mapped. -/
structure MapsFresh (root : ℕ) (content : ℕ → ℕ → UInt8) (flags : PteFlags) (free : Prop)
    (f : Vmm → ℕ → Vmm × ℤ) : Prop where
  keeps : ∀ (s : Vmm) va, s.Keeps (f s va).1
  done : ∀ {s s' : Vmm} {va : ℕ} {p : Pmm} {N : Multiset ℕ}, s.Framed → s.user = some root →
    p.Holding N s.pmm → (free → s.vmmUserTranslateCr3 root va = none) → f s va = (s', 0) →
    ∃ frame M, p.Holding (frame ::ₘ (M + N)) s'.pmm ∧ s'.tables root = s.tables root + M.card ∧
      Off root (· = Pmm.pageOf va) s s' ∧ s.vmmUserTranslateCr3 root va = none ∧
      s'.vmmUserTranslateCr3 root va = some (userPte frame flags) ∧ s'.bytes frame = content va
  failed : ∀ {s s' : Vmm} {va : ℕ} {p : Pmm} {N : Multiset ℕ} {rc : ℤ}, s.Framed →
    s.user = some root → p.Holding N s.pmm →
    (free → s.vmmUserTranslateCr3 root va = none) → f s va = (s', rc) → rc ≠ 0 →
    ∃ M, p.Holding (M + N) s'.pmm ∧ s'.tables root = s.tables root + M.card ∧
      Off root (fun _ ↦ False) s s'

/-- The pages that a loop has mapped so far, with their frames, and the tables that it has made for
them. -/
structure Grown (root : ℕ) (content : ℕ → ℕ → UInt8) (flags : PteFlags) (s : Vmm)
    (pgs : List (ℕ × ℕ)) (M : Multiset ℕ) (s' : Vmm) : Prop where
  keeps : s.Keeps s'
  holding : s.pmm.Holding ((pgs.map Prod.snd : Multiset ℕ) + M) s'.pmm
  tables : s'.tables root = s.tables root + M.card
  off : Off root (· ∈ pgs.map Prod.fst) s s'
  nodup : (pgs.map Prod.fst).Nodup
  aligned : ∀ q ∈ pgs, q.1 % pageSize = 0
  pages : ∀ q ∈ pgs, s.vmmUserTranslateCr3 root q.1 = none ∧
    s'.vmmUserTranslateCr3 root q.1 = some (userPte q.2 flags) ∧ s'.bytes q.2 = content q.1

variable {content : ℕ → ℕ → UInt8} {free : Prop} {f : Vmm → ℕ → Vmm × ℤ} {pgs : List (ℕ × ℕ)}
    {M : Multiset ℕ}

theorem Grown.nil (hok : s.pmm.Ok) : Grown root content flags s [] 0 s where
  keeps := .refl s
  holding := by simpa using hok.holding
  tables := by rw [Multiset.card_zero, add_zero]
  off := .refl s
  nodup := List.nodup_nil
  aligned _ hq := (List.not_mem_nil hq).elim
  pages _ hq := (List.not_mem_nil hq).elim

theorem pageOf_aligned (hal : va % pageSize = 0) : Pmm.pageOf va = va :=
  pageOf_of_dvd (Nat.dvd_of_mod_eq_zero hal)

theorem Grown.translate (h : Grown root content flags s pgs M s') (hal : va % pageSize = 0)
    (hva : va ∉ pgs.map Prod.fst) :
    s'.vmmUserTranslateCr3 root va = s.vmmUserTranslateCr3 root va :=
  h.off.translate root va (fun _ ↦ by rwa [pageOf_aligned hal])

theorem Grown.map (h : Grown root content flags s pgs M s')
    (hf : MapsFresh root content flags free f) (hs : s.Framed) (hu : s.user = some root)
    (hal : va % pageSize = 0) (hva : va ∉ pgs.map Prod.fst)
    (hfree : free → s.vmmUserTranslateCr3 root va = none) (hc : f s' va = (s'', 0)) :
    ∃ frame M', Grown root content flags s (pgs ++ [(va, frame)]) M' s'' := by
  have hkeeps := hf.keeps s' va
  rw [hc] at hkeeps
  have htr := h.translate hal hva
  obtain ⟨frame, M', hhold, htab, hoff, hnone, hsome, hbytes⟩ :=
    hf.done (h.keeps.framed hs) (h.keeps.user.trans hu) h.holding (fun hh ↦ htr.trans (hfree hh)) hc
  have hother : ∀ q ∈ pgs, Pmm.pageOf q.1 ≠ Pmm.pageOf va := by
    intro q hq
    rw [pageOf_aligned (h.aligned q hq), pageOf_aligned hal]
    exact fun heq ↦ hva (heq ▸ List.mem_map_of_mem hq)
  refine ⟨frame, M' + M, h.keeps.trans hkeeps, ?_, ?_, ?_, ?_, ?_, ?_⟩
  · have heq : ((pgs ++ [(va, frame)]).map Prod.snd : Multiset ℕ) + (M' + M) =
        frame ::ₘ (M' + ((pgs.map Prod.snd : Multiset ℕ) + M)) := by
      rw [List.map_append, List.map_singleton, ← Multiset.coe_add, Multiset.coe_singleton,
        ← Multiset.singleton_add]
      abel
    rwa [heq]
  · rw [htab, h.tables, Multiset.card_add]
    omega
  · refine (h.off.mono fun k hk ↦ ?_).trans (hoff.mono fun k hk ↦ ?_)
    · rw [List.map_append]
      exact List.mem_append_left _ hk
    · rw [List.map_append, hk, pageOf_aligned hal]
      exact List.mem_append_right _ (.head _)
  · rw [List.map_append]
    exact List.nodup_append.2 ⟨h.nodup, List.nodup_singleton _, fun a ha b hb hab ↦ hva (by
      rw [hab, List.mem_singleton.1 hb] at ha
      exact ha)⟩
  · intro q hq
    obtain hq | hq := List.mem_append.1 hq
    · exact h.aligned q hq
    · rw [List.mem_singleton.1 hq]
      exact hal
  · intro q hq
    obtain hq | hq := List.mem_append.1 hq
    · obtain ⟨hq₁, hq₂, hq₃⟩ := h.pages q hq
      have hne : root = root → ¬ Pmm.pageOf q.1 = Pmm.pageOf va := fun _ ↦ hother q hq
      exact ⟨hq₁, (hoff.translate root q.1 hne).trans hq₂, (hoff.bytes root q.1 _ hne hq₂).trans hq₃⟩
    · rw [List.mem_singleton.1 hq]
      exact ⟨htr ▸ hnone, hsome, hbytes⟩

theorem Grown.fail (h : Grown root content flags s pgs M s')
    (hf : MapsFresh root content flags free f) (hs : s.Framed)
    (hu : s.user = some root) (hal : va % pageSize = 0) (hva : va ∉ pgs.map Prod.fst)
    (hfree : free → s.vmmUserTranslateCr3 root va = none) (hc : f s' va = (s'', rc)) (hrc : rc ≠ 0) :
    ∃ M', Grown root content flags s pgs M' s'' := by
  have hkeeps := hf.keeps s' va
  rw [hc] at hkeeps
  have htr := h.translate hal hva
  obtain ⟨M', hhold, htab, hoff⟩ := hf.failed (h.keeps.framed hs) (h.keeps.user.trans hu) h.holding
    (fun hh ↦ htr.trans (hfree hh)) hc hrc
  refine ⟨M' + M, h.keeps.trans hkeeps, ?_, ?_, h.off.trans (hoff.mono fun _ hk ↦ hk.elim), h.nodup,
    h.aligned, fun q hq ↦ ?_⟩
  · have heq : (pgs.map Prod.snd : Multiset ℕ) + (M' + M) =
        M' + ((pgs.map Prod.snd : Multiset ℕ) + M) := by abel
    rwa [heq]
  · rw [htab, h.tables, Multiset.card_add]
    omega
  · obtain ⟨hq₁, hq₂, hq₃⟩ := h.pages q hq
    exact ⟨hq₁, (hoff.translate root q.1 (fun _ hk ↦ hk)).trans hq₂,
      (hoff.bytes root q.1 _ (fun _ hk ↦ hk) hq₂).trans hq₃⟩

theorem Grown.eachPage {l : List ℕ} {n : ℕ} (h : Grown root content flags s pgs M s')
    (hf : MapsFresh root content flags free f) (hs : s.Framed) (hu : s.user = some root)
    (hal : ∀ va ∈ l, va % pageSize = 0) (hnodup : (pgs.map Prod.fst ++ l).Nodup)
    (hfree : free → ∀ va ∈ l, s.vmmUserTranslateCr3 root va = none)
    (hc : Vmm.eachPage f l s' = (s'', n, rc)) :
    ∃ pgs' M', Grown root content flags s pgs' M' s'' ∧
      pgs'.map Prod.fst = pgs.map Prod.fst ++ if rc = 0 then l else l.take n := by
  induction l generalizing s' pgs M n with
  | nil =>
    cases hc
    exact ⟨pgs, M, h, by simp⟩
  | cons va l ih =>
    have hva : va ∉ pgs.map Prod.fst :=
      fun hm ↦ (List.nodup_append.1 hnodup).2.2 va hm va (.head _) rfl
    have hal' := hal va (.head _)
    have hfree' : free → s.vmmUserTranslateCr3 root va = none := fun hh ↦ hfree hh va (.head _)
    simp only [Vmm.eachPage] at hc
    cases hp : f s' va with
    | mk s₁ rc₁ =>
    rw [hp] at hc
    dsimp only at hc
    by_cases hrc : rc₁ = 0
    swap
    · rw [if_pos hrc] at hc
      cases hc
      obtain ⟨M', hfail⟩ := h.fail hf hs hu hal' hva hfree' hp hrc
      exact ⟨pgs, M', hfail, by simp [hrc]⟩
    subst hrc
    rw [if_neg (by simp)] at hc
    cases he : Vmm.eachPage f l s₁ with
    | mk s₂ q =>
    obtain ⟨k, rc₂⟩ := q
    rw [he] at hc
    cases hc
    obtain ⟨frame, M', hone⟩ := h.map hf hs hu hal' hva hfree' hp
    have hlist : (pgs ++ [(va, frame)]).map Prod.fst ++ l = pgs.map Prod.fst ++ va :: l := by simp
    obtain ⟨pgs', M'', hrest, hmap⟩ := ih hone (fun v hv ↦ hal v (.tail _ hv)) (hlist ▸ hnodup)
      (fun hh v hv ↦ hfree hh v (.tail _ hv)) he
    refine ⟨pgs', M'', hrest, hmap.trans ?_⟩
    split_ifs
    · exact hlist
    · simp

theorem Grown.unmap {q : ℕ × ℕ} (h : Grown root content flags s (q :: pgs) M s')
    (hu : s.user = some root) : Grown root content flags s pgs M (s'.unmapFree q.1) := by
  obtain ⟨hq₁, hq₂, -⟩ := h.pages q (.head _)
  have hal := h.aligned q (.head _)
  have hu' := h.keeps.user.trans hu
  have hhold : s.pmm.Holding (q.2 ::ₘ ((pgs.map Prod.snd : Multiset ℕ) + M)) s'.pmm := by
    have hcons := h.holding
    rwa [List.map_cons, ← Multiset.cons_coe, Multiset.cons_add] at hcons
  have hne : q.2 ≠ 0 := hhold.ne_zero (Multiset.mem_cons_self _ _)
  have heq : s'.unmapFree q.1 =
      { s'.setLeaf root q.1 none with pmm := s'.pmm.pmmFreePage (q.2 * pageSize) } := by
    simp only [unmapFree, vmmUserUnmap, hu', hal, ne_eq, not_true_eq_false, if_false, hq₂]
    exact if_neg hne
  have hkeeps := Keeps.unmapFree s' q.1
  have hoff := off_unmapFree hu' q.1
  have hgone := unmapFree_translate hu' hal
  have hhdm := hkeeps.hhdm
  rw [heq] at hkeeps hoff hgone hhdm ⊢
  obtain ⟨hnot, hnodup⟩ := List.nodup_cons.1 h.nodup
  -- Only the page itself has changed since, and it was not mapped before.
  have hpage : ∀ {r va}, ¬ (r = root ∧ Pmm.pageOf va = q.1) →
      (r = root → Pmm.pageOf va ∉ pgs.map Prod.fst) →
      (r = root → ¬ Pmm.pageOf va = Pmm.pageOf q.1) ∧
        (r = root → Pmm.pageOf va ∉ (q :: pgs).map Prod.fst) := by
    intro r va hne hva
    rw [pageOf_aligned hal]
    refine ⟨fun hr hp ↦ hne ⟨hr, hp⟩, fun hr hm ↦ ?_⟩
    obtain hp | hm := List.mem_cons.1 hm
    · exact hne ⟨hr, hp⟩
    · exact hva hr hm
  have hbefore : ∀ {va}, Pmm.pageOf va = q.1 → s.vmmUserTranslateCr3 root va = none := by
    intro va hva
    rw [← translate_pageOf, hva, hq₁]
  refine ⟨h.keeps.trans hkeeps, hhold.free_page, ?_, ⟨fun r va hva ↦ ?_, fun r va e hva he ↦ ?_⟩,
    hnodup,
    fun q' hq' ↦ h.aligned q' (.tail _ hq'), fun q' hq' ↦ ?_⟩
  · rw [← h.tables]
    exact tables_setLeaf rfl hhdm
  · by_cases hq : r = root ∧ Pmm.pageOf va = q.1
    · obtain ⟨rfl, hva'⟩ := hq
      rw [hbefore hva', ← translate_pageOf, hva', hgone]
    · obtain ⟨hne₁, hne₂⟩ := hpage hq hva
      exact (hoff.translate r va hne₁).trans (h.off.translate r va hne₂)
  · by_cases hq : r = root ∧ Pmm.pageOf va = q.1
    · obtain ⟨rfl, hva'⟩ := hq
      rw [hbefore hva'] at he
      cases he
    · exact h.off.bytes r va e (hpage hq hva).2 he
  · obtain ⟨hq₁', hq₂', hq₃'⟩ := h.pages q' (.tail _ hq')
    have hne : root = root → ¬ Pmm.pageOf q'.1 = Pmm.pageOf q.1 := by
      intro _ hp
      rw [pageOf_aligned hal, pageOf_aligned (h.aligned q' (.tail _ hq'))] at hp
      exact hnot (hp ▸ List.mem_map_of_mem hq')
    exact ⟨hq₁', (hoff.translate root q'.1 hne).trans hq₂', hq₃'⟩

theorem Grown.unmapPages (h : Grown root content flags s pgs M s') (hu : s.user = some root) :
    Grown root content flags s [] M (s'.unmapPages (pgs.map Prod.fst)) := by
  induction pgs generalizing s' with
  | nil => exact h
  | cons q pgs ih => exact ih (h.unmap hu)

theorem mapPages_grown {l : List ℕ} (hok : s.pmm.Ok) (hf : MapsFresh root content flags free f)
    (hs : s.Framed) (hu : s.user = some root) (hal : ∀ va ∈ l, va % pageSize = 0) (hnodup : l.Nodup)
    (hfree : free → ∀ va ∈ l, s.vmmUserTranslateCr3 root va = none) (hc : s.mapPages f l = (s', rc)) :
    ∃ pgs M, Grown root content flags s pgs M s' ∧ pgs.map Prod.fst = if rc = 0 then l else [] := by
  unfold Vmm.mapPages at hc
  cases he : Vmm.eachPage f l s with
  | mk s₁ q =>
  obtain ⟨n, rc₁⟩ := q
  rw [he] at hc
  obtain ⟨pgs, M, hgrown, hpgs⟩ := (Grown.nil hok).eachPage hf hs hu hal hnodup hfree he
  dsimp only at hc
  split_ifs at hc with hrc
  · cases hc
    rw [if_neg hrc, List.map_nil, List.nil_append] at hpgs
    refine ⟨[], M, ?_, by rw [if_neg hrc, List.map_nil]⟩
    rw [← hpgs]
    exact hgrown.unmapPages hu
  · cases hc
    rw [not_not] at hrc
    exact ⟨pgs, M, hgrown, by rw [hpgs, if_pos hrc, if_pos rfl, List.map_nil, List.nil_append]⟩

end Vmm

end YabroOS.Memory
