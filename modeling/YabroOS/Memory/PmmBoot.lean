import YabroOS.Memory.PmmAccounting

namespace YabroOS.Memory

open Function

/-- The addresses that a memory map entry describes. -/
def LimineMemmapEntry.Covers (e : LimineMemmapEntry) (x : ℕ) : Prop :=
  e.base.toNat ≤ x ∧ x < e.base.toNat + e.length.toNat

/-- No address belongs to two usable entries of the map. -/
def Memmap.UsableDisjoint (l : Memmap) : Prop :=
  l.Pairwise (fun a b ↦ ∀ e ∈ a, ∀ e' ∈ b, e.type = limineMemmapUsable →
    e'.type = limineMemmapUsable →
    ∀ x, ¬ (e.Covers x ∧ e'.Covers x))

theorem LimineMemmapEntry.region_spec {e : LimineMemmapEntry} {r : PmmRegion}
    (h : e.region = some r) :
    e.type = limineMemmapUsable ∧ Pmm.RegionOk r ∧ ∀ f, r.base ≤ f → f < r.limit →
      e.Covers (f * pageSize) := by
  have hb := e.base.toNat_lt
  have hl := e.length.toNat_lt
  simp only [region] at h
  split_ifs at h with h₁ h₂ h₃
  cases h
  simp only [not_or, not_not] at h₁
  simp only [Pmm.alignUp, Pmm.pageOf, pageSize, pmmMinPhys, pmmTrackLimit] at h₁ h₂ h₃ ⊢
  refine ⟨h₁.1, ⟨?_, ?_, le_refl _⟩, fun f hf hf' ↦ ⟨?_, ?_⟩⟩
  · simp only [pageSize, pmmMinPhys]
    omega
  · simp only [pageSize, pmmTrackLimit]
    omega
  · omega
  · omega

namespace PmmState

open Pmm

/-- The state while `pmm_init` collects regions and reserved pages. -/
structure Booting (s : PmmState) : Prop where
  ready : s.ready = false
  hhdm : s.hhdm ≠ 0
  unused : s.pageState = fun _ ↦ false
  unheld : s.pageRefs = fun _ ↦ 0
  region : ∀ r ∈ s.regions, RegionOk r
  recorded : ∀ f, f * pageSize < pmmTrackLimit →
    (s.reservedState f = true ↔ f * pageSize ∈ s.reservedPages)
  aligned : ∀ p ∈ s.reservedPages, p / pageSize * pageSize = p
  nodup : (s.reservedPages.filter (· < pmmTrackLimit)).Nodup

structure Counted (s : PmmState) : Prop where
  free : s.freePages = s.frames.card
  total : s.totalPages = s.frames.card

variable {s : PmmState} {p : ℕ} {l : List ℕ}

theorem booting_zero {hhdm : ℕ} (h : hhdm ≠ 0) : (zero hhdm).Booting := by
  constructor <;> simp [zero, h]

theorem inv_zero (hhdm : ℕ) : (zero hhdm).Inv :=
  ⟨by constructor <;> simp [zero, frames, framesOf],
    by simp [zero, frames, framesOf, freeFrames, clearIn],
    by simp [zero, frames, framesOf]⟩

theorem Booting.addRegion (h : s.Booting) (e : Option LimineMemmapEntry) :
    (s.addRegion e).Booting := by
  simp only [PmmState.addRegion]
  split_ifs
  · exact h
  · cases he : e.bind LimineMemmapEntry.region with
    | none => exact h
    | some r =>
      obtain ⟨e', -, hr⟩ := Option.bind_eq_some_iff.1 he
      refine ⟨h.ready, h.hhdm, h.unused, h.unheld, ?_, h.recorded, h.aligned, h.nodup⟩
      intro r' hr'
      rcases List.mem_append.1 hr' with hr' | hr'
      · exact h.region r' hr'
      · obtain rfl := List.mem_singleton.1 hr'
        exact (LimineMemmapEntry.region_spec hr).2.1

theorem Booting.addRegions (h : s.Booting) (l : Memmap) :
    (l.foldl PmmState.addRegion s).Booting := by
  induction l generalizing s with
  | nil => exact h
  | cons e l ih => exact ih (h.addRegion e)

theorem Counted.addRegion (h : s.Counted) (e : Option LimineMemmapEntry)
    (hd : ∀ r ∈ e.bind LimineMemmapEntry.region, ∀ f ∈ s.frames, ¬ (r.base ≤ f ∧ f < r.limit)) :
    (s.addRegion e).Counted := by
  simp only [PmmState.addRegion]
  split_ifs
  · exact h
  · cases he : e.bind LimineMemmapEntry.region with
    | none => exact h
    | some r =>
      have hcard : (framesOf (s.regions ++ [r])).card = s.frames.card + (r.limit - r.base) := by
        rw [framesOf_append, Finset.card_union_of_disjoint, Nat.card_Ico]
        · rfl
        · rw [Finset.disjoint_left]
          intro f hf hf'
          exact hd r he f hf (Finset.mem_Ico.1 hf')
      constructor
      · exact (congrArg (· + _) h.free).trans hcard.symm
      · exact (congrArg (· + _) h.total).trans hcard.symm

theorem addRegion_frames {e : Option LimineMemmapEntry} {f : ℕ} (hf : f ∈ (s.addRegion e).frames) :
    f ∈ s.frames ∨ ∃ r ∈ e.bind LimineMemmapEntry.region, r.base ≤ f ∧ f < r.limit := by
  simp only [PmmState.addRegion] at hf
  split_ifs at hf
  · exact .inl hf
  · cases he : e.bind LimineMemmapEntry.region with
    | none =>
      rw [he] at hf
      exact .inl hf
    | some r =>
      rw [he] at hf
      have hf : f ∈ framesOf (s.regions ++ [r]) := hf
      rw [framesOf_append, Finset.mem_union, Finset.mem_Ico] at hf
      exact hf.imp_right fun h ↦ ⟨r, rfl, h⟩

theorem Counted.addRegions {l : Memmap} (hl : l.UsableDisjoint) (h : s.Counted)
    (hs : ∀ f ∈ s.frames, ∀ e ∈ l, ∀ r ∈ e.bind LimineMemmapEntry.region, ¬ (r.base ≤ f ∧
      f < r.limit)) :
    (l.foldl PmmState.addRegion s).Counted := by
  induction l generalizing s with
  | nil => exact h
  | cons e l ih =>
    obtain ⟨hel, hl⟩ := List.pairwise_cons.1 hl
    apply ih hl (h.addRegion e fun r hr f hf ↦ hs f hf e List.mem_cons_self r hr)
    intro f hf e' he' r' hr' hrange'
    rcases addRegion_frames hf with hf | ⟨r, hr, hrange⟩
    · exact hs f hf e' (List.mem_cons_of_mem e he') r' hr' hrange'
    · obtain ⟨x, hx, hxr⟩ := Option.bind_eq_some_iff.1 hr
      obtain ⟨x', hx', hxr'⟩ := Option.bind_eq_some_iff.1 hr'
      obtain ⟨ht, -, hc⟩ := LimineMemmapEntry.region_spec hxr
      obtain ⟨ht', -, hc'⟩ := LimineMemmapEntry.region_spec hxr'
      exact hel e' he' x hx x' hx' ht ht' (f * pageSize) ⟨hc f hrange.1 hrange.2,
        hc' f hrange'.1 hrange'.2⟩

theorem Booting.reservePage (h : s.Booting) (addr : ℕ) : (s.reservePage addr).1.Booting := by
  have hp : 0 < pageSize := by decide
  have haligned : ∀ p ∈ s.reservedPages ++ [addr / pageSize * pageSize], p / pageSize *
      pageSize = p := by
    intro p hp
    rcases List.mem_append.1 hp with hp | hp
    · exact h.aligned p hp
    · rw [List.mem_singleton.1 hp, mul_div_pageSize]
  rcases reserve_cases s addr with he | ⟨ht, he⟩ | ⟨ht, hres, ⟨⟨hready, -⟩, -⟩ | ⟨-, he⟩⟩
  · rw [he]
    exact h
  · rw [he]
    refine ⟨h.ready, h.hhdm, h.unused, h.unheld, h.region, ?_, haligned, ?_⟩
    · intro f hf
      rw [List.mem_append, List.mem_singleton, or_iff_left (by omega)]
      exact h.recorded f hf
    · rw [List.filter_append, List.filter_cons_of_neg (by simpa using ht), List.filter_nil,
        List.append_nil]
      exact h.nodup
  · rw [h.ready] at hready
    cases hready
  · have hnew : addr / pageSize * pageSize ∉ s.reservedPages := by
      intro hm
      rw [(h.recorded _ ht).2 hm] at hres
      cases hres
    rw [he]
    refine ⟨h.ready, h.hhdm, h.unused, h.unheld, h.region, ?_, haligned, ?_⟩
    · intro f hf
      rw [List.mem_append, List.mem_singleton]
      by_cases hfa : f = addr / pageSize
      · simp [hfa]
      · rw [or_iff_left fun hc ↦ hfa (Nat.eq_of_mul_eq_mul_right hp hc)]
        exact (iff_of_eq (congrArg (· = true) (update_of_ne hfa _ _))).trans (h.recorded f hf)
    · rw [List.filter_append, List.filter_cons_of_pos (by simpa using ht), List.filter_nil,
        List.nodup_append]
      refine ⟨h.nodup, List.nodup_singleton _, ?_⟩
      rintro a ha b hb rfl
      exact hnew (List.mem_singleton.1 hb ▸ List.mem_of_mem_filter ha)

theorem Counted.reservePage (h : s.Counted) (hb : s.ready = false) (addr : ℕ) :
    (s.reservePage addr).1.Counted := by
  rcases reserve_cases s addr with he | ⟨-, he⟩ | ⟨-, -, ⟨⟨hready, -⟩, -⟩ | ⟨-, he⟩⟩
  · rw [he]
    exact h
  · rw [he]
    exact ⟨h.free, h.total⟩
  · rw [hb] at hready
    cases hready
  · rw [he]
    exact ⟨h.free, h.total⟩

theorem reservePageTableTree_induction {P : PmmState → Prop}
    (hP : ∀ s addr, P s → P (s.reservePage addr).1) (mem : ℕ → ℕ → UInt64) (entries : Memmap)
    (level phys : ℕ) (st : PmmState × SeenPageTables) (hs : P st.1) :
    P (reservePageTableTree mem entries level phys st).1 := by
  induction level generalizing phys st with
  | zero => exact hs
  | succ level ih =>
    obtain ⟨s, t⟩ := st
    rw [reservePageTableTree]
    dsimp only
    split
    · exact hs
    · split
      · exact hs
      · split
        · exact hs
        · split
          · exact hP s _ hs
          · generalize List.range 512 = l
            refine List.foldlRecOn (motive := fun st : PmmState × SeenPageTables ↦ P st.1) l _
              (hP s _ hs) fun st hst i _ ↦ ?_
            split_ifs
            · exact hst
            · exact hst
            · exact ih _ _ hst
            · exact hst

theorem reserveAll_induction {P : PmmState → Prop} (hP : ∀ s addr, P s → P (s.reservePage addr).1)
    (hs : P s) (kernelBase kernelEnd cr3 : ℕ) (mem : ℕ → ℕ → UInt64) (entries : Memmap) :
    P ((s.reserveKernel kernelBase kernelEnd).reserveActivePageTables mem entries cr3) := by
  refine reservePageTableTree_induction hP mem entries 4 cr3 _ ?_
  simp only [reserveKernel]
  split_ifs
  · exact reservePages_induction hP hs _ _
  · exact hs

/-- The state while the reserved pages leave the pool, with the list of those that are still to do.
-/
structure Withdrawing (l : List ℕ) (s : PmmState) : Prop where
  region : ∀ r ∈ s.regions, RegionOk r
  used : ∀ f ∈ s.frames, s.pageState f = true → s.reservedState f = true
  todo : ∀ f ∈ s.frames, s.reservedState f = true → s.pageState f = true ∨ f * pageSize ∈ l
  fresh : ∀ p ∈ l, p < pmmTrackLimit → p / pageSize * pageSize = p ∧
    s.reservedState (p / pageSize) = true ∧ s.pageState (p / pageSize) = false
  nodup : (l.filter (· < pmmTrackLimit)).Nodup

theorem Booting.withdrawing (h : s.Booting) : Withdrawing s.reservedPages s where
  region := h.region
  used f _ hc := by
    rw [h.unused] at hc
    cases hc
  todo f hf hr := .inr ((h.recorded f (frames_bounds h.region hf).2).1 hr)
  fresh p hp ht := by
    have ha := h.aligned p hp
    refine ⟨ha, (h.recorded _ (ha.symm ▸ ht)).2 (ha.symm ▸ hp), ?_⟩
    rw [h.unused]
  nodup := h.nodup

theorem withdraw_far (hr : ∀ r ∈ s.regions, RegionOk r) (ht : ¬ p < pmmTrackLimit) :
    s.withdraw p = s := by
  have hout : s.inRegion p = false := by
    by_contra hc
    obtain ⟨r, hmem, hrange⟩ := List.any_eq_true.1 (Bool.not_eq_false _ ▸ hc)
    have := (hr r hmem).high
    simp only [decide_eq_true_eq] at hrange
    omega
  simp only [withdraw, setAllocated, tracked, ht, decide_false, Bool.false_eq_true, if_false, hout]

theorem withdraw_near (ht : p < pmmTrackLimit) :
    (s.withdraw p).pageState = update s.pageState (p / pageSize) true ∧
      (s.withdraw p).reservedState = s.reservedState := by
  simp only [withdraw, setAllocated, tracked, ht, decide_true, if_true]
  split_ifs <;> exact ⟨rfl, rfl⟩

theorem withdraw_rest (s : PmmState) (p : ℕ) :
    (s.withdraw p).regions = s.regions ∧ (s.withdraw p).hhdm = s.hhdm ∧
      (s.withdraw p).pageRefs = s.pageRefs ∧ (s.withdraw p).totalPages = s.totalPages := by
  simp only [withdraw, setAllocated]
  split_ifs <;> exact ⟨rfl, rfl, rfl, rfl⟩

theorem withdraw_frames (s : PmmState) (p : ℕ) : (s.withdraw p).frames = s.frames :=
  congrArg framesOf (withdraw_rest s p).1

theorem Withdrawing.step (h : Withdrawing (p :: l) s) : Withdrawing l (s.withdraw p) := by
  have hl : ∀ q ∈ l, q ∈ p :: l := fun q hq ↦ List.mem_cons_of_mem p hq
  have hn := h.nodup
  by_cases ht : p < pmmTrackLimit
  · obtain ⟨ha, hres, hc⟩ := h.fresh p List.mem_cons_self ht
    obtain ⟨hps, hrs⟩ := withdraw_near (s := s) ht
    rw [List.filter_cons_of_pos (by simpa using ht)] at hn
    have hne : ∀ q ∈ l, q < pmmTrackLimit → q ≠ p := by
      rintro q hq hqt rfl
      exact (List.nodup_cons.1 hn).1 (List.mem_filter.2 ⟨hq, by simpa using hqt⟩)
    refine ⟨(withdraw_rest s p).1 ▸ h.region, ?_, ?_, ?_, (List.nodup_cons.1 hn).2⟩
    · intro f hf hfc
      rw [withdraw_frames] at hf
      rw [hrs]
      by_cases hfp : f = p / pageSize
      · rw [hfp]
        exact hres
      · rw [hps, update_of_ne hfp] at hfc
        exact h.used f hf hfc
    · intro f hf hfr
      rw [withdraw_frames] at hf
      rw [hrs] at hfr
      rw [hps]
      by_cases hfp : f = p / pageSize
      · simp [hfp]
      · rw [update_of_ne hfp]
        refine (h.todo f hf hfr).imp_right fun hm ↦ ?_
        rcases List.mem_cons.1 hm with hm | hm
        · exact absurd (by rw [← hm, mul_div_pageSize]) hfp
        · exact hm
    · intro q hq hqt
      obtain ⟨hqa, hqr, hqc⟩ := h.fresh q (hl q hq) hqt
      refine ⟨hqa, hrs ▸ hqr, ?_⟩
      rw [hps, update_of_ne, hqc]
      intro he
      exact hne q hq hqt (by rw [← hqa, he, ha])
  · rw [withdraw_far h.region ht]
    rw [List.filter_cons_of_neg (by simpa using ht)] at hn
    refine ⟨h.region, h.used, ?_, fun q hq ↦ h.fresh q (hl q hq), hn⟩
    intro f hf hfr
    refine (h.todo f hf hfr).imp_right fun hm ↦ ?_
    rcases List.mem_cons.1 hm with hm | hm
    · exact absurd (hm ▸ (frames_bounds h.region hf).2) ht
    · exact hm

theorem Withdrawing.step_free (h : Withdrawing (p :: l) s)
    (hfree : s.freePages = s.freeFrames.card) :
    (s.withdraw p).freePages = (s.withdraw p).freeFrames.card := by
  by_cases ht : p < pmmTrackLimit
  · obtain ⟨ha, -, hc⟩ := h.fresh p List.mem_cons_self ht
    have hin : s.inRegion p = true ↔ p / pageSize ∈ s.frames := by
      rw [← inRegion_iff, ha]
    rw [freeFrames, withdraw_frames, (withdraw_near ht).1, clearIn_set]
    simp only [withdraw, setAllocated, tracked, ht, decide_true, if_true, inRegion] at hin ⊢
    by_cases hpin : p / pageSize ∈ s.frames
    · rw [if_pos (hin.2 hpin), Finset.card_erase_of_mem (mem_clearIn.2 ⟨hpin, hc⟩)]
      exact congrArg (· - 1) hfree
    · rw [if_neg (fun hp ↦ hpin (hin.1 hp)),
        Finset.erase_eq_of_notMem fun hm ↦ hpin (mem_clearIn.1 hm).1]
      exact hfree
  · rw [withdraw_far h.region ht]
    exact hfree

theorem Withdrawing.all (h : Withdrawing l s) : Withdrawing [] (l.foldl withdraw s) := by
  induction l generalizing s with
  | nil => exact h
  | cons p l ih => exact ih h.step

theorem Withdrawing.all_free (h : Withdrawing l s) (hfree : s.freePages = s.freeFrames.card) :
    (l.foldl withdraw s).freePages = (l.foldl withdraw s).freeFrames.card := by
  induction l generalizing s with
  | nil => exact hfree
  | cons p l ih => exact ih h.step (h.step_free hfree)

theorem withdraw_all_rest (l : List ℕ) (s : PmmState) :
    (l.foldl withdraw s).regions = s.regions ∧ (l.foldl withdraw s).hhdm = s.hhdm ∧
      (l.foldl withdraw s).pageRefs = s.pageRefs ∧
        (l.foldl withdraw s).totalPages = s.totalPages := by
  induction l generalizing s with
  | nil => exact ⟨rfl, rfl, rfl, rfl⟩
  | cons p l ih =>
    obtain ⟨h₁, h₂, h₃, h₄⟩ := withdraw_rest s p
    rw [List.foldl_cons, ← h₁, ← h₂, ← h₃, ← h₄]
    exact ih (s.withdraw p)

theorem Booting.sound (h : s.Booting) :
    let t := s.reservedPages.foldl withdraw s
    PmmState.Sound { t with ready := t.regions ≠ [] } := by
  intro t
  have hw : Withdrawing [] t := h.withdrawing.all
  obtain ⟨-, hhhdm, hrefs, -⟩ : t.regions = s.regions ∧ t.hhdm = s.hhdm ∧
      t.pageRefs = s.pageRefs ∧ _ :=
    withdraw_all_rest s.reservedPages s
  refine ⟨fun _ ↦ hhhdm ▸ h.hhdm, fun hr ↦ by simpa using hr, hw.region, ?_, ?_⟩
  · intro f hf hr
    exact (hw.todo f hf hr).resolve_right (by simp)
  · intro f hf hr
    refine iff_of_false (fun hc ↦ ?_) ?_
    · have hres : t.reservedState f = true := hw.used f hf hc
      have hr : t.reservedState f = false := hr
      rw [hres] at hr
      cases hr
    · show ¬ 1 ≤ t.pageRefs f
      rw [hrefs, h.unheld]
      exact Nat.not_succ_le_zero 0

theorem Booting.inv (h : s.Booting) (hc : s.Counted) :
    let t := s.reservedPages.foldl withdraw s
    PmmState.Inv { t with ready := t.regions ≠ [] } := by
  intro t
  obtain ⟨hregions, -, -, htotal⟩ := withdraw_all_rest s.reservedPages s
  refine ⟨h.sound, ?_, ?_⟩
  · apply h.withdrawing.all_free
    rw [hc.free, freeFrames, h.unused]
    simp [clearIn]
  · show (s.reservedPages.foldl withdraw s).totalPages =
      (framesOf (s.reservedPages.foldl withdraw s).regions).card
    rw [htotal, hregions]
    exact hc.total

theorem sound_pmmInit (entries : Option Memmap) (hhdm kernelBase kernelEnd cr3 : UInt64)
    (mem : ℕ → ℕ → UInt64) : (pmmInit entries hhdm kernelBase kernelEnd cr3 mem).Sound := by
  cases entries with
  | none => exact (inv_zero _).toSound
  | some l =>
    simp only [pmmInit]
    split_ifs with hz
    · exact (inv_zero _).toSound
    · have hz : hhdm.toNat ≠ 0 := fun hc ↦ hz (UInt64.toNat_inj.1 hc)
      exact (reserveAll_induction (fun _ addr h ↦ h.reservePage addr)
        ((booting_zero hz).addRegions l) _ _ _ _ _).sound

theorem inv_pmmInit {entries : Option Memmap} (hd : ∀ l ∈ entries, l.UsableDisjoint)
    (hhdm kernelBase kernelEnd cr3 : UInt64) (mem : ℕ → ℕ → UInt64) :
    (pmmInit entries hhdm kernelBase kernelEnd cr3 mem).Inv := by
  cases entries with
  | none => exact inv_zero _
  | some l =>
    simp only [pmmInit]
    split_ifs with hz
    · exact inv_zero _
    · have hz : hhdm.toNat ≠ 0 := fun hc ↦ hz (UInt64.toNat_inj.1 hc)
      have hboot := (booting_zero hz).addRegions l
      have hcount : (l.foldl PmmState.addRegion (zero hhdm.toNat)).Counted := by
        apply Counted.addRegions (hd l rfl)
        · constructor <;> simp [zero, frames, framesOf]
        · simp [zero, frames, framesOf]
      obtain ⟨hboot, hcount⟩ := reserveAll_induction (P := fun s ↦ s.Booting ∧ s.Counted)
        (fun _ addr h ↦ ⟨h.1.reservePage addr, h.2.reservePage h.1.ready addr⟩) ⟨hboot, hcount⟩
        kernelBase.toNat kernelEnd.toNat cr3.toNat mem l
      exact hboot.inv hcount

/-- The allocator's books balance after `pmm_init` and any calls, and an allocation fails exactly
when they show no free page. -/
theorem pmm_accounting {entries : Option Memmap} (hd : ∀ l ∈ entries, l.UsableDisjoint)
    (hhdm kernelBase kernelEnd cr3 : UInt64) (mem : ℕ → ℕ → UInt64) (ops : List PmmOp) :
    let s := (pmmInit entries hhdm kernelBase kernelEnd cr3 mem).run ops
    s.freePages = s.freeFrames.card ∧
      (∀ f ∈ s.frames, s.reservedState f = true → s.pageState f = true) ∧
      s.freePages ≤ s.totalPages ∧
      ((s.exec .allocPage).2 = .page none ↔ s.freePages = 0) ∧
      ∀ f, (s.exec .allocPage).2 = .page (some f) →
        f ∈ s.frames ∧ s.reservedState f = false ∧ s.pageState f = false ∧
        (s.exec .allocPage).1.pageState f = true ∧ (s.exec .allocPage).1.pageRefs f = 1 ∧
        (s.exec .allocPage).1.reservedState = s.reservedState ∧
        ∀ g, g ≠ f → (s.exec .allocPage).1.pageState g = s.pageState g ∧
          (s.exec .allocPage).1.pageRefs g = s.pageRefs g := by
  intro s
  have h : s.Inv := (inv_pmmInit hd hhdm kernelBase kernelEnd cr3 mem).run ops
  refine ⟨h.free, h.reserved, ?_, ?_, ?_⟩
  · rw [h.free, h.total]
    exact Finset.card_filter_le _ _
  · rw [← h.alloc_none_iff]
    exact PmmResult.page.injEq _ _ ▸ Iff.rfl
  · intro f hf
    have hf : s.pmmAllocPage.2 = some f := PmmResult.page.inj hf
    obtain ⟨hin, hres, hc, hr, hps, hrf⟩ :=
      h.alloc_some (Prod.ext rfl hf : s.pmmAllocPage = (s.pmmAllocPage.1, some f))
    refine ⟨hin, hres, hc, ?_, ?_, hr, fun g hg ↦ ⟨?_, ?_⟩⟩
    · simp [PmmState.exec, hps]
    · simp [PmmState.exec, hrf]
    · simp [PmmState.exec, hps, update_of_ne hg]
    · simp [PmmState.exec, hrf, update_of_ne hg]

theorem pmm_accounting_two_regions :
    let entries : Option Memmap :=
  some [some ⟨0x1000000, 0x3000, 0⟩, none, some ⟨0x2000000, 0x1000, 0⟩]
    let s := (pmmInit entries 0xffff800000000000 0x1002000 0x1003000 0 (fun _ _ ↦ 0)).run
      [.allocPage]
    (∀ l ∈ entries, l.UsableDisjoint) ∧ s.freePages = 2 ∧ s.freeFrames.card = 2 := by
  intro entries s
  have hd : ∀ l ∈ entries, l.UsableDisjoint := by
    intro l hl
    obtain rfl := Option.some.inj hl
    simp [Memmap.UsableDisjoint, LimineMemmapEntry.Covers]
    omega
  have hfree : s.freePages = 2 := by decide +kernel
  have h := (pmm_accounting hd 0xffff800000000000 0x1002000 0x1003000 0 (fun _ _ ↦ 0) [.allocPage]).1
  exact ⟨hd, hfree, h.symm.trans hfree⟩

end PmmState

end YabroOS.Memory
