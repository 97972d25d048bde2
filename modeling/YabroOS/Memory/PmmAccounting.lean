import YabroOS.Memory.PmmInit

namespace YabroOS.Memory

open Function

namespace Pmm

def clearIn (frames : Finset ℕ) (bits : ℕ → Bool) : Finset ℕ :=
  frames.filter (fun f ↦ bits f = false)

def freeFrames (s : Pmm) : Finset ℕ := clearIn s.frames s.pageState

structure RegionOk (r : PmmRegion) : Prop where
  low : pmmMinPhys ≤ r.base * pageSize
  high : r.limit * pageSize ≤ pmmTrackLimit
  cursor : r.base ≤ r.next

theorem mem_clearIn {F : Finset ℕ} {bits : ℕ → Bool} {f : ℕ} :
    f ∈ clearIn F bits ↔ f ∈ F ∧ bits f = false := by
  simp [clearIn]

theorem clearIn_set (F : Finset ℕ) (bits : ℕ → Bool) (f : ℕ) :
    clearIn F (update bits f true) = (clearIn F bits).erase f := by
  ext g
  rw [Finset.mem_erase, mem_clearIn, mem_clearIn]
  by_cases h : g = f
  · subst h
    simp
  · rw [update_of_ne h]
    tauto

theorem clearIn_unset {F : Finset ℕ} {bits : ℕ → Bool} {f : ℕ} (hf : f ∈ F) :
    clearIn F (update bits f false) = insert f (clearIn F bits) := by
  ext g
  rw [Finset.mem_insert, mem_clearIn, mem_clearIn]
  by_cases h : g = f
  · subst h
    simp [hf]
  · rw [update_of_ne h]
    tauto

theorem mem_framesOf {l : List PmmRegion} {f : ℕ} :
    f ∈ framesOf l ↔ ∃ r ∈ l, r.base ≤ f ∧ f < r.limit := by
  induction l with
  | nil => simp [framesOf]
  | cons r l ih => simp [framesOf, ih]

theorem framesOf_append (l : List PmmRegion) (r : PmmRegion) :
    framesOf (l ++ [r]) = framesOf l ∪ Finset.Ico r.base r.limit := by
  ext f
  simp only [Finset.mem_union, mem_framesOf, List.mem_append, List.mem_singleton, Finset.mem_Ico]
  constructor
  · rintro ⟨r', h | rfl, hf⟩
    · exact .inl ⟨r', h, hf⟩
    · exact .inr hf
  · rintro (⟨r', h, hf⟩ | hf)
    · exact ⟨r', .inl h, hf⟩
    · exact ⟨r, .inr rfl, hf⟩

theorem inRegion_iff (s : Pmm) (f : ℕ) : s.inRegion (f * pageSize) = true ↔ f ∈ s.frames := by
  have hp : 0 < pageSize := by decide
  rw [frames, mem_framesOf, inRegion, List.any_eq_true]
  simp only [decide_eq_true_eq, Nat.mul_le_mul_right_iff hp, Nat.mul_lt_mul_right hp]

theorem scan_range {ok : ℕ → Bool} {n p q : ℕ} (h : scan ok n p = some q) : p ≤ q ∧ q < p + n := by
  induction n generalizing p with
  | zero => simp [scan] at h
  | succ n ih =>
    simp only [scan] at h
    split_ifs at h with hp
    · cases h
      omega
    · have := ih h
      omega

theorem scan_none {ok : ℕ → Bool} {n p q : ℕ} (h : scan ok n p = none) (hp : p ≤ q)
    (hq : q < p + n) : ok q = false := by
  induction n generalizing p with
  | zero => omega
  | succ n ih =>
    simp only [scan] at h
    split_ifs at h with hok
    rcases Nat.eq_or_lt_of_le hp with rfl | hlt
    · simpa using hok
    · exact ih h (by omega) (by omega)

theorem searchRegions_none {ok : ℕ → Bool} {l l' : List PmmRegion}
    (h : searchRegions ok l = (none, l')) {f : ℕ} (hf : f ∈ framesOf l) : ok f = false := by
  induction l generalizing l' with
  | nil => simp [framesOf] at hf
  | cons r rs ih =>
    simp only [searchRegions] at h
    split at h
    · cases h
    · split at h
      · cases h
      · next hb =>
        cases hr : searchRegions ok rs with
        | mk found rest =>
          rw [hr] at h
          cases h
          rcases Finset.mem_union.1 hf with hf | hf
          · have := Finset.mem_Ico.1 hf
            exact scan_none hb (by omega) (by omega)
          · exact ih hr hf

theorem searchRegions_spec {ok : ℕ → Bool} {l l' : List PmmRegion} {found : Option ℕ}
    (hl : ∀ r ∈ l, RegionOk r) (h : searchRegions ok l = (found, l')) :
    framesOf l' = framesOf l ∧ (∀ r ∈ l', RegionOk r) ∧ (l' = [] ↔ l = []) ∧ ∀ f, found = some f →
      f ∈ framesOf l := by
  induction l generalizing l' found with
  | nil =>
    cases h
    simp
  | cons r rs ih =>
    have hrs : ∀ x ∈ rs, RegionOk x := fun x hx ↦ hl x (List.mem_cons_of_mem r hx)
    obtain ⟨hlow, hhigh, hcur⟩ := hl r List.mem_cons_self
    have moved : ∀ n, r.base ≤ n → ∀ x ∈ { r with next := n } :: rs, RegionOk x := by
      intro n hn x hx
      rcases List.mem_cons.1 hx with rfl | hx
      · exact ⟨hlow, hhigh, hn⟩
      · exact hrs x hx
    simp only [searchRegions] at h
    split at h
    · next p hp =>
      have hr := scan_range hp
      cases h
      refine ⟨rfl, moved _ (by omega), by simp, ?_⟩
      rintro f ⟨⟩
      exact Finset.mem_union_left _ (Finset.mem_Ico.2 ⟨by omega, by omega⟩)
    · split at h
      · next p hp =>
        have hr := scan_range hp
        cases h
        refine ⟨rfl, moved _ (by omega), by simp, ?_⟩
        rintro f ⟨⟩
        exact Finset.mem_union_left _ (Finset.mem_Ico.2 ⟨by omega, by omega⟩)
      · cases hr : searchRegions ok rs with
        | mk found' rest =>
          obtain ⟨hf, hok, -, hin⟩ := ih hrs hr
          rw [hr] at h
          cases h
          refine ⟨?_, ?_, by simp, ?_⟩
          · rw [framesOf, framesOf, hf]
          · intro x hx
            rcases List.mem_cons.1 hx with rfl | hx
            · exact ⟨hlow, hhigh, le_max_of_le_left hcur⟩
            · exact hok x hx
          · intro f hf
            exact Finset.mem_union_right _ (hin f hf)

end Pmm

namespace PmmState

open Pmm

/-- What holds of the frames between any two calls, whatever the memory map. -/
structure Sound (s : PmmState) : Prop where
  hhdm : s.ready = true → s.hhdm ≠ 0
  idle : s.ready = false → s.regions = []
  region : ∀ r ∈ s.regions, RegionOk r
  reserved : ∀ f ∈ s.frames, s.reservedState f = true → s.pageState f = true
  refs : ∀ f ∈ s.frames, s.reservedState f = false → (s.pageState f = true ↔ 1 ≤ s.pageRefs f)

/-- The counters agree with the bitmap; this needs a memory map without overlaps. -/
structure Inv (s : PmmState) : Prop extends s.Sound where
  free : s.freePages = s.freeFrames.card
  total : s.totalPages = s.frames.card

variable {s : PmmState} {f addr : ℕ} {p : Pmm}

theorem frames_bounds {l : List PmmRegion} (h : ∀ r ∈ l, RegionOk r) (hf : f ∈ framesOf l) :
    pmmMinPhys ≤ f * pageSize ∧ f * pageSize < pmmTrackLimit := by
  obtain ⟨r, hr, hb, hl⟩ := mem_framesOf.1 hf
  obtain ⟨hlow, hhigh, -⟩ := h r hr
  have hp : 0 < pageSize := by decide
  constructor
  · exact hlow.trans (Nat.mul_le_mul_right _ hb)
  · exact (Nat.mul_lt_mul_of_pos_right hl hp).trans_le hhigh

theorem Sound.bounds (h : s.Sound) (hf : f ∈ s.frames) :
    pmmMinPhys ≤ f * pageSize ∧ f * pageSize < pmmTrackLimit :=
  frames_bounds h.region hf

theorem Sound.available_iff (h : s.Sound) (hf : f ∈ s.frames) :
    s.available f = true ↔ s.pageState f = false := by
  obtain ⟨hlow, hhigh⟩ := h.bounds hf
  have hres := h.reserved f hf
  simp only [available, isReserved, pageIsAllocated, tracked, pageOf_mul, mul_div_pageSize, hlow,
    hhigh, decide_true,
    if_true, true_and, decide_eq_true_eq]
  constructor
  · exact fun h ↦ h.2
  · intro hc
    refine ⟨?_, hc⟩
    by_contra hr
    simp [hres (by simpa using hr)] at hc

theorem alloc_cases (hr : ∀ r ∈ s.regions, RegionOk r) :
    ∃ rs, framesOf rs = s.frames ∧ (∀ r ∈ rs, RegionOk r) ∧ (rs = [] ↔ s.regions = []) ∧
      ((s.pmmAllocPage = ({ s.toPmm with regions := rs }, none) ∧
          (s.ready = true → s.hhdm ≠ 0 → ∀ f ∈ s.frames, s.available f = false)) ∨
        ∃ f ∈ s.frames, s.available f = true ∧
          s.pmmAllocPage = ({ s.toPmm with
            regions := rs
            pageState := update s.pageState f true
            pageRefs := update s.pageRefs f 1
            freePages := s.freePages - 1 }, some f)) := by
  simp only [pmmAllocPage]
  split_ifs with h
  · refine ⟨s.regions, rfl, hr, Iff.rfl, .inl ⟨rfl, fun hready hhdm ↦ ?_⟩⟩
    rcases h with h | h
    · rw [h] at hready
      cases hready
    · exact absurd h hhdm
  · cases hs : searchRegions s.available s.regions with
    | mk found rs =>
      obtain ⟨hf, hok, he, hin⟩ := searchRegions_spec hr hs
      refine ⟨rs, hf, hok, he, ?_⟩
      cases found with
      | none => exact .inl ⟨rfl, fun _ _ f hf ↦ searchRegions_none hs hf⟩
      | some f => exact .inr ⟨f, hin f rfl, searchRegions_ok hs, rfl⟩

theorem Inv.alloc_none_iff (h : s.Inv) : s.pmmAllocPage.2 = none ↔ s.freePages = 0 := by
  obtain ⟨rs, -, -, -, ⟨ha, hall⟩ | ⟨f, hf, hav, ha⟩⟩ := alloc_cases h.region
  · rw [ha, h.free, Finset.card_eq_zero]
    refine iff_of_true rfl (Finset.eq_empty_of_forall_notMem fun f hf ↦ ?_)
    obtain ⟨hf, hc⟩ := mem_clearIn.1 hf
    cases hr : s.ready with
    | false => simp [frames, h.idle hr, framesOf] at hf
    | true =>
      have hno := hall hr (h.hhdm hr) f hf
      rw [(h.available_iff hf).2 hc] at hno
      cases hno
  · rw [ha, h.free, Finset.card_eq_zero]
    refine iff_of_false (by simp) fun he ↦ ?_
    have hm : f ∈ s.freeFrames := mem_clearIn.2 ⟨hf, (h.available_iff hf).1 hav⟩
    simp [he] at hm

theorem Sound.unreserved (h : s.Sound) (hf : f ∈ s.frames) (hc : s.pageState f = false) :
    s.reservedState f = false := by
  by_contra hr
  rw [h.reserved f hf (by simpa using hr)] at hc
  cases hc

theorem Sound.alloc_some (h : s.Sound) (ha : s.pmmAllocPage = (p, some f)) :
    f ∈ s.frames ∧ s.reservedState f = false ∧ s.pageState f = false ∧
      p.reservedState = s.reservedState ∧
      p.pageState = update s.pageState f true ∧ p.pageRefs = update s.pageRefs f 1 := by
  obtain ⟨rs, -, -, -, ⟨ha', -⟩ | ⟨g, hg, hav, ha'⟩⟩ := alloc_cases h.region
  · rw [ha'] at ha
    cases ha
  · rw [ha'] at ha
    cases ha
    have hc := (h.available_iff hg).1 hav
    exact ⟨hg, h.unreserved hg hc, hc, rfl, rfl, rfl⟩

theorem Sound.allocPage (h : s.Sound) : PmmState.Sound { s with toPmm := s.pmmAllocPage.1 } := by
  obtain ⟨rs, hfr, hok, he, ⟨ha, -⟩ | ⟨f, hf, hav, ha⟩⟩ := alloc_cases h.region
  · rw [ha]
    exact ⟨h.hhdm, fun hr ↦ he.2 (h.idle hr), hok, fun f hf ↦ h.reserved f (hfr ▸ hf),
      fun f hf ↦ h.refs f (hfr ▸ hf)⟩
  · rw [ha]
    refine ⟨h.hhdm, fun hr ↦ he.2 (h.idle hr), hok, ?_, ?_⟩
    all_goals
      intro g hg hr
      by_cases hgf : g = f
      · simp [hgf]
    · simpa [update_of_ne hgf] using h.reserved g (hfr ▸ hg) hr
    · simpa [update_of_ne hgf] using h.refs g (hfr ▸ hg) hr

theorem Inv.allocPage (h : s.Inv) : PmmState.Inv { s with toPmm := s.pmmAllocPage.1 } := by
  refine ⟨h.toSound.allocPage, ?_, ?_⟩
  all_goals obtain ⟨rs, hfr, -, -, ⟨ha, -⟩ | ⟨f, hf, hav, ha⟩⟩ := alloc_cases h.region
  · rw [ha]
    show s.freePages = (clearIn (framesOf rs) s.pageState).card
    rw [hfr]
    exact h.free
  · have hm : f ∈ s.freeFrames := mem_clearIn.2 ⟨hf, (h.available_iff hf).1 hav⟩
    rw [ha]
    show s.freePages - 1 = (clearIn (framesOf rs) (update s.pageState f true)).card
    rw [hfr, clearIn_set, h.free]
    exact (Finset.card_erase_of_mem hm).symm
  all_goals
    rw [ha]
    show s.totalPages = (framesOf rs).card
    rw [hfr]
    exact h.total

/-- What a call of `pmm_free_page` does: the frame is not one of a region, stays as it is, loses a
reference, or goes back to the pool. -/
theorem Sound.free_cases (h : s.Sound) (addr : ℕ) :
    let f := addr / pageSize
    s.pmmFreePage addr = s.toPmm ∧
      (f ∉ s.frames ∨ s.reservedState f = true ∨ s.pageState f = false) ∨
      f ∈ s.frames ∧ s.reservedState f = false ∧ s.pageState f = true ∧
        (1 < s.pageRefs f ∧
          s.pmmFreePage addr = { s.toPmm with pageRefs := update s.pageRefs f (s.pageRefs f - 1) } ∨
          s.pageRefs f ≤ 1 ∧ s.pmmFreePage addr =
            { s.toPmm with
              pageRefs := update s.pageRefs f 0
              pageState := update s.pageState f false
              freePages := s.freePages + 1 }) := by
  intro f
  have hpage : pageOf addr = f * pageSize := rfl
  have hout : f ∉ s.frames ∨ f ∈ s.frames := (em _).symm
  simp only [pmmFreePage, hpage, mul_div_pageSize]
  split_ifs with h₁ h₂ h₃ h₄ h₅
  · refine .inl ⟨rfl, ?_⟩
    rcases hout with hout | hin
    · exact .inl hout
    · obtain ⟨hlow, hhigh⟩ := h.bounds hin
      right
      rcases h₁ with h₁ | h₁ | h₁ | h₁
      · simp [frames, h.idle h₁, framesOf] at hin
      · simp [h₁, pmmMinPhys] at hlow
      · rw [pmmTrackLimit] at hhigh
        omega
      · simpa [isReserved, pageOf_mul, tracked, hhigh, mul_div_pageSize] using Or.inl h₁
  · refine .inl ⟨rfl, .inl fun hin ↦ ?_⟩
    have := (h.bounds hin).2
    omega
  · exact .inl ⟨rfl, .inl fun hin ↦ by simp [(inRegion_iff s.toPmm f).2 hin] at h₃⟩
  · refine .inl ⟨rfl, .inr (.inr ?_)⟩
    simpa [pageIsAllocated, tracked, not_le.1 h₂, mul_div_pageSize] using h₄
  all_goals
    have hin : f ∈ s.frames := (inRegion_iff s.toPmm f).1 (by simpa using h₃)
    have hhigh := (h.bounds hin).2
    have hres : s.reservedState f = false := by
      simp only [not_or, Bool.not_eq_true] at h₁
      simpa [isReserved, pageOf_mul, tracked, hhigh, mul_div_pageSize] using h₁.2.2.2
    have hal : s.pageState f = true := by
      simpa [pageIsAllocated, tracked, hhigh, mul_div_pageSize] using h₄
  · exact .inr ⟨hin, hres, hal, .inl ⟨h₅, rfl⟩⟩
  · exact .inr ⟨hin, hres, hal, .inr ⟨not_lt.1 h₅, rfl⟩⟩

theorem Sound.freePage (h : s.Sound) (addr : ℕ) :
    PmmState.Sound { s with toPmm := s.pmmFreePage addr } := by
  rcases h.free_cases addr with ⟨he, -⟩ | ⟨hin, hres, hal, ⟨hr, he⟩ | ⟨hr, he⟩⟩
  · rw [he]
    exact h
  · rw [he]
    refine ⟨h.hhdm, h.idle, h.region, h.reserved, ?_⟩
    intro g hg hg'
    by_cases hgf : g = addr / pageSize
    · subst hgf
      simp only [update_self]
      exact iff_of_true hal (by omega)
    · simpa [update_of_ne hgf] using h.refs g hg hg'
  · rw [he]
    refine ⟨h.hhdm, h.idle, h.region, ?_, ?_⟩
    · intro g hg hg'
      by_cases hgf : g = addr / pageSize
      · subst hgf
        rw [hres] at hg'
        cases hg'
      · simpa [update_of_ne hgf] using h.reserved g hg hg'
    · intro g hg hg'
      by_cases hgf : g = addr / pageSize
      · simp [hgf]
      · simpa [update_of_ne hgf] using h.refs g hg hg'

theorem Inv.freePage (h : s.Inv) (addr : ℕ) :
    PmmState.Inv { s with toPmm := s.pmmFreePage addr } := by
  have hs := h.toSound.freePage addr
  rcases h.free_cases addr with ⟨he, -⟩ | ⟨hin, hres, hal, ⟨hr, he⟩ | ⟨hr, he⟩⟩
  · rw [he]
    exact h
  · rw [he] at hs ⊢
    exact ⟨hs, h.free, h.total⟩
  · have hm : addr / pageSize ∉ clearIn s.frames s.pageState := by
      intro hm
      have hc := (mem_clearIn.1 hm).2
      rw [hal] at hc
      cases hc
    rw [he] at hs ⊢
    refine ⟨hs, ?_, h.total⟩
    show s.freePages + 1 = (clearIn s.frames (update s.pageState (addr / pageSize) false)).card
    rw [clearIn_unset hin, Finset.card_insert_of_notMem hm, h.free]
    rfl

theorem retain_some (hr : s.pmmRetainPage addr = some p) :
    s.pageState (addr / pageSize) = true ∧ s.pageRefs (addr / pageSize) ≠ 0xFFFF ∧
      p = { s.toPmm with
        pageRefs := update s.pageRefs (addr / pageSize) (s.pageRefs (addr / pageSize) + 1) } := by
  have hpage : pageOf addr = addr / pageSize * pageSize := rfl
  simp only [pmmRetainPage, hpage, mul_div_pageSize] at hr
  split_ifs at hr with h₁ h₂ h₃ h₄
  all_goals
    have hlt : addr / pageSize * pageSize < pmmTrackLimit := by
      by_contra hc
      exact h₁ (.inr (.inr (.inl (not_lt.1 hc))))
    have hal : s.pageState (addr / pageSize) = true := by
      simpa [pageIsAllocated, tracked, hlt, mul_div_pageSize] using h₂
    cases hr
  · exact ⟨hal, h₃, by rw [h₄]⟩
  · exact ⟨hal, h₃, rfl⟩

/-- `pmm_retain_page` on an unreserved frame of a region fails exactly without an allocation or with
a full counter. -/
theorem Sound.retain_none_iff (h : s.Sound) (hf : addr / pageSize ∈ s.frames)
    (hr : s.reservedState (addr / pageSize) = false) :
    s.pmmRetainPage addr = none ↔ s.pageState (addr / pageSize) = false ∨
      s.pageRefs (addr / pageSize) = 0xFFFF := by
  obtain ⟨hlow, hhigh⟩ := h.bounds hf
  have hpage : pageOf addr = addr / pageSize * pageSize := rfl
  have hready : s.ready = true := by
    by_contra hc
    simp [frames, h.idle (by simpa using hc), framesOf] at hf
  have hz : addr / pageSize * pageSize ≠ 0 := by
    rw [pmmMinPhys] at hlow
    omega
  have hfirst : ¬ (s.ready = false ∨ addr / pageSize * pageSize = 0 ∨
      pmmTrackLimit ≤ addr / pageSize * pageSize ∨
      s.isReserved (addr / pageSize * pageSize) = true) := by
    simp [hready, hz, not_le.2 hhigh, isReserved, pageOf_mul, tracked, hhigh, mul_div_pageSize, hr]
  simp only [pmmRetainPage, hpage, mul_div_pageSize, if_neg hfirst, pageIsAllocated, tracked, hhigh,
    decide_true, if_true]
  by_cases ha : s.pageState (addr / pageSize) = false
  · simp [ha]
  · by_cases hfull : s.pageRefs (addr / pageSize) = 0xFFFF
    · simp [hfull]
    · rw [if_neg (by simpa using ha), if_neg hfull]
      refine iff_of_false ?_ (not_or.2 ⟨ha, hfull⟩)
      split_ifs <;> simp

theorem Sound.retainPage (h : s.Sound) (hr : s.pmmRetainPage addr = some p) :
    PmmState.Sound { s with toPmm := p } := by
  obtain ⟨hal, -, rfl⟩ := retain_some hr
  refine ⟨h.hhdm, h.idle, h.region, h.reserved, ?_⟩
  intro g hg hg'
  by_cases hgf : g = addr / pageSize
  · subst hgf
    simp [hal]
  · simpa [update_of_ne hgf] using h.refs g hg hg'

theorem Inv.retainPage (h : s.Inv) (hr : s.pmmRetainPage addr = some p) :
    PmmState.Inv { s with toPmm := p } := by
  have hs := h.toSound.retainPage hr
  obtain ⟨-, -, rfl⟩ := retain_some hr
  exact ⟨hs, h.free, h.total⟩

/-- What a reservation does: nothing, an entry of the list for a page beyond the bitmaps, or a bit
of the frame, which leaves the pool if it was in it. -/
theorem reserve_cases (s : PmmState) (addr : ℕ) :
    let f := addr / pageSize
    (s.reservePage addr).1 = s ∨
      pmmTrackLimit ≤ f * pageSize ∧
        (s.reservePage addr).1 = { s with reservedPages := s.reservedPages ++ [f * pageSize] } ∨
      f * pageSize < pmmTrackLimit ∧ s.reservedState f = false ∧
        ((s.ready = true ∧ f ∈ s.frames ∧ s.pageState f = false) ∧
            (s.reservePage addr).1 =
              { s with
                reservedPages := s.reservedPages ++ [f * pageSize]
                reservedState := update s.reservedState f true
                pageState := update s.pageState f true
                freePages := s.freePages - 1 } ∨
          ¬ (s.ready = true ∧ f ∈ s.frames ∧ s.pageState f = false) ∧
            (s.reservePage addr).1 =
              { s with
                reservedPages := s.reservedPages ++ [f * pageSize]
                reservedState := update s.reservedState f true }) := by
  intro f
  have hpage : pageOf addr = f * pageSize := rfl
  have hin : s.inRegion (f * pageSize) = true ↔ f ∈ s.frames := inRegion_iff s.toPmm f
  by_cases ht : f * pageSize < pmmTrackLimit
  · simp only [PmmState.reservePage, hpage, setReserved, setAllocated, tracked, ht, decide_true,
      if_true,
      mul_div_pageSize, pageIsAllocated, inRegion] at hin ⊢
    split_ifs with h₁ h₂ h₃ h₄
    · exact .inl rfl
    · exact .inl rfl
    · exact .inl rfl
    all_goals
      have hres : s.reservedState f = false := by
        simpa [isReserved, pageOf_mul, tracked, ht, mul_div_pageSize] using h₂
    · exact .inr (.inr ⟨trivial, hres, .inl ⟨⟨h₄.1, hin.1 h₄.2.1, h₄.2.2⟩, rfl⟩⟩)
    · exact .inr (.inr ⟨trivial, hres, .inr ⟨fun hc ↦ h₄ ⟨hc.1, hin.2 hc.2.1, hc.2.2⟩, rfl⟩⟩)
  · simp only [PmmState.reservePage, hpage, setReserved, tracked, ht, decide_false,
      Bool.false_eq_true, if_false,
      pageIsAllocated, Bool.true_eq_false, and_false]
    split_ifs with h₁ h₂ h₃
    · exact .inl rfl
    · exact .inl rfl
    · exact .inl rfl
    · exact .inr (.inl ⟨not_lt.1 ht, rfl⟩)

theorem Sound.reservePage (h : s.Sound) (addr : ℕ) : (s.reservePage addr).1.Sound := by
  rcases reserve_cases s addr with he | ⟨-, he⟩ | ⟨-, hres, ⟨⟨hready, hin, hc⟩, he⟩ | ⟨hno, he⟩⟩
  · rw [he]
    exact h
  · rw [he]
    exact ⟨h.hhdm, h.idle, h.region, h.reserved, h.refs⟩
  · rw [he]
    refine ⟨h.hhdm, h.idle, h.region, ?_, ?_⟩
    · intro g hg hr
      by_cases hgf : g = addr / pageSize
      · simp [hgf]
      · simpa [update_of_ne hgf] using h.reserved g hg (by simpa [update_of_ne hgf] using hr)
    · intro g hg hr
      by_cases hgf : g = addr / pageSize
      · simp [hgf] at hr
      · simpa [update_of_ne hgf] using h.refs g hg (by simpa [update_of_ne hgf] using hr)
  · rw [he]
    refine ⟨h.hhdm, h.idle, h.region, ?_, ?_⟩
    · intro g hg hr
      by_cases hgf : g = addr / pageSize
      · -- The frame is in a region, so the allocator is ready and the frame was in use already.
        have hready : s.ready = true := by
          by_contra hc
          have hempty := h.idle (by simpa using hc)
          simp [frames, hempty, framesOf] at hg
        by_contra hc
        exact hno ⟨hready, hgf ▸ hg, by simpa [hgf] using hc⟩
      · exact h.reserved g hg (by simpa [update_of_ne hgf] using hr)
    · intro g hg hr
      by_cases hgf : g = addr / pageSize
      · simp [hgf] at hr
      · exact h.refs g hg (by simpa [update_of_ne hgf] using hr)

theorem Inv.reservePage (h : s.Inv) (addr : ℕ) : (s.reservePage addr).1.Inv := by
  have hs := h.toSound.reservePage addr
  rcases reserve_cases s addr with he | ⟨-, he⟩ | ⟨-, hres, ⟨⟨hready, hin, hc⟩, he⟩ | ⟨hno, he⟩⟩
  · rw [he]
    exact h
  · rw [he] at hs ⊢
    exact ⟨hs, h.free, h.total⟩
  · have hm : addr / pageSize ∈ s.freeFrames := mem_clearIn.2 ⟨hin, hc⟩
    rw [he] at hs ⊢
    refine ⟨hs, ?_, h.total⟩
    show s.freePages - 1 = (clearIn s.frames (update s.pageState (addr / pageSize) true)).card
    rw [clearIn_set, h.free]
    exact (Finset.card_erase_of_mem hm).symm
  · rw [he] at hs ⊢
    exact ⟨hs, h.free, h.total⟩

theorem reservePages_induction {P : PmmState → Prop} (hP : ∀ s addr, P s → P (s.reservePage addr).1)
    (hs : P s) (start limit : ℕ) : P (s.reservePages start limit) := by
  rw [reservePages]
  generalize List.range ((limit - start) / pageSize) = l
  induction l generalizing s with
  | nil => exact hs
  | cons i l ih => exact ih (hP s _ hs)

theorem exec_induction {P : PmmState → Prop}
    (halloc : ∀ s : PmmState, P s → P { s with toPmm := s.pmmAllocPage.1 })
    (hfree : ∀ (s : PmmState) addr, P s → P { s with toPmm := s.pmmFreePage addr })
    (hretain : ∀ (s : PmmState) addr p, s.pmmRetainPage addr = some p → P s →
      P { s with toPmm := p })
    (hreserve : ∀ s addr, P s → P (s.reservePage addr).1) (h : P s) (op : PmmOp) :
    P (s.exec op).1 := by
  cases op with
  | reserveRange base length =>
    simp only [PmmState.exec, pmmReserveRange]
    split_ifs
    · exact h
    · exact h
    · exact reservePages_induction hreserve h _ _
  | allocPage => exact halloc s h
  | allocZeroed =>
    have ha := halloc s h
    simp only [PmmState.exec, pmmAllocZeroed]
    split
    · next p he =>
      rw [he] at ha
      exact ha
    · next p f he =>
      rw [he] at ha
      split_ifs
      · exact ha
      · exact hfree _ _ ha
  | freePage phys => exact hfree s _ h
  | retainPage phys =>
    simp only [PmmState.exec]
    split
    · exact h
    · next p he => exact hretain s _ p he h

theorem Sound.exec (h : s.Sound) (op : PmmOp) : (s.exec op).1.Sound :=
  exec_induction (fun _ h ↦ h.allocPage) (fun _ addr h ↦ h.freePage addr)
    (fun _ _ _ hr h ↦ h.retainPage hr)
    (fun _ addr h ↦ h.reservePage addr) h op

theorem Inv.exec (h : s.Inv) (op : PmmOp) : (s.exec op).1.Inv :=
  exec_induction (fun _ h ↦ h.allocPage) (fun _ addr h ↦ h.freePage addr)
    (fun _ _ _ hr h ↦ h.retainPage hr)
    (fun _ addr h ↦ h.reservePage addr) h op

theorem Sound.run (h : s.Sound) (l : List PmmOp) : (s.run l).Sound := by
  induction l generalizing s with
  | nil => exact h
  | cons op l ih => exact ih (h.exec op)

theorem Inv.run (h : s.Inv) (l : List PmmOp) : (s.run l).Inv := by
  induction l generalizing s with
  | nil => exact h
  | cons op l ih => exact ih (h.exec op)

end PmmState

end YabroOS.Memory
