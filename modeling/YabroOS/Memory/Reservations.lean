import YabroOS.Memory.PmmProtocol

namespace YabroOS.Memory

open Function

def Meets (f base len : ℕ) : Prop := ∃ a, base ≤ a ∧ a < base + len ∧ a / pageSize = f

namespace PmmState

open Pmm

variable {s t : PmmState} {f k n base len : ℕ}

def takes (s : PmmState) (f : ℕ) : Bool :=
  f ≠ 0 ∧ f * pageSize < 2 ^ 52 ∧ ¬ (f * pageSize < pmmTrackLimit ∧ s.reservedState f = true)

def pending (s : PmmState) (k n : ℕ) : ℕ := (List.range n).countP fun j ↦ s.takes (k + j)

def room (s : PmmState) : ℕ := maxReservedPages - s.reservedPages.length

/-- The call reserves the frames of the pool that it has to: the end of the range can be rounded up,
and there is an entry for each of the frames that is not reserved. -/
def Room (s : PmmState) (base len : ℕ) : Prop :=
  ∀ f ∈ s.frames, Meets f base len → s.reservedState f = true ∨
    base + len + (pageSize - 1) < 2 ^ 64 ∧ s.pending (base / pageSize) (f - base / pageSize) < s.room

theorem pending_succ (s : PmmState) (k n : ℕ) :
    s.pending k (n + 1) = s.pending k n + if s.takes (k + n) then 1 else 0 := by
  rw [pending, List.range_succ, List.countP_append, List.countP_singleton]
  rfl

theorem reservePage_spec (s : PmmState) (f : ℕ) :
    (s.takes f = true ∧ 0 < s.room ∧
      (s.reservePage (f * pageSize)).1.reservedPages = s.reservedPages ++ [f * pageSize] ∧
      (s.reservePage (f * pageSize)).1.reservedState =
        if f * pageSize < pmmTrackLimit then update s.reservedState f true else s.reservedState) ∨
    ¬ (s.takes f = true ∧ 0 < s.room) ∧ (s.reservePage (f * pageSize)).1 = s := by
  have hpos : 0 < pageSize := by decide
  have hroom : 0 < s.room ↔ ¬ maxReservedPages ≤ s.reservedPages.length := by
    rw [room]
    omega
  by_cases ht : f * pageSize < pmmTrackLimit
  · simp only [reservePage, pageOf_mul, isReserved, tracked, setReserved, setAllocated, ht,
      decide_true, if_true,
      mul_div_pageSize, takes, decide_eq_true_eq]
    split_ifs with h₁ h₂ h₃ h₄
    · refine .inr ⟨?_, rfl⟩
      rintro ⟨⟨hne, hlt, _⟩, _⟩
      rcases h₁ with h₁ | h₁
      · exact hne ((Nat.mul_eq_zero.1 h₁).resolve_right hpos.ne')
      · omega
    · exact .inr ⟨fun h ↦ h.1.2.2 ⟨trivial, h₂⟩, rfl⟩
    · exact .inr ⟨fun h ↦ hroom.1 h.2 h₃, rfl⟩
    all_goals
      push Not at h₁
      refine .inl ⟨⟨fun hz ↦ h₁.1 (by rw [hz, Nat.zero_mul]), h₁.2, fun h ↦ h₂ h.2⟩, hroom.2 h₃,
        rfl, rfl⟩
  · simp only [reservePage, pageOf_mul, isReserved, tracked, setReserved, setAllocated, ht,
      decide_false, Bool.false_eq_true,
      if_false, takes, decide_eq_true_eq, false_and, not_false_eq_true, and_true, pageIsAllocated]
    split_ifs with h₁ h₃ h₄
    · refine .inr ⟨?_, rfl⟩
      rintro ⟨⟨hne, hlt⟩, _⟩
      rcases h₁ with h₁ | h₁
      · exact hne ((Nat.mul_eq_zero.1 h₁).resolve_right hpos.ne')
      · omega
    · exact .inr ⟨fun h ↦ hroom.1 h.2 h₃, rfl⟩
    all_goals
      push Not at h₁
      refine .inl ⟨⟨fun hz ↦ h₁.1 (by rw [hz, Nat.zero_mul]), h₁.2⟩, hroom.2 h₃, rfl, rfl⟩

/-- The loop over `n` frames: the list grows by the entries that are taken, and a frame is reserved
afterwards if it was before, or if there was an entry left when its turn came. -/
theorem reserveFrames_spec (s : PmmState) (k n : ℕ) :
    let t := (List.range n).foldl (fun s i ↦ (s.reservePage (k * pageSize + i * pageSize)).1) s
    t.reservedPages.length = s.reservedPages.length + min (s.pending k n) s.room ∧
      (∀ g, g < k ∨ k + n ≤ g → t.reservedState g = s.reservedState g) ∧
      ∀ j < n, k + j ≠ 0 → (k + j) * pageSize < pmmTrackLimit →
        (t.reservedState (k + j) = true ↔ s.reservedState (k + j) = true ∨
          s.pending k j < s.room) := by
  induction n with
  | zero => exact ⟨by simp [pending], fun _ _ ↦ rfl, fun j hj ↦ absurd hj (Nat.not_lt_zero j)⟩
  | succ n ih =>
    intro t
    obtain ⟨hlen, hsame, hdone⟩ := ih
    have ht : t =
        (((List.range n).foldl (fun s i ↦ (s.reservePage (k * pageSize + i * pageSize)).1)
          s).reservePage
        ((k + n) * pageSize)).1 := by
      rw [Nat.add_mul]
      simp only [t, List.range_succ, List.foldl_append, List.foldl_cons, List.foldl_nil]
    generalize (List.range n).foldl (fun s i ↦ (s.reservePage (k * pageSize + i * pageSize)).1) s =
      u at hlen hsame hdone ht
    have htakes : u.takes (k + n) = s.takes (k + n) := by
      rw [takes, takes, hsame (k + n) (.inr le_rfl)]
    have hroom : u.room = s.room - min (s.pending k n) s.room := by
      simp only [room, hlen]
      omega
    have hpending := pending_succ s k n
    rw [← htakes] at hpending
    rcases reservePage_spec u (k + n) with ⟨htake, hfree, hpages, hstate⟩ | ⟨hno, hstay⟩
    · rw [htake, if_pos rfl] at hpending
      rw [← ht] at hpages hstate
      refine ⟨by rw [hpages, List.length_append, hlen, List.length_singleton]; omega, fun g hg ↦ ?_,
        fun j hj hne hlow ↦ ?_⟩
      · rw [hstate, ← hsame g (by omega)]
        split_ifs
        · exact update_of_ne (by omega) _ _
        · rfl
      · rcases Nat.lt_succ_iff_lt_or_eq.1 hj with hj | rfl
        · rw [← hdone j hj hne hlow, hstate]
          split_ifs
          · rw [update_of_ne (by omega)]
          · exact Iff.rfl
        · rw [hstate, if_pos hlow, update_self]
          exact iff_of_true rfl (.inr (by omega))
    · rw [hstay] at ht
      rw [ht]
      refine ⟨?_, fun g hg ↦ hsame g (by omega), fun j hj hne hlow ↦ ?_⟩
      · rw [hlen, hpending]
        by_cases htake : u.takes (k + n) = true
        · have hfull : ¬ 0 < u.room := fun hr ↦ hno ⟨htake, hr⟩
          rw [if_pos htake]
          omega
        · rw [if_neg htake]
          omega
      · rcases Nat.lt_succ_iff_lt_or_eq.1 hj with hj | rfl
        · exact hdone j hj hne hlow
        · rw [hsame _ (.inr le_rfl)]
          refine ⟨.inl, fun h ↦ h.elim id fun hlt ↦ ?_⟩
          by_contra hres
          have hbelow : (k + j) * pageSize < 2 ^ 52 := hlow.trans (by decide)
          have htake : u.takes (k + j) = true := by
            rw [htakes, takes, decide_eq_true_eq]
            exact ⟨hne, hbelow, fun hr ↦ hres hr.2⟩
          exact hno ⟨htake, by omega⟩

theorem meets_iff (hlen : len ≠ 0) (hwrap : base + len + (pageSize - 1) < 2 ^ 64) :
    Meets f base len ↔ base / pageSize ≤ f ∧
      f - base / pageSize < (alignUp ((base + len) % 2 ^ 64) - pageOf base) / pageSize := by
  have hsum : (base + len) % 2 ^ 64 = base + len := Nat.mod_eq_of_lt (by omega)
  have hup : alignUp (base + len) = (base + len + (pageSize - 1)) / pageSize * pageSize := by
    rw [alignUp, Nat.add_sub_assoc (by decide), Nat.mod_eq_of_lt hwrap, pageOf]
  rw [hsum, hup, pageOf, ← Nat.sub_mul, mul_div_pageSize]
  constructor
  · rintro ⟨a, h₁, h₂, rfl⟩
    simp only [pageSize] at *
    omega
  · rintro ⟨h₁, h₂⟩
    refine ⟨max base (f * pageSize), le_max_left _ _, ?_, ?_⟩
    · simp only [pageSize] at *
      omega
    · simp only [pageSize] at *
      omega

theorem reserveRange_of_wrap (hwrap : ¬ base + len + (pageSize - 1) < 2 ^ 64)
    (hsum : base + len < 2 ^ 64) : s.pmmReserveRange base len = s := by
  have hup : alignUp ((base + len) % 2 ^ 64) = 0 := by
    rw [Nat.mod_eq_of_lt hsum, alignUp, pageOf]
    simp only [pageSize] at *
    omega
  simp only [pmmReserveRange, hup, reservePages, Nat.zero_sub, Nat.zero_div, List.range_zero,
    List.foldl_nil, ite_self]

theorem Sound.reserveRange_iff (h : s.Sound) (hsum : base + len < 2 ^ 64) :
    (∀ f ∈ s.frames, Meets f base len → (s.pmmReserveRange base len).reservedState f = true) ↔
      s.Room base len := by
  refine forall_congr' fun f ↦ forall_congr' fun hf ↦ forall_congr' fun hmeets ↦ ?_
  have hlen : len ≠ 0 := by
    rintro rfl
    obtain ⟨a, h₁, h₂, -⟩ := hmeets
    omega
  by_cases hwrap : base + len + (pageSize - 1) < 2 ^ 64
  · obtain ⟨h₁, h₂⟩ := (meets_iff hlen hwrap).1 hmeets
    obtain ⟨hlow, hhigh⟩ := h.bounds hf
    have hspec := (reserveFrames_spec s (base / pageSize) _).2.2 _ h₂
    rw [Nat.add_sub_cancel' h₁] at hspec
    have hne : f ≠ 0 := by
      rintro rfl
      rw [Nat.zero_mul] at hlow
      exact absurd hlow (by decide)
    have hlimit : ¬ alignUp ((base + len) % 2 ^ 64) < base := by
      rw [Nat.mod_eq_of_lt hsum, alignUp, pageOf, Nat.add_sub_assoc (by decide),
        Nat.mod_eq_of_lt hwrap]
      simp only [pageSize] at *
      omega
    rw [pmmReserveRange, if_neg hlen]
    simp only [if_neg hlimit, reservePages]
    rw [and_iff_right hwrap]
    exact hspec hne hhigh
  · rw [reserveRange_of_wrap hwrap hsum]
    exact ⟨.inl, fun h ↦ h.resolve_right fun hr ↦ hwrap hr.1⟩

theorem page_some {op : PmmOp} (h : (s.exec op).2 = .page (some f)) :
    s.pmmAllocPage.2 = some f := by
  cases op with
  | allocPage => exact PmmResult.page.inj h
  | allocZeroed =>
    have hz : s.pmmAllocZeroed.2 = some f := PmmResult.page.inj h
    unfold pmmAllocZeroed at hz
    split at hz
    · cases hz
    · next g he =>
      split_ifs at hz
      · rw [he]
        exact hz
  | reserveRange base length => cases h
  | freePage phys => cases h
  | retainPage phys =>
    simp only [exec] at h
    split at h <;> cases h

/-- Every memory map and every run: after a reservation that has room, no allocation returns a frame
of its range. -/
theorem reservations_hold (entries : Option Memmap) (hhdm kernelBase kernelEnd cr3 : UInt64)
    (mem : ℕ → ℕ → UInt64)
    (pre post : List PmmOp) (base length : UInt64) (hsum : base.toNat + length.toNat < 2 ^ 64)
    (hroom : ((pmmInit entries hhdm kernelBase kernelEnd cr3 mem).run pre).Room base.toNat
      length.toNat) (op : PmmOp) (f : ℕ)
    (hf : (((pmmInit entries hhdm kernelBase kernelEnd cr3 mem).run
      (pre ++ .reserveRange base length :: post)).exec op).2 =
      .page (some f)) : ¬ Meets f base.toNat length.toNat := by
  intro hmeets
  have hstart := sound_pmmInit entries hhdm kernelBase kernelEnd cr3 mem
  generalize pmmInit entries hhdm kernelBase kernelEnd cr3 mem = s at hroom hf hstart
  have hpre : (s.run pre).Sound := hstart.run pre
  have hrun : s.run (pre ++ .reserveRange base length :: post) =
      ((s.run pre).pmmReserveRange base.toNat length.toNat).run post := by
    rw [run, List.foldl_append]
    rfl
  rw [hrun] at hf
  have hreserve : ((s.run pre).pmmReserveRange base.toNat length.toNat).Sound :=
    hpre.exec (.reserveRange base length)
  have hsound : (((s.run pre).pmmReserveRange base.toNat length.toNat).run post).Sound :=
    hreserve.run post
  obtain ⟨hin, hres, -⟩ := hsound.alloc_some (Prod.ext rfl (page_some hf))
  have hin' : f ∈ (s.run pre).frames := by
    rw [hreserve.frames_run post] at hin
    exact (congrArg (f ∈ ·) (hpre.frames_exec (.reserveRange base length))).mp hin
  have hafter := reservedState_run_mono post ((hpre.reserveRange_iff hsum).2 hroom f hin' hmeets)
  exact absurd (hres.symm.trans hafter) (by decide)

def oneRegion (length : UInt64) : PmmState :=
  pmmInit (some [some ⟨0x1000000, length, 0⟩]) 0xffff800000000000 0 0 0 (fun _ _ ↦ 0)

theorem reservations_hold_page :
    ((oneRegion 0x3000).run [.reserveRange 0x1000000 0x1000]).exec .allocPage =
      (((oneRegion 0x3000).run [.reserveRange 0x1000000 0x1000]).exec .allocPage |>.1,
        .page (some 4097)) ∧
    ¬ Meets 4097 0x1000000 0x1000 := by
  have hpage : (((oneRegion 0x3000).run [.reserveRange 0x1000000 0x1000]).exec .allocPage).2 =
      .page (some 4097) := by
    decide +kernel
  refine ⟨Prod.ext rfl hpage, ?_⟩
  have hroom : ((oneRegion 0x3000).run []).Room 0x1000000 0x1000 := by
    rintro f - ⟨a, h₁, h₂, rfl⟩
    have hframe : a / pageSize = 4096 := by
      simp only [pageSize]
      omega
    have hfirst : (oneRegion 0x3000).pending 4096 0 < (oneRegion 0x3000).room := by decide +kernel
    exact .inr ⟨by decide, by rw [hframe]; exact hfirst⟩
  exact reservations_hold (some [some ⟨0x1000000, 0x3000, 0⟩]) 0xffff800000000000 0 0 0
    (fun _ _ ↦ 0) [] [] 0x1000000 0x1000 (by decide) hroom .allocPage 4097 hpage

theorem oneRegion_eq : oneRegion 0x10001000 =
    { zero 0xffff800000000000 with
      regions := [⟨4096, 69633, 4096⟩], freePages := 65537, totalPages := 65537,
        ready := true } := by
  have hsome : (LimineMemmapEntry.region ⟨0x1000000, 0x10001000, 0⟩).map
      (fun r ↦ (r.base, r.limit, r.next)) =
      some (4096, 69633, 4096) := by decide +kernel
  obtain ⟨⟨base, limit, next⟩, hregion, hr⟩ := Option.map_eq_some_iff.1 hsome
  obtain ⟨rfl, rfl, rfl⟩ : base = 4096 ∧ limit = 69633 ∧ next = 4096 := by simpa using hr
  have hz : (0 : UInt64).toNat = 0 := rfl
  have hh : (0xffff800000000000 : UInt64).toNat = 0xffff800000000000 := rfl
  simp only [oneRegion, pmmInit]
  rw [if_neg (by decide)]
  simp [addRegion, hregion, zero, reserveKernel, pageOf, alignUp, reserveActivePageTables,
    reservePageTableTree,
    maxRegions, pageSize, hz, hh]

theorem reserveRange_refs (s : PmmState) (base len : ℕ) :
    (s.pmmReserveRange base len).pageRefs = s.pageRefs := by
  simp only [pmmReserveRange]
  split_ifs
  · rfl
  · rfl
  · refine reservePages_induction (P := fun t ↦ t.pageRefs = s.pageRefs) (fun t addr ht ↦ ?_) rfl _ _
    rcases reserve_cases t addr with he | ⟨-, he⟩ | ⟨-, -, ⟨-, he⟩ | ⟨-, he⟩⟩
    all_goals
      rw [he]
      exact ht

/-- Of 65537 pages one does not fit in the list, and it is handed out. -/
theorem not_reservations_hold :
    ∃ f, (((oneRegion 0x10001000).run [.reserveRange 0x1000000 0x10001000]).exec .allocPage).2 =
      .page (some f) ∧ Meets f 0x1000000 0x10001000 := by
  have hstart : (oneRegion 0x10001000).Inv := by
    refine inv_pmmInit (fun l hl ↦ ?_) _ _ _ _ _
    obtain rfl := Option.some.inj hl
    simp [Memmap.UsableDisjoint]
  have hframes : ∀ f, f ∈ (oneRegion 0x10001000).frames ↔ 4096 ≤ f ∧ f < 69633 := fun f ↦ by
    simp [oneRegion_eq, frames, framesOf]
  have hclear : ∀ f, (oneRegion 0x10001000).reservedState f = false := fun f ↦ by
    rw [oneRegion_eq]; rfl
  have hrefs : ∀ f, (oneRegion 0x10001000).pageRefs f = 0 := fun f ↦ by rw [oneRegion_eq]; rfl
  have hempty : (oneRegion 0x10001000).room = 65536 := by rw [oneRegion_eq]; rfl
  generalize oneRegion 0x10001000 = s at *
  -- The last frame of the range comes after 65536 others.
  have hfull : s.pending 4096 65536 = 65536 := by
    rw [pending, List.countP_eq_length.2 fun j hj ↦ ?_, List.length_range]
    have hj' := List.mem_range.1 hj
    rw [takes, decide_eq_true_eq, hclear]
    refine ⟨by omega, ?_, by simp⟩
    simp only [pageSize]
    omega
  have hroom : ¬ s.Room 0x1000000 0x10001000 := fun h ↦ by
    rcases h 69632 ((hframes _).2 (by decide)) ⟨69632 * pageSize, by decide, by decide, by decide⟩
      with hr | ⟨-, hlt⟩
    · rw [hclear] at hr
      cases hr
    · have hlt : s.pending 4096 65536 < s.room := hlt
      omega
  rw [← hstart.toSound.reserveRange_iff (by decide)] at hroom
  push Not at hroom
  obtain ⟨f, hf, -, hres⟩ := hroom
  have hbase : (0x1000000 : UInt64).toNat = 0x1000000 := rfl
  have hlength : (0x10001000 : UInt64).toNat = 0x10001000 := rfl
  have hexec : ∀ base length : UInt64, s.run [.reserveRange base length] =
      s.pmmReserveRange base.toNat length.toNat :=
    fun _ _ ↦ rfl
  have hafter := hstart.run [.reserveRange 0x1000000 0x10001000]
  have hsame := hstart.toSound.frames_run [.reserveRange 0x1000000 0x10001000]
  rw [hexec, hbase, hlength] at hafter hsame ⊢
  have hunheld := reserveRange_refs s 0x1000000 0x10001000
  have hres : (s.pmmReserveRange 0x1000000 0x10001000).reservedState f = false :=
    Bool.eq_false_iff.2 hres
  generalize s.pmmReserveRange 0x1000000 0x10001000 = t at *
  rw [← hsame] at hf
  have hfree : f ∈ t.freeFrames := by
    refine mem_clearIn.2 ⟨hf, Bool.eq_false_iff.2 fun hused ↦ ?_⟩
    have hheld := (hafter.refs f hf hres).1 hused
    rw [hunheld, hrefs] at hheld
    omega
  cases ha : t.pmmAllocPage.2 with
  | none =>
    rw [hafter.alloc_none_iff, hafter.free, Finset.card_eq_zero] at ha
    rw [ha] at hfree
    cases hfree
  | some g =>
    obtain ⟨hg, -⟩ := hafter.toSound.alloc_some (Prod.ext rfl ha)
    rw [hsame, hframes] at hg
    refine ⟨g, congrArg PmmResult.page ha, g * pageSize, ?_, ?_, mul_div_pageSize g⟩
    · simp only [pageSize]
      omega
    · simp only [pageSize]
      omega

end PmmState

end YabroOS.Memory
