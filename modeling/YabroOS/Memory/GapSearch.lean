import YabroOS.Memory.CloneAtomic
import YabroOS.Memory.OrderlyCalls
import YabroOS.Memory.WriteXor

namespace YabroOS.Memory

open Lib

namespace Vmm

variable (s : Vmm) {start size heapEnd base b : ℕ}

def gapRound (size heapEnd base : ℕ) : ℕ ⊕ Option ℕ :=
  let base := max base userMmapMin
  if userMmapRangeOk base size = false then .inr none
  else if userHeapBase < heapEnd ∧ base < pageUp heapEnd ∧ userHeapBase < base + size then
    .inl (pageUp heapEnd)
  else if s.rangeFree base size then .inr (some base)
  else if userTop - pageSize < s.probe base size then .inr none
  else .inl (s.probe base size + pageSize)

def gapRounds (size heapEnd : ℕ) : ℕ → ℕ → Option (Option ℕ)
  | 0, _ => none
  | n + 1, base =>
    match s.gapRound size heapEnd base with
    | .inr r => some r
    | .inl base => gapRounds size heapEnd n base

/-- `user_mmap_find_gap`, with the base that it writes when it returns 1, in a number of rounds. -/
def findGap (start size heapEnd n : ℕ) : Option (Option ℕ) :=
  if size = 0 then some none else s.gapRounds size heapEnd n (pageUp start)

/-- A range behind a base, below the end of user space, with no page mapped in it. -/
structure Gap (size base b : ℕ) : Prop where
  aligned : pageSize ∣ b
  base_le : max base userMmapMin ≤ b
  top : b + size ≤ userTop
  free : ∀ va, pageSize ∣ va → b ≤ va → va < b + size → s.vmmUserTranslate va = none

variable {s}

theorem mem_pages_iff (hbase : pageSize ∣ base) (hsize : pageSize ∣ size) {va : ℕ} :
    va ∈ pages base size ↔ pageSize ∣ va ∧ base ≤ va ∧ va < base + size := by
  obtain ⟨n, rfl⟩ := hsize
  have hpos : 0 < pageSize := by decide
  rw [mem_pages, Nat.mul_div_cancel_left n hpos]
  constructor
  · rintro ⟨k, hk, rfl⟩
    refine ⟨Nat.dvd_add hbase (dvd_mul_left _ _), Nat.le_add_right _ _, ?_⟩
    have hlt := Nat.mul_lt_mul_of_pos_left hk hpos
    rw [Nat.mul_comm k]
    omega
  · rintro ⟨hva, hle, hlt⟩
    obtain ⟨k, hk⟩ := (Nat.dvd_sub hva hbase)
    refine ⟨k, ?_, ?_⟩
    · have hlt : pageSize * k < pageSize * n := by omega
      exact Nat.lt_of_mul_lt_mul_left hlt
    · rw [Nat.mul_comm k]
      omega

theorem rangeFree_iff (hbase : pageSize ∣ base) (hsize : pageSize ∣ size) :
    s.rangeFree base size = true ↔
    ∀ va, pageSize ∣ va → base ≤ va → va < base + size → s.vmmUserTranslate va = none := by
  unfold rangeFree
  rw [List.all_eq_true]
  constructor
  · intro h va hva hle hlt
    exact of_decide_eq_true (h va ((mem_pages_iff hbase hsize).2 ⟨hva, hle, hlt⟩))
  · intro h va hva
    obtain ⟨hdvd, hle, hlt⟩ := (mem_pages_iff hbase hsize).1 hva
    exact decide_eq_true (h va hdvd hle hlt)

theorem probe_mapped (hbase : pageSize ∣ base) (hsize : pageSize ∣ size)
    (h : s.rangeFree base size ≠ true) :
    pageSize ∣ s.probe base size ∧ base ≤ s.probe base size ∧ s.probe base size < base + size ∧
      s.vmmUserTranslate (s.probe base size) ≠ none := by
  unfold probe
  cases hfind : (pages base size).find? (fun va ↦ s.vmmUserTranslate va ≠ none) with
  | none =>
    refine absurd ((rangeFree_iff hbase hsize).2 fun va hva hle hlt ↦ ?_) h
    have hno := List.find?_eq_none.1 hfind va ((mem_pages_iff hbase hsize).2 ⟨hva, hle, hlt⟩)
    exact not_not.1 (fun hmapped ↦ hno (decide_eq_true hmapped))
  | some va =>
    obtain ⟨hdvd, hle, hlt⟩ := (mem_pages_iff hbase hsize).1 (List.mem_of_find?_eq_some hfind)
    exact ⟨hdvd, hle, hlt,
      of_decide_eq_true
        (List.find?_some (p := fun va ↦ decide (s.vmmUserTranslate va ≠ none)) hfind)⟩

theorem Gap.range_ok (h : s.Gap size base b) (hpos : 0 < size) :
    userMmapRangeOk (max base userMmapMin) size = true := by
  have hle := h.base_le
  have htop := h.top
  exact decide_eq_true ⟨hpos.ne', le_max_right _ _, by omega, by omega⟩

theorem add_pageSize_le {x y : ℕ} (hx : pageSize ∣ x) (hy : pageSize ∣ y) (hlt : x < y) :
    x + pageSize ≤ y := by
  obtain ⟨k, rfl⟩ := hx
  obtain ⟨n, rfl⟩ := hy
  have hle := Nat.mul_le_mul_left pageSize (Nat.lt_of_mul_lt_mul_left hlt)
  rwa [Nat.mul_succ] at hle

theorem max_min_dvd (hbase : pageSize ∣ base) : pageSize ∣ max base userMmapMin := by
  rcases max_choice base userMmapMin with hmax | hmax
  · rwa [hmax]
  · rw [hmax]
    decide

/-- What a round does with the gaps behind its base: it ends at the lowest one, or when there is
none, or leaves a mapped page behind. -/
theorem gapRound_spec (hbase : pageSize ∣ base) (hsize : pageSize ∣ size) (hpos : 0 < size)
    (hheap : heapEnd ≤ userHeapMax) :
    (s.gapRound size heapEnd base = .inr none ∧ ∀ b, ¬ s.Gap size base b) ∨
      (∃ b, s.gapRound size heapEnd base = .inr (some b) ∧ IsLeast {b | s.Gap size base b} b) ∨
      ∃ next, s.gapRound size heapEnd base = .inl next ∧ pageSize ∣ next ∧ base < next ∧
        next ≤ userTop ∧ ∀ b, s.Gap size base b ↔ s.Gap size next b := by
  have hmax := max_min_dvd hbase
  have hle := le_max_left base userMmapMin
  have hmin := le_max_right base userMmapMin
  unfold gapRound
  dsimp only
  by_cases hok : userMmapRangeOk (max base userMmapMin) size = false
  · rw [if_pos hok]
    exact .inl ⟨rfl, fun b hgap ↦ Bool.true_eq_false.mp ((hgap.range_ok hpos).symm.trans hok)⟩
  have hrange := rangeOk_le (Bool.eq_true_of_not_eq_false hok)
  rw [if_neg hok]
  have hheap' : pageUp heapEnd ≤ userMmapMin := by
    have hup := pageUp_le heapEnd
    simp only [userHeapMax, userMmapMin, pageSize] at *
    omega
  rw [if_neg (by omega)]
  by_cases hfree : s.rangeFree (max base userMmapMin) size = true
  · rw [if_pos hfree]
    exact .inr (.inl ⟨_, rfl, ⟨hmax, le_rfl, hrange, (rangeFree_iff hmax hsize).1 hfree⟩,
      fun b hgap ↦ hgap.base_le⟩)
  rw [if_neg hfree]
  obtain ⟨hdvd, hfirst, hlast, hmapped⟩ := probe_mapped hmax hsize hfree
  have hnext : s.probe (max base userMmapMin) size + pageSize ≤ userTop := by
    refine add_pageSize_le hdvd (Nat.dvd_of_mod_eq_zero ?_) (hlast.trans_le hrange)
    norm_num [userTop, pageSize]
  rw [if_neg (by omega)]
  refine .inr (.inr ⟨_, rfl, Nat.dvd_add hdvd dvd_rfl, ?_, hnext,
    fun b ↦ ⟨fun hgap ↦ ?_, fun hgap ↦ ?_⟩⟩)
  · have hpage : 0 < pageSize := by decide
    omega
  · -- a gap that starts at the probe or before would hold the mapped page
    have hlt : s.probe (max base userMmapMin) size < b := by
      by_contra hno
      refine hmapped (hgap.free _ hdvd (not_lt.1 hno) ?_)
      have hstart := hgap.base_le
      omega
    refine ⟨hgap.aligned, max_le (add_pageSize_le hdvd hgap.aligned hlt) (hmin.trans hgap.base_le),
      hgap.top, hgap.free⟩
  · have hback : base ≤ s.probe (max base userMmapMin) size + pageSize :=
      hle.trans (hfirst.trans (Nat.le_add_right _ _))
    exact ⟨hgap.aligned, (max_le_max_right _ hback).trans hgap.base_le, hgap.top, hgap.free⟩

theorem gapRounds_spec (hbase : pageSize ∣ base) (hsize : pageSize ∣ size) (hpos : 0 < size)
    (hheap : heapEnd ≤ userHeapMax) :
    ∃ n r, (∀ m, n ≤ m → s.gapRounds size heapEnd m base = some r) ∧ ∀ b, r = some b ↔
      IsLeast {b | s.Gap size base b} b := by
  induction hleft : userTop - base using Nat.strong_induction_on generalizing base with
  | _ left ih =>
  have hsucc : ∀ {r}, s.gapRound size heapEnd base = .inr r → ∀ m, 1 ≤ m →
      s.gapRounds size heapEnd m base = some r := by
    intro r hr m hm
    obtain ⟨k, rfl⟩ : ∃ k, m = k + 1 := ⟨m - 1, by omega⟩
    rw [gapRounds, hr]
  obtain ⟨hr, hnone⟩ | ⟨b, hr, hleast⟩ | ⟨next, hr, hdvd, hlt, htop, hsame⟩ :=
    gapRound_spec (s := s) hbase hsize hpos hheap
  · exact ⟨1, none, hsucc hr, fun b ↦ iff_of_false nofun (fun hb ↦ hnone b hb.1)⟩
  · refine ⟨1, some b, hsucc hr, fun b' ↦ ⟨fun hb ↦ ?_, fun hb ↦ congrArg some (hleast.unique hb)⟩⟩
    obtain rfl := Option.some.inj hb
    exact hleast
  · obtain ⟨n, r, hrun, hleast⟩ := ih (userTop - next) (by omega) hdvd rfl
    refine ⟨n + 1, r, fun m hm ↦ ?_, fun b ↦ ?_⟩
    · obtain ⟨k, rfl⟩ : ∃ k, m = k + 1 := ⟨m - 1, by omega⟩
      rw [gapRounds, hr]
      exact hrun k (by omega)
    · rw [hleast b, show {b | s.Gap size base b} = {b | s.Gap size next b} from Set.ext hsame]

theorem userMmapFindGap_round (hbase : pageSize ∣ base) (hsize : pageSize ∣ size) :
    userMmapFindGap s size heapEnd base =
    match s.gapRound size heapEnd base with
    | .inr r => r
    | .inl next => userMmapFindGap s size heapEnd next := by
  have hle := le_max_left base userMmapMin
  rw [userMmapFindGap]
  unfold gapRound
  dsimp only
  by_cases hok : userMmapRangeOk (max base userMmapMin) size = true
  swap
  · rw [if_neg hok, if_pos (Bool.eq_false_of_not_eq_true hok)]
  rw [if_pos hok, if_neg (fun hbad ↦ Bool.true_eq_false.mp (hok.symm.trans hbad))]
  split_ifs with hheap hfree htop hlt
  · rfl
  · rfl
  · rfl
  · rfl
  · obtain ⟨-, hfirst, -⟩ := probe_mapped (max_min_dvd hbase) hsize hfree
    have hpage : 0 < pageSize := by decide
    omega

theorem gapRounds_eq (hbase : pageSize ∣ base) (hsize : pageSize ∣ size) (hpos : 0 < size)
    (hheap : heapEnd ≤ userHeapMax) {n : ℕ} {r : Option ℕ}
    (h : s.gapRounds size heapEnd n base = some r) : userMmapFindGap s size heapEnd base = r := by
  induction n generalizing base with
  | zero => cases h
  | succ n ih =>
    rw [gapRounds] at h
    rw [userMmapFindGap_round hbase hsize]
    obtain ⟨hr, -⟩ | ⟨b, hr, -⟩ | ⟨next, hr, hdvd, -⟩ :=
      gapRound_spec (s := s) hbase hsize hpos hheap
    · rw [hr] at h ⊢
      exact Option.some.inj h
    · rw [hr] at h ⊢
      exact Option.some.inj h
    · rw [hr] at h ⊢
      exact ih hdvd h

/-- `user_mmap_find_gap` ends, with the lowest gap if there is one. -/
theorem findGap_lowest (s : Vmm) (start size heapEnd : ℕ) (hstart : start < userTop)
    (hsize : pageSize ∣ size) (hpos : 0 < size) (hheap : heapEnd ≤ userHeapMax) :
    ∃ n r, (∀ m, n ≤ m → s.findGap start size heapEnd m = some r) ∧
      (∀ b, r = some b ↔
        IsLeast {b | s.Gap size ((start + (pageSize - 1)) / pageSize * pageSize) b} b) ∧
      (r = none ↔ ∀ b, ¬ s.Gap size ((start + (pageSize - 1)) / pageSize * pageSize) b) := by
  rw [← pageUp_eq hstart.le]
  obtain ⟨n, r, hrun, hleast⟩ := gapRounds_spec (s := s) (pageUp_dvd start) hsize hpos hheap
  refine ⟨n, r, fun m hm ↦ ?_, hleast, ?_⟩
  · rw [findGap, if_neg hpos.ne']
    exact hrun m hm
  · constructor
    · rintro rfl b hgap
      classical
      have hsome : ∃ b, s.Gap size (pageUp start) b := ⟨b, hgap⟩
      cases (hleast (Nat.find hsome)).2 ⟨Nat.find_spec hsome, fun _ ↦ Nat.find_min' hsome⟩
    · intro hno
      cases r with
      | none => rfl
      | some b => exact absurd ((hleast b).1 rfl).1 (hno b)

def mappedSecond : Vmm :=
  let pt : Tab 0 := Slots.empty.set 1 (writablePte 4101)
  let pd : Tab 1 := Slots.set (Tab.empty 1) 128 (.next Tab.tableFlags 4100 pt)
  let pdpt : Tab 2 := Slots.set (Tab.empty 2) 0 (.next Tab.tableFlags 4099 pd)
  { forkState 1 4101 4101 with
    spaces := Slots.empty.set 4097 (Slots.set (Tab.empty 3) 0 (.next Tab.tableFlags 4098 pdpt)) }

theorem findGap_lowest_second : IsLeast {b | mappedSecond.Gap 0x2000 0 b} 0x10002000 := by
  obtain ⟨n, r, hrun, hleast, -⟩ :=
    findGap_lowest mappedSecond 0 0x2000 0 (by decide) ⟨2, rfl⟩ (by decide) (by decide)
  have hfirst : mappedSecond.findGap 0 0x2000 0 2 = some (some 0x10002000) := by decide +kernel
  have hloop : ∀ {n r}, mappedSecond.findGap 0 0x2000 0 n = some r →
      userMmapFindGap mappedSecond 0x2000 0 (pageUp 0) = r :=
    fun h ↦ gapRounds_eq (pageUp_dvd 0) ⟨2, rfl⟩ (by decide) (by decide) h
  exact (hleast _).1 ((hloop (hrun n le_rfl)).symm.trans (hloop hfirst))

end Vmm

end YabroOS.Memory
