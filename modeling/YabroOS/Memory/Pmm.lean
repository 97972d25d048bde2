import YabroOS.Lib.Pool
import Mathlib.Algebra.Group.Nat.Defs
import Mathlib.Logic.Function.Basic
import Mathlib.Tactic.SplitIfs

namespace YabroOS.Memory

open Lib Function

def pageSize : ℕ := 0x1000
def pmmMinPhys : ℕ := 0x01000000
def pmmTrackLimit : ℕ := 2 ^ 32

/-- A region in frame numbers: `pmm_init` rounds both ends to pages. -/
structure PmmRegion where
  base : ℕ
  limit : ℕ
  next : ℕ

/-- The allocator's globals. The two bitmaps and the reference counts are indexed by frame number.
-/
structure Pmm where
  regions : List PmmRegion
  hhdm : ℕ
  freePages : ℕ
  pageState : ℕ → Bool
  reservedState : ℕ → Bool
  pageRefs : ℕ → ℕ
  ready : Bool

namespace Pmm

def pageOf (x : ℕ) : ℕ := x / pageSize * pageSize

def tracked (phys : ℕ) : Bool := phys < pmmTrackLimit

def pageIsAllocated (s : Pmm) (phys : ℕ) : Bool :=
  if tracked phys then s.pageState (phys / pageSize) else true

def isReserved (s : Pmm) (phys : ℕ) : Bool :=
  if tracked (pageOf phys) then s.reservedState (pageOf phys / pageSize) else false

def physToVirtOk (s : Pmm) (phys : ℕ) : Bool :=
  s.hhdm ≠ 0 ∧ s.hhdm + phys < 2 ^ 64 ∧ (s.hhdm + phys) / 2 ^ 48 = 0xFFFF

/-- The test both search loops of `pmm_alloc_page` make on a candidate frame. -/
def available (s : Pmm) (f : ℕ) : Bool :=
  f * pageSize < pmmTrackLimit ∧ pmmMinPhys ≤ f * pageSize ∧ s.isReserved (f * pageSize) = false ∧
    s.pageIsAllocated (f * pageSize) = false

def scan (ok : ℕ → Bool) : ℕ → ℕ → Option ℕ
  | 0, _ => none
  | n + 1, f => if ok f then some f else scan ok n (f + 1)

def searchRegions (ok : ℕ → Bool) : List PmmRegion → Option ℕ × List PmmRegion
  | [] => (none, [])
  | r :: rs =>
    match scan ok (r.limit - r.next) r.next with
    | some f => (some f, { r with next := f + 1 } :: rs)
    | none =>
      match scan ok (r.limit - r.base) r.base with
      | some f => (some f, { r with next := f + 1 } :: rs)
      | none =>
        let (found, rest) := searchRegions ok rs
        (found, { r with next := max r.next r.limit } :: rest)

def pmmAllocPage (s : Pmm) : Pmm × Option ℕ :=
  if s.ready = false ∨ s.hhdm = 0 then (s, none)
  else
    match searchRegions s.available s.regions with
    | (none, rs) => ({ s with regions := rs }, none)
    | (some f, rs) =>
      ({ s with
          regions := rs
          pageState := update s.pageState f true
          pageRefs := update s.pageRefs f 1
          freePages := s.freePages - 1 }, some f)

def inRegion (s : Pmm) (phys : ℕ) : Bool :=
  s.regions.any (fun r ↦ r.base * pageSize ≤ phys ∧ phys < r.limit * pageSize)

def pmmFreePage (s : Pmm) (addr : ℕ) : Pmm :=
  let phys := pageOf addr
  if s.ready = false ∨ phys = 0 ∨ 2 ^ 52 ≤ phys ∨ s.isReserved phys then s
  else if pmmTrackLimit ≤ phys then s
  else if s.inRegion phys = false then s
  else if s.pageIsAllocated phys = false then s
  else
    let idx := phys / pageSize
    if 1 < s.pageRefs idx then { s with pageRefs := update s.pageRefs idx (s.pageRefs idx - 1) }
    else
      { s with
        pageRefs := update s.pageRefs idx 0
        pageState := update s.pageState idx false
        freePages := s.freePages + 1 }

def pmmPageRefcount (s : Pmm) (addr : ℕ) : ℕ :=
  let phys := pageOf addr
  if s.ready = false ∨ phys = 0 ∨ pmmTrackLimit ≤ phys then 0 else s.pageRefs (phys / pageSize)

def pmmPageIsReserved (s : Pmm) (addr : ℕ) : Bool := s.isReserved (pageOf addr)

def pmmRetainPage (s : Pmm) (addr : ℕ) : Option Pmm :=
  let phys := pageOf addr
  if s.ready = false ∨ phys = 0 ∨ pmmTrackLimit ≤ phys ∨ s.isReserved phys then none
  else if s.pageIsAllocated phys = false then none
  else
    let idx := phys / pageSize
    if s.pageRefs idx = 0xFFFF then none
    else if s.pageRefs idx = 0 then some { s with pageRefs := update s.pageRefs idx 1 }
    else some { s with pageRefs := update s.pageRefs idx (s.pageRefs idx + 1) }

/-- The allocator as a pool of counted frames. Reserved frames and frames beyond the
tracked range, which it never hands out, are exempt. -/
def pool (s : Pmm) : Pool ℕ where
  live f := s.pageIsAllocated (f * pageSize) = true ∧ f * pageSize < pmmTrackLimit
  refs := s.pageRefs
  exempt f := s.isReserved (f * pageSize) = true ∨ pmmTrackLimit ≤ f * pageSize

theorem pageOf_mul (f : ℕ) : pageOf (f * pageSize) = f * pageSize := by
  simp [pageOf, pageSize]

theorem mul_div_pageSize (f : ℕ) : f * pageSize / pageSize = f := by
  simp [pageSize]

theorem scan_ok {ok : ℕ → Bool} {n p q : ℕ} (h : scan ok n p = some q) : ok q = true := by
  induction n generalizing p with
  | zero => simp [scan] at h
  | succ n ih =>
    simp only [scan] at h
    split_ifs at h with hp
    · cases h
      exact hp
    · exact ih h

theorem searchRegions_ok {ok : ℕ → Bool} {l l' : List PmmRegion} {q : ℕ}
    (h : searchRegions ok l = (some q, l')) : ok q = true := by
  induction l generalizing l' with
  | nil => simp [searchRegions] at h
  | cons r rs ih =>
    simp only [searchRegions] at h
    split at h
    · next p hp =>
      cases h
      exact scan_ok hp
    · split at h
      · next p hp =>
        cases h
        exact scan_ok hp
      · cases hr : searchRegions ok rs with
        | mk found rest =>
          rw [hr] at h
          cases h
          exact ih hr

theorem pmmAllocPage_some {s s' : Pmm} {f : ℕ} (h : s.pmmAllocPage = (s', some f)) :
    s.available f = true ∧ s'.hhdm = s.hhdm ∧ s'.ready = s.ready ∧
      s'.reservedState = s.reservedState ∧
      s'.pageState = update s.pageState f true ∧ s'.pageRefs = update s.pageRefs f 1 := by
  simp only [pmmAllocPage] at h
  split_ifs at h with hr
  · cases h
  · split at h
    · cases h
    · next q rs hq =>
      cases h
      exact ⟨searchRegions_ok hq, rfl, rfl, rfl, rfl, rfl⟩

theorem pmmAllocPage_none {s s' : Pmm} (h : s.pmmAllocPage = (s', none)) :
    s'.hhdm = s.hhdm ∧ s'.ready = s.ready ∧ s'.reservedState = s.reservedState ∧
      s'.pageState = s.pageState ∧ s'.pageRefs = s.pageRefs := by
  simp only [pmmAllocPage] at h
  split_ifs at h with hr
  · cases h
    exact ⟨rfl, rfl, rfl, rfl, rfl⟩
  · split at h
    · cases h
      exact ⟨rfl, rfl, rfl, rfl, rfl⟩
    · cases h

theorem pool_exempt_eq {s s' : Pmm} (h : s'.reservedState = s.reservedState) :
    s'.pool.exempt = s.pool.exempt := by
  funext f
  simp [pool, isReserved, h]

theorem pool_eq {s s' : Pmm} (h : s'.reservedState = s.reservedState)
    (hs : s'.pageState = s.pageState) (hr : s'.pageRefs = s.pageRefs) : s'.pool = s.pool := by
  simp [pool, isReserved, pageIsAllocated, h, hs, hr]

theorem live_iff (s : Pmm) (f : ℕ) :
    s.pool.live f ↔ f * pageSize < pmmTrackLimit ∧ s.pageState f = true := by
  simp only [pool, pageIsAllocated, tracked, mul_div_pageSize]
  by_cases h : f * pageSize < pmmTrackLimit <;> simp [h]

theorem exempt_iff (s : Pmm) (f : ℕ) :
    s.pool.exempt f ↔ f * pageSize < pmmTrackLimit → s.reservedState f = true := by
  simp only [pool, isReserved, tracked, pageOf_mul, mul_div_pageSize]
  by_cases h : f * pageSize < pmmTrackLimit
  · simp [h]
  · simp [h, not_lt.1 h]

theorem pool_alloc {s s' : Pmm} {f : ℕ} (h : s.pmmAllocPage = (s', some f)) :
    s.pool.Allocates s'.pool f := by
  obtain ⟨hok, -, -, hres, hst, hrf⟩ := pmmAllocPage_some h
  simp only [available, decide_eq_true_eq] at hok
  obtain ⟨hlt, -, hnres, hnal⟩ := hok
  refine ⟨pool_exempt_eq hres, ?_, ?_, ?_, ?_, ?_, ?_⟩
  · rw [exempt_iff]
    simpa [isReserved, tracked, pageOf_mul, hlt, mul_div_pageSize] using hnres
  · rw [live_iff]
    simpa [pageIsAllocated, tracked, hlt, mul_div_pageSize] using hnal
  · rw [live_iff, hst]
    exact ⟨hlt, by simp⟩
  · show 1 ≤ s'.pageRefs _
    rw [hrf]
    simp
  · intro g hg
    rw [live_iff, live_iff, hst, update_of_ne hg]
  · intro g hg
    show s'.pageRefs g = s.pageRefs g
    rw [hrf, update_of_ne hg]

theorem pmmFreePage_reserved (s : Pmm) (addr : ℕ) :
    (s.pmmFreePage addr).reservedState = s.reservedState := by
  simp only [pmmFreePage]
  split_ifs <;> rfl

theorem pmmFreePage_hhdm (s : Pmm) (addr : ℕ) : (s.pmmFreePage addr).hhdm = s.hhdm := by
  simp only [pmmFreePage]
  split_ifs <;> rfl

theorem pool_free (s : Pmm) (f : ℕ) : s.pool.Releases (s.pmmFreePage (f * pageSize)).pool f := by
  have hex := pool_exempt_eq (pmmFreePage_reserved s (f * pageSize))
  generalize hs' : s.pmmFreePage (f * pageSize) = s' at hex ⊢
  simp only [pmmFreePage, pageOf_mul, mul_div_pageSize] at hs'
  split_ifs at hs' with h₁ h₂ h₃ h₄ h₅ <;> subst hs'
  · exact Pool.Releases.refl _ _
  · exact Pool.Releases.refl _ _
  · exact Pool.Releases.refl _ _
  · exact Pool.Releases.refl _ _
  · refine ⟨hex, ?_, fun _ h ↦ h, fun g hg ↦ Iff.rfl, fun g hg ↦ update_of_ne hg _ _⟩
    simp only [pool, update_self]
    omega
  · refine ⟨hex, ?_, fun h _ ↦ absurd h h₅, fun g hg ↦ ?_, fun g hg ↦ update_of_ne hg _ _⟩
    · simp only [pool, update_self]
      omega
    · rw [live_iff, live_iff]
      simp only [update_of_ne hg]

theorem pmmRetainPage_some {s s' : Pmm} {f : ℕ} (h : s.pmmRetainPage (f * pageSize) = some s') :
    s.pool.live f ∧ ¬ s.pool.exempt f ∧ s'.reservedState = s.reservedState ∧ s'.hhdm = s.hhdm ∧
      s.pool.Retains s'.pool f := by
  simp only [pmmRetainPage, pageOf_mul, mul_div_pageSize] at h
  split_ifs at h with h₁ h₂ h₃ h₄
  all_goals
    cases h
    have hlt : f * pageSize < pmmTrackLimit := by
      by_contra hc
      exact h₁ (.inr (.inr (.inl (not_lt.1 hc))))
    have hal : s.pageState f = true := by
      simpa [pageIsAllocated, tracked, hlt, mul_div_pageSize] using h₂
    have hnr : ¬ s.pool.exempt f := by
      rintro (hc | hc)
      · exact h₁ (.inr (.inr (.inr hc)))
      · exact h₁ (.inr (.inr (.inl hc)))
    refine ⟨(live_iff s f).2 ⟨hlt, hal⟩, hnr, rfl, rfl, pool_exempt_eq rfl, rfl, ?_,
      fun g hg ↦ update_of_ne hg _ _⟩
    simp only [pool, update_self]
    omega

end Pmm

end YabroOS.Memory
