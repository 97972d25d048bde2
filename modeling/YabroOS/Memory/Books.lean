import YabroOS.Memory.PmmAccounting
import YabroOS.Memory.Vmm

namespace YabroOS.Memory

open Lib Function

namespace Pmm

variable {p p' p'' : Pmm} {f g : ℕ} {N : Multiset ℕ}

/-- The allocator between two calls: the accounts of its regions are right, and nothing outside them
is in use but what is reserved. -/
structure Ok (p : Pmm) : Prop where
  inv : ∃ l t, PmmState.Inv ⟨p, l, t⟩
  outside : ∀ f, p.pageState f = true → p.reservedState f = false → f ∈ p.frames
  word : ∀ f, p.pageRefs f ≤ 0xFFFF

/-- What no call but a reservation changes. -/
structure Fixed (p p' : Pmm) : Prop where
  frames : p'.frames = p.frames
  hhdm : p'.hhdm = p.hhdm
  ready : p'.ready = p.ready
  reserved : p'.reservedState = p.reservedState

theorem Fixed.refl (p : Pmm) : p.Fixed p := ⟨rfl, rfl, rfl, rfl⟩

theorem Fixed.trans (h : p.Fixed p') (h' : p'.Fixed p'') : p.Fixed p'' :=
  ⟨h'.frames.trans h.frames, h'.hhdm.trans h.hhdm, h'.ready.trans h.ready,
    h'.reserved.trans h.reserved⟩

theorem Fixed.table (h : p.Fixed p') (f : ℕ) : p'.table f = p.table f := table_congr h.hhdm f

theorem Fixed.isReserved (h : p.Fixed p') (a : ℕ) : p'.isReserved a = p.isReserved a := by
  simp only [Pmm.isReserved, h.reserved]

/-- The same accounts: only the cursors of the search may differ. -/
structure Agrees (p p' : Pmm) : Prop extends p.Fixed p' where
  pageState : p'.pageState = p.pageState
  pageRefs : p'.pageRefs = p.pageRefs
  freePages : p'.freePages = p.freePages

structure Holding (p : Pmm) (N : Multiset ℕ) (p' : Pmm) : Prop extends p.Fixed p' where
  inv : ∃ l t, PmmState.Inv ⟨p', l, t⟩
  nodup : N.Nodup
  free : ∀ f ∈ N, f ∈ p.frames ∧ p.reservedState f = false ∧ p.pageState f = false ∧ p.pageRefs f = 0
  pageState : ∀ f, p'.pageState f = (p.pageState f || decide (f ∈ N))
  pageRefs : ∀ f, p'.pageRefs f = p.pageRefs f + N.count f
  freePages : p'.freePages + N.card = p.freePages

theorem Ok.holding (h : p.Ok) : p.Holding 0 p where
  toFixed := .refl p
  inv := h.inv
  nodup := Multiset.nodup_zero
  free := nofun
  pageState f := by simp
  pageRefs f := by simp
  freePages := by simp

theorem Holding.ok (h : p.Holding N p') (hp : p.Ok) : p'.Ok := by
  refine ⟨h.inv, fun f hst hres ↦ ?_, fun f ↦ ?_⟩
  · rw [h.frames]
    rw [h.reserved] at hres
    rw [h.pageState f, Bool.or_eq_true, decide_eq_true_eq] at hst
    obtain hst | hst := hst
    · exact hp.outside f hst hres
    · exact (h.free f hst).1
  · have hword := hp.word f
    rw [h.pageRefs f]
    by_cases hf : f ∈ N
    · rw [(h.free f hf).2.2.2, Multiset.count_eq_one_of_mem h.nodup hf]
      decide
    · rw [Multiset.count_eq_zero_of_notMem hf]
      exact hword

theorem Holding.agrees (h : p.Holding 0 p') : p.Agrees p' where
  toFixed := h.toFixed
  pageState := by
    funext f
    simp [h.pageState f]
  pageRefs := by
    funext f
    simp [h.pageRefs f]
  freePages := by simpa using h.freePages

theorem refs_of_clear {l : List ℕ} {t : ℕ} (h : PmmState.Inv ⟨p, l, t⟩) (hf : f ∈ p.frames)
    (hc : p.pageState f = false) : p.pageRefs f = 0 := by
  have hres : p.reservedState f = false := h.toSound.unreserved hf hc
  have hiff := h.refs f hf hres
  have hno : ¬ 1 ≤ p.pageRefs f := fun hle ↦ by
    rw [hiff.2 hle] at hc
    cases hc
  omega

theorem Holding.alloc_none (h : p.Holding N p') (ha : p'.pmmAllocPage = (p'', none)) :
    p.Holding N p'' := by
  obtain ⟨l, t, hinv⟩ := h.inv
  have hinv' := hinv.allocPage
  obtain ⟨rs, hfr, -, -, ⟨hcase, -⟩ | ⟨g, -, -, hcase⟩⟩ :=
    PmmState.alloc_cases (s := ⟨p', l, t⟩) hinv.region
  · rw [hcase] at hinv'
    rw [ha] at hcase
    cases hcase
    exact ⟨⟨hfr.trans h.frames, h.hhdm, h.ready, h.reserved⟩, ⟨l, t, hinv'⟩, h.nodup, h.free,
      h.pageState, h.pageRefs, h.freePages⟩
  · rw [ha] at hcase
    cases hcase

theorem Holding.alloc_some (h : p.Holding N p') (ha : p'.pmmAllocPage = (p'', some f)) :
    p.Holding (f ::ₘ N) p'' := by
  obtain ⟨l, t, hinv⟩ := h.inv
  have hinv' := hinv.allocPage
  obtain ⟨rs, hfr, -, -, ⟨hcase, -⟩ | ⟨g, hg, hav, hcase⟩⟩ :=
    PmmState.alloc_cases (s := ⟨p', l, t⟩) hinv.region
  · rw [ha] at hcase
    cases hcase
  · rw [hcase] at hinv'
    rw [ha] at hcase
    cases hcase
    have hclear : p'.pageState f = false := (hinv.toSound.available_iff hg).1 hav
    have hres : p'.reservedState f = false := hinv.toSound.unreserved hg hclear
    have hrefs : p'.pageRefs f = 0 := refs_of_clear hinv hg hclear
    have hboth := h.pageState f
    rw [hclear, eq_comm, Bool.or_eq_false_iff, decide_eq_false_iff_not] at hboth
    have hzero := h.pageRefs f
    have hpos : 0 < p'.freePages := by
      rw [show p'.freePages = _ from hinv.free]
      exact Finset.card_pos.2 ⟨f, mem_clearIn.2 ⟨hg, hclear⟩⟩
    refine ⟨⟨hfr.trans h.frames, h.hhdm, h.ready, h.reserved⟩, ⟨l, t, hinv'⟩,
      Multiset.nodup_cons.2 ⟨hboth.2, h.nodup⟩, ?_, ?_, ?_, ?_⟩
    · intro g hg'
      obtain rfl | hg' := Multiset.mem_cons.1 hg'
      · refine ⟨by rw [← h.frames]; exact hg, by rw [← h.reserved]; exact hres, hboth.1, by omega⟩
      · exact h.free g hg'
    · intro g
      by_cases hgf : g = f
      · subst hgf
        simp
      · simp [h.pageState g, hgf]
    · intro g
      dsimp only
      by_cases hgf : g = f
      · subst hgf
        rw [update_self, Multiset.count_cons_self]
        omega
      · rw [update_of_ne hgf, h.pageRefs g, Multiset.count_cons_of_ne hgf]
    · have hcard := h.freePages
      rw [Multiset.card_cons]
      dsimp only
      omega

theorem Holding.free_page (h : p.Holding (f ::ₘ N) p') :
    p.Holding N (p'.pmmFreePage (f * pageSize)) := by
  obtain ⟨l, t, hinv⟩ := h.inv
  have hinv' := hinv.freePage (f * pageSize)
  obtain ⟨hf, hres, hclear, hzero⟩ := h.free f (Multiset.mem_cons_self f N)
  have hnot := (Multiset.nodup_cons.1 h.nodup).1
  have hset := h.pageState f
  have hone := h.pageRefs f
  rw [Multiset.count_cons_self, Multiset.count_eq_zero_of_notMem hnot, hzero] at hone
  have hcases := hinv.toSound.free_cases (f * pageSize)
  simp only [mul_div_pageSize] at hcases
  obtain ⟨-, hbad⟩ | ⟨-, -, -, ⟨hmany, -⟩ | ⟨-, hcase⟩⟩ := hcases
  · obtain hbad | hbad | hbad := hbad
    · exact absurd
        (by rw [show (PmmState.mk p' l t).frames = p'.frames from rfl, h.frames]; exact hf) hbad
    · rw [show (PmmState.mk p' l t).reservedState = p'.reservedState from rfl, h.reserved, hres] at hbad
      cases hbad
    · rw [show (PmmState.mk p' l t).pageState = p'.pageState from rfl, hset] at hbad
      simp at hbad
  · have hmany : 1 < p'.pageRefs f := hmany
    omega
  · rw [hcase] at hinv' ⊢
    refine ⟨⟨h.frames, h.hhdm, h.ready, h.reserved⟩, ⟨l, t, hinv'⟩,
      (Multiset.nodup_cons.1 h.nodup).2, fun g hg ↦ h.free g (Multiset.mem_cons_of_mem hg),
      ?_, ?_, ?_⟩
    · intro g
      by_cases hgf : g = f
      · subst hgf
        simp [hclear, hnot]
      · simp [h.pageState g, hgf]
    · intro g
      dsimp only
      by_cases hgf : g = f
      · subst hgf
        rw [update_self, hzero, Multiset.count_eq_zero_of_notMem hnot]
      · rw [update_of_ne hgf, h.pageRefs g, Multiset.count_cons_of_ne hgf]
    · have hcard := h.freePages
      rw [Multiset.card_cons] at hcard
      dsimp only
      omega

theorem Holding.allocTable_some (h : p.Holding N p') (ha : p'.allocTable = (p'', some f)) :
    p.Holding (f ::ₘ N) p'' ∧ p.table f = true := by
  simp only [allocTable] at ha
  split at ha
  · cases ha
  · next q g hq =>
    have hg := h.alloc_some hq
    split_ifs at ha with htab
    · cases ha
      exact ⟨hg, by rw [← hg.toFixed.table]; exact htab⟩
    · cases ha

theorem Holding.allocTable_none (h : p.Holding N p') (ha : p'.allocTable = (p'', none)) :
    p.Holding N p'' := by
  simp only [allocTable] at ha
  split at ha
  · next q hq =>
    cases ha
    exact h.alloc_none hq
  · next q g hq =>
    split_ifs at ha
    · cases ha
    · cases ha
      exact (h.alloc_some hq).free_page

theorem Holding.alloc_isSome (h : p.Holding N p') (hfree : N.card < p.freePages) :
    ∃ q f, p'.pmmAllocPage = (q, some f) := by
  obtain ⟨l, t, hinv⟩ := h.inv
  have hcard := h.freePages
  cases ha : p'.pmmAllocPage with
  | mk q r =>
    cases r with
    | none =>
      have hnone := (PmmState.Inv.alloc_none_iff (s := ⟨p', l, t⟩) hinv).1 (by
        dsimp only
        rw [ha])
      have hnone : p'.freePages = 0 := hnone
      omega
    | some f => exact ⟨q, f, rfl⟩

def retains (p : Pmm) (m : Multiset ℕ) : Pmm :=
  { p with pageRefs := fun f ↦ p.pageRefs f + m.count f }

theorem retains_zero (p : Pmm) : p.retains 0 = p := by simp [retains]

theorem retains_retains (p : Pmm) (m m' : Multiset ℕ) :
    (p.retains m).retains m' = p.retains (m + m') := by
  simp [retains, add_assoc]

def Taken (p : Pmm) (f : ℕ) : Prop :=
  p.ready = true ∧ f ≠ 0 ∧ f * pageSize < pmmTrackLimit ∧ p.isReserved (f * pageSize) = false ∧
    p.pageState f = true

theorem retain_some_iff : p.pmmRetainPage (f * pageSize) = some p' ↔
    p.Taken f ∧ p.pageRefs f ≠ 0xFFFF ∧ p' = p.retains {f} := by
  have hps : pageSize ≠ 0 := by decide
  have hret : p.retains {f} = { p with pageRefs := update p.pageRefs f (p.pageRefs f + 1) } := by
    unfold retains
    congr 1
    funext g
    by_cases hgf : g = f
    · subst hgf
      simp
    · simp [hgf]
  unfold pmmRetainPage Taken
  simp only [pageOf_mul, mul_div_pageSize, Nat.mul_eq_zero, hps, or_false, hret]
  by_cases h₁ : p.ready = false ∨ f = 0 ∨ pmmTrackLimit ≤ f * pageSize ∨
    p.isReserved (f * pageSize) = true
  · rw [if_pos h₁]
    refine iff_of_false nofun ?_
    rintro ⟨⟨hready, hf, hlt, hres, -⟩, -⟩
    obtain h₁ | h₁ | h₁ | h₁ := h₁
    · rw [hready] at h₁
      cases h₁
    · exact hf h₁
    · omega
    · rw [hres] at h₁
      cases h₁
  rw [if_neg h₁]
  simp only [not_or, Bool.not_eq_false, not_le, Bool.not_eq_true] at h₁
  obtain ⟨hready, hf, hlt, hres⟩ := h₁
  have hal : p.pageIsAllocated (f * pageSize) = p.pageState f := by
    simp [pageIsAllocated, tracked, hlt, mul_div_pageSize]
  rw [hal]
  by_cases hst : p.pageState f = false
  · rw [if_pos hst]
    refine iff_of_false nofun ?_
    rintro ⟨⟨-, -, -, -, htrue⟩, -⟩
    rw [hst] at htrue
    cases htrue
  rw [if_neg hst]
  have htaken : p.ready = true ∧ f ≠ 0 ∧ f * pageSize < pmmTrackLimit ∧ p.isReserved
      (f * pageSize) = false ∧ p.pageState f = true := ⟨hready, hf, hlt, hres, by simpa using hst⟩
  by_cases hfull : p.pageRefs f = 0xFFFF
  · rw [if_pos hfull]
    exact iff_of_false nofun (fun h ↦ h.2.1 hfull)
  rw [if_neg hfull]
  have hend : (if p.pageRefs f = 0 then some { p with pageRefs := update p.pageRefs f 1 }
      else some { p with pageRefs := update p.pageRefs f (p.pageRefs f + 1) }) =
      some { p with pageRefs := update p.pageRefs f (p.pageRefs f + 1) } := by
    split_ifs with hzero
    · rw [hzero]
    · rfl
  rw [hend]
  exact ⟨fun h ↦ ⟨htaken, hfull, (Option.some.inj h).symm⟩, fun h ↦ congrArg some h.2.2.symm⟩

theorem Fixed.retains (p : Pmm) (m : Multiset ℕ) : p.Fixed (p.retains m) := ⟨rfl, rfl, rfl, rfl⟩

theorem update_le {c : ℕ → ℕ} {a v b : ℕ} (h : ∀ f, c f ≤ b) (hv : v ≤ b) (f : ℕ) :
    update c a v f ≤ b := by
  by_cases hf : f = a
  · subst hf
    rwa [update_self]
  · rw [update_of_ne hf]
    exact h f

theorem Ok.retain {addr : ℕ} (h : p.Ok) (hr : p.pmmRetainPage addr = some p') : p'.Ok := by
  obtain ⟨l, t, hinv⟩ := h.inv
  have hinv' := hinv.retainPage (s := ⟨p, l, t⟩) hr
  obtain ⟨-, hfull, rfl⟩ := PmmState.retain_some (s := ⟨p, l, t⟩) hr
  have hword := h.word (addr / pageSize)
  exact ⟨⟨l, t, hinv'⟩, h.outside, update_le h.word (lt_of_le_of_ne hword hfull)⟩

theorem Ok.free_shared (h : p.Ok) (hf : f ∈ p.frames) (hres : p.reservedState f = false)
    (hst : p.pageState f = true) (hmany : 1 < p.pageRefs f) :
    p.pmmFreePage
    (f * pageSize) = { p with pageRefs := update p.pageRefs f (p.pageRefs f - 1) } := by
  obtain ⟨l, t, hinv⟩ := h.inv
  have hcases := hinv.toSound.free_cases (s := ⟨p, l, t⟩) (f * pageSize)
  simp only [mul_div_pageSize] at hcases
  obtain ⟨-, hbad | hbad | hbad⟩ | ⟨-, -, -, ⟨-, hcase⟩ | ⟨hfew, -⟩⟩ := hcases
  · exact absurd hf hbad
  · rw [hres] at hbad
    cases hbad
  · rw [hst] at hbad
    cases hbad
  · exact hcase
  · omega

theorem Ok.retain_free (h : p.Ok) (hr : p.pmmRetainPage (f * pageSize) = some p') :
    p'.pmmFreePage (f * pageSize) = p := by
  have h' := h.retain hr
  obtain ⟨⟨hready, hf, hlt, hres, hst⟩, hfull, rfl⟩ := retain_some_iff.1 hr
  obtain ⟨l, t, hinv⟩ := h.inv
  have hres' : p.reservedState f = false := by
    simpa [isReserved, pageOf_mul, tracked, hlt, mul_div_pageSize] using hres
  have hin := h.outside f hst hres'
  have hone : 1 ≤ p.pageRefs f := (hinv.refs f hin hres').1 hst
  have hrefs : (p.retains {f}).pageRefs f = p.pageRefs f + 1 := by simp [Pmm.retains]
  rw [h'.free_shared hin hres' hst (by omega), hrefs]
  have hback : update (p.retains {f}).pageRefs f (p.pageRefs f + 1 - 1) = p.pageRefs := by
    funext g
    by_cases hgf : g = f
    · subst hgf
      rw [update_self]
      omega
    · rw [update_of_ne hgf]
      simp [Pmm.retains, hgf]
  rw [hback]
  rfl

end Pmm

end YabroOS.Memory
