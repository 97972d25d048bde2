import Mathlib.Data.Multiset.AddSub
import Mathlib.Data.Multiset.Count
import Mathlib.Data.Multiset.MapFold

namespace YabroOS.Lib

variable {F : Type}

/-- A pool of counted resources. Exempt resources are outside the accounting. -/
structure Pool (F : Type) where
  live : F → Prop
  refs : F → ℕ
  exempt : F → Prop

namespace Pool

structure Allocates (p p' : Pool F) (f : F) : Prop where
  exempt : p'.exempt = p.exempt
  counted : ¬ p.exempt f
  dead : ¬ p.live f
  live : p'.live f
  refs : 1 ≤ p'.refs f
  live_of_ne : ∀ g, g ≠ f → (p'.live g ↔ p.live g)
  refs_of_ne : ∀ g, g ≠ f → p'.refs g = p.refs g

/-- At most one reference is dropped, and a resource with another reference stays live. -/
structure Releases (p p' : Pool F) (f : F) : Prop where
  exempt : p'.exempt = p.exempt
  refs : p.refs f ≤ p'.refs f + 1
  live : 1 < p.refs f → p.live f → p'.live f
  live_of_ne : ∀ g, g ≠ f → (p'.live g ↔ p.live g)
  refs_of_ne : ∀ g, g ≠ f → p'.refs g = p.refs g

structure Retains (p p' : Pool F) (f : F) : Prop where
  exempt : p'.exempt = p.exempt
  live : p'.live = p.live
  refs : p.refs f + 1 ≤ p'.refs f
  refs_of_ne : ∀ g, g ≠ f → p'.refs g = p.refs g

/-- The second pool knows every live resource of the first, with at least its references. -/
structure Le (p p' : Pool F) : Prop where
  exempt : p'.exempt = p.exempt
  live : ∀ f, p.live f → p'.live f
  refs : ∀ f, p.refs f ≤ p'.refs f

theorem Retains.releases {p p₁ p₂ : Pool F} {f : F} (hr : Retains p p₁ f) (hf : Releases p₁ p₂ f)
    (h1 : 1 ≤ p.refs f) : Le p p₂ := by
  have hrefs := hr.refs
  have hrel := hf.refs
  refine ⟨hf.exempt.trans hr.exempt, fun g hg ↦ ?_, fun g ↦ ?_⟩
  · rw [← hr.live] at hg
    by_cases hgf : g = f
    · subst hgf
      exact hf.live (by omega) hg
    · exact (hf.live_of_ne g hgf).2 hg
  · by_cases hgf : g = f
    · subst hgf
      omega
    · rw [hf.refs_of_ne g hgf, hr.refs_of_ne g hgf]

theorem Releases.refl (p : Pool F) (f : F) : Releases p p f :=
  ⟨rfl, by omega, fun _ h ↦ h, fun _ _ ↦ Iff.rfl, fun _ _ ↦ rfl⟩

variable [DecidableEq F] {p p' : Pool F} {m n : Multiset F} {f : F}

/-- Every use of a counted resource is covered by a reference of a live one. -/
def Backed (p : Pool F) (m : Multiset F) : Prop :=
  ∀ f ∈ m, ¬ p.exempt f → p.live f ∧ m.count f ≤ p.refs f

theorem Backed.mono (h : Backed p m) (hle : n ≤ m) : Backed p n := by
  intro f hf he
  obtain ⟨hlive, hc⟩ := h f (Multiset.mem_of_le hle hf) he
  exact ⟨hlive, (Multiset.count_le_of_le f hle).trans hc⟩

theorem Backed.of_le (h : Backed p m) (hle : Le p p') : Backed p' m := by
  intro f hf he
  obtain ⟨hlive, hc⟩ := h f hf (hle.exempt ▸ he)
  exact ⟨hle.live f hlive, hc.trans (hle.refs f)⟩

theorem Backed.not_mem (h : Backed p m) (ha : Allocates p p' f) : f ∉ m :=
  fun hf ↦ ha.dead (h f hf ha.counted).1

theorem Backed.alloc (h : Backed p m) (ha : Allocates p p' f) : Backed p' (f ::ₘ m) := by
  intro g hg he
  by_cases hgf : g = f
  · subst hgf
    refine ⟨ha.live, ?_⟩
    rw [Multiset.count_cons_self, Multiset.count_eq_zero_of_notMem (h.not_mem ha)]
    exact ha.refs
  · have hm : g ∈ m := (Multiset.mem_cons.1 hg).resolve_left hgf
    rw [ha.exempt] at he
    obtain ⟨hlive, hc⟩ := h g hm he
    rw [Multiset.count_cons_of_ne hgf, ha.refs_of_ne g hgf]
    exact ⟨(ha.live_of_ne g hgf).2 hlive, hc⟩

theorem Backed.release (h : Backed p (f ::ₘ m)) (hr : Releases p p' f) : Backed p' m := by
  intro g hg he
  rw [hr.exempt] at he
  obtain ⟨hlive, hc⟩ := h g (Multiset.mem_cons_of_mem hg) he
  by_cases hgf : g = f
  · subst hgf
    rw [Multiset.count_cons_self] at hc
    have hpos : 0 < m.count g := Multiset.count_pos.2 hg
    have hrefs := hr.refs
    exact ⟨hr.live (by omega) hlive, by omega⟩
  · rw [Multiset.count_cons_of_ne hgf] at hc
    rw [hr.refs_of_ne g hgf]
    exact ⟨(hr.live_of_ne g hgf).2 hlive, hc⟩

theorem Backed.retain (h : Backed p m) (hf : f ∈ m) (hr : Retains p p' f) :
    Backed p' (f ::ₘ m) := by
  intro g hg he
  rw [hr.exempt] at he
  have hm : g ∈ m := (Multiset.mem_cons.1 hg).elim (fun e ↦ e ▸ hf) id
  obtain ⟨hlive, hc⟩ := h g hm he
  refine ⟨hr.live ▸ hlive, ?_⟩
  by_cases hgf : g = f
  · subst hgf
    have := hr.refs
    rw [Multiset.count_cons_self]
    omega
  · rw [Multiset.count_cons_of_ne hgf, hr.refs_of_ne g hgf]
    exact hc

theorem Backed.exempt_cons (h : Backed p m) (he : p.exempt f) : Backed p (f ::ₘ m) := by
  intro g hg hge
  have hgf : g ≠ f := fun e ↦ hge (e ▸ he)
  rw [Multiset.count_cons_of_ne hgf]
  exact h g ((Multiset.mem_cons.1 hg).resolve_left hgf) hge

end Pool

/-- How a resource is used: with others, alone unless it is exempt, or alone and never exempt. -/
inductive Mode
  | shared
  | sole
  | pinned
  deriving DecidableEq

/-- Claims on the resources of a pool: each is backed by a reference, and a
resource that is not claimed in shared mode is claimed once. -/
structure Sound [DecidableEq F] (p : Pool F) (u : Multiset (F × Mode)) : Prop where
  backed : p.Backed (u.map Prod.fst)
  alone : ∀ f k, (f, k) ∈ u → k ≠ .shared → ¬ p.exempt f → (u.map Prod.fst).count f = 1
  pinned : ∀ f, (f, .pinned) ∈ u → ¬ p.exempt f

namespace Sound

variable [DecidableEq F] {p p' : Pool F} {u v : Multiset (F × Mode)} {f : F} {k k' : Mode}

omit [DecidableEq F] in
theorem mem_map (h : (f, k) ∈ u) : f ∈ u.map Prod.fst := Multiset.mem_map.2 ⟨_, h, rfl⟩

theorem count_pos (h : (f, k) ∈ u) : 0 < (u.map Prod.fst).count f :=
  Multiset.count_pos.2 (mem_map h)

theorem mono (h : Sound p u) (hle : v ≤ u) : Sound p v where
  backed := h.backed.mono (Multiset.map_le_map hle)
  alone f k hf hk he := by
    have hc := h.alone f k (Multiset.mem_of_le hle hf) hk he
    have hle' := Multiset.count_le_of_le f (Multiset.map_le_map (f := Prod.fst) hle)
    have := count_pos hf
    omega
  pinned f hf := h.pinned f (Multiset.mem_of_le hle hf)

theorem of_le (h : Sound p u) (hle : p.Le p') : Sound p' u where
  backed := h.backed.of_le hle
  alone f k hf hk he := h.alone f k hf hk (hle.exempt ▸ he)
  pinned f hf := by
    rw [hle.exempt]
    exact h.pinned f hf

theorem not_mem (h : Sound p u) (ha : p.Allocates p' f) : f ∉ u.map Prod.fst := h.backed.not_mem ha

theorem alloc (h : Sound p u) (ha : p.Allocates p' f) (k : Mode) : Sound p' ((f, k) ::ₘ u) where
  backed := by simpa using h.backed.alloc ha
  alone g k' hg hk he := by
    rw [Multiset.map_cons]
    rcases Multiset.mem_cons.1 hg with hg | hg
    · cases hg
      rw [Multiset.count_cons_self, Multiset.count_eq_zero_of_notMem (h.not_mem ha)]
    · have hgf : g ≠ f := fun e ↦ h.not_mem ha (e ▸ mem_map hg)
      rw [Multiset.count_cons_of_ne hgf]
      exact h.alone g k' hg hk (ha.exempt ▸ he)
  pinned g hg := by
    rw [ha.exempt]
    rcases Multiset.mem_cons.1 hg with hg | hg
    · cases hg
      exact ha.counted
    · exact h.pinned g hg

theorem release (h : Sound p ((f, k) ::ₘ u)) (hr : p.Releases p' f) : Sound p' u where
  backed := by
    have hb := h.backed
    rw [Multiset.map_cons] at hb
    exact hb.release hr
  alone g k' hg hk he := (h.mono (Multiset.le_cons_self u _)).alone g k' hg hk (hr.exempt ▸ he)
  pinned g hg := by
    rw [hr.exempt]
    exact h.pinned g (Multiset.mem_cons_of_mem hg)

theorem share (h : Sound p ((f, k) ::ₘ u)) : Sound p ((f, .shared) ::ₘ u) where
  backed := by simpa using h.backed
  alone g k' hg hk he := by
    rcases Multiset.mem_cons.1 hg with hg | hg
    · cases hg
      exact absurd rfl hk
    · simpa using h.alone g k' (Multiset.mem_cons_of_mem hg) hk he
  pinned g hg := by
    rcases Multiset.mem_cons.1 hg with hg | hg
    · cases hg
    · exact h.pinned g (Multiset.mem_cons_of_mem hg)

theorem retain (h : Sound p ((f, .shared) ::ₘ u)) (hr : p.Retains p' f) :
    Sound p' ((f, .shared) ::ₘ (f, .shared) ::ₘ u) where
  backed := by
    have hb := h.backed.retain (mem_map (Multiset.mem_cons_self _ u)) hr
    simpa using hb
  alone g k' hg hk hge := by
    rw [hr.exempt] at hge
    have hg' : (g, k') ∈ u := by
      rcases Multiset.mem_cons.1 hg with hg | hg
      · cases hg; exact absurd rfl hk
      · rcases Multiset.mem_cons.1 hg with hg | hg
        · cases hg; exact absurd rfl hk
        · exact hg
    have hc := h.alone g k' (Multiset.mem_cons_of_mem hg') hk hge
    have hpos := count_pos hg'
    rw [Multiset.map_cons] at hc ⊢
    by_cases hgf : g = f
    · subst hgf
      rw [Multiset.count_cons_self] at hc
      omega
    · rw [Multiset.map_cons, Multiset.count_cons_of_ne hgf]
      exact hc
  pinned g hg := by
    rw [hr.exempt]
    rcases Multiset.mem_cons.1 hg with hg | hg
    · cases hg
    · exact h.pinned g hg

theorem promote (h : Sound p ((f, .shared) ::ₘ u)) (hr : p.refs f ≤ 1) :
    Sound p ((f, .sole) ::ₘ u) where
  backed := by simpa using h.backed
  alone g k hg hk he := by
    rcases Multiset.mem_cons.1 hg with hg | hg
    · cases hg
      have hc := (h.backed f (by simp) he).2
      have hpos := count_pos (Multiset.mem_cons_self (f, Mode.sole) u)
      rw [Multiset.map_cons] at hc hpos ⊢
      simp only at hc hpos ⊢
      omega
    · simpa using h.alone g k (Multiset.mem_cons_of_mem hg) hk he
  pinned g hg := by
    rcases Multiset.mem_cons.1 hg with hg | hg
    · cases hg
    · exact h.pinned g (Multiset.mem_cons_of_mem hg)

theorem promote_of_not_mem (h : Sound p ((f, k) ::ₘ u)) (hf : f ∉ u.map Prod.fst) :
    Sound p ((f, .sole) ::ₘ u) where
  backed := by simpa using h.backed
  alone g k hg hk he := by
    rcases Multiset.mem_cons.1 hg with hg | hg
    · cases hg
      rw [Multiset.map_cons, Multiset.count_cons_self, Multiset.count_eq_zero_of_notMem hf]
    · simpa using h.alone g k (Multiset.mem_cons_of_mem hg) hk he
  pinned g hg := by
    rcases Multiset.mem_cons.1 hg with hg | hg
    · cases hg
    · exact h.pinned g (Multiset.mem_cons_of_mem hg)

theorem exempt_cons (h : Sound p u) (he : p.exempt f) (hk : k ≠ .pinned) :
    Sound p ((f, k) ::ₘ u) where
  backed := by simpa using h.backed.exempt_cons he
  alone g k' hg hk' hge := by
    have hgf : g ≠ f := fun e ↦ hge (e ▸ he)
    have hg' : (g, k') ∈ u :=
      (Multiset.mem_cons.1 hg).resolve_left (fun e ↦ hgf (congrArg Prod.fst e))
    rw [Multiset.map_cons, Multiset.count_cons_of_ne hgf]
    exact h.alone g k' hg' hk' hge
  pinned g hg := by
    rcases Multiset.mem_cons.1 hg with hg | hg
    · cases hg
      exact absurd rfl hk
    · exact h.pinned g hg

theorem not_mem_of_alone (h : Sound p ((f, k) ::ₘ u)) (hk : k ≠ .shared) (he : ¬ p.exempt f) :
    f ∉ u.map Prod.fst := by
  have hc := h.alone f k (Multiset.mem_cons_self _ _) hk he
  rw [Multiset.map_cons, Multiset.count_cons_self] at hc
  exact Multiset.count_eq_zero.1 (by omega)

end Sound

structure Account (F : Type) [DecidableEq F] where
  Holds : Pool F → Multiset (F × Mode) → Prop
  holds_mono : ∀ {p u v}, Holds p u → v ≤ u → Holds p v
  holds_of_le : ∀ {p p' u}, Holds p u → p.Le p' → Holds p' u
  holds_alloc : ∀ {p p' u f}, Holds p u → p.Allocates p' f → ∀ k, Holds p' ((f, k) ::ₘ u)
  holds_release : ∀ {p p' u f k}, Holds p ((f, k) ::ₘ u) → p.Releases p' f → Holds p' u
  holds_share : ∀ {p u f k}, Holds p ((f, k) ::ₘ u) → Holds p ((f, .shared) ::ₘ u)
  holds_retain : ∀ {p p' u f}, Holds p ((f, .shared) ::ₘ u) → p.Retains p' f →
    Holds p' ((f, .shared) ::ₘ (f, .shared) ::ₘ u)
  holds_promote : ∀ {p u f}, Holds p ((f, .shared) ::ₘ u) → p.refs f ≤ 1 → Holds p ((f, .sole) ::ₘ u)
  holds_exempt_cons : ∀ {p u f k}, Holds p u → p.exempt f → k ≠ .pinned → Holds p ((f, k) ::ₘ u)
  holds_backed : ∀ {p u}, Holds p u → p.Backed (u.map Prod.fst)

namespace Account

variable [DecidableEq F] {A : Account F} {p p' : Pool F} {u v : Multiset (F × Mode)} {f : F}
    {k : Mode}

def sound (F : Type) [DecidableEq F] : Account F where
  Holds := Sound
  holds_mono := Sound.mono
  holds_of_le := Sound.of_le
  holds_alloc := Sound.alloc
  holds_release := Sound.release
  holds_share := Sound.share
  holds_retain := Sound.retain
  holds_promote := Sound.promote
  holds_exempt_cons := Sound.exempt_cons
  holds_backed := Sound.backed

/-- Each claim has a reference, in whatever mode it is made, and the resources of a set are exempt.
-/
def backed (R : F → Prop) : Account F where
  Holds p u := p.Backed (u.map Prod.fst) ∧ ∀ f, R f → p.exempt f
  holds_mono h hle := ⟨h.1.mono (Multiset.map_le_map hle), h.2⟩
  holds_of_le h hle := ⟨h.1.of_le hle, fun f hf ↦ hle.exempt ▸ h.2 f hf⟩
  holds_alloc h ha _ := ⟨by simpa using h.1.alloc ha, fun f hf ↦ ha.exempt ▸ h.2 f hf⟩
  holds_release h hr := by
    obtain ⟨hb, he⟩ := h
    rw [Multiset.map_cons] at hb
    exact ⟨hb.release hr, fun f hf ↦ hr.exempt ▸ he f hf⟩
  holds_share h := by simpa using h
  holds_retain h hr := by
    have hb := h.1.retain (Sound.mem_map (Multiset.mem_cons_self _ _)) hr
    exact ⟨by simpa using hb, fun f hf ↦ hr.exempt ▸ h.2 f hf⟩
  holds_promote h _ := by simpa using h
  holds_exempt_cons h he _ := ⟨by simpa using h.1.exempt_cons he, h.2⟩
  holds_backed h := h.1

namespace Holds

theorem mono (h : A.Holds p u) (hle : v ≤ u) : A.Holds p v := A.holds_mono h hle

theorem of_le (h : A.Holds p u) (hle : p.Le p') : A.Holds p' u := A.holds_of_le h hle

theorem alloc (h : A.Holds p u) (ha : p.Allocates p' f) (k : Mode) : A.Holds p' ((f, k) ::ₘ u) :=
  A.holds_alloc h ha k

theorem release (h : A.Holds p ((f, k) ::ₘ u)) (hr : p.Releases p' f) : A.Holds p' u :=
  A.holds_release h hr

theorem share (h : A.Holds p ((f, k) ::ₘ u)) : A.Holds p ((f, .shared) ::ₘ u) := A.holds_share h

theorem retain (h : A.Holds p ((f, .shared) ::ₘ u)) (hr : p.Retains p' f) :
    A.Holds p' ((f, .shared) ::ₘ (f, .shared) ::ₘ u) := A.holds_retain h hr

theorem promote (h : A.Holds p ((f, .shared) ::ₘ u)) (hr : p.refs f ≤ 1) :
    A.Holds p ((f, .sole) ::ₘ u) :=
  A.holds_promote h hr

theorem exempt_cons (h : A.Holds p u) (he : p.exempt f) (hk : k ≠ .pinned) :
    A.Holds p ((f, k) ::ₘ u) :=
  A.holds_exempt_cons h he hk

theorem backed (h : A.Holds p u) : p.Backed (u.map Prod.fst) := A.holds_backed h

theorem not_mem (h : A.Holds p u) (ha : p.Allocates p' f) : f ∉ u.map Prod.fst :=
  h.backed.not_mem ha

end Holds

def beside (A : Account F) (w : Multiset (F × Mode)) : Account F where
  Holds p u := A.Holds p (w + u)
  holds_mono h hle := h.mono (Multiset.add_le_add_left hle)
  holds_of_le h hle := h.of_le hle
  holds_alloc h ha k := by
    rw [Multiset.add_cons]
    exact h.alloc ha k
  holds_release h hr := by
    rw [Multiset.add_cons] at h
    exact h.release hr
  holds_share h := by
    rw [Multiset.add_cons] at h ⊢
    exact h.share
  holds_retain h hr := by
    rw [Multiset.add_cons] at h
    rw [Multiset.add_cons, Multiset.add_cons]
    exact h.retain hr
  holds_promote h hr := by
    rw [Multiset.add_cons] at h ⊢
    exact h.promote hr
  holds_exempt_cons h he hk := by
    rw [Multiset.add_cons]
    exact h.exempt_cons he hk
  holds_backed h := h.backed.mono (Multiset.map_le_map (Multiset.le_add_left _ _))

end Account

end YabroOS.Lib
