import YabroOS.Lib.Slots
import YabroOS.Memory.Pmm
import Mathlib.Algebra.Order.Group.Multiset

namespace YabroOS.Memory

open Lib

def userTop : ℕ := 0x0000800000000000

/-- The bits of an entry. Those without a name here are `low` below bit 12 and `high` from bit 52
on. -/
structure PteFlags where
  w : Bool
  u : Bool
  nx : Bool
  pwt : Bool
  pcd : Bool
  cow : Bool
  low : ℕ
  high : ℕ
  deriving DecidableEq

structure Pte extends PteFlags where
  frame : ℕ
  ps : Bool
  deriving DecidableEq

inductive Entry (α : Type)
  | huge (flags : PteFlags) (frame : ℕ)
  | next (flags : PteFlags) (frame : ℕ) (child : α)

/-- A table of the source's level `n + 1`. Entries without `PTE_P` are the absent slots, and
an entry that points to a table carries that table. -/
@[reducible] def Tab : ℕ → Type
  | 0 => Slots Pte
  | n + 1 => Slots (Entry (Tab n))

def idx (n virt : ℕ) : ℕ := virt / 2 ^ (12 + 9 * n) % 512

def canonicalUser (va : ℕ) : Bool := va < userTop

namespace Pmm

/-- Whether `table` of the source yields a pointer for this frame. -/
def table (s : Pmm) (frame : ℕ) : Bool := frame ≠ 0 ∧ s.physToVirtOk (frame * pageSize)

theorem physToVirtOk_congr {s s' : Pmm} (h : s'.hhdm = s.hhdm) (a : ℕ) :
    s'.physToVirtOk a = s.physToVirtOk a := by
  unfold physToVirtOk
  rw [h]

theorem table_congr {s s' : Pmm} (h : s'.hhdm = s.hhdm) (f : ℕ) : s'.table f = s.table f := by
  unfold table
  rw [physToVirtOk_congr h]

/-- A page for a new table; `none` if there is none or it cannot be addressed. -/
def allocTable (s : Pmm) : Pmm × Option ℕ :=
  match s.pmmAllocPage with
  | (s, none) => (s, none)
  | (s, some f) => if s.table f then (s, some f) else (s.pmmFreePage (f * pageSize), none)

end Pmm

namespace Tab

def empty : (n : ℕ) → Tab n
  | 0 => Slots.empty
  | _ + 1 => Slots.empty

def walk (s : Pmm) : (n : ℕ) → ℕ → Tab n → ℕ → Option Pte
  | 0, frame, t, virt => if s.table frame then Slots.get? t (idx 0 virt) else none
  | n + 1, frame, t, virt =>
    if s.table frame then
      match Slots.get? t (idx (n + 1) virt) with
      | some (.next _ child c) => walk s n child c virt
      | _ => none
    else none

/-- The translation the processor makes: the entry it ends in, which may map a large page, and
the write and user permissions it combines from all levels. -/
def cpuWalk : (n : ℕ) → Tab n → ℕ → Option (Pte × Bool × Bool)
  | 0, t, virt => (Slots.get? t (idx 0 virt)).map (fun e ↦ (e, e.w, e.u))
  | n + 1, t, virt =>
    match Slots.get? t (idx (n + 1) virt) with
    | none => none
    | some (.huge fl f) => some (⟨fl, f + virt / pageSize % 512 ^ (n + 1), true⟩, fl.w, fl.u)
    | some (.next fl _ c) => (cpuWalk n c virt).map (fun r ↦ (r.1, r.2.1 && fl.w, r.2.2 && fl.u))

/-- The write through a leaf pointer; `none` clears the entry. -/
def setLeaf : (n : ℕ) → Tab n → ℕ → Option Pte → Tab n
  | 0, t, virt, some e => Slots.set t (idx 0 virt) e
  | 0, t, virt, none => Slots.erase t (idx 0 virt)
  | n + 1, t, virt, e =>
    match Slots.get? t (idx (n + 1) virt) with
    | some (.next fl f c) => Slots.set t (idx (n + 1) virt) (.next fl f (setLeaf n c virt e))
    | _ => t

def tableFlags : PteFlags := ⟨true, true, false, false, false, false, 0, 0⟩

def newUserTable (s : Pmm) (n : ℕ) : Pmm × Option (PteFlags × ℕ × Tab n) :=
  match s.allocTable with
  | (s, none) => (s, none)
  | (s, some f) => (s, some (tableFlags, f, empty n))

def ensureUserChild (s : Pmm) (n : ℕ) : Option (Entry (Tab n)) → Pmm × Option (PteFlags × ℕ × Tab n)
  | some (.next fl f c) =>
    if s.table f then
      if fl.w && fl.u then (s, some (fl, f, c)) else (s, some (tableFlags, f, c))
    else newUserTable s n
  | _ => newUserTable s n

def mapLeaf : (n : ℕ) → Pmm → Tab n → ℕ → Pte → Pmm × Tab n × Bool
  | 0, s, t, virt, e => (s, Slots.set t (idx 0 virt) e, true)
  | n + 1, s, t, virt, e =>
    match ensureUserChild s n (Slots.get? t (idx (n + 1) virt)) with
    | (s, none) => (s, t, false)
    | (s, some (fl, f, c)) =>
      let (s, c, ok) := mapLeaf n s c virt e
      (s, Slots.set t (idx (n + 1) virt) (.next fl f c), ok)

section Weight

variable {M : Type} [AddCommMonoid M]

def weigh (leaf : Pte → M) (table : ℕ → M) : (n : ℕ) → Tab n → M
  | 0, t => Slots.total (fun _ e ↦ leaf e) t
  | n + 1, t => Slots.total (fun _ e ↦
      match e with
      | .huge fl f => ((List.range (512 ^ (n + 1))).map (fun i ↦ leaf ⟨fl, f + i, true⟩)).sum
      | .next _ f c => table f + weigh leaf table n c) t

def entryWeight (leaf : Pte → M) (table : ℕ → M) (n : ℕ) : Entry (Tab n) → M
  | .huge fl f => ((List.range (512 ^ (n + 1))).map (fun i ↦ leaf ⟨fl, f + i, true⟩)).sum
  | .next _ f c => table f + weigh leaf table n c

variable (leaf leaf' : Pte → M) (table table' : ℕ → M) {n virt : ℕ} {t : Tab n} {e : Pte}

theorem weigh_zero (t : Tab 0) : weigh leaf table 0 t = Slots.total (fun _ e ↦ leaf e) t := rfl

theorem weigh_succ (n : ℕ) (t : Tab (n + 1)) :
    weigh leaf table (n + 1) t = Slots.total (fun _ e ↦ entryWeight leaf table n e) t := by
  refine Slots.total_congr (fun _ e _ ↦ ?_)
  cases e <;> rfl

@[simp] theorem weigh_empty (n : ℕ) : weigh leaf table n (empty n) = 0 := by
  cases n <;> rfl

theorem weigh_add (n : ℕ) (t : Tab n) :
    weigh (fun e ↦ leaf e + leaf' e) (fun f ↦ table f + table' f) n t =
      weigh leaf table n t + weigh leaf' table' n t := by
  induction n with
  | zero => exact Slots.total_add _ _ t
  | succ n ih =>
    rw [weigh_succ, weigh_succ, weigh_succ, ← Slots.total_add]
    refine Slots.total_congr (fun _ e _ ↦ ?_)
    cases e with
    | huge fl f => exact List.sum_map_add
    | next fl f c =>
      simp only [entryWeight, ih]
      abel

theorem map_weigh {N : Type} [AddCommMonoid N] (φ : M →+ N) (n : ℕ) (t : Tab n) :
    φ (weigh leaf table n t) = weigh (fun e ↦ φ (leaf e)) (fun f ↦ φ (table f)) n t := by
  induction n with
  | zero => exact Slots.map_total φ _ t
  | succ n ih =>
    rw [weigh_succ, weigh_succ, Slots.map_total]
    refine Slots.total_congr (fun _ e _ ↦ ?_)
    cases e with
    | huge fl f =>
      simp only [entryWeight, map_list_sum, List.map_map]
      rfl
    | next fl f c => simp only [entryWeight, map_add, ih]

theorem walk_weigh {s : Pmm} {frame : ℕ} (h : walk s n frame t virt = some e) :
    ∃ r, weigh leaf table n t = leaf e + r ∧
      (∀ e', weigh leaf table n (setLeaf n t virt (some e')) = leaf e' + r) ∧
      weigh leaf table n (setLeaf n t virt none) = r := by
  induction n generalizing frame with
  | zero =>
    simp only [walk] at h
    split_ifs at h with htab
    exact ⟨Slots.total (fun _ e ↦ leaf e) (Slots.erase t (idx 0 virt)), Slots.total_of_get? _ h,
      fun e' ↦ Slots.total_set _ _ _ _, rfl⟩
  | succ n ih =>
    simp only [walk] at h
    split_ifs at h with htab
    split at h
    · next fl f c hc =>
      obtain ⟨r, h₁, h₂, h₃⟩ := ih h
      refine ⟨table f + r +
        Slots.total (fun _ e ↦ entryWeight leaf table n e) (Slots.erase t (idx (n + 1) virt)),
        ?_, ?_, ?_⟩
      · rw [weigh_succ, Slots.total_of_get? _ hc]
        simp only [entryWeight, h₁]
        abel
      · intro e'
        simp only [setLeaf, hc]
        rw [weigh_succ, Slots.total_set]
        simp only [entryWeight, h₂]
        abel
      · simp only [setLeaf, hc]
        rw [weigh_succ, Slots.total_set]
        simp only [entryWeight, h₃]
    · cases h

theorem walk_setLeaf {s : Pmm} {frame : ℕ} {o : Option Pte} (h : walk s n frame t virt = some e) :
    walk s n frame (setLeaf n t virt o) virt = o := by
  induction n generalizing frame with
  | zero =>
    simp only [walk] at h ⊢
    split_ifs at h with htab
    simp only [if_pos htab]
    cases o with
    | none => exact Slots.get?_erase_self _ _
    | some e' => exact Slots.get?_set_self _ _ _
  | succ n ih =>
    simp only [walk] at h ⊢
    split_ifs at h with htab
    split at h
    · next fl f c hc =>
      simp only [if_pos htab, setLeaf, hc, Slots.get?_set_self]
      exact ih h
    · cases h

theorem cpuWalk_weigh {w u : Bool} (h : cpuWalk n t virt = some (e, w, u)) :
    (∃ r, weigh leaf table n t = leaf e + r) ∧ (w = true → e.w = true) := by
  induction n generalizing w u with
  | zero =>
    obtain ⟨e', he', heq⟩ := Option.map_eq_some_iff.1 h
    cases heq
    exact ⟨⟨_, Slots.total_of_get? _ he'⟩, id⟩
  | succ n ih =>
    simp only [cpuWalk] at h
    split at h
    · cases h
    · next fl f hc =>
      cases h
      have hlt : virt / pageSize % 512 ^ (n + 1) ∈ List.range (512 ^ (n + 1)) :=
        List.mem_range.2 (Nat.mod_lt _ (Nat.pow_pos (by decide)))
      obtain ⟨l₁, l₂, hl⟩ := List.append_of_mem hlt
      let page (i : ℕ) : M := leaf ⟨fl, f + i, true⟩
      refine ⟨⟨(l₁.map page).sum + ((l₂.map page).sum +
        Slots.total (fun _ e ↦ entryWeight leaf table n e) (Slots.erase t (idx (n + 1) virt))), ?_⟩,
          id⟩
      rw [weigh_succ, Slots.total_of_get? _ hc]
      simp only [entryWeight, hl, List.map_append, List.map_cons, List.sum_append,
        List.sum_cons, page]
      abel
    · next fl f c hc =>
      obtain ⟨⟨e₀, w₀, u₀⟩, he₀, heq⟩ := Option.map_eq_some_iff.1 h
      cases heq
      obtain ⟨⟨r, hw⟩, hp⟩ := ih he₀
      refine ⟨⟨table f + r +
        Slots.total (fun _ e ↦ entryWeight leaf table n e) (Slots.erase t (idx (n + 1) virt)), ?_⟩,
        fun hw' ↦ hp ?_⟩
      · rw [weigh_succ, Slots.total_of_get? _ hc]
        simp only [entryWeight, hw]
        abel
      · simp only [Bool.and_eq_true] at hw'
        exact hw'.1

end Weight

def claim (e : Pte) : ℕ × Mode := (e.frame, if e.w then .sole else .shared)

def tables (n : ℕ) (t : Tab n) : Multiset (ℕ × Mode) :=
  weigh (fun _ ↦ 0) (fun f ↦ {(f, .pinned)}) n t

def leaves (n : ℕ) (t : Tab n) : Multiset (ℕ × Mode) := weigh (fun e ↦ {claim e}) (fun _ ↦ 0) n t

def uses (n : ℕ) (t : Tab n) : Multiset (ℕ × Mode) :=
  weigh (fun e ↦ {claim e}) (fun f ↦ {(f, .pinned)}) n t

theorem uses_eq (n : ℕ) (t : Tab n) : uses n t = tables n t + leaves n t := by
  have h := weigh_add (M := Multiset (ℕ × Mode)) (fun _ ↦ 0) (fun e ↦ {claim e})
    (fun f ↦ {(f, Mode.pinned)}) (fun _ ↦ 0) n t
  simp only [zero_add, add_zero] at h
  exact h

end Tab

namespace Pmm

variable {A : Account ℕ} {s s' : Pmm} {u : Multiset (ℕ × Mode)} {f : ℕ}

theorem holds_alloc (h : A.Holds s.pool u) (ha : s.pmmAllocPage = (s', some f)) (k : Mode) :
    A.Holds s'.pool ((f, k) ::ₘ u) := h.alloc (pool_alloc ha) k

theorem holds_alloc_none (h : A.Holds s.pool u) (ha : s.pmmAllocPage = (s', none)) :
    A.Holds s'.pool u := by
  obtain ⟨-, -, hres, hst, hrf⟩ := pmmAllocPage_none ha
  rwa [pool_eq hres hst hrf]

theorem holds_free {k : Mode} (h : A.Holds s.pool ((f, k) ::ₘ u)) :
    A.Holds (s.pmmFreePage (f * pageSize)).pool u := h.release (pool_free s f)

theorem holds_allocTable_some (h : A.Holds s.pool u) (ha : s.allocTable = (s', some f)) :
    A.Holds s'.pool ((f, .pinned) ::ₘ u) := by
  simp only [allocTable] at ha
  split at ha
  · cases ha
  · next s₁ p hp =>
    split_ifs at ha
    · cases ha
      exact holds_alloc h hp .pinned
    · cases ha

theorem holds_allocTable_none (h : A.Holds s.pool u) (ha : s.allocTable = (s', none)) :
    A.Holds s'.pool u := by
  simp only [allocTable] at ha
  split at ha
  · next s₁ hp =>
    cases ha
    exact holds_alloc_none h hp
  · next s₁ p hp =>
    split_ifs at ha
    · cases ha
    · cases ha
      exact holds_free (holds_alloc h hp .pinned)

end Pmm

namespace Tab

variable {A : Account ℕ} {s s' : Pmm} {n : ℕ} {u : Multiset (ℕ × Mode)} {fl : PteFlags} {f : ℕ}
    {c : Tab n}

def otherUses (t : Tab (n + 1)) (i : ℕ) : Multiset (ℕ × Mode) :=
  Slots.total (fun _ e ↦ entryWeight (fun e ↦ {claim e}) (fun f ↦ {(f, .pinned)}) n e)
    (Slots.erase t i)

theorem uses_set (t : Tab (n + 1)) (i : ℕ) (fl : PteFlags) (f : ℕ) (c : Tab n) :
    uses (n + 1) (Slots.set t i (.next fl f c)) = (f, .pinned) ::ₘ uses n c + otherUses t i := by
  rw [uses, weigh_succ, Slots.total_set]
  rfl

theorem uses_of_get? {t : Tab (n + 1)} {i : ℕ} (h : Slots.get? t i = some (.next fl f c)) :
    uses (n + 1) t = (f, .pinned) ::ₘ uses n c + otherUses t i := by
  rw [uses, weigh_succ, Slots.total_of_get? _ h]
  rfl

theorem otherUses_le (t : Tab (n + 1)) (i : ℕ) : otherUses t i ≤ uses (n + 1) t := by
  rw [uses, weigh_succ, Slots.total_erase _ _ i]
  exact Multiset.le_add_left _ _

theorem holds_newUserTable_some (h : A.Holds s.pool u)
    (ha : newUserTable s n = (s', some (fl, f, c))) :
    A.Holds s'.pool ((f, .pinned) ::ₘ uses n c + u) := by
  simp only [newUserTable] at ha
  split at ha
  · cases ha
  · next s₁ f₁ hf =>
    cases ha
    simpa [uses] using Pmm.holds_allocTable_some h hf

theorem holds_newUserTable_none (h : A.Holds s.pool u) (ha : newUserTable s n = (s', none)) :
    A.Holds s'.pool u := by
  simp only [newUserTable] at ha
  split at ha
  · next s₁ hf =>
    cases ha
    exact Pmm.holds_allocTable_none h hf
  · cases ha

theorem holds_ensureUserChild_some {t : Tab (n + 1)} {i : ℕ}
    (h : A.Holds s.pool (uses (n + 1) t + u))
    (ha : ensureUserChild s n (Slots.get? t i) = (s', some (fl, f, c))) :
    A.Holds s'.pool ((f, .pinned) ::ₘ uses n c + (otherUses t i + u)) := by
  have hother : A.Holds s.pool (otherUses t i + u) := h.mono (add_le_add_left (otherUses_le t i) u)
  cases hg : Slots.get? t i with
  | none =>
    rw [hg] at ha
    exact holds_newUserTable_some hother ha
  | some e =>
    rw [hg] at ha
    cases e with
    | huge fl' f' => exact holds_newUserTable_some hother ha
    | next fl' f' c' =>
      simp only [ensureUserChild] at ha
      rw [uses_of_get? hg, add_assoc] at h
      split_ifs at ha with h₁ h₂
      · cases ha
        exact h
      · cases ha
        exact h
      · exact holds_newUserTable_some hother ha

theorem holds_ensureUserChild_none {e : Option (Entry (Tab n))} (h : A.Holds s.pool u)
    (ha : ensureUserChild s n e = (s', none)) : A.Holds s'.pool u := by
  unfold ensureUserChild at ha
  split at ha
  · split_ifs at ha
    · cases ha
    · cases ha
    · exact holds_newUserTable_none h ha
  · exact holds_newUserTable_none h ha

/-- A page claimed before `vmm_user_map` is claimed by the tree afterwards, or still
unclaimed when the call failed. -/
theorem holds_mapLeaf {t t' : Tab n} {virt : ℕ} {e : Pte} {ok : Bool}
    (h : A.Holds s.pool (claim e ::ₘ uses n t + u)) (hm : mapLeaf n s t virt e = (s', t', ok)) :
    A.Holds s'.pool (uses n t' + u + if ok then 0 else {claim e}) := by
  induction n generalizing s s' u ok with
  | zero =>
    cases hm
    refine h.mono ?_
    have hle : uses 0 (Slots.set t (idx 0 virt) e) ≤ claim e ::ₘ uses 0 t := by
      rw [uses, uses, weigh_zero, weigh_zero, Slots.total_set, Slots.total_erase _ t (idx 0 virt),
        ← Multiset.singleton_add]
      exact add_le_add_right (Multiset.le_add_left _ _) _
    simpa using add_le_add_left hle u
  | succ n ih =>
    simp only [mapLeaf] at hm
    rw [Multiset.cons_add, ← Multiset.add_cons] at h
    split at hm
    · next s₁ he =>
      cases hm
      refine (holds_ensureUserChild_none h he).mono (le_of_eq ?_)
      simp only [← Multiset.singleton_add, Bool.false_eq_true, if_false]
      abel
    · next s₁ fl f c he =>
      have h₁ := holds_ensureUserChild_some h he
      cases hc : mapLeaf n s₁ c virt e with
      | mk s₂ r =>
        obtain ⟨c', ok'⟩ := r
        rw [hc] at hm
        cases hm
        have h₂ : A.Holds s₁.pool
            (claim e ::ₘ uses n c + ((f, .pinned) ::ₘ (otherUses t (idx (n + 1) virt) + u))) := by
          refine h₁.mono (le_of_eq ?_)
          simp only [← Multiset.singleton_add]
          abel
        have h₃ := ih h₂ hc
        refine h₃.mono (le_of_eq ?_)
        rw [uses_set]
        simp only [← Multiset.singleton_add]
        abel

end Tab

end YabroOS.Memory
