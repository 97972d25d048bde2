import YabroOS.Memory.Books
import YabroOS.Memory.Leaves

namespace YabroOS.Memory

open Lib Function

namespace Tab

variable {α : Type} {p p' p'' : Pmm} {n i f src : ℕ} {N m : Multiset ℕ}
  {clone : Pmm → ℕ → Tab n → Pmm × Except Int (ℕ × Tab n)} {dst : Tab (n + 1)}

def tableFrames (n : ℕ) (t : Tab n) : Multiset ℕ := weigh (fun _ ↦ 0) (fun f ↦ {f}) n t

def entryFrames (n : ℕ) (e : Entry (Tab n)) : Multiset ℕ :=
  entryWeight (fun _ ↦ 0) (fun f ↦ {f}) n e

theorem tableFrames_zero (t : Tab 0) : tableFrames 0 t = 0 := Slots.total_eq_zero (fun _ _ _ ↦ rfl)

theorem tableFrames_succ (t : Tab (n + 1)) :
    tableFrames (n + 1) t = Slots.total (fun _ e ↦ entryFrames n e) t :=
  weigh_succ _ _ n t

theorem entryFrames_next (fl : PteFlags) (f : ℕ) (c : Tab n) :
    entryFrames n (.next fl f c) = f ::ₘ tableFrames n c := rfl

theorem tableFrames_set (t : Tab (n + 1)) (i : ℕ) (fl : PteFlags) (f : ℕ) (c : Tab n) :
    tableFrames (n + 1) (Slots.set t i (.next fl f c)) =
      f ::ₘ tableFrames n c + Slots.total (fun _ e ↦ entryFrames n e) (Slots.erase t i) := by
  rw [tableFrames_succ, Slots.total_set, entryFrames_next]

theorem tableFrames_of_get? {t : Tab (n + 1)} {fl : PteFlags} {c : Tab n}
    (h : Slots.get? t i = some (.next fl f c)) : tableFrames (n + 1) t =
      f ::ₘ tableFrames n c + Slots.total (fun _ e ↦ entryFrames n e) (Slots.erase t i) := by
  rw [tableFrames_succ, Slots.total_of_get? _ h, entryFrames_next]

theorem tableFrames_set_new {t : Tab (n + 1)} (h : Slots.get? t i = none) (fl : PteFlags) (f : ℕ)
    (c : Tab n) :
    tableFrames (n + 1) (Slots.set t i (.next fl f c)) = f ::ₘ tableFrames n c +
      tableFrames (n + 1) t := by
  rw [tableFrames_set, tableFrames_succ t, Slots.total_of_get?_none _ h]

/-- All of some frames can be reached by the kernel. -/
def Addressable (p : Pmm) (m : Multiset ℕ) : Prop := ∀ f ∈ m, p.table f = true

theorem Addressable.mono {m' : Multiset ℕ} (h : Addressable p m') (hle : m ≤ m') :
    Addressable p m :=
  fun f hf ↦ h f (Multiset.mem_of_le hle hf)

theorem Addressable.add {m' : Multiset ℕ} (h : Addressable p m) (h' : Addressable p m') :
    Addressable p (m + m') := by
  intro f hf
  obtain hf | hf := Multiset.mem_add.1 hf
  · exact h f hf
  · exact h' f hf

theorem Addressable.cons (hf : p.table f = true) (h : Addressable p m) :
    Addressable p (f ::ₘ m) := by
  rw [← Multiset.singleton_add]
  exact Addressable.add (fun g hg ↦ by rwa [Multiset.mem_singleton.1 hg]) h

theorem holding_foldl {g : Pmm → α → Pmm} {w : α → Multiset ℕ} {l : List α}
    (hg : ∀ a ∈ l, ∀ p' N, p.Holding (w a + N) p' → p.Holding N (g p' a))
    (h : p.Holding ((l.map w).sum + N) p') : p.Holding N (l.foldl g p') := by
  induction l generalizing p' with
  | nil => simpa using h
  | cons a l ih =>
    rw [List.map_cons, List.sum_cons, add_assoc] at h
    exact ih (fun b hb ↦ hg b (.tail _ hb)) (hg a (.head _) p' _ h)

theorem holding_destroyCloneLevel {t : Tab n} {frame : ℕ}
    (hadd : Addressable p (frame ::ₘ tableFrames n t))
    (h : p.Holding (frame ::ₘ tableFrames n t + N) p') :
    p.Holding N (destroyCloneLevel n p' frame t) := by
  induction n generalizing p' frame N with
  | zero =>
    rw [tableFrames_zero, Multiset.cons_add, zero_add] at h
    have htab : p'.table frame = true := by
      rw [h.toFixed.table]
      exact hadd frame (Multiset.mem_cons_self _ _)
    simp only [destroyCloneLevel]
    rw [if_pos htab]
    exact h.free_page
  | succ n ih =>
    have htab : p'.table frame = true := by
      rw [h.toFixed.table]
      exact hadd frame (Multiset.mem_cons_self _ _)
    simp only [destroyCloneLevel]
    rw [if_pos htab]
    refine Pmm.Holding.free_page (holding_foldl (w := fun q ↦ entryFrames n q.2) ?_ ?_)
    · rintro ⟨i, e⟩ he q M hq
      cases e with
      | huge fl f => simpa [entryFrames, entryWeight] using hq
      | next fl f c =>
        rw [entryFrames_next] at hq
        refine ih (hadd.mono ?_) hq
        have hle := mem_total (w := fun _ e ↦ entryFrames n e) he
        rw [← tableFrames_succ] at hle
        exact hle.trans (Multiset.le_cons_self _ _)
    · rw [tableFrames_succ, Multiset.cons_add, ← Multiset.add_cons] at h
      exact h

/-- A tree of the same shape, with the pages' entries changed by `g` and tables that `R` relates. -/
def Maps (R : ℕ → ℕ → Prop) (g : Pte → Pte) : (n : ℕ) → Tab n → Tab n → Prop
  | 0, t, t' => ∀ i, Slots.get? t' i = (Slots.get? t i).map g
  | n + 1, t, t' => ∀ i, (Slots.get? t i = none ∧ Slots.get? t' i = none) ∨
      ∃ fl f c f' c', Slots.get? t i = some (.next fl f c) ∧
        Slots.get? t' i = some (.next fl f' c') ∧ R f f' ∧ Maps R g n c c'

def Both (p : Pmm) (f f' : ℕ) : Prop := p.table f = true ∧ p.table f' = true

theorem walk_maps {R : ℕ → ℕ → Prop} {g : Pte → Pte} (hR : ∀ f f', R f f' → p.table f = p.table f')
    {t t' : Tab n} {frame frame' virt : ℕ} (hf : R frame frame') (h : Maps R g n t t') :
    walk p n frame' t' virt = (walk p n frame t virt).map g := by
  induction n generalizing frame frame' with
  | zero =>
    simp only [walk, hR frame frame' hf]
    split_ifs
    · exact h (idx 0 virt)
    · rfl
  | succ n ih =>
    simp only [walk, hR frame frame' hf]
    split_ifs
    · obtain ⟨h₁, h₂⟩ | ⟨fl, f, c, f', c', h₁, h₂, hff, hc⟩ := h (idx (n + 1) virt)
      · rw [h₁, h₂]
        rfl
      · rw [h₁, h₂]
        exact ih hff hc
    · rfl

/-- What copying a table does: a failed copy takes nothing, and a completed one is a tree of its own
whose tables were free before. -/
structure Copies (p : Pmm) (n : ℕ) (clone : Pmm → ℕ → Tab n → Pmm × Except Int (ℕ × Tab n)) :
    Prop where
  error : ∀ {p' p'' N f c err}, p.Holding N p' → clone p' f c = (p'', .error err) → p.Holding N p''
  ok : ∀ {p' p'' N f c np d}, p.Holding N p' → clone p' f c = (p'', .ok (np, d)) →
    p.Holding (np ::ₘ tableFrames n d + N) p'' ∧ Both p f np ∧ Maps (Both p) id n c d ∧
      Addressable p (tableFrames n c) ∧ Addressable p (tableFrames n d) ∧
      (tableFrames n d).card = (tableFrames n c).card ∧ ∀ v, Leaves (fun _ e ↦ e.ps = false) n v c

theorem holding_cloneTable_some (h : p.Holding N p') (hc : cloneTable p' src = (p'', some f)) :
    p.Holding (f ::ₘ N) p'' ∧ Both p src f := by
  simp only [cloneTable] at hc
  split at hc
  · cases hc
  · next q g hg =>
    obtain ⟨hhold, hadd⟩ := h.allocTable_some hg
    split_ifs at hc with htab
    · cases hc
      rw [hhold.toFixed.table] at htab
      exact ⟨hhold, htab, hadd⟩
    · cases hc

theorem holding_cloneTable_none (h : p.Holding N p') (hc : cloneTable p' src = (p'', none)) :
    p.Holding N p'' := by
  simp only [cloneTable] at hc
  split at hc
  · next q hq =>
    cases hc
    exact h.allocTable_none hq
  · next q g hg =>
    split_ifs at hc
    · cases hc
    · cases hc
      exact (h.allocTable_some hg).1.free_page

/-- The entries that a loop over `l` has written, over those that were there before. -/
theorem cloneLeaves_none {dst dst' : Slots Pte} {l : List (ℕ × Pte)} (hnd : (l.map Prod.fst).Nodup)
    (h : cloneLeaves dst l = (dst', none)) : (∀ q ∈ l, q.2.ps = false ∧ dst'.get? q.1 = some q.2) ∧
      ∀ i, i ∉ l.map Prod.fst → dst'.get? i = dst.get? i := by
  induction l generalizing dst with
  | nil =>
    cases h
    exact ⟨nofun, fun i _ ↦ rfl⟩
  | cons q l ih =>
    obtain ⟨j, e⟩ := q
    obtain ⟨hj, hnd'⟩ := List.nodup_cons.1 hnd
    simp only [cloneLeaves] at h
    by_cases hps : e.ps = true
    · rw [if_pos hps] at h
      cases h
    rw [if_neg hps] at h
    obtain ⟨hin, hout⟩ := ih hnd' h
    refine ⟨fun q hq ↦ ?_, fun i hi ↦ ?_⟩
    · obtain rfl | hq := List.mem_cons.1 hq
      · exact ⟨by simpa using hps, by rw [hout _ hj, Slots.get?_set_self]⟩
      · exact hin q hq
    · rw [List.map_cons, List.mem_cons, not_or] at hi
      rw [hout i hi.2, Slots.get?_set_of_ne _ hi.1]

theorem notMem_keys {t : Slots α} (h : t.get? i = none) : i ∉ t.list.map Prod.fst := by
  intro hi
  obtain ⟨⟨j, a⟩, hq, rfl⟩ := List.mem_map.1 hi
  rw [get?_of_mem _ hq] at h
  cases h

theorem copies_cloneLoop (hclone : Copies p n clone) {dst' : Tab (n + 1)}
    {l : List (ℕ × Entry (Tab n))} {r : Option Int} (hnd : (l.map Prod.fst).Nodup)
    (hnew : ∀ i ∈ l.map Prod.fst, Slots.get? dst i = none)
    (hadd : Addressable p (tableFrames (n + 1) dst))
    (h : p.Holding (tableFrames (n + 1) dst + N) p')
    (hc : cloneLoop clone p' dst l = (p'', dst', r)) :
    p.Holding (tableFrames (n + 1) dst' + N) p'' ∧ Addressable p (tableFrames (n + 1) dst') ∧
      (r = none → (∀ i, i ∉ l.map Prod.fst → Slots.get? dst' i = Slots.get? dst i) ∧
        (tableFrames (n + 1) dst').card =
          (tableFrames (n + 1) dst).card + (l.map (fun q ↦ (entryFrames n q.2).card)).sum ∧
        ∀ q ∈ l, ∃ fl f c f' c', q.2 = .next fl f c ∧ Slots.get? dst' q.1 = some (.next fl f' c') ∧
          Both p f f' ∧
          Maps (Both p) id n c c' ∧ Addressable p (tableFrames n c) ∧
            ∀ v, Leaves (fun _ e ↦ e.ps = false) n v c) := by
  induction l generalizing p' dst with
  | nil =>
    cases hc
    exact ⟨h, hadd, fun _ ↦ ⟨fun _ _ ↦ rfl, by simp, fun q hq ↦ absurd hq List.not_mem_nil⟩⟩
  | cons q l ih =>
    obtain ⟨j, e⟩ := q
    obtain ⟨hj, hnd'⟩ := List.nodup_cons.1 hnd
    cases e with
    | huge fl f =>
      cases hc
      exact ⟨h, hadd, fun hr ↦ absurd hr (Option.some_ne_none _)⟩
    | next fl f c =>
      simp only [cloneLoop] at hc
      split at hc
      · next q err hs =>
        cases hc
        exact ⟨hclone.error h hs, hadd, fun hr ↦ absurd hr (Option.some_ne_none _)⟩
      · next q np d hs =>
        obtain ⟨hhold, hboth, hmaps, haddc, haddd, hcard, hps⟩ := hclone.ok h hs
        have hnone : Slots.get? dst j = none := hnew j (List.mem_cons_self)
        have hset := tableFrames_set_new hnone fl np d
        have hadd' : Addressable p (tableFrames (n + 1) (Slots.set dst j (.next fl np d))) := by
          rw [hset]
          exact (haddd.cons hboth.2).add hadd
        have hhold' : p.Holding (tableFrames (n + 1) (Slots.set dst j (.next fl np d)) + N) q := by
          rw [hset, add_assoc]
          exact hhold
        have hnew' : ∀ i ∈ l.map Prod.fst, Slots.get? (Slots.set dst j (.next fl np d)) i = none := by
          intro i hi
          have hij : i ≠ j := by
            rintro rfl
            exact hj hi
          rw [Slots.get?_set_of_ne _ hij]
          exact hnew i (List.mem_cons_of_mem _ hi)
        obtain ⟨h₁, h₂, h₃⟩ := ih hnd' hnew' hadd' hhold' hc
        refine ⟨h₁, h₂, fun hr ↦ ?_⟩
        obtain ⟨hout, hcard', hin⟩ := h₃ hr
        refine ⟨fun i hi ↦ ?_, ?_, fun q hq ↦ ?_⟩
        · rw [List.map_cons, List.mem_cons, not_or] at hi
          rw [hout i hi.2, Slots.get?_set_of_ne _ hi.1]
        · rw [hcard', hset, List.map_cons, List.sum_cons, entryFrames_next, Multiset.card_add,
            Multiset.card_cons,
            Multiset.card_cons, hcard]
          omega
        · obtain rfl | hq := List.mem_cons.1 hq
          · refine ⟨fl, f, c, np, d, rfl, ?_, hboth, hmaps, haddc, hps⟩
            rw [hout _ hj, Slots.get?_set_self]
          · exact hin q hq

theorem addressable_sum {w : α → Multiset ℕ} {l : List α} (h : ∀ a ∈ l, Addressable p (w a)) :
    Addressable p (l.map w).sum := by
  induction l with
  | nil => exact nofun
  | cons a l ih =>
    rw [List.map_cons, List.sum_cons]
    exact (h a (.head _)).add (ih (fun b hb ↦ h b (.tail _ hb)))

theorem card_sum (w : α → Multiset ℕ) (l : List α) :
    (l.map w).sum.card = (l.map (fun a ↦ (w a).card)).sum := by
  induction l with
  | nil => rfl
  | cons a l ih => simp [ih]

theorem copies_cloneTree (hclone : Copies p n clone) {src : Tab (n + 1)} {r : Option Int}
    (h : p.Holding N p') (hc : cloneLoop clone p' (empty (n + 1)) (Slots.list src) = (p'', dst, r)) :
    p.Holding (tableFrames (n + 1) dst + N) p'' ∧ Addressable p (tableFrames (n + 1) dst) ∧
      (r = none → Maps (Both p) id (n + 1) src dst ∧ Addressable p (tableFrames (n + 1) src) ∧
        (tableFrames (n + 1) dst).card = (tableFrames (n + 1) src).card ∧
        ∀ v, Leaves (fun _ e ↦ e.ps = false) (n + 1) v src) := by
  have hempty : tableFrames (n + 1) (empty (n + 1)) = 0 := weigh_empty _ _ _
  obtain ⟨h₁, h₂, h₃⟩ := copies_cloneLoop hclone (keys_nodup src) (fun _ _ ↦ rfl)
    (by
      rw [hempty]
      exact nofun) (by rwa [hempty, zero_add]) hc
  refine ⟨h₁, h₂, fun hr ↦ ?_⟩
  obtain ⟨hout, hcard, hin⟩ := h₃ hr
  refine ⟨fun i ↦ ?_, ?_, ?_, fun v i e he ↦ ?_⟩
  · cases hg : Slots.get? src i with
    | none =>
      refine .inl ⟨rfl, ?_⟩
      rw [hout i (notMem_keys hg)]
      rfl
    | some e =>
      obtain ⟨fl, f, c, f', c', he, hd, hboth, hmaps, -, -⟩ :=
        hin (i, e) ((Slots.get?_eq_some_iff _ _ _).1 hg)
      exact .inr ⟨fl, f, c, f', c', congrArg some he, hd, hboth, hmaps⟩
  · rw [tableFrames_succ]
    refine addressable_sum (fun q hq ↦ ?_)
    obtain ⟨fl, f, c, f', c', he, -, hboth, -, hadd, -⟩ := hin q hq
    dsimp only
    rw [he, entryFrames_next]
    exact hadd.cons hboth.1
  · rw [hcard, hempty, tableFrames_succ, Slots.total, card_sum, Multiset.card_zero, zero_add]
  · obtain ⟨fl, f, c, f', c', he', -, -, -, -, hps⟩ :=
      hin (i, e) ((Slots.get?_eq_some_iff _ _ _).1 he)
    have he' : e = .next fl f c := he'
    subst he'
    exact hps _

theorem copies_cloneUserTables (p : Pmm) (n : ℕ) : Copies p n (cloneUserTables n) := by
  induction n with
  | zero =>
    constructor
    · intro p' p'' N f c err h hc
      simp only [cloneUserTables] at hc
      split at hc
      · next q hq =>
        cases hc
        exact holding_cloneTable_none h hq
      · next q g hg =>
        obtain ⟨hhold, hboth⟩ := holding_cloneTable_some h hg
        split at hc
        · next dst e hl =>
          cases hc
          refine holding_destroyCloneLevel ?_ ?_
          · rw [tableFrames_zero]
            exact Addressable.cons hboth.2 fun f hf ↦ absurd hf (Multiset.notMem_zero f)
          · rw [tableFrames_zero, Multiset.cons_add, zero_add]
            exact hhold
        · cases hc
    · intro p' p'' N f c np d h hc
      simp only [cloneUserTables] at hc
      split at hc
      · cases hc
      · next q g hg =>
        obtain ⟨hhold, hboth⟩ := holding_cloneTable_some h hg
        split at hc
        · cases hc
        · next dst hl =>
          cases hc
          obtain ⟨hin, hout⟩ := cloneLeaves_none (keys_nodup c) hl
          rw [tableFrames_zero, tableFrames_zero, Multiset.cons_add, zero_add]
          refine ⟨hhold, hboth, fun i ↦ ?_, fun f hf ↦ absurd hf (Multiset.notMem_zero f),
            fun f hf ↦ absurd hf (Multiset.notMem_zero f), rfl, fun v i e he ↦ ?_⟩
          · cases hi : Slots.get? c i with
            | some e => exact (hin (i, e) ((Slots.get?_eq_some_iff _ _ _).1 hi)).2
            | none => exact hout i (notMem_keys hi)
          · exact (hin (i, e) ((Slots.get?_eq_some_iff _ _ _).1 he)).1
  | succ n ih =>
    constructor
    · intro p' p'' N f c err h hc
      simp only [cloneUserTables] at hc
      split at hc
      · next q hq =>
        cases hc
        exact holding_cloneTable_none h hq
      · next q g hg =>
        obtain ⟨hhold, hboth⟩ := holding_cloneTable_some h hg
        split at hc
        · next q' dst e hl =>
          cases hc
          obtain ⟨h₁, h₂, -⟩ := copies_cloneTree ih hhold hl
          refine holding_destroyCloneLevel (h₂.cons hboth.2) ?_
          rwa [Multiset.cons_add, ← Multiset.add_cons]
        · cases hc
    · intro p' p'' N f c np d h hc
      simp only [cloneUserTables] at hc
      split at hc
      · cases hc
      · next q g hg =>
        obtain ⟨hhold, hboth⟩ := holding_cloneTable_some h hg
        split at hc
        · cases hc
        · next q' dst hl =>
          cases hc
          obtain ⟨h₁, h₂, h₃⟩ := copies_cloneTree ih hhold hl
          obtain ⟨hmaps, hadd, hcard, hps⟩ := h₃ rfl
          refine ⟨?_, hboth, hmaps, hadd, h₂, hcard, hps⟩
          rwa [Multiset.cons_add, ← Multiset.add_cons]

theorem cloneTable_isSome (hmap : ∀ f ∈ p.frames, p.table f = true) (h : p.Holding N p')
    (hfree : N.card < p.freePages) (hsrc : p.table src = true) :
    ∃ q f, cloneTable p' src = (q, some f) := by
  obtain ⟨q, f, ha⟩ := h.alloc_isSome hfree
  have hq := h.alloc_some ha
  have htab : q.table f = true := by
    rw [hq.toFixed.table]
    exact hmap f (hq.free f (Multiset.mem_cons_self _ _)).1
  have hsrc' : q.table src = true := by rwa [hq.toFixed.table]
  refine ⟨q, f, ?_⟩
  simp only [cloneTable, Pmm.allocTable, ha]
  rw [if_pos htab]
  dsimp only
  rw [if_pos hsrc']

theorem cloneLeaves_isNone (dst : Slots Pte) {l : List (ℕ × Pte)} (h : ∀ q ∈ l, q.2.ps = false) :
    ∃ dst', cloneLeaves dst l = (dst', none) := by
  induction l generalizing dst with
  | nil => exact ⟨dst, rfl⟩
  | cons q l ih =>
    obtain ⟨j, e⟩ := q
    have he : e.ps = false := h _ (.head _)
    simp only [cloneLeaves, he, Bool.false_eq_true, if_false]
    exact ih _ (fun q hq ↦ h q (.tail _ hq))

def Completes (p : Pmm) (n : ℕ) (clone : Pmm → ℕ → Tab n → Pmm × Except Int (ℕ × Tab n)) : Prop :=
  ∀ {p' N f c v}, p.Holding N p' → p.table f = true → Addressable p (tableFrames n c) →
    Leaves (fun _ e ↦ e.ps = false) n v c → N.card + (f ::ₘ tableFrames n c).card ≤ p.freePages →
    ∃ q np d, clone p' f c = (q, .ok (np, d))

theorem cloneLoop_isNone (hclone : Copies p n clone) (hall : Completes p n clone)
    {l : List (ℕ × Entry (Tab n))} (h : p.Holding N p')
    (hl : ∀ q ∈ l, ∃ fl f c v, q.2 = .next fl f c ∧ Addressable p (f ::ₘ tableFrames n c) ∧
      Leaves (fun _ e ↦ e.ps = false) n v c)
    (hfree : N.card + (l.map (fun q ↦ (entryFrames n q.2).card)).sum ≤ p.freePages) :
    ∃ q dst', cloneLoop clone p' dst l = (q, dst', none) := by
  induction l generalizing p' N dst with
  | nil => exact ⟨p', dst, rfl⟩
  | cons a l ih =>
    obtain ⟨j, e⟩ := a
    obtain ⟨fl, f, c, v, he, hadd, hps⟩ := hl _ (.head _)
    have he : e = .next fl f c := he
    subst he
    rw [List.map_cons, List.sum_cons, entryFrames_next] at hfree
    obtain ⟨q, np, d, hs⟩ :=
      hall h (hadd f (Multiset.mem_cons_self _ _)) (hadd.mono (Multiset.le_cons_self _ _)) hps
      (by omega)
    obtain ⟨hhold, -, -, -, -, hcard, -⟩ := hclone.ok h hs
    simp only [cloneLoop, hs]
    refine ih hhold (fun b hb ↦ hl b (.tail _ hb)) ?_
    rw [Multiset.card_add, Multiset.card_cons, hcard]
    rw [Multiset.card_cons] at hfree
    omega

theorem cloneTree_isNone (hclone : Copies p n clone) (hall : Completes p n clone)
    {src : Tab (n + 1)} {v : ℕ} (h : p.Holding N p')
    (hadd : Addressable p (tableFrames (n + 1) src))
    (hps : Leaves (fun _ e ↦ e.ps = false) (n + 1) v src)
    (hfree : N.card + (tableFrames (n + 1) src).card ≤ p.freePages) :
    ∃ q dst, cloneLoop clone p' (empty (n + 1)) (Slots.list src) = (q, dst, none) := by
  refine cloneLoop_isNone hclone hall h (fun q hq ↦ ?_) ?_
  · obtain ⟨i, e⟩ := q
    have hi := hps i e (get?_of_mem _ hq)
    have hle := mem_total (w := fun _ e ↦ entryFrames n e) hq
    rw [← tableFrames_succ] at hle
    cases e with
    | huge fl f => exact hi.elim
    | next fl f c => exact ⟨fl, f, c, _, rfl, hadd.mono hle, hi⟩
  · rw [tableFrames_succ, Slots.total, card_sum] at hfree
    exact hfree

theorem completes_cloneUserTables (hmap : ∀ f ∈ p.frames, p.table f = true) (n : ℕ) :
    Completes p n (cloneUserTables n) := by
  induction n with
  | zero =>
    intro p' N f c v h hf hadd hps hfree
    rw [tableFrames_zero, Multiset.card_cons] at hfree
    obtain ⟨q, g, hg⟩ := cloneTable_isSome hmap h (by omega) hf
    obtain ⟨dst, hdst⟩ := cloneLeaves_isNone Slots.empty (fun q hq ↦ hps q.1 q.2 (get?_of_mem q hq))
    simp only [cloneUserTables, hg, hdst]
    exact ⟨q, g, dst, rfl⟩
  | succ n ih =>
    intro p' N f c v h hf hadd hps hfree
    rw [Multiset.card_cons] at hfree
    obtain ⟨q, g, hg⟩ := cloneTable_isSome hmap h (by omega) hf
    obtain ⟨hhold, -⟩ := holding_cloneTable_some h hg
    obtain ⟨q', dst, hdst⟩ := cloneTree_isNone (copies_cloneUserTables p n) ih hhold hadd hps
      (by
        rw [Multiset.card_cons]
        omega)
    have hdst : cloneLoop (cloneUserTables n) q Slots.empty (Slots.list c) = (q', dst, none) := hdst
    simp only [cloneUserTables, hg, hdst]
    exact ⟨q', g, dst, rfl⟩

end Tab

end YabroOS.Memory
