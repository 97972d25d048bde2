import YabroOS.Lib.Levels
import YabroOS.Memory.PmmAccounting

namespace YabroOS.Memory

open Function

namespace SeenPageTables

variable {t : SeenPageTables} {phys slot n d : ℕ} {S : Finset ℕ}

/-- The open addressing: a key is found from its hash on before the first empty slot. -/
structure Holds (t : SeenPageTables) (S : Finset ℕ) : Prop where
  keys : ∀ p ∈ S, ∃ d < pageTableHashSize, t.slots ((hash p + d) % pageTableHashSize) = p ∧
    ∀ e < d, t.slots ((hash p + e) % pageTableHashSize) ≠ 0
  slots : ∀ j, t.slots j ≠ 0 → t.slots j ∈ S
  zero : 0 ∉ S
  count : t.count = S.card
  used : ((Finset.range pageTableHashSize).filter fun j ↦ t.slots j ≠ 0).card ≤ t.count

theorem holds_empty : Holds ⟨fun _ ↦ 0, 0⟩ ∅ where
  keys p hp := by cases hp
  slots j hj := absurd rfl hj
  zero := Finset.notMem_empty 0
  count := rfl
  used := by simp

theorem probe_skip (hd : d ≤ n) (hslot : slot < pageTableHashSize)
    (hskip : ∀ e < d, t.slots ((slot + e) % pageTableHashSize) ≠ 0 ∧
      t.slots ((slot + e) % pageTableHashSize) ≠ phys) :
    t.probe phys n slot = t.probe phys (n - d) ((slot + d) % pageTableHashSize) := by
  induction d generalizing n slot with
  | zero => rw [Nat.sub_zero, Nat.add_zero, Nat.mod_eq_of_lt hslot]
  | succ d ih =>
    obtain ⟨n, rfl⟩ : ∃ m, n = m + 1 := ⟨n - 1, by omega⟩
    have hfirst := hskip 0 (Nat.succ_pos d)
    rw [Nat.add_zero, Nat.mod_eq_of_lt hslot] at hfirst
    rw [probe, if_neg hfirst.2, if_neg hfirst.1,
      ih (by omega) (Nat.mod_lt _ (by decide)) fun e he ↦ ?_]
    · rw [Nat.mod_add_mod, Nat.add_assoc, Nat.add_comm 1 d, Nat.add_sub_add_right]
    · have hnext := hskip (e + 1) (by omega)
      rwa [Nat.mod_add_mod, Nat.add_assoc, Nat.add_comm 1 e]

theorem hash_lt (p : ℕ) : hash p < pageTableHashSize := Nat.mod_lt _ (by decide)

theorem Holds.seen (h : t.Holds S) (hp : phys ∈ S) : t.pageTableSeen phys = (t, true) := by
  rw [pageTableSeen]
  split_ifs
  · rfl
  · obtain ⟨d, hd, hkey, hpath⟩ := h.keys phys hp
    have hex : ∃ d, t.slots ((hash phys + d) % pageTableHashSize) = phys := ⟨d, hkey⟩
    have hle : Nat.find hex ≤ d := Nat.find_min' hex hkey
    rw [probe_skip (d := Nat.find hex) (by omega) (hash_lt phys)
      fun e he ↦ ⟨hpath e (by omega), Nat.find_min hex he⟩]
    obtain ⟨m, hm⟩ : ∃ m, pageTableHashSize - Nat.find hex = m + 1 :=
      ⟨pageTableHashSize - Nat.find hex - 1, by omega⟩
    rw [hm, probe, if_pos (Nat.find_spec hex)]

theorem Holds.exists_empty (h : t.Holds S) (hcard : S.card < pageTableHashSize) (slot : ℕ) :
    ∃ d < pageTableHashSize, t.slots ((slot + d) % pageTableHashSize) = 0 := by
  have hused : ((Finset.range pageTableHashSize).filter fun j ↦ t.slots j ≠ 0).card <
      (Finset.range pageTableHashSize).card := by
    rw [Finset.card_range]
    exact h.used.trans_lt (h.count ▸ hcard)
  obtain ⟨j, hj, hempty⟩ : ∃ j ∈ Finset.range pageTableHashSize, t.slots j = 0 := by
    by_contra hno
    push Not at hno
    rw [Finset.filter_true_of_mem hno] at hused
    exact lt_irrefl _ hused
  have hj := Finset.mem_range.1 hj
  refine ⟨(j + (pageTableHashSize - slot % pageTableHashSize)) % pageTableHashSize,
    Nat.mod_lt _ (by decide), ?_⟩
  have hindex : (slot + (j + (pageTableHashSize - slot % pageTableHashSize)) % pageTableHashSize) %
      pageTableHashSize = j := by
    simp only [pageTableHashSize] at *
    omega
  rw [hindex, hempty]

theorem Holds.insert (h : t.Holds S) (hne : phys ≠ 0) (hp : phys ∉ S)
    (hcard : S.card < maxPageTables) :
    ∃ t', t.pageTableSeen phys = (t', false) ∧ t'.Holds (insert phys S) := by
  have hsize : maxPageTables < pageTableHashSize := by decide
  have hex : ∃ d, t.slots ((hash phys + d) % pageTableHashSize) = 0 :=
    (h.exists_empty (hcard.trans hsize) (hash phys)).imp fun _ hd ↦ hd.2
  have hlt : Nat.find hex < pageTableHashSize := by
    obtain ⟨d, hd, hempty⟩ := h.exists_empty (hcard.trans hsize) (hash phys)
    exact (Nat.find_min' hex hempty).trans_lt hd
  have hempty := Nat.find_spec hex
  have hmin : ∀ e < Nat.find hex, t.slots ((hash phys + e) % pageTableHashSize) ≠ 0 :=
    fun e he ↦ Nat.find_min hex he
  generalize Nat.find hex = d at hlt hempty hmin
  have hother : ∀ j, t.slots j ≠ phys := fun j he ↦ hp (he ▸ h.slots j (he ▸ hne))
  refine ⟨⟨update t.slots ((hash phys + d) % pageTableHashSize) phys, t.count + 1⟩, ?_, ?_⟩
  · rw [pageTableSeen, if_neg (by rw [h.count]; omega),
      probe_skip (d := d) hlt.le (hash_lt phys) fun e he ↦ ⟨hmin e he, hother _⟩]
    obtain ⟨m, hm⟩ : ∃ m, pageTableHashSize - d = m + 1 := ⟨pageTableHashSize - d - 1, by omega⟩
    rw [hm, probe, if_neg (hother _), if_pos hempty]
  · generalize hindex : (hash phys + d) % pageTableHashSize = index at hempty
    have hkeep : ∀ j, t.slots j ≠ 0 → update t.slots index phys j = t.slots j := fun j hj ↦
      update_of_ne (fun he : j = index ↦ hj (by rw [he, hempty])) _ _
    refine ⟨fun p hmem ↦ ?_, fun j hj ↦ ?_, ?_, ?_, ?_⟩
    · rcases Finset.mem_insert.1 hmem with rfl | hmem
      · refine ⟨d, hlt, by rw [hindex]; exact update_self _ _ _, fun e he ↦ ?_⟩
        dsimp only
        rw [hkeep _ (hmin e he)]
        exact hmin e he
      · obtain ⟨d', hd', hkey, hpath⟩ := h.keys p hmem
        have hpz : p ≠ 0 := fun hz ↦ h.zero (hz ▸ hmem)
        refine ⟨d', hd', ?_, fun e he ↦ ?_⟩
        · dsimp only
          rw [hkeep _ (by rw [hkey]; exact hpz), hkey]
        · dsimp only
          rw [hkeep _ (hpath e he)]
          exact hpath e he
    · dsimp only at hj ⊢
      by_cases hji : j = index
      · rw [hji, update_self]
        exact Finset.mem_insert_self phys S
      · rw [update_of_ne hji] at hj ⊢
        exact Finset.mem_insert_of_mem (h.slots j hj)
    · rw [Finset.mem_insert, not_or]
      exact ⟨hne.symm, h.zero⟩
    · rw [Finset.card_insert_of_notMem hp, ← h.count]
    · have hsub : ((Finset.range pageTableHashSize).filter fun j ↦ update t.slots index phys j ≠ 0) ⊆
          Insert.insert index ((Finset.range pageTableHashSize).filter fun j ↦ t.slots j ≠ 0) := by
        intro j hj
        obtain ⟨hrange, hset⟩ := Finset.mem_filter.1 hj
        by_cases hji : j = index
        · rw [hji]
          exact Finset.mem_insert_self _ _
        · rw [update_of_ne hji] at hset
          exact Finset.mem_insert_of_mem (Finset.mem_filter.2 ⟨hrange, hset⟩)
      exact (Finset.card_le_card hsub).trans
        ((Finset.card_insert_le _ _).trans (Nat.succ_le_succ h.used))

end SeenPageTables

namespace PmmState

open Pmm Levels

variable {mem : ℕ → ℕ → UInt64} {entries : Memmap} {s : PmmState} {cr3 p level i : ℕ}
  {st : PmmState × SeenPageTables}

def child (mem : ℕ → ℕ → UInt64) (level p i : ℕ) : Option ℕ :=
  let e := mem p i
  if e &&& 1 = 0 ∨ level = 1 then none
  else if (level = 3 ∨ level = 2) ∧ e &&& 0x80 ≠ 0 then none
  else some (e &&& pteAddrMask).toNat

def children (mem : ℕ → ℕ → UInt64) (level p : ℕ) : List ℕ :=
  (List.range 512).filterMap (child mem level p)

/-- The processor can use the page as a table at the level. -/
def Uses (mem : ℕ → ℕ → UInt64) (cr3 p level : ℕ) : Prop :=
  Descends (children mem) (pageOf cr3) 4 p level ∧ 1 ≤ level

def Reserved (s : PmmState) (p : ℕ) : Prop := p ∈ s.reservedPages ∨ s.isReserved p = true

def pendingIn (s : PmmState) (p : ℕ) : Bool := !s.isReserved p

/-- What `reserve_active_page_tables` can do: all tables fit into the hash set, and those that are
not reserved into the list of reserved pages, none of them is the page at zero, the kernel can read
those that refer to other tables, and no table is met again at a higher level than the first
time. -/
structure Manageable (s : PmmState) (mem : ℕ → ℕ → UInt64) (cr3 : ℕ) : Prop where
  root : pageOf cr3 ≤ pteAddrMask.toNat
  fits : ∃ tables : Finset ℕ, (∀ p level, Uses mem cr3 p level → p ∈ tables) ∧
    tables.card ≤ maxPageTables ∧
    s.reservedPages.length + (tables.filter fun p ↦ s.pendingIn p).card ≤ maxReservedPages
  nonzero : ∀ p level, Uses mem cr3 p level → p ≠ 0
  readable : ∀ p level, Uses mem cr3 p level → children mem level p ≠ [] → s.physToVirtOk p = true
  ordered : Ordered (children mem) 4 (pageOf cr3) []

theorem reservePage_hhdm (s : PmmState) (p : ℕ) : (s.reservePage p).1.hhdm = s.hhdm := by
  rcases reserve_cases s p with he | ⟨-, he⟩ | ⟨-, -, ⟨-, he⟩ | ⟨-, he⟩⟩
  all_goals
    rw [he]

theorem isReserved_reservePage (h : s.isReserved p = true) (q : ℕ) :
    (s.reservePage q).1.isReserved p = true := by
  rcases reserve_cases s q with he | ⟨-, he⟩ | ⟨-, -, ⟨-, he⟩ | ⟨-, he⟩⟩
  all_goals
    rw [he]
    try exact h
  all_goals
    simp only [isReserved] at h ⊢
    split_ifs at h ⊢
    simp only [update_apply]
    split_ifs
    · rfl
    · exact h

theorem Reserved.reservePage (h : s.Reserved p) (q : ℕ) : (s.reservePage q).1.Reserved p := by
  refine h.imp (fun hm ↦ ?_) fun hr ↦ isReserved_reservePage hr q
  rcases reserve_cases s q with he | ⟨-, he⟩ | ⟨-, -, ⟨-, he⟩ | ⟨-, he⟩⟩
  · rw [he]
    exact hm
  all_goals
    rw [he]
    exact List.mem_append_left _ hm

theorem reservePage_of_reserved (h : s.isReserved p = true) (hp : pageOf p = p) :
    (s.reservePage p).1 = s := by
  rw [PmmState.reservePage]
  dsimp only
  rw [hp, if_pos h]
  split_ifs
  · rfl
  · rfl

theorem reservePage_length (hp : pageOf p = p) : (s.reservePage p).1.reservedPages.length ≤
    s.reservedPages.length + if s.isReserved p = true then 0 else 1 := by
  split_ifs with hr
  · rw [reservePage_of_reserved hr hp]
    exact Nat.le_add_right _ _
  · rcases reserve_cases s p with he | ⟨-, he⟩ | ⟨-, -, ⟨-, he⟩ | ⟨-, he⟩⟩
    all_goals
      rw [he]
      simp

theorem reservePage_reserved (hp : pageOf p = p) (hne : p ≠ 0) (hlt : p < 2 ^ 52)
    (hroom : s.isReserved p = false → s.reservedPages.length < maxReservedPages) :
    (s.reservePage p).1.Reserved p := by
  cases hr : s.isReserved p with
  | true => exact Reserved.reservePage (.inr hr) p
  | false =>
    refine .inl ?_
    rw [PmmState.reservePage]
    dsimp only
    rw [hp, if_neg (not_or.2 ⟨hne, Nat.not_le.2 hlt⟩), if_neg (by rw [hr]; exact Bool.false_ne_true),
      if_neg (Nat.not_le.2 (hroom hr))]
    simp only [setAllocated, setReserved]
    split_ifs
    all_goals
      exact List.mem_append_right _ (List.mem_singleton_self p)

structure Scanning (s₀ : PmmState) (met : List (ℕ × ℕ)) (st : PmmState × SeenPageTables) :
    Prop where
  holds : st.2.Holds (met.map Prod.fst).toFinset
  nodup : (met.map Prod.fst).Nodup
  reserved : ∀ x ∈ met, st.1.Reserved x.1
  length : st.1.reservedPages.length ≤ s₀.reservedPages.length +
    (met.map Prod.fst).countP s₀.pendingIn
  kept : ∀ p, s₀.isReserved p = true → st.1.isReserved p = true
  hhdm : st.1.hhdm = s₀.hhdm

theorem child_aligned {c : ℕ} (h : child mem level p i = some c) :
    pageOf c = c ∧ c ≤ pteAddrMask.toNat ∧ level ≠ 1 := by
  simp only [child] at h
  split_ifs at h with h₁
  obtain rfl := Option.some.inj h
  have hmask : pteAddrMask.toNat % 2 ^ 12 = 0 := by decide
  have hlow : (mem p i &&& pteAddrMask).toNat % 2 ^ 12 = 0 := by
    rw [UInt64.toNat_and, Nat.and_mod_two_pow, hmask, Nat.and_zero]
  refine ⟨?_, ?_, fun hl ↦ h₁ (.inr hl)⟩
  · rw [pageOf]
    exact Nat.div_mul_cancel (Nat.dvd_of_mod_eq_zero hlow)
  · rw [UInt64.toNat_and]
    exact Nat.and_le_right

theorem children_mono (mem : ℕ → ℕ → UInt64) (p level k : ℕ) (hlevel : 1 ≤ level) (h : level ≤ k) :
    children mem level p ⊆ children mem k p := by
  intro c hc
  obtain ⟨i, hi, hchild⟩ := List.mem_filterMap.1 hc
  refine List.mem_filterMap.2 ⟨i, hi, ?_⟩
  simp only [child] at hchild ⊢
  split_ifs at hchild with h₁ h₂
  rw [if_neg fun he ↦ he.elim (fun he ↦ h₁ (.inl he)) fun he ↦ by omega,
    if_neg fun he ↦ h₂ ⟨by omega, he.2⟩]
  exact hchild

theorem entry_none (h : child mem (level + 1) p i = none) :
    (if mem p i &&& 1 = 0 ∨ level = 0 then st
      else if (level = 2 ∨ level = 1) ∧ mem p i &&& 0x80 ≠ 0 then st
      else if (mem p i &&& pteAddrMask).toNat ≠ 0 ∧
        physIsDescribed entries (mem p i &&& pteAddrMask).toNat = true then
        reservePageTableTree mem entries level (mem p i &&& pteAddrMask).toNat st
      else st) = st := by
  simp only [child, Nat.add_eq_right, Nat.reduceEqDiff] at h
  split_ifs at h with h₁ h₂
  · rw [if_pos h₁]
  · rw [if_neg h₁, if_pos h₂]

theorem entry_some {c : ℕ} (h : child mem (level + 1) p i = some c) (hne : c ≠ 0)
    (hdescribed : physIsDescribed entries c = true) :
    (if mem p i &&& 1 = 0 ∨ level = 0 then st
      else if (level = 2 ∨ level = 1) ∧ mem p i &&& 0x80 ≠ 0 then st
      else if (mem p i &&& pteAddrMask).toNat ≠ 0 ∧
        physIsDescribed entries (mem p i &&& pteAddrMask).toNat = true then
        reservePageTableTree mem entries level (mem p i &&& pteAddrMask).toNat st
      else st) = reservePageTableTree mem entries level c st := by
  simp only [child, Nat.add_eq_right, Nat.reduceEqDiff] at h
  split_ifs at h with h₁ h₂
  obtain rfl := Option.some.inj h
  rw [if_neg h₁, if_neg h₂, if_pos ⟨hne, hdescribed⟩]

structure Sees (s₀ : PmmState) (mem : ℕ → ℕ → UInt64) (entries : Memmap) (tables : Finset ℕ)
    (p level : ℕ) : Prop where
  mem_tables : p ∈ tables
  aligned : pageOf p = p
  bound : p ≤ pteAddrMask.toNat
  ne_zero : p ≠ 0
  described : physIsDescribed entries p = true
  virt : children mem level p ≠ [] → s₀.physToVirtOk p = true

theorem pending_lt {s₀ : PmmState} {tables : Finset ℕ} {met : List ℕ} (hnodup : met.Nodup)
    (hp : p ∉ met) (hpending : s₀.pendingIn p = true) (hins : insert p met.toFinset ⊆ tables) :
    met.countP s₀.pendingIn < (tables.filter fun p ↦ s₀.pendingIn p).card := by
  have hcard : ((insert p met.toFinset).filter fun p ↦ s₀.pendingIn p).card =
      met.countP s₀.pendingIn + 1 := by
    rw [Finset.filter_insert, if_pos hpending, Finset.card_insert_of_notMem (by simp [hp]),
      ← List.toFinset_filter, List.toFinset_card_of_nodup (hnodup.filter _),
      List.countP_eq_length_filter]
  have hle := Finset.card_le_card (Finset.filter_subset_filter (fun p ↦ s₀.pendingIn p = true) hins)
  omega

theorem reservePageTableTree_scanning {s₀ : PmmState} {tables : Finset ℕ} {root : ℕ}
    (hsees : ∀ p level, Descends (children mem) root 4 p level → 1 ≤ level →
      Sees s₀ mem entries tables p level)
    (hcard : tables.card ≤ maxPageTables)
    (hroom : s₀.reservedPages.length + (tables.filter fun p ↦ s₀.pendingIn p).card ≤
      maxReservedPages)
    {met : List (ℕ × ℕ)} (h : Scanning s₀ met st) (hsub : ∀ x ∈ met, x.1 ∈ tables)
    (hp : Descends (children mem) root 4 p level) :
    Scanning s₀ (meet (children mem) level p met) (reservePageTableTree mem entries level p st) ∧
      ∀ x ∈ meet (children mem) level p met, x.1 ∈ tables := by
  induction level generalizing p met st with
  | zero => exact ⟨h, hsub⟩
  | succ level ih =>
    obtain ⟨s, t⟩ := st
    obtain ⟨hmem, haligned, hbound, hne, hdescribed, hvirt⟩ :=
      hsees p (level + 1) hp (Nat.succ_pos level)
    rw [reservePageTableTree, meet]
    simp only [haligned, hne, Nat.not_lt.2 hbound, hdescribed, or_self, if_false, Bool.true_eq_false]
    by_cases hmet : p ∈ met.map Prod.fst
    · rw [if_pos hmet, h.holds.seen (List.mem_toFinset.2 hmet)]
      exact ⟨h, hsub⟩
    · rw [if_neg hmet]
      have hins : insert p (met.map Prod.fst).toFinset ⊆ tables := by
        intro q hq
        rcases Finset.mem_insert.1 hq with rfl | hq
        · exact hmem
        · obtain ⟨x, hx, rfl⟩ := List.mem_map.1 (List.mem_toFinset.1 hq)
          exact hsub x hx
      have hlt : met.length < tables.card := by
        have hle := Finset.card_le_card hins
        rw [Finset.card_insert_of_notMem (by rwa [List.mem_toFinset]),
          List.toFinset_card_of_nodup h.nodup, List.length_map] at hle
        omega
      obtain ⟨t', hseen, hholds⟩ := h.holds.insert hne (by rwa [List.mem_toFinset])
        (by rw [List.toFinset_card_of_nodup h.nodup, List.length_map]; omega)
      rw [hseen]
      have hlist : s.isReserved p = false → s.reservedPages.length < maxReservedPages := by
        intro hr
        have hpending : s₀.pendingIn p = true := by
          rw [pendingIn, Bool.not_eq_true', ← Bool.not_eq_true]
          exact fun h₀ ↦ Bool.false_ne_true (hr.symm.trans (h.kept p h₀))
        have hlen := h.length
        have hcount := pending_lt h.nodup hmet hpending hins
        dsimp only at hlen
        omega
      have hphys : children mem (level + 1) p ≠ [] → (s.reservePage p).1.physToVirtOk p = true := by
        intro hchildren
        rw [physToVirtOk, reservePage_hhdm, h.hhdm]
        exact hvirt hchildren
      have hstart : Scanning s₀ (met ++ [(p, level + 1)]) ((s.reservePage p).1, t') := by
        refine ⟨?_, ?_, fun x hx ↦ ?_, ?_, fun q hq ↦ isReserved_reservePage (h.kept q hq) p,
          (reservePage_hhdm s p).trans h.hhdm⟩
        · have hset : ((met ++ [(p, level + 1)]).map Prod.fst).toFinset =
              insert p (met.map Prod.fst).toFinset := by
            ext q
            rw [List.mem_toFinset, List.map_append, List.mem_append, Finset.mem_insert,
              List.mem_toFinset, or_comm,
              List.map_singleton, List.mem_singleton]
          rw [hset]
          exact hholds
        · rw [List.map_append]
          refine List.Nodup.append h.nodup (List.nodup_singleton p) ?_
          simpa using hmet
        · rcases List.mem_append.1 hx with hx | hx
          · exact (h.reserved x hx).reservePage p
          · rw [List.mem_singleton.1 hx]
            exact reservePage_reserved haligned hne (hbound.trans_lt (by decide)) hlist
        · have hlen := h.length
          have hone := @reservePage_length s p haligned
          have hkept := h.kept p
          rw [List.map_append, List.countP_append, List.map_singleton, List.countP_singleton,
            pendingIn]
          dsimp only at hlen hkept ⊢
          cases h₀ : s₀.isReserved p with
          | true =>
            rw [if_pos (hkept h₀)] at hone
            simp only [Bool.not_true, Bool.false_eq_true, if_false]
            omega
          | false =>
            simp only [Bool.not_false, if_true]
            split_ifs at hone
            · omega
            · omega
      have hsub' : ∀ x ∈ met ++ [(p, level + 1)], x.1 ∈ tables := by
        intro x hx
        rcases List.mem_append.1 hx with hx | hx
        · exact hsub x hx
        · rw [List.mem_singleton.1 hx]
          exact hmem
      dsimp only
      by_cases hreadable : (s.reservePage p).1.physToVirtOk p = false
      · have hnone : children mem (level + 1) p = [] := by
          by_contra hsome
          exact Bool.false_ne_true (hreadable.symm.trans (hphys hsome))
        rw [if_pos hreadable, hnone]
        exact ⟨hstart, hsub'⟩
      rw [if_neg hreadable, children]
      have hall : ∀ i ∈ List.range 512, ∀ c, child mem (level + 1) p i = some c →
          Descends (children mem) root 4 c level :=
        fun i hi c hc ↦ .step hp (List.mem_filterMap.2 ⟨i, hi, hc⟩)
      generalize met ++ [(p, level + 1)] = met at hstart hsub'
      generalize ((s.reservePage p).1, t') = st at hstart
      generalize List.range 512 = l at hall
      induction l generalizing met st with
      | nil => exact ⟨hstart, hsub'⟩
      | cons i l hl =>
        have hnext : ∀ j ∈ l, ∀ c, child mem (level + 1) p j = some c →
            Descends (children mem) root 4 c level :=
          fun j hj ↦ hall j (List.mem_cons_of_mem i hj)
        have hthis := hall i List.mem_cons_self
        rw [List.foldl_cons]
        cases hchild : child mem (level + 1) p i with
        | none =>
          rw [List.filterMap_cons_none hchild, entry_none hchild]
          exact hl _ hsub' _ hstart hnext
        | some c =>
          have hlevel := (child_aligned hchild).2.2
          have hc := hsees c level (hthis c hchild) (by omega)
          rw [List.filterMap_cons_some hchild, List.foldl_cons,
            entry_some hchild hc.ne_zero hc.described]
          obtain ⟨h₁, h₂⟩ := ih hstart hsub' (hthis c hchild)
          exact hl _ h₂ _ h₁ hnext

theorem Reserved.reservePageTableTree {q : ℕ} (h : st.1.Reserved q) (level p : ℕ) :
    (PmmState.reservePageTableTree mem entries level p st).1.Reserved q := by
  induction level generalizing p st with
  | zero => exact h
  | succ level ih =>
    obtain ⟨s, t⟩ := st
    rw [PmmState.reservePageTableTree]
    dsimp only
    split_ifs
    · exact h
    · exact h
    · split
      · exact h
      · exact h.reservePage _
    · split
      · exact h
      · refine List.foldlRecOn (motive := fun st : PmmState × SeenPageTables ↦ st.1.Reserved q) _ _
          (h.reservePage _) fun st hst i _ ↦ ?_
        split_ifs
        · exact hst
        · exact hst
        · exact ih hst _
        · exact hst

/-- Every graph of tables in described memory that is reserved before or that the traversal can
manage: all that the processor can use as tables are reserved. -/
theorem pageTables_reserved (mem : ℕ → ℕ → UInt64) (entries : Memmap) (cr3 : ℕ) (s : PmmState)
    (hdescribed : ∀ p level, Uses mem cr3 p level → physIsDescribed entries p = true)
    (hmanageable : (∀ p level, Uses mem cr3 p level → s.Reserved p) ∨ Manageable s mem cr3)
    (p level : ℕ) (hp : Uses mem cr3 p level) :
    (s.reserveActivePageTables mem entries cr3).Reserved p := by
  rcases hmanageable with hbefore | ⟨hroot, ⟨tables, htables, hcard, hroom⟩, hnonzero, hreadable,
    hordered⟩
  · exact Reserved.reservePageTableTree (hbefore p level hp) 4 cr3
  have haligned : ∀ p level, Descends (children mem) (pageOf cr3) 4 p level → pageOf p = p ∧
      p ≤ pteAddrMask.toNat := by
    intro p level hp
    cases hp with
    | root => exact ⟨pageOf_mul (cr3 / pageSize), hroot⟩
    | step _ hb =>
      obtain ⟨i, -, hchild⟩ := List.mem_filterMap.1 hb
      exact ⟨(child_aligned hchild).1, (child_aligned hchild).2.1⟩
  have hsees : ∀ p level, Descends (children mem) (pageOf cr3) 4 p level → 1 ≤ level →
      Sees s mem entries tables p level := by
    intro p level hp hlevel
    have huses : Uses mem cr3 p level := ⟨hp, hlevel⟩
    exact ⟨htables p level huses, (haligned p level hp).1, (haligned p level hp).2,
      hnonzero p level huses,
      hdescribed p level huses, hreadable p level huses⟩
  have hempty : Scanning s [] (s, ⟨fun _ ↦ 0, 0⟩) :=
    ⟨SeenPageTables.holds_empty, List.nodup_nil, fun x hx ↦ (by cases hx), le_rfl, fun _ h ↦ h, rfl⟩
  obtain ⟨hscan, -⟩ :=
    reservePageTableTree_scanning hsees hcard hroom hempty (fun x hx ↦ by cases hx) .root
  obtain ⟨k, -, hmem⟩ := meet_complete (children_mono mem) hordered hp.1 hp.2
  have hreserved := hscan.reserved (p, k) hmem
  have hroot' : reservePageTableTree mem entries 4 cr3 (s, ⟨fun _ ↦ 0, 0⟩) =
      reservePageTableTree mem entries 4 (pageOf cr3) (s, ⟨fun _ ↦ 0, 0⟩) := by
    have hpage : pageOf (pageOf cr3) = pageOf cr3 := pageOf_mul (cr3 / pageSize)
    rw [reservePageTableTree, reservePageTableTree, hpage]
  rw [reserveActivePageTables, hroot']
  exact hreserved

def tablesAt16MiB : Memmap := [some ⟨0x1000000, 0x10000, 1⟩]

def selfMap (_ i : ℕ) : UInt64 := if i = 511 then 0x1000003 else 0

theorem pageTables_reserved_selfMap :
    ((zero 0xffff800000000000).reserveActivePageTables selfMap tablesAt16MiB 0x1000000).Reserved
      0x1000000 := by
  have honly : ∀ p level c, c ∈ children selfMap level p → c = 0x1000000 := by
    intro p level c hc
    obtain ⟨i, -, hchild⟩ := List.mem_filterMap.1 hc
    simp only [child] at hchild
    split_ifs at hchild with h₁ _
    obtain rfl := Option.some.inj hchild
    by_cases hi : i = 511
    · rw [selfMap, if_pos hi]
      rfl
    · rw [selfMap, if_neg hi] at h₁
      exact absurd (.inl (by decide)) h₁
  have hall : ∀ p level, Uses selfMap 0x1000000 p level → p = 0x1000000 := by
    rintro p level ⟨hp, -⟩
    cases hp with
    | root => rfl
    | step _ hb => exact honly _ _ p hb
  have hordered : Ordered (children selfMap) 4 (pageOf 0x1000000) [] := by
    have hfour : children selfMap 4 0x1000000 = [0x1000000] := by decide +kernel
    have hroot : pageOf 0x1000000 = 0x1000000 := rfl
    rw [hroot, Ordered, if_neg (by simp), hfour]
    rintro pre b post he
    obtain ⟨rfl, rfl, rfl⟩ : pre = [] ∧ b = 0x1000000 ∧ post = [] := by
      rcases pre with _ | ⟨x, pre⟩
      · simpa using he.symm
      · simp at he
    rw [Ordered, if_pos (by simp)]
    exact ⟨4, by decide, by simp⟩
  refine pageTables_reserved selfMap tablesAt16MiB 0x1000000 (zero 0xffff800000000000)
    (fun p level hp ↦ ?_)
    (.inr ⟨by decide, ⟨{0x1000000}, fun p level hp ↦ ?_, by decide, by decide +kernel⟩,
      fun p level hp ↦ ?_,
      fun p level hp _ ↦ ?_, hordered⟩) 0x1000000 4 ⟨.root, by decide⟩
  · rw [hall p level hp]
    decide +kernel
  · rw [hall p level hp]
    exact Finset.mem_singleton_self _
  · rw [hall p level hp]
    decide
  · rw [hall p level hp]
    decide +kernel

/-- Five tables in a row, with the fourth one also at the second entry of the first. -/
def sharedTable (p i : ℕ) : UInt64 :=
  match p, i with
  | 0x1000000, 0 => 0x1001003
  | 0x1001000, 0 => 0x1002003
  | 0x1002000, 0 => 0x1003003
  | 0x1003000, 0 => 0x1004003
  | 0x1000000, 1 => 0x1003003
  | _, _ => 0

theorem sharedTable_described :
    ∀ p level, Uses sharedTable 0x1000000 p level → physIsDescribed tablesAt16MiB p = true := by
  rintro p level ⟨hp, -⟩
  cases hp with
  | root => decide +kernel
  | step _ hb =>
    obtain ⟨i, -, hchild⟩ := List.mem_filterMap.1 hb
    simp only [child] at hchild
    split_ifs at hchild with h₁ _
    obtain rfl := Option.some.inj hchild
    unfold sharedTable at h₁ ⊢
    split at h₁
    · decide +kernel
    · decide +kernel
    · decide +kernel
    · decide +kernel
    · decide +kernel
    · exact absurd (.inl (by decide)) h₁

/-- The fourth table is met at the first level, and its own table is missed when it is met again at
the third. -/
theorem not_pageTables_reserved :
    (∀ p level, Uses sharedTable 0x1000000 p level → physIsDescribed tablesAt16MiB p = true) ∧
      Uses sharedTable 0x1000000 0x1004000 2 ∧
      ¬ ((zero 0xffff800000000000).reserveActivePageTables sharedTable tablesAt16MiB
        0x1000000).Reserved 0x1004000 := by
  have hlist : ((zero 0xffff800000000000).reserveActivePageTables sharedTable tablesAt16MiB
      0x1000000).reservedPages =
      [0x1000000, 0x1001000, 0x1002000, 0x1003000] := by decide +kernel
  have hclear : ((zero 0xffff800000000000).reserveActivePageTables sharedTable tablesAt16MiB
      0x1000000).isReserved 0x1004000 =
      false := by decide +kernel
  refine ⟨sharedTable_described, ⟨?_, by decide⟩, ?_⟩
  · have hthird : Descends (children sharedTable) (pageOf 0x1000000) 4 0x1003000 3 :=
      .step .root (by decide +kernel : 0x1003000 ∈ children sharedTable 4 0x1000000)
    exact .step hthird (by decide +kernel : 0x1004000 ∈ children sharedTable 3 0x1003000)
  · rintro (hmem | hres)
    · rw [hlist] at hmem
      exact absurd hmem (by decide)
    · rw [hclear] at hres
      cases hres

end PmmState

end YabroOS.Memory
