import YabroOS.Fat.Reads

namespace YabroOS.Fat

open Lib

namespace Volume

variable {f : Volume} {c k : ℕ} {path lfn : List UInt8} {l l' : List ℕ}

def scanItems (f : Volume) (path : List UInt8) :
    List ℕ → List UInt8 → List ImportItem × Option (List UInt8)
  | [], lfn => ([], some lfn)
  | e :: l, lfn =>
    match f.importStep path lfn e with
    | .inr () => ([], none)
    | .inl (lfn, items) => (items ++ (scanItems f path l lfn).1, (scanItems f path l lfn).2)

theorem scanItems_end {e : ℕ} (h : f.importStep path lfn e = .inr ()) :
    f.scanItems path (e :: l) lfn = ([], none) := by
  rw [scanItems, h]

theorem scanItems_cons {e : ℕ} {lfn' : List UInt8} {items : List ImportItem}
    (h : f.importStep path lfn e = .inl (lfn', items)) :
    f.scanItems path
    (e :: l) lfn = (items ++ (f.scanItems path l lfn').1, (f.scanItems path l lfn').2) := by
  rw [scanItems, h]

theorem scanItems_append : f.scanItems path (l ++ l') lfn =
    match f.scanItems path l lfn with
    | (items, none) => (items, none)
    | (items, some lfn) => (items ++ (f.scanItems path l' lfn).1, (f.scanItems path l' lfn).2) := by
  induction l generalizing lfn with
  | nil => rfl
  | cons e l ih =>
    rw [List.cons_append]
    cases hstep : f.importStep path lfn e with
    | inr u =>
      rw [scanItems_end hstep, scanItems_end hstep]
    | inl r =>
      obtain ⟨lfn', items⟩ := r
      rw [scanItems_cons hstep, scanItems_cons hstep, ih]
      rcases f.scanItems path l lfn' with ⟨items', rest⟩
      cases rest with
      | none => rfl
      | some lfn'' => simp only [List.append_assoc]

variable {enter enter' : ℕ → List UInt8 → Out (List ImportCall)} {calls : List ImportCall}
  {items : List ImportItem} {fuel : ℕ}

theorem performItems_returns : (∃ calls, performItems enter items = .ret calls) ↔
    ∀ c p, .enter c p ∈ items → ∃ calls, enter c p = .ret calls := by
  induction items with
  | nil =>
    constructor
    · exact fun _ c p h ↦ by cases h
    · exact fun _ ↦ ⟨[], rfl⟩
  | cons item items ih =>
    cases item with
    | call a =>
      rw [performItems]
      constructor
      · rintro ⟨calls, h⟩ c p hmem
        obtain ⟨calls', hrest, -⟩ := Out.bind_eq_ret.1 h
        exact ih.1 ⟨calls', hrest⟩ c p ((List.mem_cons.1 hmem).resolve_left nofun)
      · intro h
        obtain ⟨calls, hrest⟩ := ih.2 (fun c p hmem ↦ h c p (.tail _ hmem))
        exact ⟨a :: calls, Out.bind_eq_ret.2 ⟨calls, hrest, rfl⟩⟩
    | enter c₀ p₀ =>
      rw [performItems]
      constructor
      · rintro ⟨calls, h⟩ c p hmem
        obtain ⟨calls₀, hfirst, h⟩ := Out.bind_eq_ret.1 h
        obtain ⟨calls₁, hrest, -⟩ := Out.bind_eq_ret.1 h
        obtain heq | hmem := List.mem_cons.1 hmem
        · cases heq
          exact ⟨calls₀, hfirst⟩
        · exact ih.1 ⟨calls₁, hrest⟩ c p hmem
      · intro h
        obtain ⟨calls₀, hfirst⟩ := h c₀ p₀ (.head _)
        obtain ⟨calls₁, hrest⟩ := ih.2 (fun c p hmem ↦ h c p (.tail _ hmem))
        exact ⟨calls₀ ++ calls₁,
          Out.bind_eq_ret.2 ⟨calls₀, hfirst, Out.bind_eq_ret.2 ⟨calls₁, hrest, rfl⟩⟩⟩

theorem each_import
    (h : ∀ c p, .enter c p ∈ (f.scanItems path l lfn).1 → ∃ calls, enter c p = .ret calls)
    (calls : List ImportCall) : ∃ calls', Out.each (f.importEntry enter path) l (lfn, calls) =
      .ret (match (f.scanItems path l lfn).2 with
        | some lfn' => .inl (lfn', calls')
        | none => .inr calls') := by
  induction l generalizing lfn calls with
  | nil => exact ⟨calls, rfl⟩
  | cons e l ih =>
    rw [Out.each]
    cases hstep : f.importStep path lfn e with
    | inr u =>
      refine ⟨calls, ?_⟩
      simp only [importEntry, hstep, scanItems_end hstep, Out.ret_bind]
    | inl r =>
      obtain ⟨lfn', items⟩ := r
      rw [scanItems_cons hstep] at h ⊢
      obtain ⟨calls₁, hperf⟩ :=
        performItems_returns.2 (fun c p hmem ↦ h c p (List.mem_append_left _ hmem))
      obtain ⟨calls', hrest⟩ :=
        ih (fun c p hmem ↦ h c p (List.mem_append_right _ hmem)) (calls ++ calls₁)
      refine ⟨calls', ?_⟩
      simp only [importEntry, hstep, hperf, Out.ret_bind]
      exact hrest

theorem each_import_entered {r : List UInt8 × List ImportCall ⊕ List ImportCall}
    (h : Out.each (f.importEntry enter path) l (lfn, calls) = .ret r) :
    ∀ c p, .enter c p ∈ (f.scanItems path l lfn).1 → ∃ calls, enter c p = .ret calls := by
  induction l generalizing lfn calls with
  | nil => exact fun c p hmem ↦ absurd hmem List.not_mem_nil
  | cons e l ih =>
    rw [Out.each] at h
    cases hstep : f.importStep path lfn e with
    | inr u =>
      rw [scanItems_end hstep]
      exact fun c p hmem ↦ absurd hmem List.not_mem_nil
    | inl q =>
      obtain ⟨lfn', items⟩ := q
      simp only [importEntry, hstep] at h
      obtain ⟨r', hr', h⟩ := Out.bind_eq_ret.1 h
      obtain ⟨calls₁, hperf, hr'⟩ := Out.bind_eq_ret.1 hr'
      cases hr'
      rw [scanItems_cons hstep]
      intro c p hmem
      obtain hmem | hmem := List.mem_append.1 hmem
      · exact performItems_returns.1 ⟨calls₁, hperf⟩ c p hmem
      · exact ih h c p hmem

theorem importCluster_valid (h : f.fatClusterValid c = true) (s : List UInt8 × List ImportCall) :
    f.importCluster enter path s c = Out.each (f.importEntry enter path) (f.entriesOf c) s := by
  rw [← eachEntry_valid h, importCluster, clusterToPtr_valid h]

theorem importCluster_invalid (h : f.fatClusterValid c = false) (s : List UInt8 × List ImportCall) :
    f.importCluster enter path s c = .ret (.inr s.2) := by
  rw [importCluster, clusterToPtr_invalid h]

theorem performItems_mono (henter : ∀ c p, Out.Le (enter c p) (enter' c p))
    (items : List ImportItem) : Out.Le (performItems enter items) (performItems enter' items) := by
  induction items with
  | nil => exact .refl _
  | cons item items ih =>
    cases item with
    | call a => exact ih.bind (fun _ ↦ .refl _)
    | enter c p => exact (henter c p).bind (fun _ ↦ ih.bind (fun _ ↦ .refl _))

theorem importCluster_mono (henter : ∀ c p, Out.Le (enter c p) (enter' c p))
    (s : List UInt8 × List ImportCall) (c : ℕ) :
    Out.Le (f.importCluster enter path s c) (f.importCluster enter' path s c) := by
  unfold importCluster
  cases f.clusterToPtr c with
  | none => exact .refl _
  | some p =>
    refine Out.each_mono (fun s i ↦ Out.Le.bind (.refl _) (fun e ↦ ?_)) _ s
    unfold importEntry
    cases f.importStep path s.1 e with
    | inr u => exact .refl _
    | inl r => exact (performItems_mono henter _).bind (fun _ ↦ .refl _)

theorem import_mono {fuel' : ℕ} (h : fuel ≤ fuel') (depth c : ℕ) (path : List UInt8) :
    Out.Le (f.importFatDirIntoVfs fuel depth c path) (f.importFatDirIntoVfs fuel' depth c path) := by
  induction depth generalizing c path with
  | zero => exact .refl _
  | succ depth ih =>
    refine Out.loop_mono ?_ h _
    rintro ⟨s, c'⟩
    exact (importCluster_mono ih s c').bind (fun r ↦ .refl _)

/-- The chain of every directory that the import enters has an end: a cluster that is not valid, or
the mark of the end among its entries. -/
def ImportSound (f : Volume) : ℕ → ℕ → List UInt8 → Prop
  | 0, _, _ => True
  | depth + 1, c, path => ∃ n, (∀ i < n, f.fatClusterValid (f.chain c i) = true) ∧
      (f.fatClusterValid (f.chain c n) = false ∨ (f.scanItems path (f.dir c n) noLfn).2 = none) ∧
      ∀ c' p', .enter c' p' ∈ (f.scanItems path (f.dir c n) noLfn).1 → ImportSound f depth c' p'

theorem exists_fuel {depth : ℕ} (items : List ImportItem)
    (h : ∀ c p, .enter c p ∈ items →
      ∃ fuel calls, f.importFatDirIntoVfs fuel depth c p = .ret calls) (n : ℕ) :
    ∃ fuel, n ≤ fuel ∧ ∀ c p, .enter c p ∈ items →
      ∃ calls, f.importFatDirIntoVfs fuel depth c p = .ret calls := by
  induction items with
  | nil => exact ⟨n, le_rfl, fun c p hmem ↦ by cases hmem⟩
  | cons item items ih =>
    obtain ⟨fuel, hn, hall⟩ := ih (fun c p hmem ↦ h c p (.tail _ hmem))
    cases item with
    | call a => exact ⟨fuel, hn, fun c p hmem ↦ hall c p ((List.mem_cons.1 hmem).resolve_left nofun)⟩
    | enter c₀ p₀ =>
      obtain ⟨fuel₀, calls₀, h₀⟩ := h c₀ p₀ (.head _)
      refine ⟨max fuel fuel₀, hn.trans (le_max_left _ _), fun c p hmem ↦ ?_⟩
      obtain heq | hmem := List.mem_cons.1 hmem
      · cases heq
        exact ⟨calls₀, import_mono (le_max_right _ _) depth _ _ _ h₀⟩
      · obtain ⟨calls, hcalls⟩ := hall c p hmem
        exact ⟨calls, import_mono (le_max_left _ _) depth c p _ hcalls⟩

theorem dir_one (f : Volume) (c : ℕ) : f.dir c 1 = f.entriesOf c := by
  rw [dir_succ]
  exact List.append_nil _

theorem import_loop_returns {n : ℕ}
    (henter : ∀ c' p', .enter c' p' ∈ (f.scanItems path (f.dir c n) lfn).1 →
      ∃ calls, enter c' p' = .ret calls)
    (hvalid : ∀ i < n, f.fatClusterValid (f.chain c i) = true)
    (hend : f.fatClusterValid (f.chain c n) = false ∨ (f.scanItems path (f.dir c n) lfn).2 = none)
    (hn : n < fuel) (calls : List ImportCall) :
    ∃ calls', Out.loop (f.chainRound (f.importCluster enter path) Prod.snd) fuel ((lfn, calls), c) =
      .ret calls' := by
  induction n generalizing c lfn calls fuel with
  | zero =>
    obtain ⟨fuel, rfl⟩ := Nat.exists_eq_add_of_lt hn
    have hc : f.fatClusterValid c = false := hend.resolve_right nofun
    exact ⟨calls, Out.loop_of_inr (chainRound_of_inr (importCluster_invalid hc (lfn, calls)))⟩
  | succ n ih =>
    obtain ⟨fuel, rfl⟩ : ∃ m, fuel = m + 1 := ⟨fuel - 1, by omega⟩
    have hc : f.fatClusterValid c = true := hvalid 0 (Nat.succ_pos n)
    rw [dir_succ, scanItems_append] at henter hend
    rcases hscan : f.scanItems path (f.entriesOf c) lfn with ⟨items, rest⟩
    rw [hscan] at henter hend
    have hfirst : ∀ c' p', .enter c' p' ∈ (f.scanItems path (f.entriesOf c) lfn).1 →
        ∃ calls, enter c' p' = .ret calls := by
      intro c' p' hmem
      rw [hscan] at hmem
      cases rest with
      | none => exact henter c' p' hmem
      | some lfn' => exact henter c' p' (List.mem_append_left _ hmem)
    obtain ⟨calls', heach⟩ := each_import hfirst calls
    rw [← importCluster_valid hc, hscan] at heach
    cases rest with
    | none => exact ⟨calls', Out.loop_of_inr (chainRound_of_inr heach)⟩
    | some lfn' =>
      have hround := chainRound_of_inl f Prod.snd heach
      by_cases hlast : f.Last c
      · rw [if_pos hlast] at hround
        exact ⟨calls', Out.loop_of_inr hround⟩
      · rw [if_neg hlast] at hround
        rw [Out.loop_of_inl hround]
        exact ih (fun c' p' hmem ↦ henter c' p' (List.mem_append_right _ hmem))
          (fun i hi ↦ hvalid (i + 1) (Nat.succ_lt_succ hi)) hend (Nat.lt_of_succ_lt_succ hn) calls'

theorem import_loop_ends {calls calls' : List ImportCall}
    (h : Out.loop (f.chainRound (f.importCluster enter path) Prod.snd) fuel ((lfn, calls), c) =
      .ret calls') :
    ∃ n, (∀ i < n, f.fatClusterValid (f.chain c i) = true) ∧
      (f.fatClusterValid (f.chain c n) = false ∨ (f.scanItems path (f.dir c n) lfn).2 = none) ∧
      ∀ c' p', .enter c' p' ∈ (f.scanItems path (f.dir c n) lfn).1 →
        ∃ calls, enter c' p' = .ret calls := by
  induction fuel generalizing c lfn calls with
  | zero => cases h
  | succ fuel ih =>
    by_cases hc : f.fatClusterValid c = true
    swap
    · have hc : f.fatClusterValid c = false := by simpa using hc
      exact ⟨0, fun i hi ↦ absurd hi (Nat.not_lt_zero i), .inl hc, fun c' p' hmem ↦ by cases hmem⟩
    have hone : ∀ i < 1, f.fatClusterValid (f.chain c i) = true := fun i hi ↦ by
      obtain rfl := Nat.lt_one_iff.1 hi
      exact hc
    obtain ⟨r, hround, -⟩ := Out.bind_eq_ret.1 h
    obtain ⟨r', hbody, -⟩ := Out.bind_eq_ret.1 hround
    have hbody : f.importCluster enter path (lfn, calls) c = .ret r' := hbody
    rw [importCluster_valid hc] at hbody
    have hentered := each_import_entered hbody
    obtain ⟨calls₁, heach⟩ := each_import hentered calls
    have hr' := Out.ret.inj (hbody.symm.trans heach)
    rcases hscan : f.scanItems path (f.entriesOf c) lfn with ⟨items, rest⟩
    rw [hscan] at hr' hentered
    cases rest with
    | none =>
      refine ⟨1, hone, .inr ?_, ?_⟩
      · rw [dir_one, hscan]
      · rw [dir_one, hscan]
        exact hentered
    | some lfn' =>
      rw [hr', ← importCluster_valid hc] at hbody
      have hround := chainRound_of_inl f Prod.snd hbody
      by_cases hlast : f.Last c
      · refine ⟨1, hone, .inl (not_valid_of_last hlast), ?_⟩
        rw [dir_one, hscan]
        exact hentered
      · rw [if_neg hlast] at hround
        rw [Out.loop_of_inl hround] at h
        obtain ⟨n, hvalid, hend, henter⟩ := ih h
        refine ⟨n + 1, fun i hi ↦ ?_, ?_, ?_⟩
        · cases i with
          | zero => exact hc
          | succ i => exact hvalid i (Nat.lt_of_succ_lt_succ hi)
        · rw [dir_succ, scanItems_append, hscan]
          exact hend
        · rw [dir_succ, scanItems_append, hscan]
          intro c' p' hmem
          obtain hmem | hmem := List.mem_append.1 hmem
          · exact hentered c' p' hmem
          · exact henter c' p' hmem

theorem import_returns {depth : ℕ} :
    (∃ fuel calls, f.importFatDirIntoVfs fuel depth c path = .ret calls) ↔
    f.ImportSound depth c path := by
  induction depth generalizing c path with
  | zero => exact ⟨fun _ ↦ trivial, fun _ ↦ ⟨0, [], rfl⟩⟩
  | succ depth ih =>
    constructor
    · rintro ⟨fuel, calls, h⟩
      obtain ⟨n, hvalid, hend, henter⟩ := import_loop_ends h
      refine ⟨n, hvalid, hend, fun c' p' hmem ↦ ?_⟩
      obtain ⟨calls', hcalls⟩ := henter c' p' hmem
      exact ih.1 ⟨fuel, calls', hcalls⟩
    · rintro ⟨n, hvalid, hend, henter⟩
      obtain ⟨fuel, hn, hfuel⟩ := exists_fuel _ (fun c' p' hmem ↦ ih.2 (henter c' p' hmem)) (n + 1)
      obtain ⟨calls, h⟩ := import_loop_returns hfuel hvalid hend hn []
      exact ⟨fuel, calls, h⟩

end Volume

end YabroOS.Fat
