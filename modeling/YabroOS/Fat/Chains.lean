import Mathlib.Data.Nat.Find
import YabroOS.Fat.Image

namespace YabroOS.Fat

open Lib

namespace Volume

variable (f : Volume)

def next (c : ℕ) : ℕ :=
  if f.bytesPerSector = 0 then 0x0FFFFFFF
  else if f.fatSize * f.bytesPerSector < c * 4 + 4 ∨ f.size < f.fatStart + c * 4 + 4 then 0x0FFFFFFF
  else f.le32 (f.fatStart + c * 4) % 2 ^ 28

def chain (c k : ℕ) : ℕ := f.next^[k] c

def Last (c : ℕ) : Prop := 0x0FFFFFF8 ≤ f.next c

instance (c : ℕ) : Decidable (f.Last c) := inferInstanceAs (Decidable (_ ≤ _))

def entriesOf (c : ℕ) : List ℕ :=
  (List.range f.perCluster).map (fun i ↦ f.dataStart + (c - 2) * f.clusterSize + 32 * i)

def dir (c k : ℕ) : List ℕ := (List.range k).flatMap (fun i ↦ f.entriesOf (f.chain c i))

variable {f} {c k : ℕ}

theorem nextCluster_eq (f : Volume) (c : ℕ) : f.nextCluster c = .ret (f.next c) := by
  unfold nextCluster next
  split_ifs with h₁ h₂
  · rfl
  · rfl
  · rw [not_or, not_lt, not_lt] at h₂
    rw [read32, if_pos h₂.2]
    rfl

theorem chain_succ' (f : Volume) (c k : ℕ) : f.chain c (k + 1) = f.next (f.chain c k) :=
  Function.iterate_succ_apply' f.next k c

theorem chain_add (f : Volume) (c j k : ℕ) : f.chain c (j + k) = f.chain (f.chain c j) k := by
  rw [chain, Nat.add_comm, Function.iterate_add_apply]
  rfl

theorem dir_succ (f : Volume) (c k : ℕ) :
    f.dir c (k + 1) = f.entriesOf c ++ f.dir (f.next c) k := by
  rw [dir, List.range_succ_eq_map, List.flatMap_cons, List.flatMap_map]
  rfl

theorem dir_succ' (f : Volume) (c k : ℕ) :
    f.dir c (k + 1) = f.dir c k ++ f.entriesOf (f.chain c k) := by
  rw [dir, List.range_succ, List.flatMap_append, List.flatMap_singleton]
  rfl

theorem dir_add (f : Volume) (c j k : ℕ) :
    f.dir c (j + k) = f.dir c j ++ f.dir (f.chain c j) k := by
  induction k with
  | zero => exact (List.append_nil _).symm
  | succ k ih => rw [← Nat.add_assoc, dir_succ', dir_succ', ih, chain_add, List.append_assoc]

theorem clusterValid_iff : f.fatClusterValid c = true ↔
    2 ≤ c ∧ c < 0x0FFFFFF7 ∧ f.clusterSize ≠ 0 ∧ c - 2 < (f.size - f.dataStart) / f.clusterSize := by
  rw [fatClusterValid, decide_eq_true_eq]
  constructor
  · exact fun h ↦ ⟨h.2.2.1, h.2.2.2.1, h.2.2.2.2.1, h.2.2.2.2.2⟩
  · intro h
    have hne : f.sectorsPerCluster ≠ 0 ∧ f.bytesPerSector ≠ 0 := Nat.mul_ne_zero_iff.1 h.2.2.1
    exact ⟨hne.2, hne.1, h.1, h.2.1, h.2.2.1, h.2.2.2⟩

theorem not_last_of_valid (h : f.fatClusterValid (f.next c) = true) : ¬ f.Last c := by
  have hlt := (clusterValid_iff.1 h).2.1
  unfold Last
  omega

theorem not_valid_of_last (h : f.Last c) : f.fatClusterValid (f.next c) = false := by
  by_contra hv
  exact not_last_of_valid (Bool.not_eq_false _ ▸ hv) h

theorem cluster_inside (h : f.fatClusterValid c = true) :
    f.dataStart + (c - 2) * f.clusterSize + f.clusterSize ≤ f.size := by
  obtain ⟨-, -, hsize, hlt⟩ := clusterValid_iff.1 h
  have hmul : (c - 2 + 1) * f.clusterSize ≤ f.size - f.dataStart :=
    (Nat.mul_le_mul_right _ hlt).trans (Nat.div_mul_le_self _ _)
  rw [Nat.add_mul, Nat.one_mul] at hmul
  have hpos := Nat.pos_of_ne_zero hsize
  omega

theorem clusterToPtr_valid (h : f.fatClusterValid c = true) :
    f.clusterToPtr c = some (f.dataStart + (c - 2) * f.clusterSize) := by
  have hin := cluster_inside h
  have hpos := Nat.pos_of_ne_zero (clusterValid_iff.1 h).2.2.1
  rw [clusterToPtr, if_neg (by rw [h]; decide), if_neg (by omega)]

theorem clusterToPtr_invalid (h : f.fatClusterValid c = false) : f.clusterToPtr c = none := by
  rw [clusterToPtr, if_pos h]

variable {σ α : Type} {step : σ → ℕ → Out (σ ⊕ α)} {s : σ}

theorem eachEntry_inside {o : ℕ} (l : List ℕ) (hin : ∀ i ∈ l, o + 32 * (i + 1) ≤ f.size) (s : σ) :
    f.eachEntry step (some o) l s = Out.each step (l.map (fun i ↦ o + 32 * i)) s := by
  induction l generalizing s with
  | nil => rfl
  | cons i l ih =>
    have ih := ih (fun j hj ↦ hin j (.tail _ hj))
    unfold eachEntry at ih ⊢
    rw [List.map_cons, Out.each, Out.each]
    simp only [readEntry, if_pos (hin i (.head _)), Out.ret_bind]
    congr 1
    funext r
    cases r with
    | inl s₁ => exact ih s₁
    | inr a => rfl

theorem eachEntry_valid (h : f.fatClusterValid c = true) (s : σ) :
    f.eachEntry step (f.clusterToPtr c)
    (List.range f.perCluster) s = Out.each step (f.entriesOf c) s := by
  rw [clusterToPtr_valid h]
  refine eachEntry_inside _ (fun i hi ↦ ?_) s
  have hin := cluster_inside h
  have hi := List.mem_range.1 hi
  unfold perCluster at hi
  omega

/-- A cluster whose entries can be read: a valid one, or any when clusters are too small for
entries. -/
def Open (f : Volume) (c : ℕ) : Prop := f.perCluster = 0 ∨ f.fatClusterValid c = true

theorem eachEntry_open (h : f.Open c) (s : σ) :
    f.eachEntry step (f.clusterToPtr c)
    (List.range f.perCluster) s = Out.each step (f.entriesOf c) s := by
  obtain h | h := h
  · rw [entriesOf, h]
    rfl
  · exact eachEntry_valid h s

theorem eachEntry_not_open (h : ¬ f.Open c) (s : σ) :
    f.eachEntry step (f.clusterToPtr c) (List.range f.perCluster) s = .outside := by
  obtain ⟨h₁, h₂⟩ := not_or.1 h
  obtain ⟨n, hn⟩ := Nat.exists_eq_succ_of_ne_zero h₁
  rw [clusterToPtr_invalid (by simpa using h₂), hn, List.range_succ_eq_map]
  rfl

structure OverEntries (f : Volume) (body : σ → ℕ → Out (σ ⊕ α)) (step : σ → ℕ → Out (σ ⊕ α))
    (ok : ℕ → Prop) : Prop where
  entries : ∀ s c, ok c → body s c = Out.each step (f.entriesOf c) s
  leaves : ∀ s c, ¬ ok c → ∀ s', body s c ≠ .ret (.inl s')

variable {body : σ → ℕ → Out (σ ⊕ α)} {ok : ℕ → Prop} {fin : σ → α} {s' : σ} {c' : ℕ} {a : α}

theorem chainRound_of_inl (f : Volume) (fin : σ → α) (h : body s c = .ret (.inl s')) :
    f.chainRound body fin (s, c) =
      if f.Last c then .ret (.inr (fin s')) else .ret (.inl (s', f.next c)) := by
  simp only [chainRound, h, Out.ret_bind, nextCluster_eq]
  rfl

theorem chainRound_of_inr (h : body s c = .ret (.inr a)) :
    f.chainRound body fin (s, c) = .ret (.inr a) := by
  simp only [chainRound, h, Out.ret_bind]

theorem chainRound_inl : f.chainRound body fin (s, c) = .ret (.inl (s', c')) ↔
    body s c = .ret (.inl s') ∧ ¬ f.Last c ∧ c' = f.next c := by
  constructor
  · intro h
    obtain ⟨r, hr, -⟩ := Out.bind_eq_ret.1 h
    cases r with
    | inr a =>
      rw [chainRound_of_inr hr] at h
      cases h
    | inl t =>
      rw [chainRound_of_inl f fin hr] at h
      by_cases hlast : f.Last c
      · rw [if_pos hlast] at h
        cases h
      · rw [if_neg hlast] at h
        cases h
        exact ⟨hr, hlast, rfl⟩
  · rintro ⟨hr, hlast, rfl⟩
    rw [chainRound_of_inl f fin hr, if_neg hlast]

theorem chainRound_inr : f.chainRound body fin (s, c) = .ret (.inr a) ↔
    body s c = .ret (.inr a) ∨ ∃ t, body s c = .ret (.inl t) ∧ f.Last c ∧ a = fin t := by
  constructor
  · intro h
    obtain ⟨r, hr, -⟩ := Out.bind_eq_ret.1 h
    cases r with
    | inr a' =>
      rw [chainRound_of_inr hr] at h
      cases h
      exact .inl hr
    | inl t =>
      rw [chainRound_of_inl f fin hr] at h
      by_cases hlast : f.Last c
      · rw [if_pos hlast] at h
        cases h
        exact .inr ⟨t, hr, hlast, rfl⟩
      · rw [if_neg hlast] at h
        cases h
  · rintro (hr | ⟨t, hr, hlast, rfl⟩)
    · exact chainRound_of_inr hr
    · rw [chainRound_of_inl f fin hr, if_pos hlast]

theorem OverEntries.rounds (h : f.OverEntries body step ok) :
    Out.Rounds (f.chainRound body fin) k (s, c) (s', c') ↔
      c' = f.chain c k ∧ (∀ i < k, ok (f.chain c i) ∧ ¬ f.Last (f.chain c i)) ∧
        Out.each step (f.dir c k) s = .ret (.inl s') := by
  induction k generalizing s c with
  | zero =>
    constructor
    · intro hs
      cases hs
      exact ⟨rfl, fun i hi ↦ absurd hi (Nat.not_lt_zero i), rfl⟩
    · rintro ⟨rfl, -, hs⟩
      cases hs
      rfl
  | succ k ih =>
    constructor
    · rintro ⟨⟨s₁, c₁⟩, hround, hrest⟩
      obtain ⟨hbody, hlast, rfl⟩ := chainRound_inl.1 hround
      obtain ⟨hc', hall, heach⟩ := ih.1 hrest
      have hok : ok c := by
        by_contra hn
        exact h.leaves s c hn s₁ hbody
      refine ⟨hc', fun i hi ↦ ?_, ?_⟩
      · cases i with
        | zero => exact ⟨hok, hlast⟩
        | succ i => exact hall i (Nat.lt_of_succ_lt_succ hi)
      · rw [dir_succ, Out.each_append_of_inl ((h.entries s c hok).symm.trans hbody), heach]
    · rintro ⟨hc', hall, heach⟩
      rw [dir_succ] at heach
      obtain ⟨s₁, hs₁, hrest⟩ := Out.each_append_inl heach
      refine ⟨(s₁, f.next c), chainRound_inl.2 ⟨?_, (hall 0 (Nat.succ_pos k)).2, rfl⟩, ?_⟩
      · rw [h.entries s c (hall 0 (Nat.succ_pos k)).1, hs₁]
      · exact ih.2 ⟨hc', fun i hi ↦ hall (i + 1) (Nat.succ_lt_succ hi), hrest⟩

end Volume

namespace Volume

variable {f : Volume} {c k fuel : ℕ} {name : List UInt8}

def found (f : Volume) (name : List UInt8) (c k : ℕ) : List UInt8 ⊕ Option ℕ :=
  Out.scan (f.findStep name) (f.dir c k) noLfn

/-- Every cluster of the directory that the search comes to can be read, up to one where it ends:
the last of the chain, or one that has a matching entry or the mark of the end. -/
def FindSound (f : Volume) (c : ℕ) (name : List UInt8) : Prop :=
  ∃ k, (∀ i ≤ k, f.Open (f.chain c i)) ∧
    (f.Last (f.chain c k) ∨ (f.found name c (k + 1)).isRight = true)

def Finds (f : Volume) (c : ℕ) (name : List UInt8) (e : ℕ) : Prop :=
  ∃ k, (∀ i ≤ k, f.Open (f.chain c i)) ∧ (∀ i < k, ¬ f.Last (f.chain c i)) ∧
    f.found name c (k + 1) = .inr (some e)

def Passes (f : Volume) (name : List UInt8) (c k : ℕ) : Prop :=
  ∀ i < k, ¬ f.Last (f.chain c i) ∧ (f.found name c (i + 1)).isRight = false

theorem found_le {j : ℕ} {r : Option ℕ} (hj : j ≤ k) (h : f.found name c j = .inr r) :
    f.found name c k = .inr r := by
  obtain ⟨d, rfl⟩ := Nat.exists_eq_add_of_le hj
  rw [found, dir_add]
  exact Out.scan_append_of_inr h

theorem Passes.found (h : f.Passes name c k) : ∃ lfn, f.found name c k = .inl lfn := by
  cases k with
  | zero => exact ⟨noLfn, rfl⟩
  | succ k =>
    have hk := (h k (Nat.lt_succ_self k)).2
    cases hf : f.found name c (k + 1) with
    | inl lfn => exact ⟨lfn, rfl⟩
    | inr r =>
      rw [hf] at hk
      cases hk

theorem find_overEntries (f : Volume) (name : List UInt8) :
    f.OverEntries
    (fun lfn c ↦ f.eachEntry (fun lfn e ↦ .ret (f.findStep name lfn e)) (f.clusterToPtr c)
      (List.range f.perCluster) lfn) (fun lfn e ↦ .ret (f.findStep name lfn e)) f.Open where
  entries s c h := eachEntry_open h s
  leaves s c h s' := by
    rw [eachEntry_not_open h]
    exact nofun

theorem find_eq_ret {r : Option ℕ} : (∃ fuel, f.findEntryInDirectory fuel c name = .ret r) ↔
    ∃ k, (∀ i ≤ k, f.Open (f.chain c i)) ∧ f.Passes name c k ∧
      (f.found name c (k + 1) = .inr r ∨ (f.found name c (k + 1)).isRight = false ∧
        f.Last (f.chain c k) ∧ r = none) := by
  have hover := find_overEntries f name
  constructor
  · rintro ⟨fuel, h⟩
    obtain ⟨k, -, ⟨lfn, c'⟩, hrounds, hend⟩ := Out.loop_eq_ret.1 h
    obtain ⟨rfl, hall, heach⟩ := hover.rounds.1 hrounds
    have hfound : f.found name c k = .inl lfn := by
      rw [Out.each_pure] at heach
      exact Out.ret.inj heach
    have hopen : f.Open (f.chain c k) := by
      by_contra hn
      rw [chainRound, eachEntry_not_open hn] at hend
      cases hend
    have hsucc : f.found name c (k + 1) = Out.scan (f.findStep name) (f.entriesOf (f.chain c k))
        lfn := by
      rw [found, dir_succ']
      exact Out.scan_append_of_inl hfound
    refine ⟨k, fun i hi ↦ ?_, fun i hi ↦ ⟨(hall i hi).2, ?_⟩, ?_⟩
    · obtain hi | rfl := Nat.lt_or_eq_of_le hi
      · exact (hall i hi).1
      · exact hopen
    · cases hf : f.found name c (i + 1) with
      | inl t => rfl
      | inr r' =>
        rw [found_le hi hf] at hfound
        cases hfound
    · have hend := chainRound_inr.1 hend
      simp only [hover.entries lfn _ hopen, Out.each_pure, ← hsucc] at hend
      obtain hr | ⟨t, ht, hlast, rfl⟩ := hend
      · exact .inl (Out.ret.inj hr)
      · refine .inr ⟨?_, hlast, rfl⟩
        rw [Out.ret.inj ht]
        rfl
  · rintro ⟨k, hopen, hpass, hend⟩
    obtain ⟨lfn, hfound⟩ := hpass.found
    have hsucc : f.found name c (k + 1) = Out.scan (f.findStep name) (f.entriesOf (f.chain c k))
        lfn := by
      rw [found, dir_succ']
      exact Out.scan_append_of_inl hfound
    refine ⟨k + 1, Out.loop_eq_ret.2 ⟨k, Nat.lt_succ_self k, (lfn, f.chain c k), ?_, ?_⟩⟩
    · refine hover.rounds.2 ⟨rfl, fun i hi ↦ ⟨hopen i hi.le, (hpass i hi).1⟩, ?_⟩
      rw [Out.each_pure]
      exact congrArg _ hfound
    · refine chainRound_inr.2 ?_
      simp only [hover.entries lfn _ (hopen k le_rfl), Out.each_pure, ← hsucc]
      obtain hr | ⟨hnone, hlast, rfl⟩ := hend
      · rw [hr]
        exact .inl rfl
      · refine .inr ?_
        cases hf : f.found name c (k + 1) with
        | inl t => exact ⟨t, rfl, hlast, rfl⟩
        | inr r =>
          rw [hf] at hnone
          cases hnone

theorem exists_passes (h : f.Last (f.chain c k) ∨ (f.found name c (k + 1)).isRight = true) :
    ∃ j ≤ k, f.Passes name c j ∧
      (f.Last (f.chain c j) ∨ (f.found name c (j + 1)).isRight = true) := by
  classical
  have hex : ∃ j, f.Last (f.chain c j) ∨ (f.found name c (j + 1)).isRight = true := ⟨k, h⟩
  refine ⟨Nat.find hex, Nat.find_min' hex h, fun i hi ↦ ?_, Nat.find_spec hex⟩
  obtain ⟨hlast, hfound⟩ := not_or.1 (Nat.find_min hex hi)
  exact ⟨hlast, by simpa using hfound⟩

theorem find_returns :
    (∃ fuel r, f.findEntryInDirectory fuel c name = .ret r) ↔ f.FindSound c name := by
  constructor
  · rintro ⟨fuel, r, h⟩
    obtain ⟨k, hopen, -, hend⟩ := find_eq_ret.1 ⟨fuel, h⟩
    refine ⟨k, hopen, ?_⟩
    obtain hr | ⟨-, hlast, -⟩ := hend
    · rw [hr]
      exact .inr rfl
    · exact .inl hlast
  · rintro ⟨k, hopen, hend⟩
    obtain ⟨j, hj, hpass, hend⟩ := exists_passes hend
    have hopen : ∀ i ≤ j, f.Open (f.chain c i) := fun i hi ↦ hopen i (hi.trans hj)
    cases hf : f.found name c (j + 1) with
    | inr r =>
      obtain ⟨fuel, h⟩ := find_eq_ret.2 ⟨j, hopen, hpass, .inl hf⟩
      exact ⟨fuel, r, h⟩
    | inl lfn =>
      rw [hf] at hend
      obtain ⟨fuel, h⟩ :=
        find_eq_ret.2 ⟨j, hopen, hpass, .inr ⟨by rw [hf]; rfl, hend.resolve_right nofun, rfl⟩⟩
      exact ⟨fuel, none, h⟩

theorem find_some {e : ℕ} :
    (∃ fuel, f.findEntryInDirectory fuel c name = .ret (some e)) ↔ f.Finds c name e := by
  rw [find_eq_ret]
  constructor
  · rintro ⟨k, hopen, hpass, hend⟩
    exact ⟨k, hopen, fun i hi ↦ (hpass i hi).1, hend.resolve_right (fun hn ↦ nomatch hn.2.2)⟩
  · rintro ⟨k, hopen, hlast, hfound⟩
    obtain ⟨j, hj, hpass, hend⟩ := exists_passes (k := k) (.inr (by rw [hfound]; rfl))
    refine ⟨j, fun i hi ↦ hopen i (hi.trans hj), hpass, .inl ?_⟩
    obtain hjk | rfl := Nat.lt_or_eq_of_le hj
    · -- the search ends at `j` with the entry, as the chain goes on there
      have hright := hend.resolve_left (hlast j hjk)
      cases hf : f.found name c (j + 1) with
      | inl lfn =>
        rw [hf] at hright
        cases hright
      | inr r => rw [← found_le (Nat.succ_le_succ hj) hf, hfound]
    · exact hfound

theorem find_mono {fuel' : ℕ} (h : fuel ≤ fuel') (c : ℕ) (name : List UInt8) :
    Out.Le (f.findEntryInDirectory fuel c name) (f.findEntryInDirectory fuel' c name) :=
  Out.loop_mono (fun _ ↦ .refl _) h _

variable {check : ℕ → Bool} {names : List (List UInt8)} {e : ℕ}

theorem walk_mono {fuel' : ℕ} (h : fuel ≤ fuel') (c : ℕ) (names : List (List UInt8)) :
    Out.Le (f.walkPath check fuel c names) (f.walkPath check fuel' c names) := by
  induction names generalizing c with
  | nil => exact .refl _
  | cons name rest ih =>
    rw [walkPath, walkPath]
    refine (find_mono h c name).bind (fun r ↦ ?_)
    cases r with
    | none => exact .refl _
    | some e =>
      dsimp only
      split_ifs
      · exact .refl _
      · exact .refl _
      · exact .refl _
      · exact ih _

/-- The directories that the walk along a path enters can be searched. -/
def PathSound (f : Volume) (check : ℕ → Bool) : ℕ → List (List UInt8) → Prop
  | _, [] => True
  | c, name :: rest => f.FindSound c name ∧ ∀ e, f.Finds c name e → rest ≠ [] → f.isDir e = true →
      f.firstCluster e ≠ 0 → check (f.firstCluster e) = true →
        PathSound f check (f.firstCluster e) rest

def Leads (f : Volume) (check : ℕ → Bool) : ℕ → List (List UInt8) → ℕ → Prop
  | _, [], _ => False
  | c, name :: rest, e => ∃ d, f.Finds c name d ∧ (rest = [] ∧ d = e ∨
      rest ≠ [] ∧ f.isDir d = true ∧ f.firstCluster d ≠ 0 ∧ check (f.firstCluster d) = true ∧
        Leads f check (f.firstCluster d) rest e)

theorem walk_of_find {rest : List (List UInt8)}
    (h : f.findEntryInDirectory fuel c name = .ret (some e)) :
    f.walkPath check fuel c (name :: rest) =
      if rest = [] then .ret (some e)
      else if f.isDir e = false then .ret none
      else if f.firstCluster e = 0 ∨ check (f.firstCluster e) = false then .ret none
      else f.walkPath check fuel (f.firstCluster e) rest := by
  rw [walkPath, h]
  rfl

theorem walk_of_none {rest : List (List UInt8)}
    (h : f.findEntryInDirectory fuel c name = .ret none) :
    f.walkPath check fuel c (name :: rest) = .ret none := by
  rw [walkPath, h]
  rfl

theorem walk_some :
    (∃ fuel, f.walkPath check fuel c names = .ret (some e)) ↔ f.Leads check c names e := by
  induction names generalizing c with
  | nil =>
    constructor
    · rintro ⟨fuel, h⟩
      cases h
    · exact False.elim
  | cons name rest ih =>
    constructor
    · rintro ⟨fuel, h⟩
      obtain ⟨r, hr, -⟩ := Out.bind_eq_ret.1 h
      cases r with
      | none =>
        rw [walk_of_none hr] at h
        cases h
      | some d =>
        refine ⟨d, find_some.1 ⟨fuel, hr⟩, ?_⟩
        rw [walk_of_find hr] at h
        split_ifs at h with hrest hdir hfirst
        · cases h
          exact .inl ⟨hrest, rfl⟩
        · cases h
        · cases h
        · obtain ⟨hzero, hcheck⟩ := not_or.1 hfirst
          exact .inr ⟨hrest, by simpa using hdir, hzero, by simpa using hcheck, ih.1 ⟨fuel, h⟩⟩
    · rintro ⟨d, hd, hrest⟩
      obtain ⟨fuel, hr⟩ := find_some.2 hd
      obtain ⟨hrest, rfl⟩ | ⟨hrest, hdir, hzero, hcheck, hlead⟩ := hrest
      · refine ⟨fuel, ?_⟩
        rw [walk_of_find hr, if_pos hrest]
      · obtain ⟨fuel', hwalk⟩ := ih.2 hlead
        have hr := find_mono (le_max_left fuel fuel') c name _ hr
        refine ⟨max fuel fuel', ?_⟩
        rw [walk_of_find hr, if_neg hrest, if_neg (by simpa using hdir),
          if_neg (by simp [hzero, hcheck])]
        exact walk_mono (le_max_right fuel fuel') _ rest _ hwalk

theorem walk_returns :
    (∃ fuel r, f.walkPath check fuel c names = .ret r) ↔ f.PathSound check c names := by
  induction names generalizing c with
  | nil => exact ⟨fun _ ↦ trivial, fun _ ↦ ⟨0, none, rfl⟩⟩
  | cons name rest ih =>
    constructor
    · rintro ⟨fuel, r, h⟩
      obtain ⟨r', hr, -⟩ := Out.bind_eq_ret.1 h
      refine ⟨find_returns.1 ⟨fuel, r', hr⟩, fun e he hrest hdir hzero hcheck ↦ ?_⟩
      obtain ⟨fuel', he⟩ := find_some.2 he
      have h := walk_mono (le_max_left fuel fuel') c _ _ h
      have he := find_mono (le_max_right fuel fuel') c name _ he
      rw [walk_of_find he, if_neg hrest, if_neg (by simpa using hdir),
        if_neg (by simp [hzero, hcheck])] at h
      exact ih.1 ⟨_, r, h⟩
    · rintro ⟨hfind, hrest⟩
      obtain ⟨fuel, r, hr⟩ := find_returns.2 hfind
      cases r with
      | none => exact ⟨fuel, none, walk_of_none hr⟩
      | some e =>
        by_cases hgo : rest ≠ [] ∧ f.isDir e = true ∧ f.firstCluster e ≠ 0 ∧
          check (f.firstCluster e) = true
        · obtain ⟨hne, hdir, hzero, hcheck⟩ := hgo
          obtain ⟨fuel', r, hwalk⟩ := ih.2 (hrest e (find_some.1 ⟨fuel, hr⟩) hne hdir hzero hcheck)
          have hr := find_mono (le_max_left fuel fuel') c name _ hr
          refine ⟨max fuel fuel', r, ?_⟩
          rw [walk_of_find hr, if_neg hne, if_neg (by simpa using hdir),
            if_neg (by simp [hzero, hcheck])]
          exact walk_mono (le_max_right fuel fuel') _ rest _ hwalk
        · refine ⟨fuel, if rest = [] then some e else none, ?_⟩
          rw [walk_of_find hr]
          split_ifs with h₁ h₂ h₃
          · rfl
          · rfl
          · rfl
          · exact absurd ⟨h₁, by simpa using h₂, by simpa using h₃⟩ hgo

end Volume

end YabroOS.Fat
