import YabroOS.Fat.Chains

namespace YabroOS.Fat

open Lib

namespace Volume

variable {f : Volume} {c k want start fuel : ℕ} {done : List UInt8}

def Visits (f : Volume) (c k : ℕ) : Prop := ∀ i < k, ¬ f.Last (f.chain c i)

theorem visits_zero (f : Volume) (c : ℕ) : f.Visits c 0 := fun i hi ↦ absurd hi (Nat.not_lt_zero i)

theorem visits_succ : f.Visits c (k + 1) ↔ ¬ f.Last c ∧ f.Visits (f.next c) k := by
  constructor
  · exact fun h ↦ ⟨h 0 (Nat.succ_pos k), fun i hi ↦ h (i + 1) (Nat.succ_lt_succ hi)⟩
  · rintro ⟨hlast, h⟩ i hi
    cases i with
    | zero => exact hlast
    | succ i => exact h i (Nat.lt_of_succ_lt_succ hi)

theorem visits_add {j : ℕ} : f.Visits c (j + k) ↔ f.Visits c j ∧ f.Visits (f.chain c j) k := by
  constructor
  · intro h
    refine ⟨fun i hi ↦ h i (by omega), fun i hi ↦ ?_⟩
    rw [← chain_add]
    exact h (j + i) (by omega)
  · rintro ⟨h₁, h₂⟩ i hi
    obtain hij | hij := Nat.lt_or_ge i j
    · exact h₁ i hij
    · obtain ⟨d, rfl⟩ := Nat.exists_eq_add_of_le hij
      rw [chain_add]
      exact h₂ d (by omega)

theorem skip_visits (h : f.Visits c k) : f.skipClusters k c = .ret (some (f.chain c k)) := by
  induction k generalizing c with
  | zero => rfl
  | succ k ih =>
    obtain ⟨hlast, hrest⟩ := visits_succ.1 h
    rw [skipClusters, nextCluster_eq, Out.ret_bind]
    exact (if_neg hlast).trans (ih hrest)

theorem skip_ends (h : ¬ f.Visits c k) : f.skipClusters k c = .ret none := by
  induction k generalizing c with
  | zero => exact absurd (visits_zero f c) h
  | succ k ih =>
    rw [skipClusters, nextCluster_eq, Out.ret_bind]
    split_ifs with hlast
    · rfl
    · exact ih (fun hv ↦ h (visits_succ.2 ⟨hlast, hv⟩))

def clusterBytes (f : Volume) (c start n : ℕ) : List UInt8 :=
  (List.range n).map (fun i ↦ f.bytes (f.dataStart + (c - 2) * f.clusterSize + start + i))

theorem length_clusterBytes (f : Volume) (c start n : ℕ) :
    (f.clusterBytes c start n).length = n := by
  rw [clusterBytes, List.length_map, List.length_range]

def chainByte (f : Volume) (c i : ℕ) : UInt8 :=
  f.bytes (f.dataStart + (f.chain c (i / f.clusterSize) - 2) * f.clusterSize + i % f.clusterSize)

def segment (f : Volume) (c start n : ℕ) : List UInt8 := (List.range' start n).map (f.chainByte c)

theorem length_segment (f : Volume) (c start n : ℕ) : (f.segment c start n).length = n := by
  rw [segment, List.length_map, List.length_range']

theorem segment_append (f : Volume) (c start n m : ℕ) :
    f.segment c start n ++ f.segment c (start + n) m = f.segment c start (n + m) := by
  rw [segment, segment, segment, ← List.map_append, List.range'_append_1]

theorem segment_chain (hpos : 0 < f.clusterSize) (c k start n : ℕ) :
    f.segment (f.chain c k) start n = f.segment c (k * f.clusterSize + start) n := by
  unfold segment
  rw [← List.map_add_range', List.map_map]
  refine List.map_congr_left (fun i _ ↦ ?_)
  have hdiv : (k * f.clusterSize + i) / f.clusterSize = k + i / f.clusterSize := by
    rw [Nat.add_comm, Nat.add_mul_div_right _ _ hpos, Nat.add_comm]
  have hmod : (k * f.clusterSize + i) % f.clusterSize = i % f.clusterSize :=
    Nat.mul_add_mod_self_right k f.clusterSize i
  rw [Function.comp_apply, chainByte, chainByte, hdiv, hmod, chain_add]

theorem clusterBytes_eq {n : ℕ} (h : start + n ≤ f.clusterSize) :
    f.clusterBytes c start n = f.segment c start n := by
  unfold clusterBytes segment
  rw [List.range'_eq_map_range, List.map_map]
  refine List.map_congr_left (fun i hi ↦ ?_)
  have hi := List.mem_range.1 hi
  rw [Function.comp_apply, chainByte, Nat.div_eq_of_lt (by omega), Nat.mod_eq_of_lt (by omega),
    ← Nat.add_assoc]
  rfl

def lastIndex (f : Volume) (start n : ℕ) : ℕ := (start + n - 1) / f.clusterSize

theorem copyFrom_valid (h : f.fatClusterValid c = true) {n : ℕ} (hn : start + n ≤ f.clusterSize) :
    f.copyFrom (f.clusterToPtr c) start n = .ret (f.clusterBytes c start n) := by
  have hin := cluster_inside h
  rw [clusterToPtr_valid h, copyFrom, if_pos (by omega)]
  rfl

theorem copyRound_fits (h : f.fatClusterValid c = true) (hdone : done.length < want)
    (hfit : start + (want - done.length) ≤ f.clusterSize) :
    f.copyRound want
    (c, start, done) = .ret (.inl (c, 0, done ++ f.clusterBytes c start (want - done.length))) := by
  have hmin : min (f.clusterSize - start) (want - done.length) = want - done.length := by omega
  simp only [copyRound, if_neg (not_le.2 hdone), hmin, copyFrom_valid h hfit, Out.ret_bind]
  rw [if_pos (by rw [List.length_append, length_clusterBytes]; omega)]

theorem copyRound_goes_on (h : f.fatClusterValid c = true) (hstart : start < f.clusterSize)
    (hmore : f.clusterSize < start + (want - done.length)) :
    f.copyRound want (c, start, done) =
      if f.Last c then .ret (.inr (done ++ f.clusterBytes c start (f.clusterSize - start)))
      else .ret (.inl (f.next c, 0, done ++ f.clusterBytes c start (f.clusterSize - start))) := by
  have hmin : min (f.clusterSize - start) (want - done.length) = f.clusterSize - start := by omega
  have hle : start + (f.clusterSize - start) ≤ f.clusterSize := by omega
  have hdone : ¬ want ≤ done.length := by omega
  simp only [copyRound, if_neg hdone, hmin, copyFrom_valid h hle, Out.ret_bind, nextCluster_eq]
  rw [if_neg (by rw [List.length_append, length_clusterBytes]; omega)]
  rfl

theorem copyRound_invalid (h : f.fatClusterValid c = false) (hdone : done.length < want) :
    f.copyRound want (c, start, done) = .outside := by
  simp only [copyRound, if_neg (not_le.2 hdone), clusterToPtr_invalid h]
  rfl

theorem lastIndex_succ (hstart : start < f.clusterSize) (hmore : f.clusterSize < start + k) :
    f.lastIndex start k = f.lastIndex 0 (k - (f.clusterSize - start)) + 1 := by
  have hsplit : start + k - 1 = (0 + (k - (f.clusterSize - start)) - 1) + f.clusterSize := by omega
  rw [lastIndex, hsplit, Nat.add_div_right _ (by omega)]
  rfl

theorem lastIndex_fits (hk : 0 < k) (hfit : start + k ≤ f.clusterSize) : f.lastIndex start k = 0 :=
  Nat.div_eq_of_lt (by omega)

/-- A copy returns when every cluster that it comes to is valid; all that is wanted is there when
the chain comes to the last one, and then it is what the chain holds. -/
theorem copy_returns (hstart : start < f.clusterSize) (hdone : done.length < want)
    (hvalid : ∀ j ≤ f.lastIndex start (want - done.length), f.Visits c j →
      f.fatClusterValid (f.chain c j) = true) :
    ∃ fuel bytes, Out.loop (f.copyRound want) fuel (c, start, done) = .ret bytes ∧
      (bytes.length = want ↔ f.Visits c (f.lastIndex start (want - done.length))) ∧
      (bytes.length = want → bytes = done ++ f.segment c start (want - done.length)) := by
  generalize hq : f.lastIndex start (want - done.length) = q at hvalid ⊢
  induction q generalizing c start done with
  | zero =>
    have hv : f.fatClusterValid c = true := hvalid 0 le_rfl (visits_zero f c)
    have hfit : start + (want - done.length) ≤ f.clusterSize := by
      by_contra hmore
      have hsucc := lastIndex_succ hstart (not_le.1 hmore)
      omega
    have hlen : (done ++ f.clusterBytes c start (want - done.length)).length = want := by
      rw [List.length_append, length_clusterBytes]
      omega
    refine ⟨2, done ++ f.clusterBytes c start (want - done.length), ?_, ?_, fun _ ↦ ?_⟩
    · rw [Out.loop_of_inl (copyRound_fits hv hdone hfit)]
      exact Out.loop_of_inr (if_pos hlen.ge)
    · exact ⟨fun _ ↦ visits_zero f c, fun _ ↦ hlen⟩
    · rw [clusterBytes_eq hfit]
  | succ q ih =>
    have hv : f.fatClusterValid c = true := hvalid 0 (Nat.zero_le _) (visits_zero f c)
    have hmore : f.clusterSize < start + (want - done.length) := by
      by_contra hfit
      rw [lastIndex_fits (by omega) (not_lt.1 hfit)] at hq
      cases hq
    have hlen : (done ++ f.clusterBytes c start (f.clusterSize - start)).length = done.length +
        (f.clusterSize - start) := by
      rw [List.length_append, length_clusterBytes]
    have hround := copyRound_goes_on hv hstart hmore
    by_cases hlast : f.Last c
    · rw [if_pos hlast] at hround
      refine ⟨1, _, Out.loop_of_inr hround, ?_, fun h ↦ absurd h (by omega)⟩
      rw [hlen]
      constructor
      · exact fun h ↦ absurd h (by omega)
      · exact fun h ↦ absurd hlast (visits_succ.1 h).1
    · rw [if_neg hlast] at hround
      have hq' := lastIndex_succ hstart hmore
      have hrest : want - done.length - (f.clusterSize - start) =
          want - (done ++ f.clusterBytes c start (f.clusterSize - start)).length := by omega
      rw [hrest] at hq'
      have hzero : 0 < f.clusterSize := by omega
      have hless : (done ++ f.clusterBytes c start (f.clusterSize - start)).length < want := by omega
      obtain ⟨fuel, bytes, hret, hfull, hbytes⟩ := ih (c := f.next c) hzero hless (by omega)
        (fun j hj hvis ↦ hvalid (j + 1) (Nat.succ_le_succ hj) (visits_succ.2 ⟨hlast, hvis⟩))
      refine ⟨fuel + 1, bytes, (Out.loop_of_inl hround).trans hret, hfull.trans ?_, fun h ↦ ?_⟩
      · exact ⟨fun h ↦ visits_succ.2 ⟨hlast, h⟩, fun h ↦ (visits_succ.1 h).2⟩
      · have hnext :=
          segment_chain hzero c 1 0
            (want - (done ++ f.clusterBytes c start (f.clusterSize - start)).length)
        have hrun := f.segment_append c start (f.clusterSize - start)
          (want - (done ++ f.clusterBytes c start (f.clusterSize - start)).length)
        rw [Nat.add_sub_cancel' hstart.le] at hrun
        rw [Nat.one_mul, Nat.add_zero] at hnext
        have hsum : want - done.length = (f.clusterSize - start) +
            (want - (done ++ f.clusterBytes c start (f.clusterSize - start)).length) := by omega
        rw [hbytes h, List.append_assoc, hsum, ← hrun, ← hnext, clusterBytes_eq (by omega)]
        rfl

theorem copy_first_valid {bytes : List UInt8} (hdone : done.length < want)
    (h : Out.loop (f.copyRound want) fuel (c, start, done) = .ret bytes) :
    f.fatClusterValid c = true := by
  by_contra hn
  cases fuel with
  | zero => cases h
  | succ n =>
    rw [Out.loop, copyRound_invalid (by simpa using hn) hdone] at h
    cases h

theorem copy_valid {bytes : List UInt8} (hstart : start < f.clusterSize)
    (hdone : done.length < want)
    (h : Out.loop (f.copyRound want) fuel (c, start, done) = .ret bytes) {j : ℕ}
    (hj : j ≤ f.lastIndex start (want - done.length)) (hvis : f.Visits c j) :
    f.fatClusterValid (f.chain c j) = true := by
  induction j generalizing c start done fuel with
  | zero => exact copy_first_valid hdone h
  | succ j ih =>
    obtain ⟨hlast, hvis⟩ := visits_succ.1 hvis
    have hv := copy_first_valid hdone h
    have hmore : f.clusterSize < start + (want - done.length) := by
      by_contra hfit
      rw [lastIndex_fits (by omega) (not_lt.1 hfit)] at hj
      omega
    have hlen : (done ++ f.clusterBytes c start (f.clusterSize - start)).length = done.length +
        (f.clusterSize - start) := by
      rw [List.length_append, length_clusterBytes]
    have hround := copyRound_goes_on hv hstart hmore
    rw [if_neg hlast] at hround
    cases fuel with
    | zero => cases h
    | succ n =>
      rw [Out.loop_of_inl hround] at h
      have hq' := lastIndex_succ hstart hmore
      have hrest : want - done.length - (f.clusterSize - start) =
          want - (done ++ f.clusterBytes c start (f.clusterSize - start)).length := by omega
      rw [hrest] at hq'
      exact ih (by omega) (by omega) h (by omega) hvis

variable {e offset len : ℕ}

/-- The clusters of the file up to the last one of the range are valid, and none comes twice. -/
def Covers (f : Volume) (e offset len : ℕ) : Prop :=
  ∀ i ≤ (offset + f.wanted e offset len - 1) / f.clusterSize, f.fatClusterValid
    (f.chain (f.firstCluster e) i) = true ∧
    ∀ j < i, f.chain (f.firstCluster e) j ≠ f.chain (f.firstCluster e) i

/-- A read returns without a look outside the image, and with less than it was asked for unless the
chain of the file covers the range. -/
def ReadRobust (f : Volume) (read : ℕ → Out (List UInt8)) (e offset len : ℕ) : Prop :=
  ∃ fuel bytes, read fuel = .ret bytes ∧
    (0 < f.wanted e offset len → bytes.length = f.wanted e offset len → f.Covers e offset len)

/-- The clusters of the range that the chain comes to are valid, and if it comes to the last one,
then the chain covers the range. -/
def ReadSound (f : Volume) (e offset len : ℕ) : Prop :=
  0 < f.wanted e offset len →
    (∀ j, offset / f.clusterSize ≤ j → j ≤ (offset + f.wanted e offset len - 1) / f.clusterSize →
      f.Visits (f.firstCluster e) j → f.fatClusterValid (f.chain (f.firstCluster e) j) = true) ∧
    (f.Visits (f.firstCluster e) ((offset + f.wanted e offset len - 1) / f.clusterSize) →
      f.Covers e offset len)

theorem clusterSize_pos (hm : f.mounted = true) : 0 < f.clusterSize :=
  Nat.pos_of_ne_zero (clusterValid_iff.1 hm).2.2.1

theorem wanted_pos : 0 < f.wanted e offset len ↔ ¬ (f.fileSize e ≤ offset ∨ len = 0) := by
  unfold wanted
  omega

theorem lastIndex_add (offset : ℕ) (hpos : 0 < f.clusterSize) (hk : 0 < k) :
    (offset + k - 1) / f.clusterSize = offset / f.clusterSize +
      f.lastIndex (offset % f.clusterSize) k := by
  have hsplit : offset + k - 1 = (offset % f.clusterSize + k - 1) + f.clusterSize *
      (offset / f.clusterSize) := by
    have hdiv := Nat.mod_add_div offset f.clusterSize
    omega
  rw [hsplit, Nat.add_mul_div_left _ _ hpos, Nat.add_comm, lastIndex]

theorem read_mono {fuel' : ℕ} (h : fuel ≤ fuel') (e offset len : ℕ) :
    Out.Le (f.readFileRangeByEntry fuel e offset len)
    (f.readFileRangeByEntry fuel' e offset len) := by
  unfold readFileRangeByEntry
  split_ifs
  · exact .refl _
  refine Out.Le.bind (.refl _) (fun r ↦ ?_)
  cases r with
  | none => exact .refl _
  | some cur => exact Out.loop_mono (fun _ ↦ .refl _) h _

theorem read_of_visits (hw : 0 < f.wanted e offset len)
    (hvis : f.Visits (f.firstCluster e) (offset / f.clusterSize)) :
    f.readFileRangeByEntry fuel e offset len =
      Out.loop (f.copyRound (f.wanted e offset len)) fuel
        (f.chain (f.firstCluster e) (offset / f.clusterSize), offset % f.clusterSize, []) := by
  rw [readFileRangeByEntry, if_neg (wanted_pos.1 hw), skip_visits hvis]
  rfl

theorem read_of_ends (hvis : ¬ f.Visits (f.firstCluster e) (offset / f.clusterSize)) :
    f.readFileRangeByEntry fuel e offset len = .ret [] := by
  rw [readFileRangeByEntry, skip_ends hvis]
  exact ite_self _

theorem read_robust_iff (hm : f.mounted = true) :
    f.ReadRobust (fun fuel ↦ f.readFileRangeByEntry fuel e offset len) e offset len ↔
      f.ReadSound e offset len := by
  have hpos := clusterSize_pos hm
  by_cases hw : 0 < f.wanted e offset len
  swap
  · refine ⟨fun _ h ↦ absurd h hw, fun _ ↦ ⟨0, [], ?_, fun h ↦ absurd h hw⟩⟩
    exact if_pos (not_not.1 (fun hn ↦ hw (wanted_pos.2 hn)))
  have hq := lastIndex_add offset hpos hw
  unfold ReadSound Covers
  rw [hq]
  by_cases hvis : f.Visits (f.firstCluster e) (offset / f.clusterSize)
  swap
  · have hnot : ∀ {j}, offset / f.clusterSize ≤ j → ¬ f.Visits (f.firstCluster e) j := fun hj h ↦
      hvis (fun i hi ↦ h i (hi.trans_le hj))
    constructor
    · exact fun _ _ ↦
        ⟨fun j hj _ h ↦ absurd h (hnot hj), fun h ↦ absurd h (hnot (Nat.le_add_right _ _))⟩
    · exact fun _ ↦ ⟨0, [], read_of_ends hvis, fun _ hlen ↦ absurd hlen.symm hw.ne'⟩
  have hstart : offset % f.clusterSize < f.clusterSize := Nat.mod_lt _ hpos
  have hdone : ([] : List UInt8).length < f.wanted e offset len := hw
  have hvisits : ∀ d, f.Visits (f.firstCluster e) (offset / f.clusterSize + d) ↔
      f.Visits (f.chain (f.firstCluster e) (offset / f.clusterSize)) d := fun d ↦
    visits_add.trans (and_iff_right hvis)
  constructor
  · rintro ⟨fuel, bytes, hread, hfull⟩ -
    simp only [read_of_visits hw hvis] at hread
    have hvalid : ∀ d ≤ f.lastIndex (offset % f.clusterSize) (f.wanted e offset len),
        f.Visits (f.chain (f.firstCluster e) (offset / f.clusterSize)) d →
        f.fatClusterValid (f.chain (f.chain (f.firstCluster e) (offset / f.clusterSize)) d) = true :=
      fun d hd h ↦ copy_valid hstart hdone hread hd h
    refine ⟨fun j hj hjq h ↦ ?_, fun h ↦ ?_⟩
    · obtain ⟨d, rfl⟩ := Nat.exists_eq_add_of_le hj
      rw [chain_add]
      exact hvalid d (by omega) ((hvisits d).1 h)
    · obtain ⟨fuel', bytes', hread', hlen⟩ := copy_returns hstart hdone hvalid
      have hsame : bytes = bytes' := by
        have h₁ := Out.loop_mono (fun _ ↦ .refl _) (le_max_left fuel fuel') _ _ hread
        have h₂ := Out.loop_mono (fun _ ↦ .refl _) (le_max_right fuel fuel') _ _ hread'
        exact Out.ret.inj (h₁.symm.trans h₂)
      have hcovers := hfull hw (hsame ▸ hlen.1.2 ((hvisits _).1 h))
      rwa [Covers, hq] at hcovers
  · intro hsound
    obtain ⟨hvalid, hcovers⟩ := hsound hw
    obtain ⟨fuel, bytes, hread, hlen⟩ := copy_returns
      (c := f.chain (f.firstCluster e) (offset / f.clusterSize)) hstart hdone (fun d hd h ↦ by
        rw [← chain_add]
        exact hvalid _ (Nat.le_add_right _ _) (Nat.add_le_add_left hd _) ((hvisits d).2 h))
    refine ⟨fuel, bytes, (read_of_visits hw hvis).trans hread, fun _ h ↦ ?_⟩
    rw [Covers, hq]
    exact hcovers ((hvisits _).2 (hlen.1.1 h))

end Volume

end YabroOS.Fat
