import YabroOS.Fat.Robust
import Mathlib.Algebra.GroupWithZero.Nat
import YabroOS.Lib.GrowArray

namespace YabroOS.Fat

open Lib

namespace Volume

variable (f : Volume)

/-- One round of the loop of `read_file_by_name`: the cluster, the offset and the buffer. None
stands for the panic of a slice that ends outside the buffer. -/
def nameRound (size : ℕ) (s : ℕ × ℕ × List UInt8) :
    Out (ℕ × ℕ × List UInt8 ⊕ Option (ℕ × List UInt8)) :=
  match s with
  | (cur, offset, buffer) =>
    if ¬ (offset < size ∧ offset < buffer.length) then .ret (.inr (some (offset, buffer)))
    else
      let toCopy := min f.clusterSize (size - offset)
      if buffer.length < offset + toCopy then .ret (.inr none)
      else f.copyFrom (f.clusterToPtr cur) 0 toCopy >>= fun bytes ↦
        let buffer := splice 0 buffer offset bytes
        let offset := offset + toCopy
        f.nextCluster cur >>= fun next ↦
          if 0x0FFFFFF8 ≤ next then .ret (.inr (some (if offset < size then 0 else offset, buffer)))
          else .ret (.inl (next, offset, buffer))

def readFileByName (fuel : ℕ) (name buffer : List UInt8) : Out (Option (ℕ × List UInt8)) :=
  if 260 < name.length + 1 then .ret (some (0, buffer))
  else f.findFileInRoot fuel name >>= fun r ↦
    match r with
    | none => .ret (some (0, buffer))
    | some e => Out.loop (f.nameRound (f.fileSize e)) fuel (f.firstCluster e, 0, buffer)

def readChunks (fuel e : ℕ) : ℕ → List ℕ → Out (List UInt8)
  | _, [] => .ret []
  | offset, len :: lens =>
    f.readFileRangeByEntry fuel e offset len >>= fun bytes ↦
      readChunks fuel e (offset + bytes.length) lens >>= fun rest ↦ .ret (bytes ++ rest)

def chainBytes (c k : ℕ) : List UInt8 :=
  (List.range k).flatMap (fun i ↦ f.clusterBytes (f.chain c i) 0 f.clusterSize)

def content (e : ℕ) : List UInt8 :=
  (f.chainBytes (f.firstCluster e) ((f.fileSize e + f.clusterSize - 1) / f.clusterSize)).take
    (f.fileSize e)

/-- The chain of the file has a cluster for each part of its size. -/
def Backed (e : ℕ) : Prop :=
  ∀ i, i * f.clusterSize < f.fileSize e → f.fatClusterValid (f.chain (f.firstCluster e) i) = true

/-- The reads of a file give its content: those of a range, one after the other as much as at once,
and the one by its name into the given buffer. -/
structure ReadsContent (e : ℕ) (name buffer : List UInt8) : Prop where
  range : ∀ offset len, ∃ fuel, f.readFileRangeByEntry fuel e offset len =
    .ret (((f.content e).drop offset).take len)
  root : ∀ offset len, ∃ fuel, f.bootfsReadRootFile fuel name offset len =
    .ret (((f.content e).drop offset).take len)
  chunks : ∀ offset lens, ∃ fuel bytes,
    f.readChunks fuel e offset lens = .ret bytes ∧
      f.readFileRangeByEntry fuel e offset lens.sum = .ret bytes
  byName : ∃ fuel, f.readFileByName fuel name buffer = .ret (some (min buffer.length (f.fileSize e),
    (f.content e).take buffer.length ++ buffer.drop (f.fileSize e)))

variable {f} {c e k offset len start n m : ℕ} {name path buffer : List UInt8}

theorem segment_take (h : m ≤ n) : (f.segment c start n).take m = f.segment c start m := by
  obtain ⟨d, rfl⟩ := Nat.exists_eq_add_of_le h
  rw [← segment_append]
  exact List.take_left' (length_segment f c start m)

theorem segment_drop (h : m ≤ n) :
    (f.segment c start n).drop m = f.segment c (start + m) (n - m) := by
  obtain ⟨d, rfl⟩ := Nat.exists_eq_add_of_le h
  rw [← segment_append, Nat.add_sub_cancel_left]
  exact List.drop_left' (length_segment f c start m)

theorem chainBytes_eq (hpos : 0 < f.clusterSize) (c k : ℕ) :
    f.chainBytes c k = f.segment c 0 (k * f.clusterSize) := by
  induction k with
  | zero =>
    rw [Nat.zero_mul]
    rfl
  | succ k ih =>
    have hlast : f.clusterBytes (f.chain c k) 0 f.clusterSize =
        f.segment c (k * f.clusterSize) f.clusterSize := by
      rw [clusterBytes_eq (by omega), segment_chain hpos, Nat.add_zero]
    have happend := f.segment_append c 0 (k * f.clusterSize) f.clusterSize
    rw [Nat.zero_add, ← Nat.succ_mul] at happend
    rw [← happend, ← ih, ← hlast]
    unfold chainBytes
    rw [List.range_succ, List.flatMap_append, List.flatMap_singleton]

theorem content_eq (hpos : 0 < f.clusterSize) (e : ℕ) :
    f.content e = f.segment (f.firstCluster e) 0 (f.fileSize e) := by
  rw [content, chainBytes_eq hpos]
  refine segment_take ?_
  have hdiv := Nat.div_add_mod (f.fileSize e + f.clusterSize - 1) f.clusterSize
  have hmod := Nat.mod_lt (f.fileSize e + f.clusterSize - 1) hpos
  rw [Nat.mul_comm] at hdiv
  omega

theorem length_content (hpos : 0 < f.clusterSize) (e : ℕ) :
    (f.content e).length = f.fileSize e := by
  rw [content_eq hpos, length_segment]

theorem content_range (hpos : 0 < f.clusterSize) (e offset len : ℕ) :
    ((f.content e).drop offset).take len =
      f.segment (f.firstCluster e) offset (f.wanted e offset len) := by
  obtain hle | hlt := Nat.le_total (f.fileSize e) offset
  · have hwanted : f.wanted e offset len = 0 := by
      unfold wanted
      omega
    rw [List.drop_eq_nil_of_le ((length_content hpos e).le.trans hle), hwanted]
    exact List.take_nil
  · rw [content_eq hpos, segment_drop hlt, Nat.zero_add, wanted]
    obtain h | h := Nat.le_total len (f.fileSize e - offset)
    · rw [segment_take h, Nat.min_eq_left h]
    · rw [List.take_of_length_le ((length_segment _ _ _ _).le.trans h), Nat.min_eq_right h]

theorem Backed.visits (h : f.Backed e) (hk : k * f.clusterSize < f.fileSize e) :
    f.Visits (f.firstCluster e) k := by
  intro i hi
  refine not_last_of_valid ?_
  rw [← chain_succ']
  exact h (i + 1) (lt_of_le_of_lt (Nat.mul_le_mul_right _ hi) hk)

theorem read_content (hm : f.mounted = true) (h : f.Backed e) (offset len : ℕ) :
    ∃ fuel, f.readFileRangeByEntry fuel e offset len =
      .ret (((f.content e).drop offset).take len) := by
  have hpos := clusterSize_pos hm
  rw [content_range hpos]
  by_cases hw : 0 < f.wanted e offset len
  swap
  · refine ⟨0, ?_⟩
    rw [Nat.eq_zero_of_not_pos hw]
    exact if_pos (not_not.1 (fun hn ↦ hw (wanted_pos.2 hn)))
  have hin : offset + f.wanted e offset len ≤ f.fileSize e := by
    have hoffset := wanted_pos.1 hw
    unfold wanted at hw ⊢
    omega
  have hstart : offset % f.clusterSize < f.clusterSize := Nat.mod_lt _ hpos
  have hplace : ∀ j ≤ f.lastIndex (offset % f.clusterSize) (f.wanted e offset len),
      (offset / f.clusterSize + j) * f.clusterSize < f.fileSize e := by
    intro j hj
    have hle : offset / f.clusterSize + j ≤ (offset + f.wanted e offset len - 1) /
        f.clusterSize := by
      rw [lastIndex_add offset hpos hw]
      exact Nat.add_le_add_left hj _
    have hmul := (Nat.mul_le_mul_right f.clusterSize hle).trans (Nat.div_mul_le_self _ _)
    omega
  have hvis := h.visits (hplace 0 (Nat.zero_le _))
  obtain ⟨fuel, bytes, hret, hfull, hbytes⟩ := copy_returns hstart
    (show ([] : List UInt8).length < f.wanted e offset len from hw) (fun j hj _ ↦ by
    rw [← chain_add]
    exact h _ (hplace j hj))
  refine ⟨fuel, ?_⟩
  have hlen := hfull.2 (visits_add.1 (h.visits (hplace _ le_rfl))).2
  rw [read_of_visits hw hvis, hret, hbytes hlen, segment_chain hpos, Nat.div_add_mod']
  rfl

theorem readChunks_content (hm : f.mounted = true) (h : f.Backed e) (offset : ℕ) (lens : List ℕ) :
    ∃ fuel, ∀ fuel' ≥ fuel, f.readChunks fuel' e offset lens =
      .ret (((f.content e).drop offset).take lens.sum) := by
  induction lens generalizing offset with
  | nil => exact ⟨0, fun _ _ ↦ rfl⟩
  | cons len lens ih =>
    obtain ⟨fuel₁, h₁⟩ := read_content hm h offset len
    obtain ⟨fuel₂, h₂⟩ := ih (offset + (((f.content e).drop offset).take len).length)
    refine ⟨max fuel₁ fuel₂, fun fuel hfuel ↦ ?_⟩
    have hread := read_mono ((le_max_left _ _).trans hfuel) e offset len _ h₁
    have hrest := h₂ fuel ((le_max_right _ _).trans hfuel)
    have hdrop : (f.content e).drop (offset + (((f.content e).drop offset).take len).length) =
        ((f.content e).drop offset).drop len := by
      rw [List.length_take, ← List.drop_drop]
      exact List.drop_eq_drop_min.symm
    rw [readChunks, hread, Out.ret_bind, hrest, Out.ret_bind, List.sum_cons, List.take_add, hdrop]

section ByName

variable {size : ℕ}

theorem nameRound_ends (h : ¬ (offset < size ∧ offset < buffer.length)) :
    f.nameRound size (c, offset, buffer) = .ret (.inr (some (offset, buffer))) := if_pos h

theorem nameRound_panics (h : offset < size ∧ offset < buffer.length)
    (hout : buffer.length < offset + min f.clusterSize (size - offset)) :
    f.nameRound size (c, offset, buffer) = .ret (.inr none) :=
  (if_neg (not_not.2 h)).trans (if_pos hout)

theorem nameRound_copies (hv : f.fatClusterValid c = true)
    (h : offset < size ∧ offset < buffer.length) (hn : n = min f.clusterSize (size - offset))
    (hin : offset + n ≤ buffer.length) :
    f.nameRound size (c, offset, buffer) =
      if f.Last c then .ret
        (.inr (some (if offset + n < size then 0 else offset + n,
          splice 0 buffer offset (f.segment c 0 n))))
      else .ret (.inl (f.next c, offset + n, splice 0 buffer offset (f.segment c 0 n))) := by
  subst hn
  have hle : 0 + min f.clusterSize (size - offset) ≤ f.clusterSize := by omega
  unfold nameRound
  simp only [if_neg (not_not.2 h), if_neg (not_lt.2 hin), copyFrom_valid hv hle,
    clusterBytes_eq hle, Out.ret_bind, nextCluster_eq]
  rfl

def filled (f : Volume) (e : ℕ) (buffer : List UInt8) (n : ℕ) : List UInt8 :=
  (f.content e).take n ++ buffer.drop n

theorem length_filled (hpos : 0 < f.clusterSize) (hsize : n ≤ f.fileSize e)
    (hn : n ≤ buffer.length) : (f.filled e buffer n).length = buffer.length := by
  rw [filled, List.length_append, List.length_take, List.length_drop, length_content hpos]
  omega

theorem splice_filled (hpos : 0 < f.clusterSize) (hsize : k * f.clusterSize + n ≤ f.fileSize e)
    (hn : k * f.clusterSize + n ≤ buffer.length) :
    splice 0 (f.filled e buffer (k * f.clusterSize)) (k * f.clusterSize)
    (f.segment (f.chain (f.firstCluster e) k) 0 n) =
      f.filled e buffer (k * f.clusterSize + n) := by
  have hfirst : ((f.content e).take (k * f.clusterSize)).length = k * f.clusterSize := by
    rw [List.length_take, length_content hpos]
    omega
  have hlen := length_filled hpos (Nat.le_of_add_right_le hsize) (Nat.le_of_add_right_le hn)
  rw [splice, fill, hlen, Nat.sub_eq_zero_of_le (Nat.le_of_add_right_le hn), List.replicate_zero,
    List.append_nil,
    length_segment, ← List.drop_drop, filled, List.take_left' hfirst, List.drop_left' hfirst,
    List.drop_drop,
    segment_chain hpos, Nat.add_zero, content_eq hpos, segment_take (Nat.le_of_add_right_le hsize)]
  have happend := f.segment_append (f.firstCluster e) 0 (k * f.clusterSize) n
  rw [Nat.zero_add] at happend
  rw [happend, filled, content_eq hpos, segment_take hsize]

theorem mod_clusterSize_ne (h₁ : k * f.clusterSize < n)
    (h₂ : n < k * f.clusterSize + f.clusterSize) : n % f.clusterSize ≠ 0 := by
  rw [Nat.mul_comm] at h₁
  have h₂ : n < f.clusterSize * (k + 1) := by rwa [Nat.mul_succ, Nat.mul_comm]
  exact fun h ↦ Nat.not_dvd_of_lt_of_lt_mul_succ h₁ h₂ (Nat.dvd_of_mod_eq_zero h)

def nameResult (f : Volume) (e : ℕ) (buffer : List UInt8) : Option (ℕ × List UInt8) :=
  if f.fileSize e ≤ buffer.length ∨ buffer.length % f.clusterSize = 0 then
    some (min buffer.length (f.fileSize e),
      (f.content e).take buffer.length ++ buffer.drop (f.fileSize e))
  else none

theorem nameResult_size (hpos : 0 < f.clusterSize) (h : f.fileSize e ≤ buffer.length) :
    f.nameResult e buffer = some (f.fileSize e, f.filled e buffer (f.fileSize e)) := by
  have hlen := length_content hpos e
  rw [nameResult, if_pos (.inl h), Nat.min_eq_right h,
    List.take_of_length_le (hlen.le.trans h), filled,
    List.take_of_length_le hlen.le]

theorem nameResult_cut (h : buffer.length < f.fileSize e)
    (hmod : buffer.length % f.clusterSize = 0) :
    f.nameResult e buffer = some (buffer.length, f.filled e buffer buffer.length) := by
  rw [nameResult, if_pos (.inr hmod), Nat.min_eq_left h.le, List.drop_eq_nil_of_le h.le, filled,
    List.drop_length]

theorem nameLoop_returns (hm : f.mounted = true) (h : f.Backed e) (buffer : List UInt8) {d : ℕ}
    (hk : k * f.clusterSize ≤ f.fileSize e ∧ k * f.clusterSize ≤ buffer.length)
    (hd : f.fileSize e ≤ (k + d) * f.clusterSize) :
    ∃ fuel, Out.loop (f.nameRound (f.fileSize e)) fuel
        (f.chain (f.firstCluster e) k, k * f.clusterSize, f.filled e buffer (k * f.clusterSize)) =
      .ret (f.nameResult e buffer) := by
  have hpos := clusterSize_pos hm
  induction d generalizing k with
  | zero =>
    have heq : k * f.clusterSize = f.fileSize e := le_antisymm hk.1 hd
    rw [nameResult_size hpos (heq ▸ hk.2), heq]
    exact ⟨1, Out.loop_of_inr (nameRound_ends (fun h ↦ absurd h.1 (lt_irrefl _)))⟩
  | succ d ih =>
    have hlen := length_filled hpos hk.1 hk.2
    by_cases hmore : k * f.clusterSize < f.fileSize e ∧ k * f.clusterSize < buffer.length
    swap
    · refine ⟨1, Out.loop_of_inr ((nameRound_ends (hlen ▸ hmore)).trans ?_)⟩
      by_cases hsize : f.fileSize e ≤ buffer.length
      · rw [nameResult_size hpos hsize, show k * f.clusterSize = f.fileSize e by omega]
      · have heq : buffer.length = k * f.clusterSize := by omega
        have hmod : buffer.length % f.clusterSize = 0 := heq ▸ Nat.mul_mod_left k f.clusterSize
        rw [nameResult_cut (not_le.1 hsize) hmod, heq]
    have hv := h k hmore.1
    obtain hfit | hfit := Nat.lt_or_ge f.clusterSize (f.fileSize e - k * f.clusterSize)
    · -- the whole cluster is to be copied, and the chain goes on
      have hmin : f.clusterSize = min f.clusterSize (f.fileSize e - k * f.clusterSize) :=
        (Nat.min_eq_left hfit.le).symm
      obtain hout | hin := Nat.lt_or_ge buffer.length (k * f.clusterSize + f.clusterSize)
      · refine ⟨1, Out.loop_of_inr ((nameRound_panics (hlen ▸ hmore) (by omega)).trans ?_)⟩
        rw [nameResult, if_neg (not_or.2 ⟨by omega, mod_clusterSize_ne hmore.2 hout⟩)]
      · have hnext : ¬ f.Last (f.chain (f.firstCluster e) k) := by
          refine not_last_of_valid ?_
          rw [← chain_succ']
          refine h (k + 1) ?_
          rw [Nat.succ_mul]
          omega
        have hround := nameRound_copies hv (hlen ▸ hmore) hmin (by omega)
        rw [if_neg hnext, splice_filled hpos (by omega) hin, ← Nat.succ_mul, ← chain_succ'] at hround
        have hplaces : (k + 1) * f.clusterSize ≤ f.fileSize e ∧
            (k + 1) * f.clusterSize ≤ buffer.length := by
          rw [Nat.succ_mul]
          omega
        obtain ⟨fuel, hret⟩ := ih hplaces (by rwa [Nat.add_right_comm])
        exact ⟨fuel + 1, (Out.loop_of_inl hround).trans hret⟩
    · -- the file ends in this cluster
      have hmin : f.fileSize e - k * f.clusterSize =
          min f.clusterSize (f.fileSize e - k * f.clusterSize) :=
        (Nat.min_eq_right hfit).symm
      obtain hout | hin := Nat.lt_or_ge buffer.length (f.fileSize e)
      · refine ⟨1, Out.loop_of_inr ((nameRound_panics (hlen ▸ hmore) (by omega)).trans ?_)⟩
        rw [nameResult, if_neg (not_or.2 ⟨by omega, mod_clusterSize_ne hmore.2 (by omega)⟩)]
      · have hround := nameRound_copies hv (hlen ▸ hmore) hmin (by omega)
        have hend : k * f.clusterSize + (f.fileSize e - k * f.clusterSize) = f.fileSize e := by omega
        rw [splice_filled hpos hend.le (hend.le.trans hin), hend, if_neg (lt_irrefl (f.fileSize e))]
          at hround
        rw [nameResult_size hpos hin]
        split_ifs at hround
        · exact ⟨1, Out.loop_of_inr hround⟩
        · exact ⟨2, (Out.loop_of_inl hround).trans
            (Out.loop_of_inr (nameRound_ends (fun h ↦ absurd h.1 (lt_irrefl _))))⟩

theorem readFileByName_returns (hm : f.mounted = true) (h : f.Backed e) (buffer : List UInt8)
    (hname : name.length + 1 ≤ 260) (he : f.Names name e) :
    ∃ fuel, f.readFileByName fuel name buffer = .ret (f.nameResult e buffer) := by
  have hpos := clusterSize_pos hm
  obtain ⟨fuel₁, hfind⟩ := findFile_some.2 he
  have hd : f.fileSize e ≤ (0 + f.fileSize e) * f.clusterSize := by
    rw [Nat.zero_add]
    exact Nat.le_mul_of_pos_right _ hpos
  obtain ⟨fuel₂, hloop⟩ := nameLoop_returns (k := 0) hm h buffer (by omega) hd
  rw [Nat.zero_mul] at hloop
  refine ⟨max fuel₁ fuel₂, ?_⟩
  rw [readFileByName, if_neg (not_lt.2 hname), findFile_mono (le_max_left _ _) _ _ hfind]
  exact Out.loop_mono (fun _ ↦ .refl _) (le_max_right _ _) _ _ hloop

theorem readFileByName_mono {fuel fuel' : ℕ} (h : fuel ≤ fuel') (name buffer : List UInt8) :
    Out.Le (f.readFileByName fuel name buffer) (f.readFileByName fuel' name buffer) := by
  unfold readFileByName
  split_ifs
  · exact .refl _
  refine (findFile_mono h name).bind (fun r ↦ ?_)
  cases r with
  | none => exact .refl _
  | some e => exact Out.loop_mono (fun _ ↦ .refl _) h _

theorem readByName_iff (hm : f.mounted = true) (h : f.Backed e) (hname : name.length + 1 ≤ 260)
    (he : f.Names name e) :
    (∃ fuel, f.readFileByName fuel name buffer = .ret (some (min buffer.length (f.fileSize e),
      (f.content e).take buffer.length ++ buffer.drop (f.fileSize e)))) ↔
    f.fileSize e ≤ buffer.length ∨ buffer.length % f.clusterSize = 0 := by
  obtain ⟨fuel, hret⟩ := readFileByName_returns hm h buffer hname he
  constructor
  · rintro ⟨fuel', hret'⟩
    by_contra hn
    rw [nameResult, if_neg hn] at hret
    have h₁ := readFileByName_mono (le_max_left fuel fuel') _ _ _ hret
    have h₂ := readFileByName_mono (le_max_right fuel fuel') _ _ _ hret'
    cases h₁.symm.trans h₂
  · intro hcond
    rw [nameResult, if_pos hcond] at hret
    exact ⟨fuel, hret⟩

end ByName

/-- The reads of a file that its chain covers give its content exactly when the buffer of the read
by name has room for the file or for whole clusters. -/
theorem readsContent_iff (f : Volume) (hm : f.mounted = true) (e : ℕ) (hb : f.Backed e)
    (name buffer : List UInt8) (hname : name.length + 1 ≤ 260) (he : f.Names name e) :
    f.ReadsContent e name buffer ↔ f.fileSize e ≤ buffer.length ∨
      buffer.length % f.clusterSize = 0 := by
  constructor
  · exact fun h ↦ (readByName_iff hm hb hname he).1 h.byName
  · intro hcond
    refine ⟨read_content hm hb, fun offset len ↦ ?_, fun offset lens ↦ ?_,
      (readByName_iff hm hb hname he).2 hcond⟩
    · by_cases hlen : len = 0
      · rw [hlen]
        exact ⟨0, if_pos rfl⟩
      obtain ⟨fuel₁, hfind⟩ := findFile_some.2 he
      obtain ⟨fuel₂, hread⟩ := read_content hm hb offset len
      refine ⟨max fuel₁ fuel₂, ?_⟩
      rw [readRoot_of_some hlen (findFile_mono (le_max_left _ _) _ _ hfind)]
      exact read_mono (le_max_right _ _) _ _ _ _ hread
    · obtain ⟨fuel₁, h₁⟩ := readChunks_content hm hb offset lens
      obtain ⟨fuel₂, h₂⟩ := read_content hm hb offset lens.sum
      exact ⟨max fuel₁ fuel₂, _, h₁ _ (le_max_left _ _), read_mono (le_max_right _ _) _ _ _ _ h₂⟩

end Volume

/-- A volume of two clusters: the root with the file `A` of ten bytes, and its content. -/
def tenBytes : Volume where
  bytes o := if 1536 ≤ o then 46 else
    (([(12, 2), (13, 1), (14, 1), (16, 1), (36, 1), (44, 2), (1024, 65), (1050, 3), (1052, 10)] ++
      (List.range 10).map (fun i ↦ (1025 + i, 32)) ++ [520, 521, 522, 524, 525, 526].map
        (fun o ↦ (o, 0xFF)) ++
      [(523, 0x0F), (527, 0x0F)] : List (ℕ × UInt8)).lookup o).getD 0
  size := 2048

theorem tenBytes_mounted : tenBytes.mounted = true := by decide +kernel

theorem tenBytes_backed : tenBytes.Backed 1024 := by
  have hsize : tenBytes.fileSize 1024 = 10 := by decide +kernel
  have hcluster : tenBytes.clusterSize = 512 := by decide +kernel
  intro i hi
  rw [hsize, hcluster] at hi
  obtain rfl : i = 0 := by omega
  decide +kernel

theorem tenBytes_names : tenBytes.Names [65] 1024 := Volume.findFile_some.1 ⟨1, by decide +kernel⟩

/-- A buffer of sixteen bytes has room for the file. -/
theorem readsContent_sixteen :
    (tenBytes.mounted = true ∧ tenBytes.Backed 1024 ∧ [65].length + 1 ≤ 260 ∧
      tenBytes.Names [65] 1024) ∧
    (tenBytes.ReadsContent 1024 [65] (List.replicate 16 0) ↔
      tenBytes.fileSize 1024 ≤ (List.replicate 16 (0 : UInt8)).length ∨
        (List.replicate 16 (0 : UInt8)).length % tenBytes.clusterSize = 0) :=
  ⟨⟨tenBytes_mounted, tenBytes_backed, by decide, tenBytes_names⟩,
    Volume.readsContent_iff tenBytes tenBytes_mounted 1024 tenBytes_backed [65]
      (List.replicate 16 0) (by decide) tenBytes_names⟩

/-- A buffer of five bytes has not: the slice for the ten bytes of the file ends outside it. -/
theorem not_readsContent :
    ¬ ∀ (f : Volume) (e : ℕ) (name buffer : List UInt8), f.mounted = true → f.Backed e →
    name.length + 1 ≤ 260 → f.Names name e → f.ReadsContent e name buffer := by
  intro h
  have hreads :=
    h tenBytes 1024 [65] (List.replicate 5 0) tenBytes_mounted tenBytes_backed (by decide)
      tenBytes_names
  have hcond :=
    (Volume.readByName_iff tenBytes_mounted tenBytes_backed (by decide) tenBytes_names).1
      hreads.byName
  revert hcond
  decide +kernel

end YabroOS.Fat
