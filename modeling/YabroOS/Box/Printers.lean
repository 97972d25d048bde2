import YabroOS.Lib.Decimal
import YabroOS.Lib.EditBuffer

namespace YabroOS.Box

open Lib Function

/-- The loop `while (x) { t[i + j++] = '0' + x % 10; x /= 10; }` in a number of rounds, with the
last `j`. -/
def digitLoop (size : ℕ) : ℕ → (ℕ → UInt8) → ℕ → ℕ → ℕ → Option ((ℕ → UInt8) × ℕ)
  | 0, _, _, _, _ => none
  | n + 1, t, i, j, x =>
    if x = 0 then some (t, j) else (store size t (i + j) (digitChar (x % 10))).bind fun t ↦
      digitLoop size n t i (j + 1) (x / 10)

def drainLoop (size tsize : ℕ) (t : ℕ → UInt8) : ℕ → (ℕ → UInt8) → ℕ → Option ((ℕ → UInt8) × ℕ)
  | 0, b, i => some (b, i)
  | j + 1, b, i =>
    if j < tsize then (store size b i (t j)).bind fun b ↦ drainLoop size tsize t j b (i + 1)
    else none

def turnLoop (size : ℕ) : ℕ → (ℕ → UInt8) → ℕ → Option ((ℕ → UInt8) × ℕ)
  | 0, b, i => some (b, i)
  | j + 1, b, i =>
    if j < size then (store size b i (b j)).bind fun b ↦ turnLoop size j b (i + 1) else none

def putString (size : ℕ) (b : ℕ → UInt8) : Option (List UInt8) :=
  let l := (List.range size).map b
  if 0 ∈ l then some (l.takeWhile (· ≠ 0)) else none

def magnitude (v : BitVec 64) : ℕ := (if v.slt 0 then -v else v).toNat

def putSign (b : ℕ → UInt8) (v : BitVec 64) : Option ((ℕ → UInt8) × ℕ) :=
  if v.slt 0 then (store 32 b 0 45).map (·, 1) else some (b, 0)

def putDigits (t : ℕ → UInt8) (v : BitVec 64) : Option ((ℕ → UInt8) × ℕ) := do
  let (t, j) ← if magnitude v = 0 then (store 24 t 0 (digitChar 0)).map (·, 1) else some (t, 0)
  digitLoop 24 65 t 0 j (magnitude v)

def putReversed (b t : ℕ → UInt8) (v : BitVec 64) : Option (List UInt8) := do
  let (b, i) ← putSign b v
  let (t, j) ← putDigits t v
  let (b, i) ← drainLoop 32 24 t j b i
  let b ← store 32 b i 0
  putString 32 b

def printNum (b t : ℕ → UInt8) (v : BitVec 64) : Option (List UInt8) := putReversed b t v

def num (b t : ℕ → UInt8) (v : BitVec 64) : Option (List UInt8) := putReversed b t v

def xPutNum (b : ℕ → UInt8) (v : BitVec 64) : Option (List UInt8) := do
  let (b, i) ← putSign b v
  let (b, i) ← if magnitude v = 0 then (store 32 b i (digitChar 0)).map (·, i + 1) else some (b, i)
  let (b, j) ← digitLoop 32 65 b i 0 (magnitude v)
  let (b, i) ← turnLoop 32 j b i
  let b ← store 32 b i 0
  putString 32 b

variable {size tsize fuel i j n x : ℕ} {b t : ℕ → UInt8} {l : List UInt8} {v : BitVec 64}

theorem digits_of_ne (hx : x ≠ 0) : Nat.digits 10 x = x % 10 :: Nat.digits 10 (x / 10) :=
  Nat.digits_def' (by decide) (Nat.pos_of_ne_zero hx)

theorem digitLoop_spec (size fuel : ℕ) (t : ℕ → UInt8) (hfuel : (Nat.digits 10 x).length < fuel)
    (hfit : i + j + (Nat.digits 10 x).length ≤ size) :
    ∃ t', digitLoop size fuel t i j x = some (t', j + (Nat.digits 10 x).length) ∧
      Holds t' (i + j) ((Nat.digits 10 x).map digitChar) ∧
        Keeps t t' (i + j) (Nat.digits 10 x).length := by
  induction fuel generalizing t j x with
  | zero => exact absurd hfuel (Nat.not_lt_zero _)
  | succ fuel ih =>
    by_cases hx : x = 0
    · rw [hx, Nat.digits_zero]
      exact ⟨t, if_pos rfl, holds_nil, fun _ _ ↦ rfl⟩
    · rw [digits_of_ne hx, List.length_cons] at hfuel hfit ⊢
      obtain ⟨t', hrun, hholds, hkeeps⟩ :=
        @ih (j + 1) (x / 10) (update t (i + j) (digitChar (x % 10))) (by omega) (by omega)
      refine ⟨t', ?_, ?_, fun k hk ↦ ?_⟩
      · rw [digitLoop, if_neg hx, store_of_lt (by omega), Option.bind_some, hrun, Nat.add_assoc,
          Nat.add_comm 1]
      · rw [List.map_cons, ← List.singleton_append, holds_append]
        refine ⟨holds_singleton.2 ?_, hholds⟩
        rw [hkeeps _ (by omega), update_self]
      · rw [hkeeps k (by omega), update_of_ne (by omega)]

theorem drainLoop_spec (ht : j ≤ tsize) (hfit : i + j ≤ size) :
    ∃ b', drainLoop size tsize t j b i = some (b', i + j) ∧ (∀ k < j, b' (i + k) = t (j - 1 - k)) ∧
      Keeps b b' i j := by
  induction j generalizing b i with
  | zero => exact ⟨b, rfl, fun _ h ↦ absurd h (Nat.not_lt_zero _), fun _ _ ↦ rfl⟩
  | succ j ih =>
    obtain ⟨b', hrun, hdrained, hkeeps⟩ := @ih (i + 1) (update b i (t j)) (by omega) (by omega)
    refine ⟨b', ?_, fun k hk ↦ ?_, fun k hk ↦ ?_⟩
    · rw [drainLoop, if_pos (by omega), store_of_lt (by omega), Option.bind_some, hrun,
        Nat.add_assoc, Nat.add_comm 1]
    · cases k with
      | zero => rw [hkeeps _ (by omega), Nat.add_zero, update_self, Nat.add_sub_cancel, Nat.sub_zero]
      | succ k =>
        rw [show i + (k + 1) = i + 1 + k by omega, hdrained k (by omega)]
        congr 1
        omega
    · rw [hkeeps k (by omega), update_of_ne (by omega)]

theorem drainLoop_holds (size tsize : ℕ) (b : ℕ → UInt8) (i : ℕ) (hl : Holds t 0 l)
    (ht : l.length ≤ tsize) (hfit : i + l.length ≤ size) :
    ∃ b', drainLoop size tsize t l.length b i = some (b', i + l.length) ∧ Holds b' i l.reverse ∧
      Keeps b b' i l.length := by
  obtain ⟨b', hrun, hdrained, hkeeps⟩ := drainLoop_spec (t := t) (b := b) ht hfit
  refine ⟨b', hrun, fun k hk ↦ ?_, hkeeps⟩
  rw [List.length_reverse] at hk
  have hcell := hl (l.length - 1 - k) (by omega)
  rw [Nat.zero_add] at hcell
  rw [hdrained k hk, hcell, List.getElem_reverse]

def turned (b : ℕ → UInt8) (i j k : ℕ) : UInt8 :=
  if i ≤ k ∧ k < i + j ∧ ¬(i ≤ i + j - 1 - k ∧ i + j - 1 - k < k) then b (i + j - 1 - k) else b k

theorem turned_succ : turned (update b i (b j)) (i + 1) j = turned b i (j + 1) := by
  funext k
  unfold turned
  rcases Nat.lt_trichotomy k i with hk | rfl | hk
  · rw [if_neg (by omega), if_neg (by omega), update_of_ne (by omega)]
  · rw [if_neg (by omega), if_pos (by omega), update_self]
    congr 1
    omega
  · rw [show i + 1 + j - 1 - k = i + (j + 1) - 1 - k by omega]
    by_cases hout : k < i + (j + 1)
    · by_cases hi : i + (j + 1) - 1 - k = i
      · rw [if_pos (by omega), if_neg (by omega), hi, update_self]
        congr 1
        omega
      · by_cases hw : i ≤ i + (j + 1) - 1 - k ∧ i + (j + 1) - 1 - k < k
        · rw [if_neg (by omega), if_neg (by omega), update_of_ne (by omega)]
        · rw [if_pos (by omega), if_pos (by omega), update_of_ne hi]
    · rw [if_neg (by omega), if_neg (by omega), update_of_ne (by omega)]

theorem turnLoop_spec (hfit : i + j ≤ size) : turnLoop size j b i = some (turned b i j, i + j) := by
  induction j generalizing b i with
  | zero =>
    have : turned b i 0 = b := funext fun k ↦ if_neg (by omega)
    rw [this]
    rfl
  | succ j ih =>
    rw [turnLoop, if_pos (by omega), store_of_lt (by omega), Option.bind_some, ih (by omega),
      turned_succ, Nat.add_assoc,
      Nat.add_comm 1]

theorem putString_spec (size : ℕ) (hl : Holds b 0 l) (hend : b l.length = 0) (hne : 0 ∉ l)
    (hfit : l.length < size) : putString size b = some l := by
  have htake : ((List.range size).map b).take (l.length + 1) = l ++ [0] := by
    refine List.ext_getElem
      (by
        simp only [List.length_take, List.length_map, List.length_range, List.length_append,
          List.length_singleton]
        omega) fun k hk hk' ↦ ?_
    rw [List.getElem_take, List.getElem_map, List.getElem_range, List.getElem_append]
    split_ifs with h
    · rw [← hl k h, Nat.zero_add]
    · rw [List.getElem_singleton, ← hend]
      congr 1
      rw [List.length_append, List.length_singleton] at hk'
      omega
  have hsplit := List.take_append_drop (l.length + 1) ((List.range size).map b)
  rw [htake, List.append_assoc] at hsplit
  have hpos : ∀ c ∈ l, decide (c ≠ 0) = true :=
    fun c hc ↦ decide_eq_true (ne_of_mem_of_not_mem hc hne)
  simp only [putString]
  rw [← hsplit, if_pos (List.mem_append_right _ (List.mem_append_left _ (.head _))),
    List.takeWhile_append_of_pos hpos]
  exact congrArg some (List.append_nil l)

theorem slt_zero (v : BitVec 64) : v.slt 0 = decide (v.toInt < 0) := rfl

theorem lowDigits_of_ne (hx : x ≠ 0) : lowDigits x = Nat.digits 10 x := if_neg hx

theorem magnitude_eq (v : BitVec 64) : magnitude v = v.toInt.natAbs := by
  have hlt := v.isLt
  unfold magnitude
  rw [slt_zero, BitVec.toInt_eq_toNat_cond]
  split_ifs with h₁ h₂ <;> simp only [decide_eq_true_eq, BitVec.toNat_neg] at * <;> omega

theorem lowDigits_length_le (v : BitVec 64) : (lowDigits (magnitude v)).length ≤ 19 := by
  by_cases h0 : magnitude v = 0
  · rw [h0]
    decide
  · rw [lowDigits_of_ne h0, Nat.digits_length_le_iff (by decide)]
    rw [magnitude_eq]
    have := BitVec.toInt_lt (x := v)
    have := BitVec.le_toInt v
    omega

theorem notMem_digits {c : UInt8} (hc : c.toNat < 48) : c ∉ (lowDigits n).map digitChar := by
  intro h
  obtain ⟨d, hd, rfl⟩ := List.mem_map.1 h
  exact digitChar_ne (lt_of_mem_lowDigits hd) hc rfl

def sign (v : BitVec 64) : List UInt8 := if v.slt 0 then [45] else []

theorem decimalInt_toInt (v : BitVec 64) :
    decimalInt v.toInt = sign v ++ decimal (magnitude v) := by
  rw [magnitude_eq, sign, slt_zero]
  cases v.toInt with
  | ofNat n => rfl
  | negSucc n =>
    rw [decide_eq_true (Int.negSucc_lt_zero n)]
    rfl

theorem sign_cases (v : BitVec 64) : sign v = [] ∨ sign v = [45] := by
  unfold sign
  split_ifs
  · exact .inr rfl
  · exact .inl rfl

theorem sign_length_le (v : BitVec 64) : (sign v).length ≤ 1 := by
  rcases sign_cases v with h | h <;> rw [h] <;> decide

theorem zero_notMem_sign (v : BitVec 64) : 0 ∉ sign v := by
  rcases sign_cases v with h | h <;> rw [h] <;> decide

theorem putSign_spec (b : ℕ → UInt8) (v : BitVec 64) :
    ∃ b', putSign b v = some (b', (sign v).length) ∧ Holds b' 0 (sign v) := by
  unfold putSign sign
  split_ifs
  · exact ⟨_, rfl, holds_singleton.2 (update_self _ _ _)⟩
  · exact ⟨_, rfl, holds_nil⟩

theorem putDigits_spec (t : ℕ → UInt8) (v : BitVec 64) :
    ∃ t', putDigits t v = some (t', (lowDigits (magnitude v)).length) ∧
      Holds t' 0 ((lowDigits (magnitude v)).map digitChar) := by
  have hle := lowDigits_length_le v
  unfold putDigits
  by_cases h0 : magnitude v = 0
  · rw [h0]
    exact ⟨update t 0 (digitChar 0), rfl, holds_singleton.2 (update_self _ _ _)⟩
  · rw [lowDigits_of_ne h0] at hle ⊢
    obtain ⟨t', hrun, hholds, -⟩ :=
      digitLoop_spec 24 65 t (i := 0) (j := 0) (x := magnitude v) (by omega) (by omega)
    refine ⟨t', ?_, hholds⟩
    rw [if_neg h0, Option.bind_eq_bind, Option.bind_some]
    exact hrun.trans (by rw [Nat.zero_add])

/-- The printers with a second buffer write the sign and the digits, whatever the buffers hold
before. -/
theorem putReversed_eq (b t : ℕ → UInt8) (v : BitVec 64) :
    putReversed b t v = some (decimalInt v.toInt) := by
  obtain ⟨b₁, hsign, hheld⟩ := putSign_spec b v
  obtain ⟨t₁, hdigits, hlow⟩ := putDigits_spec t v
  have hle := lowDigits_length_le v
  have hsle := sign_length_le v
  obtain ⟨b₂, hdrain, hdec, hkeeps⟩ := drainLoop_holds 32 24 b₁ (sign v).length hlow
    (by rw [List.length_map]; omega) (by rw [List.length_map]; omega)
  rw [List.length_map] at hdrain hkeeps
  have hfit : (sign v).length + (lowDigits (magnitude v)).length < 32 := by omega
  have hlen : (sign v ++ decimal (magnitude v)).length = (sign v).length +
      (lowDigits (magnitude v)).length := by
    rw [List.length_append, decimal, List.length_reverse, List.length_map]
  have hall : Holds b₂ 0 (sign v ++ decimal (magnitude v)) :=
    holds_append.2 ⟨hheld.kept hkeeps (by omega), by rw [Nat.zero_add]; exact hdec⟩
  have hne : 0 ∉ sign v ++ decimal (magnitude v) := by
    rw [List.mem_append, decimal, List.mem_reverse]
    exact fun h ↦ h.elim (zero_notMem_sign v) (notMem_digits (by decide))
  have hend : Keeps b₂ (update b₂ (sign v ++ decimal (magnitude v)).length 0)
      (sign v ++ decimal (magnitude v)).length 1 :=
    fun k hk ↦ update_of_ne (by omega) _ _
  rw [decimalInt_toInt,
    ← putString_spec 32 (hall.kept hend (by omega)) (update_self _ _ _) hne (by omega)]
  simp only [putReversed, hsign, hdigits, hdrain, Option.bind_eq_bind, Option.bind_some, hlen,
    store_of_lt hfit]

theorem map_range_eq_iff (b : ℕ → UInt8) : (List.range l.length).map b = l ↔ Holds b 0 l := by
  constructor
  · intro h k hk
    have hcell :=
      List.getElem_map b (l := List.range l.length) (i := k)
        (h := by rwa [List.length_map, List.length_range])
    rw [List.getElem_range] at hcell
    rw [Nat.zero_add, ← hcell]
    exact List.getElem_of_eq h _
  · intro h
    refine List.ext_getElem (by rw [List.length_map, List.length_range]) fun k hk hk' ↦ ?_
    rw [List.getElem_map, List.getElem_range, ← h k hk', Nat.zero_add]

/-- What the loop in one buffer leaves of a list is the list turned around only where the list reads
the same both ways. -/
theorem holds_turned_iff (hl : Holds b 0 l) :
    Holds (turned b 0 l.length) 0 l.reverse ↔ l.reverse = l := by
  have hcell {k : ℕ} (hk : k < l.length) : b k = l[k] := by rw [← hl k hk, Nat.zero_add]
  constructor
  · intro h
    have hupper {k : ℕ} (hk : k < l.length) (hw : l.length - 1 - k < k) : l[k] =
        l[l.length - 1 - k] := by
      have hturn := h k (by rwa [List.length_reverse])
      rw [Nat.zero_add, turned, if_neg (by omega), hcell hk, List.getElem_reverse] at hturn
      exact hturn
    refine List.ext_getElem (List.length_reverse) fun k _ hk ↦ ?_
    rw [List.getElem_reverse]
    rcases Nat.lt_trichotomy (l.length - 1 - k) k with hw | hw | hw
    · exact (hupper hk hw).symm
    · simp only [hw]
    · rw [hupper (k := l.length - 1 - k) (by omega) (by omega)]
      congr 1
      omega
  · intro h k hk
    rw [List.length_reverse] at hk
    rw [Nat.zero_add, turned]
    split_ifs with hw
    · rw [List.getElem_reverse, ← hcell]
      congr 1
      omega
    · rw [hcell hk]
      exact (List.getElem_of_eq h _).symm

theorem not_holds_turned {c : UInt8} (hc : b 0 = c) (hl : l ≠ []) (hlast : c ∉ l) :
    ¬Holds (turned b 1 l.length) 1 l.reverse := by
  intro h
  have hpos := List.length_pos_of_ne_nil hl
  have hturn := h (l.length - 1) (by rw [List.length_reverse]; omega)
  rw [turned, if_pos (by omega), show 1 + l.length - 1 - (1 + (l.length - 1)) = 0 by omega, hc]
    at hturn
  exact hlast (List.mem_reverse.1 (hturn ▸ List.getElem_mem _))

theorem reverse_map_digitChar {l : List ℕ} (hl : ∀ d ∈ l, d < 10) :
    (l.map digitChar).reverse = l.map digitChar ↔ l.reverse = l := by
  have hback {m : List ℕ} (hm : ∀ d ∈ m, d < 10) : (m.map digitChar).map digitOf = m.map some := by
    rw [List.map_map]
    exact List.map_congr_left fun d hd ↦ digitOf_digitChar (hm d hd)
  rw [← List.map_reverse]
  constructor
  · intro h
    have hmap := congrArg (List.map digitOf) h
    rw [hback hl, hback fun d hd ↦ hl d (List.mem_reverse.1 hd)] at hmap
    exact List.map_injective_iff.2 (Option.some_injective ℕ) hmap
  · exact congrArg _

theorem xPutNum_zero (b : ℕ → UInt8) : xPutNum b 0 = some (decimalInt 0) := by
  have hstring : putString 32 (update (update b 0 (digitChar 0)) 1 0) = some [digitChar 0] :=
    putString_spec 32 (holds_singleton.2 rfl) rfl (by decide) (by decide)
  exact hstring

theorem xPutNum_eq (b : ℕ → UInt8) (h0 : magnitude v ≠ 0) :
    ∃ b', Holds b' 0 (sign v ++ (lowDigits (magnitude v)).map digitChar) ∧
      xPutNum b v = some ((List.range ((sign v).length + (lowDigits (magnitude v)).length)).map
        (turned b' (sign v).length (lowDigits (magnitude v)).length)) := by
  obtain ⟨b₁, hsign, hheld⟩ := putSign_spec b v
  have hle := lowDigits_length_le v
  have hsle := sign_length_le v
  rw [lowDigits_of_ne h0] at hle ⊢
  obtain ⟨b₂, hrun, hlow, hkeeps⟩ :=
    digitLoop_spec 32 65 b₁ (i := (sign v).length) (j := 0) (x := magnitude v) (by omega) (by omega)
  rw [Nat.zero_add] at hrun
  have hall : Holds b₂ 0 (sign v ++ (Nat.digits 10 (magnitude v)).map digitChar) :=
    holds_append.2 ⟨hheld.kept hkeeps (by omega), by rwa [Nat.zero_add]⟩
  refine ⟨b₂, hall, ?_⟩
  generalize hi : (sign v).length = i at *
  generalize hj : (Nat.digits 10 (magnitude v)).length = j at *
  have hlen : ((List.range (i + j)).map (turned b₂ i j)).length = i + j := by
    rw [List.length_map, List.length_range]
  have hne : 0 ∉ (List.range (i + j)).map (turned b₂ i j) := by
    intro hmem
    obtain ⟨k, hk, hzero⟩ := List.mem_map.1 hmem
    have hcell : ∀ q < i + j, b₂ q ≠ 0 := by
      intro q hq hq0
      have hq' : q < (sign v ++ (Nat.digits 10 (magnitude v)).map digitChar).length := by
        rwa [List.length_append, List.length_map, hi, hj]
      have hmem := List.getElem_mem hq'
      rw [← hall q hq', Nat.zero_add, hq0, List.mem_append, ← lowDigits_of_ne h0] at hmem
      exact hmem.elim (zero_notMem_sign v) (notMem_digits (by decide))
    rw [List.mem_range] at hk
    unfold turned at hzero
    split_ifs at hzero
    · exact hcell _ (by omega) hzero
    · exact hcell k hk hzero
  rw [← putString_spec 32 (b := update (turned b₂ i j) (i + j) 0) (fun k hk ↦ ?_)
    (by rw [hlen, update_self]) hne (by omega)]
  · simp only [xPutNum, hsign, if_neg h0, Option.bind_eq_bind, Option.bind_some, hrun,
      turnLoop_spec (show i + j ≤ 32 by omega),
      store_of_lt (show i + j < 32 by omega)]
  · rw [List.getElem_map, List.getElem_range, Nat.zero_add, update_of_ne (by omega)]

theorem xPutNum_eq_iff (b : ℕ → UInt8) (v : BitVec 64) :
    xPutNum b v = some (decimalInt v.toInt) ↔ 0 ≤ v.toInt ∧
      (lowDigits v.toInt.toNat).reverse = lowDigits v.toInt.toNat := by
  by_cases h0 : magnitude v = 0
  · rw [magnitude_eq, Int.natAbs_eq_zero] at h0
    obtain rfl : v = 0 := BitVec.eq_of_toInt_eq h0
    exact iff_of_true (xPutNum_zero b) (by decide)
  · obtain ⟨b', hall, hprint⟩ := xPutNum_eq b h0
    have hdigits : ∀ d ∈ lowDigits (magnitude v), d < 10 := fun d ↦ lt_of_mem_lowDigits
    have hlen : (sign v ++ decimal (magnitude v)).length = (sign v).length +
        (lowDigits (magnitude v)).length := by
      rw [List.length_append, decimal, List.length_reverse, List.length_map]
    rw [hprint, decimalInt_toInt, Option.some_inj, ← hlen, map_range_eq_iff, holds_append,
      Nat.zero_add, decimal]
    have hmap : (lowDigits (magnitude v)).length =
        ((lowDigits (magnitude v)).map digitChar).length := by rw [List.length_map]
    rw [hmap]
    by_cases hneg : v.toInt < 0
    · have hsign : sign v = [45] := by
        rw [sign, slt_zero, if_pos (decide_eq_true hneg)]
      rw [hsign] at hall ⊢
      refine iff_of_false (fun h ↦ ?_) fun h ↦ absurd h.1 (not_le.2 hneg)
      exact not_holds_turned (holds_singleton.1 (holds_append.1 hall).1)
        (fun hnil ↦ lowDigits_ne_nil _ (List.map_eq_nil_iff.1 hnil)) (notMem_digits (by decide)) h.2
    · have hsign : sign v = [] := by
        rw [sign, slt_zero, if_neg (by rwa [decide_eq_true_eq])]
      have habs : v.toInt.natAbs = v.toInt.toNat := by omega
      rw [hsign, List.nil_append] at hall
      rw [hsign, List.length_nil, holds_turned_iff hall, reverse_map_digitChar hdigits,
        magnitude_eq, habs]
      exact ⟨fun h ↦ ⟨not_lt.1 hneg, h.2⟩, fun h ↦ ⟨holds_nil, h.2⟩⟩

/-- The three printers write one string, inside of their buffers, that is read back as the number.
-/
def PrintersAgree (v : BitVec 64) : Prop :=
  ∀ b₁ t₁ b₂ t₂ b₃, ∃ s, printNum b₁ t₁ v = some s ∧ num b₂ t₂ v = some s ∧ xPutNum b₃ v = some s ∧
    readDecimal s = some v.toInt

/-- `x_put_num` turns its digits around in the buffer it still reads: it agrees with the others
where there is nothing to turn. -/
theorem printersAgree_iff (v : BitVec 64) :
    PrintersAgree v ↔ 0 ≤ v.toInt ∧ (lowDigits v.toInt.toNat).reverse = lowDigits v.toInt.toNat := by
  constructor
  · intro h
    obtain ⟨s, hprint, -, hput, -⟩ := h (fun _ ↦ 0) (fun _ ↦ 0) (fun _ ↦ 0) (fun _ ↦ 0) (fun _ ↦ 0)
    have hs := hprint.symm.trans (putReversed_eq _ _ v)
    exact (xPutNum_eq_iff _ v).1 (hput.trans hs)
  · intro h b₁ t₁ b₂ t₂ b₃
    exact ⟨_, putReversed_eq b₁ t₁ v, putReversed_eq b₂ t₂ v, (xPutNum_eq_iff b₃ v).2 h,
      readDecimal_decimalInt _⟩

/-- Ten comes out as eleven. -/
theorem not_printersAgree_ten :
    ¬PrintersAgree 10 ∧ printNum (fun _ ↦ 0) (fun _ ↦ 0) 10 = some [49, 48] ∧
    xPutNum (fun _ ↦ 0) 10 = some [49, 49] := by
  refine ⟨fun h ↦ ?_, by decide, by decide⟩
  obtain ⟨s, hprint, -, hput, -⟩ := h (fun _ ↦ 0) (fun _ ↦ 0) (fun _ ↦ 0) (fun _ ↦ 0) (fun _ ↦ 0)
  exact absurd (hprint.trans hput.symm) (by decide)

end YabroOS.Box
