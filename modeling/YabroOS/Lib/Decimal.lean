import Mathlib.Data.Nat.Digits.Lemmas

namespace YabroOS.Lib

def digitChar (d : ℕ) : UInt8 := UInt8.ofNat (48 + d)

def lowDigits (n : ℕ) : List ℕ := if n = 0 then [0] else Nat.digits 10 n

def decimal (n : ℕ) : List UInt8 := ((lowDigits n).map digitChar).reverse

def decimalInt : ℤ → List UInt8
  | .ofNat n => decimal n
  | .negSucc n => 45 :: decimal (n + 1)

def digitOf (c : UInt8) : Option ℕ :=
  if 48 ≤ c.toNat ∧ c.toNat ≤ 57 then some (c.toNat - 48) else none

def readDigits (s : List UInt8) : Option ℕ :=
  if s = [] then none
  else s.foldl (fun n c ↦ n.bind fun n ↦ (digitOf c).map fun d ↦ 10 * n + d) (some 0)

/-- The number that a string with or without a sign stands for. -/
def readDecimal : List UInt8 → Option ℤ
  | 45 :: s => (readDigits s).map fun n ↦ -n
  | s => (readDigits s).map fun n ↦ n

variable {n d e : ℕ} {l : List ℕ}

theorem toNat_digitChar (h : d < 10) : (digitChar d).toNat = 48 + d := by
  rw [digitChar, UInt8.toNat_ofNat']
  omega

theorem digitOf_digitChar (h : d < 10) : digitOf (digitChar d) = some d := by
  rw [digitOf, toNat_digitChar h, if_pos (by omega)]
  congr 1
  omega

theorem digitChar_ne (h : d < 10) {c : UInt8} (hc : c.toNat < 48) : digitChar d ≠ c := by
  rintro rfl
  rw [toNat_digitChar h] at hc
  omega

theorem lowDigits_ne_nil (n : ℕ) : lowDigits n ≠ [] := by
  unfold lowDigits
  split_ifs with h
  · exact List.cons_ne_nil _ _
  · exact fun hnil ↦ h (Nat.digits_eq_nil_iff_eq_zero.1 hnil)

theorem lt_of_mem_lowDigits (h : d ∈ lowDigits n) : d < 10 := by
  unfold lowDigits at h
  split_ifs at h
  · rw [List.mem_singleton.1 h]
    decide
  · exact Nat.digits_lt_base (by decide) h

theorem ofDigits_lowDigits (n : ℕ) : Nat.ofDigits 10 (lowDigits n) = n := by
  unfold lowDigits
  split_ifs with h
  · rw [h]
    rfl
  · exact Nat.ofDigits_digits 10 n

theorem readDigits_reverse (hl : ∀ d ∈ l, d < 10) (hne : l ≠ []) :
    readDigits (l.map digitChar).reverse = some (Nat.ofDigits 10 l) := by
  rw [readDigits, if_neg (fun h ↦ hne (List.map_eq_nil_iff.1 (List.reverse_eq_nil_iff.1 h))),
    List.foldl_reverse]
  clear hne
  induction l with
  | nil => rfl
  | cons d l ih =>
    rw [List.map_cons, List.foldr_cons, ih fun e he ↦ hl e (.tail _ he), Option.bind_some,
      digitOf_digitChar (hl d (.head _)),
      Option.map_some, Nat.ofDigits_cons, Nat.add_comm]

theorem readDigits_decimal (n : ℕ) : readDigits (decimal n) = some n := by
  rw [decimal, readDigits_reverse (fun d ↦ lt_of_mem_lowDigits) (lowDigits_ne_nil n),
    ofDigits_lowDigits]

theorem mem_decimal {c : UInt8} (h : c ∈ decimal n) : ∃ d < 10, c = digitChar d := by
  rw [decimal, List.mem_reverse, List.mem_map] at h
  obtain ⟨d, hd, rfl⟩ := h
  exact ⟨d, lt_of_mem_lowDigits hd, rfl⟩

theorem readDecimal_decimalInt (v : ℤ) : readDecimal (decimalInt v) = some v := by
  cases v with
  | ofNat n =>
    rw [decimalInt]
    unfold readDecimal
    split
    · next s hs =>
      obtain ⟨d, hd, hc⟩ := mem_decimal (c := 45) (n := n) (by rw [hs]; exact .head _)
      exact absurd hc.symm (digitChar_ne hd (by decide))
    · rw [readDigits_decimal]
      rfl
  | negSucc n =>
    rw [decimalInt, readDecimal, readDigits_decimal]
    rfl

end YabroOS.Lib
