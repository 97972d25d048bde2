import YabroOS.Lib.Instances
import Mathlib.Data.Nat.Digits.Lemmas
import Mathlib.Logic.Function.Basic

namespace YabroOS.Libc

/-- What `va_arg` finds: a string without its terminator, a character for a byte, or a number of the
promoted type. -/
inductive Arg
  | str (text : List Char)
  | int (v : Int32)
  | uint (v : UInt32)
  | long (v : Int64)

structure Out where
  dst : ℕ → Char
  pos : ℕ

section Code

variable (null : Bool) (cap : ℕ)

def terminate (o : Out) : ℕ → Char :=
  if !null ∧ 0 < cap then Function.update o.dst (if o.pos < cap then o.pos else cap - 1) '\x00'
  else o.dst

def emitChar (o : Out) (c : Char) : Out :=
  let dst := if !null ∧ (o.pos + 1) % 2 ^ 64 < cap then Function.update o.dst o.pos c else o.dst
  let pos := (o.pos + 1) % 2 ^ 64
  ⟨terminate null cap ⟨dst, pos⟩, pos⟩

def emitStr (o : Out) (s : List Char) : Out := s.foldl (emitChar null cap) o

def uintDigits (base : ℕ) : ℕ → ℕ → List Char → Option (List Char)
  | 0, v, b => if v = 0 then some b else none
  | room + 1, v, b =>
    if v = 0 then some b else uintDigits base room (v / base) (b ++ [Nat.digitChar (v % base)])

def emitUint (o : Out) (v base : ℕ) : Option Out :=
  if v = 0 then some (emitChar null cap o '0')
  else (uintDigits base 32 v []).map fun b ↦ emitStr null cap o b.reverse

def emitInt (o : Out) (v : Int64) : Option Out :=
  if v < 0 then emitUint null cap (emitChar null cap o '-') (-v).toUInt64.toNat 10
  else emitUint null cap o v.toUInt64.toNat 10

def formatLoop : List Char → List Arg → Out → Option Out
  | [], _, _ => none
  | c :: s, args, o =>
    if c = '\x00' then some o
    else if c ≠ '%' then formatLoop s args (emitChar null cap o c)
    else
      match s with
      | [] => none
      | c :: s =>
        if c = '%' then formatLoop s args (emitChar null cap o '%')
        else if c = 's' then
          match args with
          | .str text :: args => formatLoop s args (emitStr null cap o text)
          | _ => none
        else if c = 'c' then
          match args with
          | .int v :: args =>
            formatLoop s args (emitChar null cap o (Char.ofNat (v.toUInt32.toNat % 256)))
          | _ => none
        else if c = 'd' ∨ c = 'i' then
          match args with
          | .int v :: args => (emitInt null cap o v.toInt64).bind fun o ↦ formatLoop s args o
          | _ => none
        else if c = 'u' then
          match args with
          | .uint v :: args => (emitUint null cap o v.toNat 10).bind fun o ↦ formatLoop s args o
          | _ => none
        else
          match c, s with
          | 'l', [] => none
          | 'l', 'd' :: s =>
            match args with
            | .long v :: args => (emitInt null cap o v).bind fun o ↦ formatLoop s args o
            | _ => none
          | c, s =>
            if c = 'x' then
              match args with
              | .uint v :: args => (emitUint null cap o v.toNat 16).bind fun o ↦ formatLoop s args o
              | _ => none
            else formatLoop s args (emitChar null cap (emitChar null cap o '%') c)

def formatTo (dst : ℕ → Char) (fmt : List Char) (args : List Arg) : Option (ℤ × (ℕ → Char)) :=
  (formatLoop null cap (fmt ++ ['\x00']) args ⟨dst, 0⟩).map fun o ↦
    ((BitVec.ofNat 32 o.pos).toInt, terminate null cap o)

end Code

def numeral (base n : ℕ) : List Char :=
  if n = 0 then ['0'] else ((Nat.digits base n).map Nat.digitChar).reverse

def decimal (v : ℤ) : List Char := if v < 0 then '-' :: numeral 10 v.natAbs else numeral 10 v.natAbs

def digitValue (c : Char) : ℕ := if c.toNat < 97 then c.toNat - 48 else c.toNat - 87

def readNumeral (base : ℕ) (s : List Char) : ℕ := s.foldl (fun n c ↦ n * base + digitValue c) 0

def readDecimal : List Char → ℤ
  | '-' :: s => -(readNumeral 10 s : ℤ)
  | s => readNumeral 10 s

inductive Conversion
  | str
  | char
  | int
  | uint
  | long
  | hex
  deriving DecidableEq

inductive Piece
  | text (s : List Char)
  | conversion (c : Conversion)

def conversion : Char → Option Conversion
  | 's' => some .str
  | 'c' => some .char
  | 'd' => some .int
  | 'i' => some .int
  | 'u' => some .uint
  | 'x' => some .hex
  | _ => none

def pieces : List Char → List Piece
  | [] => []
  | c :: s =>
    if c ≠ '%' then .text [c] :: pieces s
    else
      match s with
      | [] => [.text ['%']]
      | c :: s =>
        match conversion c with
        | some k => .conversion k :: pieces s
        | none =>
          match c, s with
          | '%', s => .text ['%'] :: pieces s
          | 'l', 'd' :: s => .conversion .long :: pieces s
          | c, s => .text ['%', c] :: pieces s

/-- The format does not end in the middle of a conversion. -/
def complete : List Char → Bool
  | [] => true
  | c :: s =>
    if c ≠ '%' then complete s
    else
      match s with
      | [] => false
      | _ :: s => complete s

def Arg.text : Conversion → Arg → Option (List Char)
  | .str, .str s => some s
  | .char, .int v => some [Char.ofNat (v.toUInt32.toNat % 256)]
  | .int, .int v => some (decimal v.toInt)
  | .uint, .uint v => some (decimal v.toNat)
  | .long, .long v => some (decimal v.toInt)
  | .hex, .uint v => some (numeral 16 v.toNat)
  | _, _ => none

/-- The full expansion, none where the arguments do not match the format. -/
def expand : List Piece → List Arg → Option (List Char)
  | [], _ => some []
  | .text s :: l, args => (expand l args).map (s ++ ·)
  | .conversion k :: l, arg :: args =>
    match arg.text k, expand l args with
    | some s, some t => some (s ++ t)
    | _, _ => none
  | .conversion _ :: _, [] => none

variable {null : Bool} {cap base : ℕ} {o : Out} {s t fmt : List Char} {args : List Arg}
  {dst : ℕ → Char} {c : Char}

theorem emitStr_append : emitStr null cap o (s ++ t) = emitStr null cap (emitStr null cap o s) t :=
  List.foldl_append

theorem uintDigits_eq (hbase : 1 < base) (room v : ℕ) (b : List Char) (hv : v < base ^ room) :
    uintDigits base room v b = some (b ++ (Nat.digits base v).map Nat.digitChar) := by
  induction room generalizing v b with
  | zero =>
    obtain rfl : v = 0 := by simpa using hv
    simp [uintDigits]
  | succ room ih =>
    rw [uintDigits]
    split_ifs with h
    · simp [h]
    · have hlt : v / base < base ^ room := by
        rw [Nat.div_lt_iff_lt_mul (by omega), ← Nat.pow_succ]
        exact hv
      rw [ih _ _ hlt, Nat.digits_def' hbase (Nat.pos_of_ne_zero h),
        List.map_cons, List.append_assoc, List.singleton_append]

theorem emitUint_eq {v : ℕ} (hbase : base = 10 ∨ base = 16) (hv : v < 2 ^ 64) :
    emitUint null cap o v base = some (emitStr null cap o (numeral base v)) := by
  rw [emitUint, numeral]
  split_ifs with h
  · rfl
  · have hroom : v < base ^ 32 := by
      rcases hbase with rfl | rfl
      · exact hv.trans (by norm_num)
      · exact hv.trans (by norm_num)
    rw [uintDigits_eq (by omega) 32 v [] hroom, List.nil_append]
    rfl

theorem neg_toUInt64 {v : Int64} (h : v < 0) : (-v).toUInt64.toNat = v.toInt.natAbs := by
  have hlt : v.toInt < 0 := by simpa [Int64.lt_iff_toInt_lt] using h
  have hb : (-v).toUInt64.toNat = (-v.toBitVec).toNat := rfl
  have hv : v.toInt = v.toBitVec.toInt := rfl
  rw [hv] at hlt ⊢
  rw [hb, BitVec.toNat_neg]
  rw [BitVec.toInt_eq_toNat_cond] at hlt ⊢
  split_ifs at hlt ⊢
  · omega
  · rw [Nat.mod_eq_of_lt (by omega)]
    omega

theorem toUInt64_of_nonneg {v : Int64} (h : ¬ v < 0) : v.toUInt64.toNat = v.toInt.natAbs := by
  have hlt : ¬ v.toInt < 0 := by simpa [Int64.lt_iff_toInt_lt] using h
  have hb : v.toUInt64.toNat = v.toBitVec.toNat := rfl
  have hv : v.toInt = v.toBitVec.toInt := rfl
  rw [hv] at hlt ⊢
  rw [hb]
  rw [BitVec.toInt_eq_toNat_cond] at hlt ⊢
  split_ifs at hlt ⊢
  · omega
  · omega

theorem emitInt_eq (v : Int64) :
    emitInt null cap o v = some (emitStr null cap o (decimal v.toInt)) := by
  have hsign : v < 0 ↔ v.toInt < 0 := by simp [Int64.lt_iff_toInt_lt]
  rw [emitInt, decimal]
  split_ifs with h h' h'
  · rw [emitUint_eq (.inl rfl) (UInt64.toNat_lt _), neg_toUInt64 h]
    rfl
  · exact absurd (hsign.1 h) h'
  · exact absurd (hsign.2 h') h
  · rw [emitUint_eq (.inl rfl) (UInt64.toNat_lt _), toUInt64_of_nonneg h]

theorem digitValue_digitChar {n : ℕ} (h : n < 16) : digitValue (Nat.digitChar n) = n := by
  interval_cases n <;> rfl

theorem readNumeral_numeral (h₁ : 1 < base) (h₂ : base ≤ 16) (n : ℕ) :
    readNumeral base (numeral base n) = n := by
  rw [numeral]
  split_ifs with h
  · simp [h, readNumeral, digitValue]
  · have hdigits : ∀ l : List ℕ, (∀ d ∈ l, d < base) →
    readNumeral base (l.map Nat.digitChar).reverse = Nat.ofDigits base l := by
      intro l hl
      induction l with
      | nil => rfl
      | cons d l ih =>
        have hd := hl d List.mem_cons_self
        have hrest := ih fun x hx ↦ hl x (List.mem_cons_of_mem d hx)
        rw [readNumeral] at hrest ⊢
        rw [List.map_cons, List.reverse_cons, List.foldl_append, hrest, List.foldl_cons,
          List.foldl_nil,
          digitValue_digitChar (by omega), Nat.ofDigits_cons]
        ring
    rw [hdigits _ fun d hd ↦ Nat.digits_lt_base h₁ hd, Nat.ofDigits_digits]

theorem minus_notMem_numeral (n : ℕ) : '-' ∉ numeral 10 n := by
  have hdigit : ∀ d < 10, Nat.digitChar d ≠ '-' := by decide
  rw [numeral]
  split_ifs
  · simp
  · intro h
    obtain ⟨d, hd, he⟩ := List.mem_map.1 (List.mem_reverse.1 h)
    exact hdigit d (Nat.digits_lt_base (by omega) hd) he

theorem readDecimal_of_notMem (h : '-' ∉ s) : readDecimal s = readNumeral 10 s := by
  rw [readDecimal.eq_def]
  split
  · exact absurd List.mem_cons_self h
  · rfl

theorem readDecimal_decimal (v : ℤ) : readDecimal (decimal v) = v := by
  have hread := readNumeral_numeral (by omega : 1 < 10) (by omega) v.natAbs
  rw [decimal]
  split_ifs with h
  · rw [readDecimal, hread]
    omega
  · rw [readDecimal_of_notMem (minus_notMem_numeral _), hread]
    omega

theorem expand_cons_text {s : List Char} {l : List Piece}
    (h : expand (.text s :: l) args = some t) : ∃ t', expand l args = some t' ∧ t = s ++ t' := by
  rw [expand] at h
  obtain ⟨t', ht', rfl⟩ := Option.map_eq_some_iff.1 h
  exact ⟨t', ht', rfl⟩

theorem expand_cons_conversion {k : Conversion} {l : List Piece}
    (h : expand (.conversion k :: l) args = some t) :
    ∃ arg args' s t', args = arg :: args' ∧ arg.text k = some s ∧ expand l args' = some t' ∧
      t = s ++ t' := by
  cases args with
  | nil => cases h
  | cons arg args =>
    rw [expand] at h
    split at h
    · rename_i s t' hs ht'
      exact ⟨arg, args, s, t', rfl, hs, ht', (Option.some.inj h).symm⟩
    · cases h

theorem complete_plain (h : c ≠ '%') : complete (c :: s) = complete s := by
  rw [complete.eq_def]
  exact if_pos h

theorem complete_percent (c : Char) : complete ('%' :: c :: s) = complete s := by
  rw [complete.eq_def]
  rfl

theorem formatLoop_plain (hzero : c ≠ '\x00') (h : c ≠ '%') :
    formatLoop null cap (c :: s) args o = formatLoop null cap s args (emitChar null cap o c) := by
  rw [formatLoop.eq_def]
  exact (if_neg hzero).trans (if_pos h)

theorem formatLoop_last : formatLoop null cap ['%', '\x00'] args o = none := by
  rw [formatLoop.eq_def]
  simp [formatLoop]

theorem formatLoop_text (hs : s ≠ []) (hk : conversion c = none) (hpercent : c ≠ '%')
    (hlong : c = 'l' → s.head? ≠ some 'd') : formatLoop null cap ('%' :: c :: s) args o =
    formatLoop null cap s args (emitStr null cap o ['%', c]) := by
  have hne : c ≠ 's' ∧ c ≠ 'c' ∧ ¬(c = 'd' ∨ c = 'i') ∧ c ≠ 'u' ∧ c ≠ 'x' := by
    refine ⟨?_, ?_, ?_, ?_, ?_⟩
    · rintro rfl
      cases hk
    · rintro rfl
      cases hk
    · rintro (rfl | rfl)
      · cases hk
      · cases hk
    · rintro rfl
      cases hk
    · rintro rfl
      cases hk
  rw [formatLoop.eq_def]
  simp only [reduceIte, Char.reduceEq, ne_eq, not_true_eq_false, hpercent, hne]
  split
  · exact absurd rfl hs
  · exact absurd rfl (hlong rfl)
  · exact if_neg hne.2.2.2.2

theorem formatLoop_conversion {k : Conversion} {arg : Arg} {u : List Char}
    (hk : conversion c = some k) (hu : arg.text k = some u) :
    formatLoop null cap ('%' :: c :: s)
    (arg :: args) o = formatLoop null cap s args (emitStr null cap o u) := by
  rw [formatLoop.eq_def]
  unfold conversion at hk
  split at hk
  case h_7 => cases hk
  all_goals
    obtain rfl := Option.some.inj hk
    cases arg
    all_goals cases hu
  · simp
  · simp [emitStr]
  · simp [emitInt_eq]
  · simp [emitInt_eq]
  · simp [emitUint_eq (.inl rfl) ((UInt32.toNat_lt _).trans (by norm_num)), decimal,
      not_lt.2 (Int.natCast_nonneg _)]
  · simp [emitUint_eq (.inr rfl) ((UInt32.toNat_lt _).trans (by norm_num))]

theorem formatLoop_eq (hs : '\x00' ∉ s) (h : expand (pieces s) args = some t) :
    formatLoop null cap (s ++ ['\x00']) args o =
      if complete s then some (emitStr null cap o t) else none := by
  fun_induction pieces s generalizing args o t with
  | case1 =>
    obtain rfl := Option.some.inj h
    rfl
  | case2 c s hc ih =>
    obtain ⟨hzero, hs⟩ := not_or.1 (List.mem_cons.not.1 hs)
    obtain ⟨t', ht', rfl⟩ := expand_cons_text h
    rw [complete_plain hc, emitStr_append, List.cons_append, formatLoop_plain (Ne.symm hzero) hc]
    exact ih hs ht'
  | case3 c hc =>
    obtain rfl := not_not.1 hc
    exact formatLoop_last
  | case4 p hp c s k hk ih =>
    obtain rfl := not_not.1 hp
    obtain ⟨arg, args, u, t', rfl, hu, ht', rfl⟩ := expand_cons_conversion h
    rw [complete_percent, emitStr_append, List.cons_append, List.cons_append,
      formatLoop_conversion hk hu]
    exact ih (fun hmem ↦ hs (List.mem_cons_of_mem _ (List.mem_cons_of_mem _ hmem))) ht'
  | case5 p hp s hk ih =>
    obtain rfl := not_not.1 hp
    obtain ⟨t', ht', rfl⟩ := expand_cons_text h
    rw [complete_percent, emitStr_append, List.cons_append, List.cons_append, formatLoop.eq_def]
    exact ih (fun hmem ↦ hs (List.mem_cons_of_mem _ (List.mem_cons_of_mem _ hmem))) ht'
  | case6 p hp s hk ih =>
    obtain rfl := not_not.1 hp
    obtain ⟨arg, args, u, t', rfl, hu, ht', rfl⟩ := expand_cons_conversion h
    rw [complete_percent, complete_plain (by simp), emitStr_append]
    cases arg with
    | long v =>
      obtain rfl := Option.some.inj hu
      rw [List.cons_append, List.cons_append, List.cons_append, formatLoop.eq_def]
      simp only [reduceIte, Char.reduceEq, ne_eq, not_true_eq_false, or_self, emitInt_eq,
        Option.bind_some]
      refine ih (fun hmem ↦ hs ?_) ht'
      exact List.mem_cons_of_mem _ (List.mem_cons_of_mem _ (List.mem_cons_of_mem _ hmem))
    | str _ => cases hu
    | int _ => cases hu
    | uint _ => cases hu
  | case7 p hp c s hpercent hlong hk ih =>
    obtain rfl := not_not.1 hp
    obtain ⟨t', ht', rfl⟩ := expand_cons_text h
    have hd : c = 'l' → (s ++ ['\x00']).head? ≠ some 'd' := by
      rintro rfl hd
      cases s with
      | nil => cases hd
      | cons d s =>
        obtain rfl := Option.some.inj hd
        exact hlong s rfl rfl
    rw [complete_percent, emitStr_append, List.cons_append, List.cons_append,
      formatLoop_text (by simp) hk hpercent hd]
    exact ih (fun hmem ↦ hs (List.mem_cons_of_mem _ (List.mem_cons_of_mem _ hmem))) ht'

/-- A text is written so far: its bytes that fit, and nothing behind the terminator or the capacity.
-/
structure Written (cap : ℕ) (dst : ℕ → Char) (s : List Char) (o : Out) : Prop where
  pos : o.pos = s.length
  text : ∀ (i : ℕ) (h : i < s.length), i + 1 < cap → o.dst i = s[i]
  rest : ∀ i, s.length < i ∨ cap ≤ i → o.dst i = dst i

theorem written_nil (cap : ℕ) (dst : ℕ → Char) :
    Written cap dst [] ⟨dst, 0⟩ := ⟨rfl, fun _ h ↦ absurd h (Nat.not_lt_zero _), fun _ _ ↦ rfl⟩

theorem Written.emitChar (h : Written cap dst s o) (hs : s.length + 1 < 2 ^ 64) (c : Char) :
    Written cap dst (s ++ [c]) (emitChar false cap o c) := by
  have hmod : (s.length + 1) % 2 ^ 64 = s.length + 1 := Nat.mod_eq_of_lt hs
  obtain ⟨hpos, htext, hrest⟩ := h
  refine ⟨?_, fun i hi hcap ↦ ?_, fun i hi ↦ ?_⟩
  · rw [Libc.emitChar, hpos, hmod, List.length_append, List.length_singleton]
  · rw [List.length_append, List.length_singleton] at hi
    rw [Libc.emitChar, terminate]
    simp only [hpos, hmod, Bool.not_false, true_and]
    have hend : (if s.length + 1 < cap then s.length + 1 else cap - 1) ≠ i := by
      split_ifs
      · omega
      · omega
    rw [if_pos (by omega), Function.update_of_ne hend.symm]
    obtain hlt | rfl := Nat.lt_or_eq_of_le (Nat.le_of_lt_succ hi)
    · rw [List.getElem_append_left hlt]
      split_ifs
      · rw [Function.update_of_ne (by omega)]
        exact htext i hlt hcap
      · exact htext i hlt hcap
    · rw [if_pos hcap, Function.update_self, List.getElem_concat_length rfl]
  · rw [List.length_append, List.length_singleton] at hi
    rw [Libc.emitChar, terminate]
    simp only [hpos, hmod, Bool.not_false, true_and]
    have hend : 0 < cap → (if s.length + 1 < cap then s.length + 1 else cap - 1) ≠ i := by
      intro hcap
      split_ifs
      · omega
      · omega
    have hsame : (if s.length + 1 < cap then Function.update o.dst s.length c else o.dst) i =
        dst i := by
      split_ifs
      · rw [Function.update_of_ne (by omega)]
        exact hrest i (by omega)
      · exact hrest i (by omega)
    by_cases hcap : 0 < cap
    · rw [if_pos hcap, Function.update_of_ne (hend hcap).symm]
      exact hsame
    · rw [if_neg hcap]
      exact hsame

theorem Written.emitStr (h : Written cap dst s o) (ht : (s ++ t).length < 2 ^ 64) :
    Written cap dst (s ++ t) (emitStr false cap o t) := by
  induction t generalizing s o with
  | nil => rwa [List.append_nil]
  | cons c t ih =>
    rw [List.append_cons] at ht ⊢
    have hlen : s.length + 1 < 2 ^ 64 := by
      simp only [List.length_append, List.length_singleton] at ht
      omega
    exact ih (h.emitChar hlen c) ht

theorem emitStr_null : (emitStr true cap o t).dst = o.dst ∧ ((o.pos + t.length < 2 ^ 64) →
    (emitStr true cap o t).pos = o.pos + t.length) := by
  induction t generalizing o with
  | nil => exact ⟨rfl, fun _ ↦ rfl⟩
  | cons c t ih =>
    obtain ⟨hdst, hpos⟩ := @ih (emitChar true cap o c)
    refine ⟨hdst, fun hlt ↦ ?_⟩
    rw [List.length_cons] at hlt ⊢
    have hmod : (emitChar true cap o c).pos = o.pos + 1 := Nat.mod_eq_of_lt (by omega)
    rw [hmod] at hpos
    exact (hpos (by omega)).trans (by omega)

/-- The call returns the length of the text and leaves in the destination what fits of it, with a
terminator. -/
def Formats (null : Bool) (cap : ℕ) (dst : ℕ → Char) (fmt : List Char) (args : List Arg)
    (t : List Char) : Prop :=
  ∃ d, formatTo null cap dst fmt args = some ((t.length : ℤ), d) ∧ (null = true → d = dst) ∧
    (null = false → 0 < cap →
      (∀ (i : ℕ) (h : i < t.length), i < cap - 1 → d i = t[i]) ∧
        d (min t.length (cap - 1)) = '\x00') ∧
    ∀ i, cap ≤ i → d i = dst i

theorem toInt_ofNat_eq {n : ℕ} (h : n < 2 ^ 31) : (BitVec.ofNat 32 n).toInt = n := by
  rw [BitVec.toInt_eq_toNat_cond, BitVec.toNat_ofNat, Nat.mod_eq_of_lt (by omega), if_pos (by omega)]

theorem formatTo_eq (hfmt : '\x00' ∉ fmt) (h : expand (pieces fmt) args = some t) :
    formatTo null cap dst fmt args =
    if complete fmt then
      some ((BitVec.ofNat 32 (emitStr null cap ⟨dst, 0⟩ t).pos).toInt,
        terminate null cap (emitStr null cap ⟨dst, 0⟩ t))
    else none := by
  rw [formatTo, formatLoop_eq hfmt h]
  split_ifs
  · rfl
  · rfl

theorem formats_of (hfmt : '\x00' ∉ fmt) (h : expand (pieces fmt) args = some t)
    (hc : complete fmt = true) (ht : t.length < 2 ^ 31) : Formats null cap dst fmt args t := by
  refine ⟨terminate null cap (emitStr null cap ⟨dst, 0⟩ t), ?_, ?_⟩
  · have hpos : (emitStr null cap ⟨dst, 0⟩ t).pos = t.length := by
      cases null with
      | true =>
        have := (@emitStr_null cap ⟨dst, 0⟩ t).2
        simpa using this (by simp only; omega)
      | false =>
        have := (written_nil cap dst).emitStr (t := t) (by rw [List.nil_append]; omega)
        exact this.pos
    rw [formatTo_eq hfmt h, if_pos hc, hpos, toInt_ofNat_eq ht]
  · cases null with
    | true =>
      have hdst : terminate true cap (emitStr true cap ⟨dst, 0⟩ t) = dst := emitStr_null.1
      exact ⟨fun _ ↦ hdst, nofun, fun i _ ↦ congrFun hdst i⟩
    | false =>
      obtain ⟨hpos, htext, hrest⟩ :=
        (written_nil cap dst).emitStr (t := t) (by rw [List.nil_append]; omega)
      rw [List.nil_append] at hpos htext hrest
      have hend : terminate false cap (emitStr false cap ⟨dst, 0⟩ t) =
          if 0 < cap then
            Function.update (emitStr false cap ⟨dst, 0⟩ t).dst (min t.length (cap - 1)) '\x00'
          else (emitStr false cap ⟨dst, 0⟩ t).dst := by
        rw [terminate, hpos]
        simp only [Bool.not_false, true_and]
        split_ifs with hcap hlt
        · rw [min_eq_left (by omega)]
        · rw [min_eq_right (by omega)]
        · rfl
      rw [hend]
      refine ⟨nofun, fun _ hcap ↦ ⟨fun i hi hlt ↦ ?_, ?_⟩, fun i hi ↦ ?_⟩
      · rw [if_pos hcap, Function.update_of_ne (by omega)]
        exact htext i hi (by omega)
      · rw [if_pos hcap, Function.update_self]
      · split_ifs with hcap
        · rw [Function.update_of_ne (by omega)]
          exact hrest i (.inr hi)
        · exact hrest i (.inr hi)

/-- A format is expanded right exactly when it does not end in a single percent sign and the length
is an `int`. -/
theorem formats_iff (null : Bool) (cap : ℕ) (dst : ℕ → Char) (hfmt : '\x00' ∉ fmt)
    (h : expand (pieces fmt) args = some t) :
    (Formats null cap dst fmt args t ↔ complete fmt = true ∧ t.length < 2 ^ 31) ∧
    (∀ cap' dst' d d', formatTo false cap dst fmt args = some ((t.length : ℤ), d) →
      formatTo false cap' dst' fmt args = some ((t.length : ℤ), d') →
      ∀ i, i < t.length → i < cap - 1 → i < cap' - 1 → d i = d' i) ∧
    (∀ v : ℤ, readDecimal (decimal v) = v) ∧ ∀ n : ℕ, readNumeral 16 (numeral 16 n) = n := by
  have honly : ∀ {null cap dst d}, formatTo null cap dst fmt args = some ((t.length : ℤ), d) →
      complete fmt = true ∧ t.length < 2 ^ 31 := by
    intro null cap dst d hd
    rw [formatTo_eq hfmt h] at hd
    split_ifs at hd with hc
    obtain ⟨hlen, -⟩ := Prod.mk.inj (Option.some.inj hd)
    have hlt := @BitVec.toInt_lt 32 (BitVec.ofNat 32 (emitStr null cap ⟨dst, 0⟩ t).pos)
    exact ⟨hc, by omega⟩
  refine ⟨⟨fun ⟨d, hd, _⟩ ↦ honly hd, fun ⟨hc, ht⟩ ↦ formats_of hfmt h hc ht⟩, ?_, ?_, ?_⟩
  · intro cap' dst' d d' hd hd' i hi hcap hcap'
    obtain ⟨hc, ht⟩ := honly hd
    have hformats : ∀ cap dst, Formats false cap dst fmt args t := fun _ _ ↦ formats_of hfmt h hc ht
    obtain ⟨e, he, -, htext, -⟩ := hformats cap dst
    obtain ⟨e', he', -, htext', -⟩ := hformats cap' dst'
    obtain rfl := (Prod.mk.inj (Option.some.inj (hd.symm.trans he))).2
    obtain rfl := (Prod.mk.inj (Option.some.inj (hd'.symm.trans he'))).2
    rw [(htext rfl (by omega)).1 i hi hcap, (htext' rfl (by omega)).1 i hi hcap']
  · exact readDecimal_decimal
  · exact readNumeral_numeral (by omega) (by omega)

/-- The format `n=%d, %x%%` with a capacity of eight bytes. -/
theorem formats_iff_number :
    (Formats false 8 (fun _ ↦ 'z') ['n', '=', '%', 'd', ',', ' ', '%', 'x', '%', '%']
      [.int (-12), .uint 255]
        ['n', '=', '-', '1', '2', ',', ' ', 'f', 'f', '%'] ↔
      complete ['n', '=', '%', 'd', ',', ' ', '%', 'x', '%', '%'] = true ∧ 10 < 2 ^ 31) ∧
    readDecimal (decimal (-12)) = -12 := by
  have h := @formats_iff ['n', '=', '-', '1', '2', ',', ' ', 'f', 'f', '%']
    ['n', '=', '%', 'd', ',', ' ', '%', 'x', '%', '%'] [.int (-12), .uint 255] false 8 (fun _ ↦ 'z')
      (by decide)
    (by simp [pieces, conversion, expand, Arg.text, decimal, numeral])
  exact ⟨h.1, h.2.2.1 (-12)⟩

/-- The format that is a single percent sign: its terminator is written and the bytes behind it are
read. -/
theorem not_formats : ¬ ∀ (null : Bool) (cap : ℕ) (dst : ℕ → Char) (fmt : List Char)
    (args : List Arg) (t : List Char),
    '\x00' ∉ fmt → expand (pieces fmt) args = some t → Formats null cap dst fmt args t := by
  intro h
  obtain ⟨d, hd, -⟩ := h false 8 (fun _ ↦ 'z') ['%'] [] ['%'] (by decide) rfl
  have hnone : formatTo false 8 (fun _ ↦ 'z') ['%'] [] = none := by
    rw [formatTo, List.cons_append, List.nil_append, formatLoop_last]
    rfl
  rw [hnone] at hd
  cases hd

end YabroOS.Libc
