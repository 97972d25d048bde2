import YabroOS.Fat.Image
import Mathlib.Data.List.GetD

namespace YabroOS.Fat

open Lib

def lfnUnit (name : List UInt8) (k : ℕ) : ℕ :=
  match name[k]? with
  | some c => c.toNat
  | none => if k = name.length then 0 else 0xffff

namespace Volume

variable {f : Volume} {name dst query : List UInt8} {es : List ℕ} {s n pos k : ℕ}

/-- An entry holds the thirteen characters of the given part of a name. -/
structure Piece (f : Volume) (name : List UInt8) (s flag e : ℕ) : Prop where
  sequence : f.byte e = s + 1 + flag
  chars : f.lfnChars e = (List.range 13).map (fun j ↦ lfnUnit name (13 * s + j))

/-- The entries of a name for the parts from a given one on, as they are stored: the last part
first. -/
inductive LongEntries (f : Volume) (name : List UInt8) : ℕ → List ℕ → Prop
  | last (s e : ℕ) (hlt : 13 * s < name.length) (hle : name.length ≤ 13 * (s + 1))
    (he : f.Piece name s 0x40 e) : LongEntries f name s [e]
  | next (s e : ℕ) (es : List ℕ) (hes : LongEntries f name (s + 1) es) (he : f.Piece name s 0 e) :
    LongEntries f name s (es ++ [e])

/-- A file name of ASCII characters that fits in the buffer. -/
structure AsciiName (name : List UInt8) : Prop where
  length : name.length ≤ 255
  ascii : ∀ c ∈ name, c ≠ 0 ∧ c ≤ 0x7f

/-- A buffer with the part of a name from `lo` to `pos` and from `hi` on, and zeros else. -/
structure Holds (name : List UInt8) (lo pos hi : ℕ) (dst : List UInt8) : Prop where
  length : dst.length = 260
  get : ∀ k < 260, dst[k]? = some (if lo ≤ k ∧ (k < pos ∨ hi ≤ k) then name.getD k 0 else 0)

theorem LongEntries.lt (h : f.LongEntries name s es) : 13 * s < name.length := by
  induction h with
  | last s e hlt => exact hlt
  | next s e es _ _ ih => omega

theorem lfnUnit_of_lt (h : AsciiName name) (hk : k < name.length) :
    lfnUnit name k = (name.getD k 0).toNat ∧ name.getD k 0 ≠ 0 ∧ (name.getD k 0).toNat ≤ 0x7f := by
  obtain ⟨hzero, hle⟩ := h.ascii name[k] (List.getElem_mem hk)
  rw [lfnUnit, List.getElem?_eq_getElem hk, List.getD_eq_getElem _ _ hk]
  exact ⟨rfl, hzero, hle⟩

theorem lfnUnit_of_le (hk : name.length ≤ k) : lfnUnit name k = 0 ∨ lfnUnit name k = 0xffff := by
  rw [lfnUnit, List.getElem?_eq_none hk]
  dsimp only
  split_ifs
  · exact .inl rfl
  · exact .inr rfl

theorem lfnWrite_holds {lo : ℕ} (h : AsciiName name) (hlo : lo ≤ pos)
    (hdst : Holds name lo pos (pos + n) dst) :
    Holds name lo lo lo (lfnWrite ((List.range' pos n).map (lfnUnit name)) pos dst) := by
  induction n generalizing pos dst with
  | zero =>
    refine ⟨hdst.length, fun k hk ↦ ?_⟩
    rw [List.range'_zero, List.map_nil, lfnWrite, hdst.get k hk]
    simp only [Nat.add_zero, lt_or_ge, and_true]
  | succ n ih =>
    rw [List.range'_succ, List.map_cons, lfnWrite]
    by_cases hpos : pos < name.length
    · obtain ⟨hunit, hzero, hle⟩ := lfnUnit_of_lt h hpos
      have hshort := h.length
      have hne : (name.getD pos 0).toNat ≠ 0 := fun hbad ↦ hzero (UInt8.toNat_inj.1 hbad)
      rw [hunit, if_neg (by omega), if_neg (by omega), if_pos hle, UInt8.ofNat_toNat]
      refine ih (by omega) ⟨by rw [List.length_set, hdst.length], fun k hk ↦ ?_⟩
      rw [List.getElem?_set]
      by_cases hk' : pos = k
      · subst hk'
        rw [if_pos rfl, if_pos (by rw [hdst.length]; exact hk),
          if_pos ⟨hlo, .inl (Nat.lt_succ_self _)⟩]
      · rw [if_neg hk', hdst.get k hk]
        congr 2
        exact propext (and_congr_right fun _ ↦ by omega)
    · rw [if_pos (lfnUnit_of_le (not_lt.1 hpos))]
      have hset : (if pos < 260 then dst.set pos 0 else dst).length = 260 ∧
          ∀ k < 260, (if pos < 260 then dst.set pos 0 else dst)[k]? = if pos = k then some 0
            else dst[k]? := by
        split_ifs with hlt
        · refine ⟨by rw [List.length_set, hdst.length], fun k hk ↦ ?_⟩
          rw [List.getElem?_set, hdst.length, if_pos hlt]
        · exact ⟨hdst.length, fun k hk ↦ by rw [if_neg (by omega)]⟩
      refine ⟨hset.1, fun k hk ↦ ?_⟩
      rw [hset.2 k hk, hdst.get k hk]
      have hend : pos ≤ k → name.getD k 0 = 0 :=
        fun hle ↦ List.getD_eq_default _ _ ((not_lt.1 hpos).trans hle)
      by_cases heq : pos = k
      · rw [if_pos heq, hend heq.le, ite_self]
      · rw [if_neg heq]
        by_cases hmiss : pos < k ∧ k < pos + (n + 1)
        · rw [if_neg (by omega), hend hmiss.1.le, ite_self]
        · congr 2
          exact propext (and_congr_right fun _ ↦ by omega)

theorem lfnAppendEntry_holds (h : AsciiName name) (hs : 13 * s < name.length) {flag e : ℕ}
    (he : f.Piece name s flag e) (hflag : flag = 0x40 ∨ flag = 0)
    (hdst : Holds name (13 * s) (13 * s) (13 * s + 13) (if flag = 0x40 then noLfn else dst)) :
    Holds name (13 * s) (13 * s) (13 * s) (f.lfnAppendEntry dst e) := by
  have hshort := h.length
  have hbit : (f.byte e).testBit 6 = decide (flag = 0x40) := by
    rw [he.sequence]
    have hsmall : s < 20 := by omega
    clear he hdst hs
    rcases hflag with rfl | rfl
    · revert s
      decide
    · revert s
      decide
  have hseq : f.byte e % 32 = s + 1 := by
    rw [he.sequence]
    omega
  unfold lfnAppendEntry
  dsimp only
  rw [hseq, hbit, if_neg (Nat.succ_ne_zero s), Nat.add_sub_cancel, Nat.mul_comm s,
    if_neg (by omega), he.chars]
  have hrange : (List.range 13).map (fun j ↦ lfnUnit name (13 * s + j)) =
      (List.range' (13 * s) 13).map (lfnUnit name) := by
    rw [List.range'_eq_map_range, List.map_map]
    rfl
  rw [hrange]
  simp only [decide_eq_true_eq]
  exact lfnWrite_holds h le_rfl hdst

theorem LongEntries.holds (h : f.LongEntries name s es) (hname : AsciiName name)
    (dst : List UInt8) : Holds name (13 * s) (13 * s) (13 * s) (es.foldl f.lfnAppendEntry dst) := by
  induction h with
  | last s e hlt hle he =>
    refine lfnAppendEntry_holds hname hlt he (.inl rfl) ⟨List.length_replicate, fun k hk ↦ ?_⟩
    rw [if_pos rfl, noLfn, List.getElem?_replicate, if_pos hk]
    split_ifs with hend
    · rw [List.getD_eq_default _ _ (by omega)]
    · rfl
  | next s e es hes he ih =>
    rw [List.foldl_append, List.foldl_cons, List.foldl_nil]
    have hlt := (LongEntries.next s e es hes he).lt
    refine lfnAppendEntry_holds hname hlt he (.inr rfl) ⟨ih.length, fun k hk ↦ ?_⟩
    rw [if_neg (by decide), ih.get k hk]
    congr 2
    exact propext (by omega)

theorem nameMatches_iff {n : ℕ} (hn : 0 < n) (hname : ∀ c ∈ name, c ≠ 0) :
    nameMatches query (name ++ List.replicate n 0) = true ↔
      (cstr query).map asciiFold = name.map asciiFold := by
  obtain ⟨n, rfl⟩ := Nat.exists_eq_succ_of_ne_zero hn.ne'
  have hend : ∀ {name : List UInt8}, (∀ c ∈ name, c ≠ 0) →
      ((name ++ List.replicate (n + 1) 0).headD 0 = 0 ↔ [] = name.map asciiFold) := by
    intro name hname
    cases name with
    | nil => exact iff_of_true rfl rfl
    | cons c name => exact iff_of_false (hname c (.head _)) nofun
  induction query generalizing name with
  | nil =>
    rw [nameMatches.eq_def, decide_eq_true_eq]
    exact hend hname
  | cons q query ih =>
    rw [nameMatches.eq_def]
    dsimp only
    by_cases hq : q = 0
    · have hcstr : cstr (q :: query) = [] := List.takeWhile_cons_of_neg (by simp [hq])
      rw [if_pos hq, decide_eq_true_eq, hcstr]
      exact hend hname
    · have hcstr : cstr (q :: query) = q :: cstr query :=
        List.takeWhile_cons_of_pos (decide_eq_true hq)
      rw [if_neg hq, hcstr, List.map_cons]
      cases name with
      | nil => exact iff_of_false (by simp [List.replicate_succ]) nofun
      | cons c name =>
        have hrest := @ih name fun x hx ↦ hname x (.tail _ hx)
        rw [List.cons_append, List.map_cons, List.cons_eq_cons]
        dsimp only
        rw [decide_eq_true_eq]
        exact ⟨fun h ↦ ⟨h.2.1, hrest.1 h.2.2⟩, fun h ↦ ⟨hname c (.head _), h.1, hrest.2 h.2⟩⟩

/-- The entries of a long name leave the name in the buffer, whatever was there, and it is matched
up to the case of letters. -/
theorem longName_reassembled (f : Volume) (name : List UInt8) (es : List ℕ) (hname : AsciiName name)
    (hes : f.LongEntries name 0 es) (dst : List UInt8) :
    es.foldl f.lfnAppendEntry dst = name ++ List.replicate (260 - name.length) 0 ∧
      ∀ query, nameMatches query (es.foldl f.lfnAppendEntry dst) = true ↔
        (cstr query).map asciiFold = name.map asciiFold := by
  have hshort := hname.length
  have hholds := hes.holds hname dst
  have hbuffer : es.foldl f.lfnAppendEntry dst = name ++ List.replicate (260 - name.length) 0 := by
    refine List.ext_getElem? fun k ↦ ?_
    by_cases hk : k < 260
    · rw [hholds.get k hk, if_pos ⟨Nat.zero_le _, .inr (Nat.zero_le _)⟩]
      by_cases hlt : k < name.length
      · rw [List.getElem?_append_left hlt, List.getElem?_eq_getElem hlt, List.getD_eq_getElem _ _ hlt]
      · rw [List.getElem?_append_right (not_lt.1 hlt), List.getElem?_replicate, if_pos (by omega),
          List.getD_eq_default _ _ (not_lt.1 hlt)]
    · rw [List.getElem?_eq_none (by rw [hholds.length]; omega), List.getElem?_eq_none]
      rw [List.length_append, List.length_replicate]
      omega
  refine ⟨hbuffer, fun query ↦ ?_⟩
  rw [hbuffer]
  exact nameMatches_iff (by omega) fun c hc ↦ (hname.ascii c hc).1

def entryBytes (sequence : ℕ) (units : List ℕ) : List UInt8 :=
  let bytes :=
    fun units : List ℕ ↦ units.flatMap (fun u ↦ [UInt8.ofNat (u % 256), UInt8.ofNat (u / 256)])
  [UInt8.ofNat sequence] ++ bytes (units.take 5) ++ [0x0f, 0, 0] ++ bytes ((units.drop 5).take 6) ++
    [0, 0] ++ bytes (units.drop 11)

def twoEntries (name : List UInt8) : Volume where
  bytes o := ((entryBytes 0x42 ((List.range 13).map (fun j ↦ lfnUnit name (13 + j))) ++
    entryBytes 1 ((List.range 13).map (lfnUnit name)))[o]?).getD 0
  size := 64

def fourteen : List UInt8 := [97, 98, 99, 100, 101, 102, 103, 104, 105, 106, 107, 108, 109, 110]

/-- A name of two entries over a buffer that is full of other letters. -/
theorem longName_reassembled_two :
    [0, 32].foldl (twoEntries fourteen).lfnAppendEntry (List.replicate 260 120) =
    fourteen ++ List.replicate 246 0 := by
  have hlast : (twoEntries fourteen).Piece fourteen 1 0x40 0 := ⟨by decide, by decide⟩
  have hfirst : (twoEntries fourteen).Piece fourteen 0 0 32 := ⟨by decide, by decide⟩
  have hes : (twoEntries fourteen).LongEntries fourteen 0 ([0] ++ [32]) :=
    .next 0 32 [0] (.last 1 0 (by decide) (by decide) hlast) hfirst
  exact (longName_reassembled (twoEntries fourteen) fourteen [0, 32] ⟨by decide, by decide +kernel⟩
    hes (List.replicate 260 120)).1

end Volume

end YabroOS.Fat
