import YabroOS.Lib.Cursor
import YabroOS.Lib.GrowArray
import YabroOS.Lib.LittleEndian
import YabroOS.Vfs.Exact

namespace YabroOS.Vfs

open Lib Fat

/-- `struct linux_dirent64_k`, as a reader takes it from the buffer. -/
structure Dirent where
  ino : ℕ
  off : ℕ
  type : UInt8
  name : List UInt8
  deriving DecidableEq

def direntBytes (ino : ℕ) (type : UInt8) (name : List UInt8) (next reclen : ℕ) : List UInt8 :=
  toLE 8 ino ++ toLE 8 next ++ toLE 2 reclen ++ [type] ++ name ++ [0]

def direntPut (dst : ℕ → UInt8) (cap pos ino : ℕ) (type : UInt8) (name : List UInt8) (next : ℕ) :
    Option ((ℕ → UInt8) × ℕ) :=
  let name := cstr name
  let reclen := (20 + name.length + 7) / 8 * 8 % 2 ^ 16
  if cap < pos + reclen then none
  else some (put dst pos (direntBytes ino type name next reclen), pos + reclen)

namespace Fs

variable (s : Fs)

def parentIno (d : ℕ) : ℕ :=
  match (s.nodes d).parent with
  | none => (s.nodes d).ino
  | some p => (s.nodes p).ino

def direntType (n : ℕ) : UInt8 :=
  if s.isType n .dir then 4 else if s.isType n .symlink then 10 else 8

def getdentsLoop (cap : ℕ) : List ℕ → (ℕ → UInt8) → ℕ → ℕ → (ℕ → UInt8) × ℕ × ℕ
  | [], tmp, pos, idx => (tmp, pos, idx)
  | n :: rest, tmp, pos, idx =>
    match direntPut tmp cap pos (s.nodes n).ino (s.direntType n) (s.nodes n).name (idx + 1) with
    | none => (tmp, pos, idx)
    | some (tmp, pos) => getdentsLoop cap rest tmp pos (idx + 1)

def getdentsEnd (copied : Bool) (tmp : ℕ → UInt8) (pos offset : ℕ) : ℕ × ℤ × List UInt8 :=
  if pos ≠ 0 ∧ copied = false then (offset, -14, []) else (offset, pos, window tmp pos)

/-- `sys_getdents64` on a descriptor of the node `d`; `tmp` is what is in the buffer of the kernel,
and `copied` says whether the bytes get to the user. -/
def sysGetdents64 (d offset count : ℕ) (tmp : ℕ → UInt8) (copied : Bool) : ℕ × ℤ × List UInt8 :=
  if s.isType d .dir = false then (offset, -20, [])
  else
    let cap := min count 1024
    match if offset = 0 then (direntPut tmp cap 0 (s.nodes d).ino 4 dot 1).map
      (fun r ↦ (r.1, r.2, 1)) else some (tmp, 0, offset) with
    | none => (offset, 0, [])
    | some (tmp, pos, idx) =>
      match if idx = 1 then (direntPut tmp cap pos (s.parentIno d) 4 dotdot 2).map
        (fun r ↦ (r.1, r.2, 2)) else some (tmp, pos, idx) with
      | none => getdentsEnd copied tmp pos 1
      | some (tmp, pos, idx) =>
        match s.getdentsLoop cap ((s.nodes d).children.drop (idx - 2)) tmp pos idx with
        | (tmp, pos, idx) => getdentsEnd copied tmp pos idx

end Fs

def readDirent (b : List UInt8) : Option (Dirent × ℕ) :=
  let reclen := ofLE ((b.drop 16).take 2)
  if b.length < 19 ∨ reclen < 24 ∨ reclen % 8 ≠ 0 ∨ b.length < reclen ∨
    0 ∉ (b.take reclen).drop 19 then none
  else some (⟨ofLE (b.take 8), ofLE ((b.drop 8).take 8), b.getD 18 0,
    cstr ((b.take reclen).drop 19)⟩, reclen)

/-- All records of a buffer; the number bounds the rounds. -/
def readDirents : ℕ → List UInt8 → Option (List Dirent)
  | _, [] => some []
  | 0, _ :: _ => none
  | k + 1, x :: b =>
    match readDirent (x :: b) with
    | none => none
    | some (d, n) => (readDirents k ((x :: b).drop n)).map (d :: ·)

def Chunk (d : Dirent) (c : List UInt8) : Prop :=
  0 < c.length ∧ ∀ rest, readDirent (c ++ rest) = some (d, c.length)

theorem readDirents_chunks {ds : List Dirent} {cs : List (List UInt8)}
    (h : List.Forall₂ Chunk ds cs) {k : ℕ} (hk : cs.flatten.length ≤ k) :
    readDirents k cs.flatten = some ds := by
  induction h generalizing k with
  | nil =>
    rw [List.flatten_nil]
    cases k with
    | zero => rfl
    | succ k => rfl
  | @cons d c ds cs hc _ ih =>
    obtain ⟨hpos, hread⟩ := hc
    rw [List.flatten_cons] at hk ⊢
    rw [List.length_append] at hk
    obtain ⟨x, b, hxb⟩ : ∃ x b, c ++ cs.flatten = x :: b := by
      cases hcs : c ++ cs.flatten with
      | nil =>
        have hlen := congrArg List.length hcs
        rw [List.length_append, List.length_nil] at hlen
        omega
      | cons x b => exact ⟨x, b, rfl⟩
    obtain ⟨k, rfl⟩ : ∃ k', k = k' + 1 := ⟨k - 1, by omega⟩
    have hread := hread cs.flatten
    rw [hxb] at hread ⊢
    rw [readDirents, hread]
    dsimp only
    rw [← hxb, List.drop_left, ih (by omega)]
    rfl

theorem cstr_no_zero (name : List UInt8) : (0 : UInt8) ∉ cstr name := by
  intro h
  exact absurd (List.mem_takeWhile_imp h) (by decide)

theorem cstr_append_zero {name : List UInt8} (h : (0 : UInt8) ∉ name) (rest : List UInt8) :
    cstr (name ++ 0 :: rest) = name := by
  have hne : ∀ x ∈ name, decide (x ≠ 0) = true := by
    intro x hx
    refine decide_eq_true ?_
    rintro rfl
    exact h hx
  unfold cstr
  rw [List.takeWhile_append_of_pos hne, List.takeWhile_cons_of_neg (by decide), List.append_nil]

def reclenOf (name : List UInt8) : ℕ := (20 + name.length + 7) / 8 * 8

theorem chunk_direntBytes {ino next : ℕ} {type : UInt8} {name g : List UInt8}
    (hname : (0 : UInt8) ∉ name) (hlen : name.length ≤ vfsNameMax)
    (hg : 20 + name.length + g.length = reclenOf name) :
    Chunk ⟨ino % 2 ^ 64, next % 2 ^ 64, type, name⟩
      (direntBytes ino type name next (reclenOf name) ++ g) := by
  have hmax : vfsNameMax = 31 := rfl
  have h64 : 256 ^ 8 = 2 ^ 64 := rfl
  have hreclen : reclenOf name = (20 + name.length + 7) / 8 * 8 := rfl
  have htotal : (direntBytes ino type name next (reclenOf name) ++ g).length = reclenOf name := by
    simp only [direntBytes, List.length_append, length_toLE, List.length_singleton]
    omega
  refine ⟨by omega, fun rest ↦ ?_⟩
  rw [htotal]
  have hsplit : direntBytes ino type name next (reclenOf name) ++ g ++ rest =
      toLE 8 ino ++
        (toLE 8 next ++ (toLE 2 (reclenOf name) ++ (type :: (name ++ 0 :: (g ++ rest))))) := by
    simp only [direntBytes, List.append_assoc, List.cons_append, List.nil_append]
  have hsize : (direntBytes ino type name next (reclenOf name) ++ g ++ rest).length =
      reclenOf name + rest.length := by
    rw [List.length_append, htotal]
  have h16 : (direntBytes ino type name next (reclenOf name) ++ g ++ rest).drop 16 =
      toLE 2 (reclenOf name) ++ (type :: (name ++ 0 :: (g ++ rest))) := by
    rw [hsplit, ← List.append_assoc,
      List.drop_left' (by rw [List.length_append, length_toLE, length_toLE])]
  have hlen2 : ofLE (((direntBytes ino type name next (reclenOf name) ++ g ++ rest).drop 16).take
      2) = reclenOf name := by
    rw [h16, List.take_left' length_toLE, ofLE_toLE_of_lt (by omega)]
  have hrest : ((direntBytes ino type name next (reclenOf name) ++ g ++ rest).take
      (reclenOf name)).drop 19 = name ++ 0 :: g := by
    have hform : direntBytes ino type name next (reclenOf name) ++ g =
        (toLE 8 ino ++ toLE 8 next ++ toLE 2 (reclenOf name) ++ [type]) ++ (name ++ 0 :: g) := by
      simp only [direntBytes, List.append_assoc, List.cons_append, List.nil_append]
    rw [List.take_left' htotal, hform,
      List.drop_left' (by simp only [List.length_append, length_toLE, List.length_singleton])]
  have htype : (direntBytes ino type name next (reclenOf name) ++ g ++ rest).getD 18 0 = type := by
    have hget : ((direntBytes ino type name next (reclenOf name) ++ g ++ rest).drop 16)[2]? =
        some type := by
      rw [h16, List.getElem?_append_right (by rw [length_toLE]), length_toLE]
      rfl
    rw [List.getElem?_drop] at hget
    rw [List.getD_eq_getElem?_getD, hget]
    rfl
  have hino : ofLE ((direntBytes ino type name next (reclenOf name) ++ g ++ rest).take 8) = ino %
      2 ^ 64 := by
    rw [hsplit, List.take_left' length_toLE, ofLE_toLE, h64]
  have hoff : ofLE (((direntBytes ino type name next (reclenOf name) ++ g ++ rest).drop 8).take 8) =
      next % 2 ^ 64 := by
    rw [hsplit, List.drop_left' length_toLE, List.take_left' length_toLE, ofLE_toLE, h64]
  unfold readDirent
  dsimp only
  rw [hlen2, hrest, htype, hino, hoff, hsize, cstr_append_zero hname, if_neg]
  rintro (h | h | h | h | h)
  · omega
  · omega
  · omega
  · omega
  · exact h (List.mem_append_right name List.mem_cons_self)

theorem direntPut_cases (tmp : ℕ → UInt8) (cap pos ino : ℕ) (type : UInt8) {name : List UInt8}
    (hlen : name.length ≤ vfsNameMax) (next : ℕ) :
    direntPut tmp cap pos ino type name next = none ∧ cap < pos + 56 ∨
    ∃ tmp' c, direntPut tmp cap pos ino type name next = some (tmp', pos + c.length) ∧
      pos + c.length ≤ cap ∧
      Chunk ⟨ino % 2 ^ 64, next % 2 ^ 64, type, cstr name⟩ c ∧
        window tmp' (pos + c.length) = window tmp pos ++ c := by
  have hmax : vfsNameMax = 31 := rfl
  have hcstr : (cstr name).length ≤ name.length := (List.takeWhile_sublist _).length_le
  have hreclen : reclenOf (cstr name) = (20 + (cstr name).length + 7) / 8 * 8 := rfl
  have hmod : (20 + (cstr name).length + 7) / 8 * 8 % 2 ^ 16 = reclenOf (cstr name) :=
    Nat.mod_eq_of_lt (by omega)
  unfold direntPut
  dsimp only
  rw [hmod]
  by_cases hroom : cap < pos + reclenOf (cstr name)
  · exact .inl ⟨if_pos hroom, by omega⟩
  rw [if_neg hroom]
  have hbytes : (direntBytes ino type (cstr name) next (reclenOf (cstr name))).length = 20 +
      (cstr name).length := by
    simp only [direntBytes, List.length_append, length_toLE, List.length_singleton]
    omega
  -- what the buffer has had after the name
  have hchunk : Chunk ⟨ino % 2 ^ 64, next % 2 ^ 64, type, cstr name⟩
      (direntBytes ino type (cstr name) next (reclenOf (cstr name)) ++
      (window tmp (pos + reclenOf (cstr name))).drop (pos + (20 + (cstr name).length))) := by
    refine chunk_direntBytes (cstr_no_zero name) (hcstr.trans hlen) ?_
    rw [List.length_drop, length_window]
    omega
  have hlength : (direntBytes ino type (cstr name) next (reclenOf (cstr name)) ++
      (window tmp (pos + reclenOf (cstr name))).drop (pos + (20 + (cstr name).length))).length =
        reclenOf (cstr name) := by
    rw [List.length_append, List.length_drop, length_window, hbytes]
    omega
  refine .inr ⟨put tmp pos (direntBytes ino type (cstr name) next (reclenOf (cstr name))), _, ?_,
    ?_, hchunk, ?_⟩
  · rw [hlength]
  · rw [hlength]
    omega
  · rw [hlength, window_put_end (by rw [hbytes]; omega), hbytes]

inductive Entry
  | dot
  | up
  | child (n : ℕ)
  deriving DecidableEq

namespace Fs

variable {s : Fs} {d off cap pos idx : ℕ} {tmp : ℕ → UInt8}

def entryIno (s : Fs) (d : ℕ) : Entry → ℕ
  | .dot => (s.nodes d).ino
  | .up => s.parentIno d
  | .child n => (s.nodes n).ino

def entryType (s : Fs) : Entry → UInt8
  | .child n => s.direntType n
  | _ => 4

def entryName (s : Fs) : Entry → List UInt8
  | .dot => dot
  | .up => dotdot
  | .child n => (s.nodes n).name

def direntOf (s : Fs) (d off : ℕ) (e : Entry) : Dirent :=
  ⟨s.entryIno d e % 2 ^ 64, off % 2 ^ 64, s.entryType e, cstr (s.entryName e)⟩

def direntsOf (s : Fs) (d : ℕ) : ℕ → List Entry → List Dirent
  | _, [] => []
  | i, e :: l => s.direntOf d (i + 1) e :: s.direntsOf d (i + 1) l

def listing (s : Fs) (d : ℕ) : List Entry := .dot :: .up :: (s.nodes d).children.map .child

def putEntries (s : Fs) (d cap : ℕ) : List Entry → (ℕ → UInt8) → ℕ → ℕ → (ℕ → UInt8) × ℕ × ℕ
  | [], tmp, pos, idx => (tmp, pos, idx)
  | e :: rest, tmp, pos, idx =>
    match direntPut tmp cap pos (s.entryIno d e) (s.entryType e) (s.entryName e) (idx + 1) with
    | none => (tmp, pos, idx)
    | some (tmp, pos) => s.putEntries d cap rest tmp pos (idx + 1)

theorem getdentsLoop_eq (s : Fs) (d cap : ℕ) (l : List ℕ) (tmp : ℕ → UInt8) (pos idx : ℕ) :
    s.getdentsLoop cap l tmp pos idx = s.putEntries d cap (l.map .child) tmp pos idx := by
  induction l generalizing tmp pos idx with
  | nil => rfl
  | cons n l ih =>
    rw [getdentsLoop, List.map_cons, putEntries]
    simp only [entryIno, entryType, entryName]
    cases direntPut tmp cap pos (s.nodes n).ino (s.direntType n) (s.nodes n).name (idx + 1) with
    | none => rfl
    | some r => exact ih r.1 r.2 (idx + 1)

theorem getdents_eq (hdir : (s.nodes d).type = .dir) (off count : ℕ) (tmp : ℕ → UInt8)
    (copied : Bool) :
    s.sysGetdents64 d off count tmp copied =
      match s.putEntries d (min count 1024) ((s.listing d).drop off) tmp 0 off with
      | (tmp, pos, idx) => getdentsEnd copied tmp pos idx := by
  have htype : s.isType d .dir = true := decide_eq_true hdir
  have hend : ∀ tmp idx, getdentsEnd copied tmp 0 idx = (idx, 0, []) := by
    intro tmp idx
    rw [getdentsEnd, if_neg (fun h ↦ h.1 rfl)]
    rfl
  unfold sysGetdents64
  rw [htype, if_neg Bool.true_eq_false.mp]
  dsimp only
  match off with
  | 0 =>
    rw [if_pos rfl, List.drop_zero, listing, putEntries]
    simp only [entryIno, entryType, entryName]
    cases direntPut tmp (min count 1024) 0 (s.nodes d).ino 4 dot (0 + 1) with
    | none => exact (hend tmp 0).symm
    | some r =>
      dsimp only [Option.map_some]
      rw [if_pos rfl, putEntries]
      simp only [entryIno, entryType, entryName]
      cases direntPut r.1 (min count 1024) r.2 (s.parentIno d) 4 dotdot (1 + 1) with
      | none => rfl
      | some r' =>
        dsimp only [Option.map_some]
        rw [List.drop_zero, getdentsLoop_eq s d]
  | 1 =>
    rw [if_neg Nat.one_ne_zero, listing, List.drop_succ_cons, List.drop_zero, putEntries]
    simp only [entryIno, entryType, entryName]
    rw [if_pos True.intro]
    cases direntPut tmp (min count 1024) 0 (s.parentIno d) 4 dotdot (1 + 1) with
    | none => rfl
    | some r =>
      dsimp only [Option.map_some]
      rw [List.drop_zero, getdentsLoop_eq s d]
  | off + 2 =>
    rw [if_neg (Nat.succ_ne_zero _), listing, List.drop_succ_cons, List.drop_succ_cons]
    dsimp only
    rw [if_neg (by omega)]
    dsimp only
    rw [getdentsLoop_eq s d, Nat.add_sub_cancel, List.map_drop]

/-- The loop puts the records of some of the entries into the buffer, and leaves no room for another
one unless it puts all. -/
structure Filled (s : Fs) (d cap : ℕ) (l : List Entry) (tmp : ℕ → UInt8) (pos idx m : ℕ)
    (cs : List (List UInt8)) (tmp' : ℕ → UInt8) : Prop where
  eq : s.putEntries d cap l tmp pos idx = (tmp', pos + cs.flatten.length, idx + m)
  le : m ≤ l.length
  chunks : List.Forall₂ Chunk (s.direntsOf d idx (l.take m)) cs
  bytes : window tmp' (pos + cs.flatten.length) = window tmp pos ++ cs.flatten
  full : m < l.length → cap < pos + cs.flatten.length + 56

theorem putEntries_filled (s : Fs) (d cap : ℕ) {l : List Entry}
    (hshort : ∀ e ∈ l, (s.entryName e).length ≤ vfsNameMax) (tmp : ℕ → UInt8) (pos idx : ℕ) :
    ∃ m cs tmp', s.Filled d cap l tmp pos idx m cs tmp' := by
  induction l generalizing tmp pos idx with
  | nil =>
    exact ⟨0, [], tmp, rfl, le_rfl, .nil, by rw [List.flatten_nil, List.append_nil]; rfl,
      fun h ↦ absurd h (Nat.lt_irrefl 0)⟩
  | cons e l ih =>
    obtain ⟨hnone, hfull⟩ | ⟨tmp₁, c, hsome, -, hchunk, hbytes⟩ :=
      direntPut_cases tmp cap pos (s.entryIno d e) (s.entryType e) (hshort e List.mem_cons_self)
        (idx + 1)
    · refine ⟨0, [], tmp, ?_, Nat.zero_le _, .nil, by rw [List.flatten_nil, List.append_nil]; rfl,
        fun _ ↦ hfull⟩
      rw [putEntries, hnone]
      rfl
    · obtain ⟨m, cs, tmp', heq, hle, hchunks, hbytes', hfull⟩ :=
        ih (fun e' he' ↦ hshort e' (List.mem_cons_of_mem e he')) tmp₁ (pos + c.length) (idx + 1)
      have hlen : pos + (c :: cs).flatten.length = pos + c.length + cs.flatten.length := by
        rw [List.flatten_cons, List.length_append, Nat.add_assoc]
      refine ⟨m + 1, c :: cs, tmp', ?_, Nat.succ_le_succ hle, ?_, ?_, fun hm ↦ ?_⟩
      · rw [putEntries, hsome, hlen]
        dsimp only
        rw [heq, Nat.add_right_comm idx 1 m, Nat.add_assoc idx m 1]
      · exact .cons hchunk hchunks
      · rw [hlen, hbytes', hbytes, List.flatten_cons, List.append_assoc]
      · rw [hlen]
        exact hfull (Nat.lt_of_succ_lt_succ hm)

/-- What a call of `sys_getdents64` leaves and returns: the records of the entries that it passes,
and none only at the end. -/
structure Lists (s : Fs) (d off : ℕ) (r : ℕ × ℤ × List UInt8) : Prop where
  rc : r.2.1 = r.2.2.length
  le : off ≤ r.1
  records : readDirents r.2.2.length r.2.2 =
    some (s.direntsOf d off (((s.listing d).take r.1).drop off))
  progress : r.2.1 = 0 ∧ r.1 = off ∧ (s.listing d).length ≤ off ∨ 0 < r.2.1 ∧ off < r.1 ∧
    r.1 ≤ (s.listing d).length

theorem getdents_lists (hdir : (s.nodes d).type = .dir)
    (hshort : ∀ n ∈ (s.nodes d).children, (s.nodes n).name.length ≤ vfsNameMax) (off : ℕ)
    {count : ℕ} (hcount : 56 ≤ count) (tmp : ℕ → UInt8) :
    s.Lists d off (s.sysGetdents64 d off count tmp true) := by
  have hnames : ∀ e ∈ (s.listing d).drop off, (s.entryName e).length ≤ vfsNameMax := by
    intro e he
    have he := List.mem_of_mem_drop he
    simp only [listing, List.mem_cons, List.mem_map] at he
    obtain rfl | rfl | ⟨n, hn, rfl⟩ := he
    · exact (by decide : (1 : ℕ) ≤ 31)
    · exact (by decide : (2 : ℕ) ≤ 31)
    · exact hshort n hn
  obtain ⟨m, cs, tmp', heq, hle, hchunks, hbytes, hfull⟩ :=
    putEntries_filled s d (min count 1024) hnames tmp 0 off
  have hresult : s.sysGetdents64 d off count tmp true =
      (off + m, (cs.flatten.length : ℤ), cs.flatten) := by
    rw [getdents_eq hdir, heq]
    dsimp only
    rw [getdentsEnd, if_neg (fun h ↦ Bool.false_ne_true h.2.symm), hbytes, Nat.zero_add]
    rfl
  rw [hresult]
  rw [List.length_drop] at hle
  have htake : ((s.listing d).take (off + m)).drop off = ((s.listing d).drop off).take m := by
    rw [List.drop_take, Nat.add_sub_cancel_left]
  refine ⟨rfl, Nat.le_add_right off m, ?_, ?_⟩
  · dsimp only
    rw [htake]
    exact readDirents_chunks hchunks le_rfl
  · rw [List.length_drop] at hfull
    cases m with
    | zero =>
      obtain rfl := List.forall₂_nil_left_iff.1 hchunks
      have hroom : ¬ min count 1024 < 0 + ([] : List (List UInt8)).flatten.length + 56 := by
        rw [List.flatten_nil, List.length_nil]
        omega
      have hend := mt hfull hroom
      exact .inl ⟨rfl, rfl, by omega⟩
    | succ m =>
      have hpos : 0 < cs.flatten.length := by
        cases cs with
        | nil =>
          have hnone := congrArg List.length (List.forall₂_nil_right_iff.1 hchunks)
          obtain ⟨e, l, hel⟩ : ∃ e l, (s.listing d).drop off = e :: l :=
            List.exists_cons_of_length_pos (by rw [List.length_drop]; omega)
          rw [hel] at hnone
          cases hnone
        | cons c cs =>
          obtain ⟨_, _, hchunk, -, -⟩ := List.forall₂_cons_right_iff.1 hchunks
          rw [List.flatten_cons, List.length_append]
          exact Nat.add_pos_left hchunk.1 _
      exact .inr ⟨Int.natCast_pos.2 hpos, by omega, by omega⟩

def listed (s : Fs) (d : ℕ) : List (List UInt8) := (s.listing d).map (fun e ↦ cstr (s.entryName e))

theorem direntsOf_names (i : ℕ) (l : List Entry) :
    (s.direntsOf d i l).map Dirent.name = l.map (fun e ↦ cstr (s.entryName e)) := by
  induction l generalizing i with
  | nil => rfl
  | cons e l ih => exact congrArg (cstr (s.entryName e) :: ·) (ih (i + 1))

/-- A directory that lists no name twice. -/
structure Listable (s : Fs) (d : ℕ) : Prop where
  dir : (s.nodes d).type = .dir
  short : ∀ n ∈ (s.nodes d).children, (s.nodes n).name.length ≤ vfsNameMax
  once : (s.listed d).Nodup

/-- A program reads the directory `d` call by call, and the directory changes between the calls: the
offset of the descriptor and the records that the program has. The name stays there, and no change
brings it to the other side of the offset. -/
inductive ReadsDir (d : ℕ) (name : List UInt8) : Fs → ℕ → List Dirent → Prop
  | start {s : Fs} : s.Listable d → name ∈ s.listed d → ReadsDir d name s 0 []
  | call {s : Fs} {off : ℕ} {ds ds' : List Dirent} {count : ℕ} {tmp : ℕ → UInt8} : ReadsDir d name s
    off ds → 56 ≤ count →
      readDirents (s.sysGetdents64 d off count tmp true).2.2.length
        (s.sysGetdents64 d off count tmp true).2.2 = some ds' →
      ReadsDir d name s (s.sysGetdents64 d off count tmp true).1 (ds ++ ds')
  | change {s s' : Fs} {off : ℕ} {ds : List Dirent} : ReadsDir d name s off ds → s'.Listable d →
    name ∈ s'.listed d →
      (name ∈ (s.listed d).take off ↔ name ∈ (s'.listed d).take off) → ReadsDir d name s' off ds

variable {name : List UInt8} {ds : List Dirent}

theorem ReadsDir.cursor (h : ReadsDir d name s off ds) :
    s.Listable d ∧ name ∈ s.listed d ∧ Cursor.Once ⟨s.listed d, off, ds.map Dirent.name⟩ name := by
  induction h with
  | start hs hname => exact ⟨hs, hname, (if_neg (by simp)).symm⟩
  | change _ hs' hname' hiff ih => exact ⟨hs', hname', ih.2.2.turn hiff⟩
  | @call s off ds ds' count tmp _ hcount hread ih =>
    obtain ⟨hs, hname, honce⟩ := ih
    have hl := getdents_lists hs.dir hs.short off hcount tmp
    have hpassed : ds'.map Dirent.name =
        ((s.listed d).take (s.sysGetdents64 d off count tmp true).1).drop off := by
      have hds := Option.some.inj (hread.symm.trans hl.records)
      rw [hds, direntsOf_names, List.map_drop, List.map_take, listed]
    refine ⟨hs, hname, ?_⟩
    rw [List.map_append, hpassed]
    exact honce.go hs.once hl.le

/-- However large the buffers are: nothing is read twice, every call gets on until all is read, and
then the name has been read. -/
theorem ReadsDir.exactly_once (h : ReadsDir d name s off ds) {count : ℕ} (hcount : 56 ≤ count)
    (tmp : ℕ → UInt8) :
    (ds.map Dirent.name).count name ≤ 1 ∧
      ((s.sysGetdents64 d off count tmp true).2.1 = 0 → (ds.map Dirent.name).count name = 1) ∧
      ((s.sysGetdents64 d off count tmp true).2.1 ≠ 0 →
        off < (s.sysGetdents64 d off count tmp true).1) := by
  obtain ⟨hs, hname, honce⟩ := h.cursor
  have hl := getdents_lists hs.dir hs.short off hcount tmp
  have hlen : (s.listed d).length = (s.listing d).length := List.length_map ..
  have honce : (ds.map Dirent.name).count name = if name ∈ (s.listed d).take off then 1 else 0 := by
    rw [Cursor.Once] at honce
    convert honce
  refine ⟨?_, fun h0 ↦ ?_, fun h0 ↦ ?_⟩
  · rw [honce]
    split_ifs <;> simp
  · obtain ⟨-, -, hend⟩ | ⟨hpos, -⟩ := hl.progress
    · rw [honce, if_pos]
      rwa [List.take_of_length_le (by omega)]
    · omega
  · obtain ⟨h00, -⟩ | ⟨-, hlt, -⟩ := hl.progress
    · exact absurd h00 h0
    · exact hlt

def twoDirs : Fs := ((initRoot.vfsMkdir [slash, 97] 0o755).1.vfsMkdir [slash, 98] 0o755).1

def threeDirs : Fs := (twoDirs.vfsMkdir [slash, 99] 0o755).1

/-- A new directory comes in front of the others: a reader that has got past `b` gets `b` once more,
and `a` once. -/
theorem ReadsDir.exactly_once_root : ∃ ds, ReadsDir root [97] threeDirs 5 ds ∧
    ds.map Dirent.name = [dot, dotdot, [98], [98], [97]] ∧ (ds.map Dirent.name).count [97] = 1 := by
  have hs : twoDirs.Listable root := ⟨by decide, by decide, by decide⟩
  have hs' : threeDirs.Listable root := ⟨by decide, by decide, by decide⟩
  have hl := getdents_lists hs.dir hs.short 0 (by decide : 56 ≤ 80) (fun _ ↦ 0)
  have hl' := getdents_lists hs'.dir hs'.short 3 le_rfl (fun _ ↦ 0)
  have hoff : (twoDirs.sysGetdents64 root 0 80 (fun _ ↦ 0) true).1 = 3 := by decide
  have hoff' : (threeDirs.sysGetdents64 root 3 56 (fun _ ↦ 0) true).1 = 5 := by decide
  have h := ReadsDir.call (.start hs (by decide : [97] ∈ twoDirs.listed root)) (by decide) hl.records
  rw [hoff] at h
  have h' := ReadsDir.call (.change h hs' (by decide) (by decide)) le_rfl hl'.records
  rw [hoff'] at h'
  refine ⟨_, h', ?_, (h'.exactly_once le_rfl (fun _ ↦ 0)).2.1 (by decide)⟩
  rw [List.nil_append, List.map_append, direntsOf_names, direntsOf_names]
  decide

end Fs

end YabroOS.Vfs
