import YabroOS.Vfs.Acts
import Mathlib.Algebra.Order.BigOperators.Group.List

namespace YabroOS.Vfs

open Fat Function

def normalizeParts : List (List UInt8) → List (List UInt8) → Except ℤ (List (List UInt8))
  | parts, [] => .ok parts
  | parts, part :: rest =>
    if vfsNameMax < part.length then .error (-36)
    else if part = dot then normalizeParts parts rest
    else if part = dotdot then normalizeParts parts.dropLast rest
    else if 32 ≤ parts.length then .error (-36)
    else normalizeParts (parts ++ [part]) rest

def writeParts (cap : ℕ) : List UInt8 → List (List UInt8) → Except ℤ (List UInt8)
  | out, [] => .ok out
  | out, part :: rest =>
    if 1 < out.length ∧ cap ≤ out.length + 1 then .error (-36)
    else
      let out := if 1 < out.length then out ++ [slash] else out
      if cap ≤ out.length + part.length then .error (-36) else writeParts cap (out ++ part) rest

def normalizeAbsPath (path : List UInt8) (cap : ℕ) : Except ℤ (List UInt8) :=
  if cap < 2 ∨ path.head? ≠ some slash then .error (-22)
  else
    match normalizeParts [] (components path) with
    | .error e => .error e
    | .ok parts => writeParts cap [slash] parts

def writeNames (cap : ℕ) : List UInt8 → List (List UInt8) → Except ℤ (List UInt8)
  | out, [] => .ok out
  | out, name :: rest =>
    if cap ≤ out.length + name.length + 1 then .error (-34)
    else writeNames cap (out ++ slash :: name) rest

namespace Fs

variable (s : Fs)

/-- The loop of `task_cwd_path` up the tree, which keeps as many names as it has rounds. -/
def cwdNames : ℕ → Option ℕ → List (List UInt8)
  | 0, _ => []
  | _ + 1, none => []
  | k + 1, some cur =>
    if cur = root then []
    else
      let cur := match (s.nodes cur).parent with
        | none => cur
        | some p => if (s.nodes p).mounted = some cur then p else cur
      (s.nodes cur).name.take vfsNameMax :: cwdNames k (s.nodes cur).parent

def taskCwdPath (cwd cap : ℕ) : Except ℤ (List UInt8) :=
  if cap < 2 then .error (-34)
  else if s.cwdNames 32 (some cwd) = [] then .ok [slash]
  else writeNames cap [] (s.cwdNames 32 (some cwd)).reverse

def rawPath (cwd : ℕ) (path : List UInt8) : Except ℤ (List UInt8) :=
  if path.head? = some slash then if 128 ≤ path.length then .error (-36) else .ok path
  else
    match s.taskCwdPath cwd 128 with
    | .error e => .error e
    | .ok base =>
      let base := if 1 < base.length then base ++ [slash] else base
      if 128 ≤ base.length + path.length then .error (-36) else .ok (base ++ path)

def resolveProcessPath (cwd : ℕ) (path : List UInt8) (cap : ℕ) : Except ℤ (List UInt8) :=
  if cap < 2 then .error (-22)
  else
    match s.rawPath cwd path with
    | .error e => .error e
    | .ok raw => normalizeAbsPath raw cap

/-- `user_copy_cstr` into a buffer of 128 bytes; no bytes stand for memory that cannot be read. -/
def userCopyCstr (path : Option (List UInt8)) : Option (List UInt8) :=
  path.filter (fun path ↦ path.length < 127)

def lastName (path : List UInt8) : List UInt8 := path.rtakeWhile (· ≠ slash)

def renameTarget (an : List UInt8) : Option (List UInt8) :=
  let base := lastName an
  let target := an.take 127
  let target := if 1 < target.length ∧ target.getLast? = some slash then target.dropLast else target
  if 127 ≤ target.length then none
  else
    let target := if 1 < target.length then target ++ [slash] else target
    some (target ++ base.take (127 - target.length))

def sysRename (cwd : ℕ) (old new : Option (List UInt8)) : Fs × ℤ :=
  match userCopyCstr old, userCopyCstr new with
  | some ro, some rn =>
    match s.resolveProcessPath cwd ro 128, s.resolveProcessPath cwd rn 128 with
    | .ok ao, .ok an =>
      match s.vfsLookup ao with
      | (s, none) => (s, -2)
      | (s, some _) =>
        match s.vfsLookup an with
        | (s, parent) =>
          let an := if parent.any (fun p ↦ s.isType p .dir) then renameTarget an else some an
          match an with
          | none => (s, -36)
          | some an =>
            match s.vfsRename ao an with
            | (s, rc) => (s, if rc = 0 then 0 else -5)
    | _, _ => (s, -36)
  | _, _ => (s, -14)

end Fs

/-- A path of components that name children, which fits. -/
def Canonical (cap : ℕ) (out : List UInt8) : Prop :=
  ∃ parts, Normal parts ∧ out = normalPath parts ∧ out.length < cap

def squeeze : List (List UInt8) → List (List UInt8) → List (List UInt8)
  | acc, [] => acc
  | acc, c :: rest =>
    if c = dot then squeeze acc rest else if c = dotdot then squeeze acc.dropLast rest
    else squeeze (acc ++ [c]) rest

structure Stacked (parts : List (List UInt8)) : Prop where
  normal : Normal parts
  short : ∀ c ∈ parts, c.length ≤ vfsNameMax
  depth : parts.length ≤ 32

variable {path out c : List UInt8} {cap : ℕ} {acc comps parts : List (List UInt8)}

theorem stacked_nil : Stacked [] := ⟨nofun, nofun, Nat.zero_le _⟩

theorem Stacked.dropLast (h : Stacked acc) : Stacked acc.dropLast where
  normal c hc := h.normal c (List.mem_of_mem_dropLast hc)
  short c hc := h.short c (List.mem_of_mem_dropLast hc)
  depth := by
    have hdepth := h.depth
    rw [List.length_dropLast]
    omega

theorem Normal.push (h : Normal acc) (hc : c ≠ [] ∧ slash ∉ c) (hdot : c ≠ dot)
    (hdotdot : c ≠ dotdot) : Normal (acc ++ [c]) := by
  intro d hd
  obtain hd | hd := List.mem_append.1 hd
  · exact h d hd
  · obtain rfl := List.mem_singleton.1 hd
    exact ⟨hc.1, hc.2, hdot, hdotdot⟩

theorem Stacked.push (h : Stacked acc) (hc : c ≠ [] ∧ slash ∉ c) (hdot : c ≠ dot)
    (hdotdot : c ≠ dotdot) (hshort : c.length ≤ vfsNameMax) (hdepth : acc.length < 32) :
    Stacked (acc ++ [c]) where
  normal := h.normal.push hc hdot hdotdot
  short d hd := by
    obtain hd | hd := List.mem_append.1 hd
    · exact h.short d hd
    · obtain rfl := List.mem_singleton.1 hd
      exact hshort
  depth := by
    rw [List.length_append, List.length_singleton]
    omega

theorem normalizeParts_stacked (hcomps : ∀ c ∈ comps, c ≠ [] ∧ slash ∉ c) (hacc : Stacked acc)
    (h : normalizeParts acc comps = .ok parts) : Stacked parts := by
  induction comps generalizing acc with
  | nil =>
    cases h
    exact hacc
  | cons c rest ih =>
    have hrest : ∀ d ∈ rest, d ≠ [] ∧ slash ∉ d := fun d hd ↦ hcomps d (.tail _ hd)
    rw [normalizeParts] at h
    split_ifs at h with hlong hdot hdotdot hdepth
    · exact ih hrest hacc h
    · exact ih hrest hacc.dropLast h
    · exact ih hrest
        (hacc.push (hcomps c (.head _)) hdot hdotdot (not_lt.1 hlong) (not_le.1 hdepth)) h

theorem normalizeParts_stack (acc : List (List UInt8)) (h : Stacked (acc ++ parts)) :
    normalizeParts acc parts = .ok (acc ++ parts) := by
  induction parts generalizing acc with
  | nil => rw [normalizeParts, List.append_nil]
  | cons c rest ih =>
    have hc : c ∈ acc ++ c :: rest := List.mem_append_right _ (.head _)
    obtain ⟨-, -, hdot, hdotdot⟩ := h.normal c hc
    have hdepth := h.depth
    rw [List.length_append, List.length_cons] at hdepth
    rw [normalizeParts, if_neg (not_lt.2 (h.short c hc)), if_neg hdot, if_neg hdotdot,
      if_neg (by omega),
      ih _ (by rwa [List.append_assoc, List.singleton_append]), List.append_assoc,
      List.singleton_append]

theorem normalizeParts_squeeze (h : normalizeParts acc comps = .ok parts) :
    parts = squeeze acc comps := by
  induction comps generalizing acc with
  | nil =>
    cases h
    rfl
  | cons c rest ih =>
    rw [normalizeParts] at h
    rw [squeeze]
    split_ifs at h ⊢
    · exact ih h
    · exact ih h
    · exact ih h

theorem squeeze_normal (hcomps : ∀ c ∈ comps, c ≠ [] ∧ slash ∉ c) (hacc : Normal acc) :
    Normal (squeeze acc comps) := by
  induction comps generalizing acc with
  | nil => exact hacc
  | cons c rest ih =>
    have hrest : ∀ d ∈ rest, d ≠ [] ∧ slash ∉ d := fun d hd ↦ hcomps d (.tail _ hd)
    rw [squeeze]
    split_ifs with hdot hdotdot
    · exact ih hrest hacc
    · exact ih hrest (fun d hd ↦ hacc d (List.mem_of_mem_dropLast hd))
    · exact ih hrest (hacc.push (hcomps c (.head _)) hdot hdotdot)

theorem intercalate_concat (h : acc ≠ []) :
    [slash].intercalate (acc ++ [c]) = [slash].intercalate acc ++ slash :: c := by
  induction acc with
  | nil => exact absurd rfl h
  | cons a rest ih =>
    cases rest with
    | nil => simp [List.intercalate]
    | cons b rest =>
      rw [List.cons_append, List.cons_append, List.intercalate_cons_cons,
        List.intercalate_cons_cons, ← List.cons_append,
        ih (List.cons_ne_nil b rest), List.append_assoc, List.append_assoc, List.append_assoc]

theorem flatMap_slash (h : parts ≠ []) : parts.flatMap (slash :: ·) = normalPath parts := by
  induction parts with
  | nil => exact absurd rfl h
  | cons c rest ih =>
    cases rest with
    | nil => simp [normalPath]
    | cons d rest =>
      rw [List.flatMap_cons, ih (List.cons_ne_nil d rest), normalPath, normalPath,
        List.intercalate_cons_cons, List.append_assoc]
      rfl

theorem length_normalPath_components (hhead : path.head? = some slash) :
    (normalPath (components path)).length ≤ path.length := by
  obtain ⟨p, rfl⟩ := List.head?_eq_some_iff.1 hhead
  rw [components_slash]
  by_cases hnil : components p = []
  · rw [hnil]
    exact Nat.succ_le_succ (Nat.zero_le _)
  rw [← flatMap_slash hnil]
  have hsplit : (p.splitOn slash).flatMap (slash :: ·) = slash :: p := by
    rw [flatMap_slash (List.splitOn_ne_nil _ _), normalPath, List.intercalate_splitOn]
  rw [← hsplit, List.length_flatMap, List.length_flatMap]
  exact (List.filter_sublist.map _).sum_le_sum (fun _ _ ↦ Nat.zero_le _)

theorem canonicalizeSystemPath_eq (hhead : path.head? = some slash) (hlen : path.length < 260) :
    Fs.canonicalizeSystemPath path = normalPath ((components path).map (·.take vfsNameMax)) := by
  have hfit : (normalPath ((components path).map (·.take vfsNameMax))).length ≤ path.length := by
    refine le_trans ?_ (length_normalPath_components hhead)
    by_cases hnil : components path = []
    · rw [hnil]
      exact le_rfl
    have hnil' : (components path).map (·.take vfsNameMax) ≠ [] :=
      fun h ↦ hnil (List.map_eq_nil_iff.1 h)
    rw [← flatMap_slash hnil, ← flatMap_slash hnil', List.length_flatMap, List.length_flatMap,
      List.map_map]
    refine List.sum_le_sum (fun c _ ↦ ?_)
    simp [List.length_take]
  rw [Fs.canonicalizeSystemPath, if_neg (not_not.2 hhead)]
  exact List.take_of_length_le (by unfold normalPath at hfit; omega)

theorem one_lt_normalPath (h : Normal acc) (hne : acc ≠ []) : 1 < (normalPath acc).length := by
  obtain ⟨a, rest, rfl⟩ := List.exists_cons_of_ne_nil hne
  have hpos := List.length_pos_iff.2 (h a (.head _)).1
  cases rest with
  | nil =>
    rw [normalPath, List.intercalate_singleton, List.length_cons]
    omega
  | cons b rest =>
    rw [normalPath, List.intercalate_cons_cons, List.length_cons, List.length_append,
      List.length_append]
    omega

theorem normalPath_append (h : Normal acc) :
    normalPath (acc ++ [c]) =
      (if 1 < (normalPath acc).length then normalPath acc ++ [slash] else normalPath acc) ++ c := by
  cases acc with
  | nil =>
    rw [if_neg (by decide), List.nil_append, normalPath, List.intercalate_singleton]
    rfl
  | cons a rest =>
    rw [if_pos (one_lt_normalPath h (List.cons_ne_nil a rest)), normalPath,
      intercalate_concat (List.cons_ne_nil a rest), normalPath, List.append_assoc]
    rfl

theorem writeParts_ok (acc : List (List UInt8)) (hcap : (normalPath acc).length < cap)
    (hn : Normal (acc ++ parts)) (h : writeParts cap (normalPath acc) parts = .ok out) :
    out = normalPath (acc ++ parts) ∧ out.length < cap := by
  induction parts generalizing acc with
  | nil =>
    cases h
    exact ⟨by rw [List.append_nil], hcap⟩
  | cons c rest ih =>
    have hacc : Normal acc := fun d hd ↦ hn d (List.mem_append_left _ hd)
    have hpush := normalPath_append (c := c) hacc
    rw [writeParts] at h
    split at h
    · cases h
    dsimp only at h
    generalize (if 1 < (normalPath acc).length then normalPath acc ++ [slash] else normalPath acc) =
      base at h hpush
    split at h
    · cases h
    next hfit =>
    rw [← hpush] at h
    have hlen : (normalPath (acc ++ [c])).length < cap := by
      rw [hpush, List.length_append]
      omega
    rw [List.append_cons] at hn ⊢
    exact ih _ hlen hn h

theorem normalizeAbsPath_ok (h : normalizeAbsPath path cap = .ok out) :
    ∃ parts, 2 ≤ cap ∧ path.head? = some slash ∧
    normalizeParts [] (components path) = .ok parts ∧ writeParts cap [slash] parts = .ok out := by
  unfold normalizeAbsPath at h
  split_ifs at h with hbad
  obtain ⟨hcap, hhead⟩ := not_or.1 hbad
  cases hparts : normalizeParts [] (components path) with
  | error e =>
    rw [hparts] at h
    cases h
  | ok parts =>
    rw [hparts] at h
    exact ⟨parts, not_lt.1 hcap, not_not.1 hhead, rfl, h⟩

theorem normalizeAbsPath_canonical (h : normalizeAbsPath path cap = .ok out) :
    Canonical cap out := by
  obtain ⟨parts, hcap, -, hparts, hout⟩ := normalizeAbsPath_ok h
  have hstack := normalizeParts_stacked (fun c ↦ mem_components) stacked_nil hparts
  obtain ⟨rfl, hlen⟩ := writeParts_ok [] hcap hstack.normal hout
  exact ⟨parts, hstack.normal, rfl, hlen⟩

theorem normalizeAbsPath_idem (h : normalizeAbsPath path cap = .ok out) :
    normalizeAbsPath out cap = .ok out := by
  obtain ⟨parts, hcap, -, hparts, hout⟩ := normalizeAbsPath_ok h
  have hstack := normalizeParts_stacked (fun c ↦ mem_components) stacked_nil hparts
  obtain ⟨rfl, -⟩ := writeParts_ok [] hcap hstack.normal hout
  have hnorm : normalizeParts [] parts = .ok parts := normalizeParts_stack [] hstack
  unfold normalizeAbsPath
  have hhead : (normalPath parts).head? = some slash := rfl
  rw [List.nil_append, if_neg (not_or.2 ⟨not_lt.2 hcap, not_not.2 hhead⟩),
    components_normalPath hstack.normal, hnorm]
  exact hout

namespace Tree

variable {t : Tree} {x y z cur : ℕ}

theorem Sited.up_mr (h : t.Sited) (hz : z ∈ t.children y) : t.up (t.mr z) = y := by
  unfold mr up
  cases hm : t.mounted z with
  | none =>
    have hne : t.mounted y ≠ some z := fun hmy ↦ (h.mount y z hmy).2.2 y hz
    simp only [Option.getD_none, h.child y z hz, if_neg hne]
  | some r =>
    simp only [Option.getD_some, (h.mount z r hm).1, if_pos hm, h.child y z hz]

theorem Sited.goTo_dropLast (h : t.Sited) (hn : Normal acc) (hcur : t.goTo root acc = some cur) :
    t.goTo root acc.dropLast = some (t.up cur) := by
  induction acc using List.reverseRecOn with
  | nil =>
    cases hcur
    simp only [List.dropLast_nil, goTo, up, h.root_parent]
  | append_singleton acc c _ =>
    obtain ⟨-, -, hdot, hdotdot⟩ := hn c (by simp)
    rw [goTo_append] at hcur
    obtain ⟨y, hy, hcur⟩ := Option.bind_eq_some_iff.1 hcur
    have hvis := h.goTo_visible .root hy
    simp only [goTo, if_neg (take_ne (by decide) hdot), if_neg (take_ne (by decide) hdotdot),
      h.mr_visible hvis] at hcur
    obtain ⟨z, hz, hcur⟩ := Option.bind_eq_some_iff.1 hcur
    cases hcur
    rw [List.dropLast_concat, h.up_mr (pick_mem hz).2, hy]

theorem Sited.goTo_squeeze (h : t.Sited) (hcomps : ∀ c ∈ comps, c ≠ [] ∧ slash ∉ c)
    (hacc : Normal acc) (hcur : t.goTo root acc = some cur) (hx : t.goTo cur comps = some x) :
    t.goTo root (squeeze acc comps) = some x := by
  induction comps generalizing acc cur with
  | nil =>
    cases hx
    exact hcur
  | cons c rest ih =>
    have hrest : ∀ d ∈ rest, d ≠ [] ∧ slash ∉ d := fun d hd ↦ hcomps d (.tail _ hd)
    rw [squeeze]
    rw [goTo] at hx
    by_cases hdot : c = dot
    · subst hdot
      exact ih hrest hacc hcur hx
    rw [if_neg (take_ne (by decide) hdot)] at hx
    rw [if_neg hdot]
    by_cases hdotdot : c = dotdot
    · subst hdotdot
      exact ih hrest (fun d hd ↦ hacc d (List.mem_of_mem_dropLast hd)) (h.goTo_dropLast hacc hcur) hx
    rw [if_neg (take_ne (by decide) hdotdot)] at hx
    rw [if_neg hdotdot]
    obtain ⟨z, hz, hx⟩ := Option.bind_eq_some_iff.1 hx
    refine ih hrest (hacc.push (hcomps c (.head _)) hdot hdotdot) ?_ hx
    rw [goTo_append, hcur, Option.bind_some]
    simp only [goTo, if_neg (take_ne (by decide) hdot), if_neg (take_ne (by decide) hdotdot), hz,
      Option.bind_some]

theorem Sited.goTo_normalizeParts (h : t.Sited) (hcomps : ∀ c ∈ comps, c ≠ [] ∧ slash ∉ c)
    (hacc : Stacked acc) (hcur : t.goTo root acc = some cur) (hx : t.goTo cur comps = some x)
    (hparts : normalizeParts acc comps = .ok parts) : t.goTo root parts = some x := by
  rw [normalizeParts_squeeze hparts]
  exact h.goTo_squeeze hcomps hacc.normal hcur hx

theorem Sited.find_normalizeAbsPath (h : t.Sited) {path out : List UInt8} {cap : ℕ}
    (hok : normalizeAbsPath path cap = .ok out) (hx : t.find path = some x) :
    t.find out = some x := by
  obtain ⟨parts, hcap, hhead, hparts, hout⟩ := normalizeAbsPath_ok hok
  have hstack := normalizeParts_stacked (fun c ↦ mem_components) stacked_nil hparts
  obtain ⟨rfl, -⟩ := writeParts_ok [] hcap hstack.normal hout
  rw [find, if_pos hhead] at hx
  have hhead' : (normalPath parts).head? = some slash := rfl
  rw [List.nil_append, find, if_pos hhead', components_normalPath hstack.normal]
  exact h.goTo_normalizeParts (fun c ↦ mem_components) stacked_nil rfl hx hparts

end Tree

namespace Fs

theorem resolveProcessPath_canonical {s : Fs} {cwd : ℕ}
    (h : s.resolveProcessPath cwd path cap = .ok out) :
    ∃ parts, Stacked parts ∧ out = normalPath parts ∧ out.length < cap := by
  unfold resolveProcessPath at h
  split_ifs at h
  cases hraw : s.rawPath cwd path with
  | error e =>
    rw [hraw] at h
    cases h
  | ok raw =>
    rw [hraw] at h
    obtain ⟨parts, hcap, -, hparts, hout⟩ := normalizeAbsPath_ok h
    have hstack := normalizeParts_stacked (fun c ↦ mem_components) stacked_nil hparts
    obtain ⟨rfl, hlen⟩ := writeParts_ok [] hcap hstack.normal hout
    exact ⟨parts, hstack, rfl, hlen⟩

/-- `normalize_abs_path` makes a canonical path of the same node, in a run that moves no root of a
mount. -/
theorem normalizeAbsPath_lawful (calls : List VfsCall) (h : Spared Uproots vfsInit calls)
    (path out : List UInt8) (cap : ℕ) (hok : normalizeAbsPath path cap = .ok out) :
    Canonical cap out ∧ normalizeAbsPath out cap = .ok out ∧
      ∀ x, ((vfsInit.run calls).vfsLookup path).2 = some x →
        ((vfsInit.run calls).vfsLookup out).2 = some x := by
  refine ⟨normalizeAbsPath_canonical hok, normalizeAbsPath_idem hok, fun x hx ↦ ?_⟩
  have hs := run_sited h
  rw [lookup_find hs.toNamed] at hx ⊢
  exact hs.find_normalizeAbsPath hok hx

theorem madeDir_not_uproots : ¬ madeDir.Uproots (.rename (text "/a") (text "/tmp/b")) := by
  rintro ⟨-, x, q, hx, hq⟩
  obtain ⟨hlook, hparent, -⟩ := madeDir_paths
  obtain rfl : x = 59 := Option.some.inj (hx.symm.trans hlook)
  have hgood : Good True madeDir := vfsInit_good.call not_false
  obtain rfl : q = 0 := Option.some.inj ((parent_of_mounted hgood hq).symm.trans hparent.1)
  rw [hparent.2] at hq
  cases hq

/-- A path with all sorts of dots, after a directory has been moved. -/
theorem normalizeAbsPath_lawful_rename : Spared Uproots vfsInit renameDir ∧
    normalizeAbsPath (text "//proc/../TMP/./b/x/../..//b/") 128 = .ok (text "/TMP/b") ∧
    Canonical 128 (text "/TMP/b") ∧ normalizeAbsPath (text "/TMP/b") 128 = .ok (text "/TMP/b") ∧
    ((vfsInit.run renameDir).vfsLookup (text "//proc/../TMP/./b/..//b/")).2 = some 59 ∧
    ((vfsInit.run renameDir).vfsLookup (text "/TMP/b")).2 = some 59 := by
  have hspared : Spared Uproots vfsInit renameDir := ⟨not_false, madeDir_not_uproots, trivial⟩
  obtain ⟨hok, hok', hlook⟩ : normalizeAbsPath (text "//proc/../TMP/./b/x/../..//b/") 128 =
      .ok (text "/TMP/b") ∧
      normalizeAbsPath (text "//proc/../TMP/./b/..//b/") 128 = .ok (text "/TMP/b") ∧
      ((vfsInit.run renameDir).vfsLookup (text "//proc/../TMP/./b/..//b/")).2 = some 59 := by
        decide +kernel
  obtain ⟨hcanon, hidem, -⟩ := normalizeAbsPath_lawful renameDir hspared _ _ 128 hok
  obtain ⟨-, -, hsame⟩ := normalizeAbsPath_lawful renameDir hspared _ _ 128 hok'
  exact ⟨hspared, hok, hcanon, hidem, hlook, hsame 59 hlook⟩

def moveDev : List VfsCall := [.rename (text "/dev") (text "/tmp/d")]

/-- The root of `/dev` is moved, and what is above it is still cut out of a path with it. -/
theorem not_normalizeAbsPath_lawful : ¬ ∀ (calls : List VfsCall) (path out : List UInt8) (cap : ℕ),
    normalizeAbsPath path cap = .ok out → Canonical cap out ∧ normalizeAbsPath out cap = .ok out ∧
      ∀ x, ((vfsInit.run calls).vfsLookup path).2 = some x →
        ((vfsInit.run calls).vfsLookup out).2 = some x := by
  intro h
  obtain ⟨hok, hlook⟩ : normalizeAbsPath (text "/dev/..") 128 = .ok (text "/") ∧
      ((vfsInit.run moveDev).vfsLookup (text "/dev/..")).2 = some 3 ∧
      ((vfsInit.run moveDev).vfsLookup (text "/")).2 = some 0 := by decide +kernel
  obtain ⟨-, -, hsame⟩ := h moveDev _ _ 128 hok
  have hroot := (hsame 3 hlook.1).symm.trans hlook.2
  cases hroot

end Fs

end YabroOS.Vfs
