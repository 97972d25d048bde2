import YabroOS.Lib.StableSort
import YabroOS.Vfs.Exact
import YabroOS.Vfs.Stored

namespace YabroOS.Vfs

open Fat

namespace Fs

variable {s s' : Fs} {x p : ℕ} {name path : List UInt8}

def Within (s : Fs) : Prop := s.used ≤ vfsMaxNodes

theorem Seen.within (h : s.Seen s') (hs : s.Within) : s'.Within := by
  rw [Within, h.used]
  exact hs

theorem newNode_within {type : NodeType} {mode : ℕ} (h : s.newNode name type mode = some (s', x)) :
    s'.Within := by
  unfold newNode at h
  split_ifs at h with hfull
  obtain ⟨rfl, -⟩ := Prod.mk.inj (Option.some.inj h)
  exact not_le.1 hfull

theorem fileData_used (h : s.fileData path x = some s') : s'.used = s.used := by
  unfold fileData at h
  split at h
  · obtain rfl := Option.some.inj h
    rfl
  unfold vfsAllocFileData at h
  cases hfind : (List.range vfsDataSlots).find? (fun i ↦ s.dataUsed i = false) with
  | none =>
    rw [hfind] at h
    cases h
  | some i =>
    rw [hfind] at h
    obtain rfl := Option.some.inj h
    rfl

theorem createFile_within (hs : s.Within) (path : List UInt8) (truncate : Bool) :
    (s.vfsCreateFile path truncate).1.Within := by
  unfold vfsCreateFile
  have hlook := (lookup_seen s path).within hs
  generalize s.vfsLookup path = r at hlook ⊢
  obtain ⟨s₁, _ | x⟩ := r
  swap
  · dsimp only
    split
    · exact (reopen_touched s₁ x truncate).used.trans_le hlook
    · exact hlook
  dsimp only
  have hparent := (parentForCreate_seen s₁ path).within hlook
  generalize s₁.vfsParentForCreate path = r at hparent ⊢
  obtain ⟨s₂, _ | ⟨p, name⟩⟩ := r
  · exact hparent
  dsimp only
  split
  · exact hparent
  cases hnew : s₂.newNode name .file (sIfreg + 0o666) with
  | none => exact hparent
  | some r =>
    obtain ⟨s₃, x⟩ := r
    dsimp only
    cases hdata : s₃.fileData path x with
    | none => exact (Nat.sub_le _ _).trans (newNode_within hnew)
    | some s₄ => exact (fileData_used hdata).trans_le (newNode_within hnew)

theorem makeNode_within (hs : s.Within) (path : List UInt8) (type : NodeType) (mode : ℕ) :
    (s.makeNode path type mode).1.Within := by
  unfold makeNode
  split
  · exact hs
  generalize canonicalizeSystemPath path = path
  have hlook := (lookup_seen s path).within hs
  generalize s.vfsLookup path = r at hlook ⊢
  obtain ⟨s₁, _ | x⟩ := r
  swap
  · exact hlook
  dsimp only
  have hparent := (parentForCreate_seen s₁ path).within hlook
  generalize s₁.vfsParentForCreate path = r at hparent ⊢
  obtain ⟨s₂, _ | ⟨p, name⟩⟩ := r
  · exact hparent
  dsimp only
  split
  · exact hparent
  cases hnew : s₂.newNode name type mode with
  | none => exact hparent
  | some r =>
    obtain ⟨s₃, x⟩ := r
    have hgrown : s₃.used ≤ vfsMaxNodes := newNode_within hnew
    exact hgrown

theorem link_within (hs : s.Within) (old new : List UInt8) : (s.vfsLink old new).1.Within := by
  unfold vfsLink
  have hlook := (lookup_seen s old).within hs
  generalize s.vfsLookup old = r at hlook ⊢
  obtain ⟨s₁, _ | src⟩ := r
  · exact hlook
  dsimp only
  split
  · exact hlook
  have hparent := (parentForCreate_seen s₁ new).within hlook
  generalize s₁.vfsParentForCreate new = r at hparent ⊢
  obtain ⟨s₂, _ | ⟨p, name⟩⟩ := r
  · exact hparent
  dsimp only
  split
  · exact hparent
  have hlook := (lookup_seen s₂ new).within hparent
  generalize s₂.vfsLookup new = r at hlook ⊢
  obtain ⟨s₃, _ | x⟩ := r
  swap
  · exact hlook
  dsimp only
  cases hnew : s₃.newNode name .file (s₃.nodes src).mode with
  | none => exact hlook
  | some r =>
    obtain ⟨s₄, x⟩ := r
    have hgrown : s₄.used ≤ vfsMaxNodes := newNode_within hnew
    exact hgrown

theorem ensureLoop_within (hs : s.Within) (parts : List (List UInt8)) (cur : List UInt8) :
    (s.ensureLoop parts cur).1.Within := by
  induction parts generalizing s cur with
  | nil => exact hs
  | cons part rest ih =>
    unfold ensureLoop
    split
    · exact hs
    dsimp only
    generalize (if 1 < cur.length then cur ++ [slash] else cur) = base
    split
    · exact hs
    generalize base ++ part = cur'
    have hlook := (lookup_seen s cur').within hs
    generalize s.vfsLookup cur' = r at hlook ⊢
    obtain ⟨s₁, _ | x⟩ := r
    swap
    · dsimp only
      split
      · exact ih hlook cur'
      · exact hlook
    dsimp only
    have hmake : (s₁.vfsMkdir cur' 0o755).1.Within := makeNode_within hlook cur' .dir _
    generalize s₁.vfsMkdir cur' 0o755 = r at hmake ⊢
    obtain ⟨s₂, _ | x⟩ := r
    swap
    · exact ih hmake cur'
    dsimp only
    have hlook := (lookup_seen s₂ cur').within hmake
    generalize s₂.vfsLookup cur' = r at hlook ⊢
    obtain ⟨s₃, _ | x⟩ := r
    · exact hlook
    · exact ih hlook cur'

theorem ensureDir_within (hs : s.Within) (path : List UInt8) : (s.vfsEnsureDir path).1.Within := by
  unfold vfsEnsureDir
  split
  · exact hs
  split
  · exact hs
  have hloop := ensureLoop_within hs (components path) [slash]
  generalize s.ensureLoop (components path) [slash] = r at hloop ⊢
  obtain ⟨s₁, _ | _⟩ := r
  · exact hloop
  · dsimp only
    have hlook := (lookup_seen s₁ path).within hloop
    generalize s₁.vfsLookup path = r at hlook ⊢
    obtain ⟨s₂, _ | x⟩ := r
    · exact hlook
    · exact hlook

theorem importLoop_within (hs : s.Within) (path : List UInt8) (size p : ℕ)
    (parts : List (List UInt8)) : (importLoop path size s p parts).1.Within := by
  induction parts generalizing s p with
  | nil => exact hs
  | cons part rest ih =>
    unfold importLoop
    have hlook := (lookupChild_seen s p (take_length_le part)).within hs
    generalize s.vfsLookupChild p (part.take vfsNameMax) = r at hlook ⊢
    obtain ⟨s₁, _ | x⟩ := r
    · dsimp only
      split
      · cases hnew : s₁.newNode (part.take vfsNameMax) .dir (sIfdir + 0o755) with
        | none => exact hlook
        | some r =>
          obtain ⟨s₂, x⟩ := r
          have hgrown : s₂.used ≤ vfsMaxNodes := newNode_within hnew
          have hadd : (s₂.add p x).Within := hgrown
          exact ih hadd x
      · cases hnew : s₁.newNode (part.take vfsNameMax) .bootFile (sIfreg + 0o444) with
        | none => exact hlook
        | some r =>
          obtain ⟨s₂, x⟩ := r
          have hgrown : s₂.used ≤ vfsMaxNodes := newNode_within hnew
          exact hgrown
    · dsimp only
      split
      · split
        · exact ih hlook x
        · exact hlook
      · split
        · exact hlook
        · exact hlook

theorem rename_within (hl : s.tree.Linked) (hs : s.Within) (old new : List UInt8) :
    (s.vfsRename old new).1.Within := by
  have hrenamed := rename_renamed hl old new
  generalize s.vfsRename old new = r at hrenamed ⊢
  cases hrenamed with
  | refused s₁ h => exact h.within hs
  | same s₁ x p name h => exact h.site.seen.within hs
  | moved s₁ x p name h => exact (moveNode_used s₁ x p name).trans_le (h.site.seen.within hs)
  | replaced s₁ s₂ x p name e ep h =>
    refine (moveNode_used _ x p name).trans_le ?_
    rw [dropLink_used]
    exact h.site.seen.within hs

theorem call_within (hl : s.tree.Linked) (hs : s.Within) (c : VfsCall) : (s.call c).Within := by
  cases c with
  | lookup path => exact (lookup_seen s path).within hs
  | createFile path truncate => exact createFile_within hs path truncate
  | mkdir path mode => exact makeNode_within hs path .dir _
  | createSocket path mode => exact makeNode_within hs path .socket _
  | link old new => exact link_within hs old new
  | unlink path =>
    have hunlinked := unlink_unlinked s path
    show (s.vfsUnlink path).1.Within
    generalize s.vfsUnlink path = r at hunlinked ⊢
    cases hunlinked with
    | refused s₁ h => exact h.within hs
    | cut s₁ x p hx =>
      have hlook := (lookup_seen s path).within hs
      rw [hx] at hlook
      exact (dropLink_used (s₁.cut p x) x).trans_le hlook
  | rmdir path =>
    have hremoved := rmdir_dirRemoved s path
    show (s.vfsRmdir path).1.Within
    generalize s.vfsRmdir path = r at hremoved ⊢
    cases hremoved with
    | refused s₁ rc h => exact h.within hs
    | cut s₁ x p hx =>
      have hlook := (lookup_seen s path).within hs
      rw [hx] at hlook
      exact hlook
  | rename old new => exact rename_within hl hs old new
  | ensureDir path => exact ensureDir_within hs path
  | importBootFile path size =>
    show (s.vfsImportBootFile path size).1.Within
    unfold vfsImportBootFile
    split
    · exact hs
    · exact importLoop_within hs path size root _
  | fileWrite x off src => exact (fileWrite_touched s x off src).used.trans_le hs
  | writeKernelFile x data => exact (writeKernelFile_touched s x data).used.trans_le hs
  | fileTruncate x len => exact (fileTruncate_touched s x len).used.trans_le hs

end Fs

end YabroOS.Vfs

namespace YabroOS.Vfs

open Lib Fat Function

def vfsOutCh (cap : ℕ) (o : (ℕ → UInt8) × ℕ) (c : UInt8) : (ℕ → UInt8) × ℕ :=
  if o.2 + 1 < cap then (update (update o.1 o.2 c) (o.2 + 1) 0, o.2 + 1) else o

def vfsOutStr (cap : ℕ) (o : (ℕ → UInt8) × ℕ) (s : List UInt8) : (ℕ → UInt8) × ℕ :=
  (cstr s).foldl (vfsOutCh cap) o

def vfsNameCmp : List UInt8 → List UInt8 → ℤ
  | x :: a, y :: b =>
    if asciiLower x ≠ asciiLower y then (if asciiLower x < asciiLower y then -1 else 1)
    else vfsNameCmp a b
  | [], [] => 0
  | _ :: _, [] => 1
  | [], _ :: _ => -1

namespace Fs

variable (s : Fs)

def putLine (cap : ℕ) (o : (ℕ → UInt8) × ℕ) (x : ℕ) : (ℕ → UInt8) × ℕ :=
  let o := vfsOutStr cap o (s.nodes x).name
  let o := if s.isType x .dir then vfsOutCh cap o slash
    else if s.isType x .symlink then vfsOutCh cap o 64 else o
  vfsOutCh cap o 10

def listItems (d : ℕ) : List ℕ :=
  ((s.nodes d).children.filter (fun x ↦ cstr (s.nodes x).name ≠ [])).take vfsMaxNodes

def nameAfter (x y : ℕ) : Bool := 0 < vfsNameCmp (cstr (s.nodes x).name) (cstr (s.nodes y).name)

def listPath (path : List UInt8) : List UInt8 :=
  if path.rdropWhile (· = slash) = [] then [slash] else path.rdropWhile (· = slash)

def listNode (d : ℕ) (out : ℕ → UInt8) (cap : ℕ) : (ℕ → UInt8) × ℕ :=
  let items := insertSort s.nameAfter (fun i ↦ (s.listItems d).getD i 0) (s.listItems d).length
  (window items (s.listItems d).length).foldl (s.putLine cap) (out, 0)

def vfsListDir (path : Option (List UInt8)) (out : ℕ → UInt8) (cap : ℕ) : Fs × (ℕ → UInt8) × ℕ :=
  if cap = 0 then (s, out, 0)
  else
    let out := update out 0 0
    let path := path.getD [slash]
    if path.head? ≠ some slash ∨ 260 ≤ path.length then (s, out, 0)
    else
      match s.vfsLookup (listPath path) with
      | (s, none) => (s, out, 0)
      | (s, some d) => (s, if s.isType d .dir = false then (out, 0) else s.listNode d out cap)

def line (x : ℕ) : List UInt8 :=
  cstr (s.nodes x).name ++ (if s.isType x .dir then [slash] else if s.isType x .symlink then [64]
    else []) ++ [10]

def nameKey (x : ℕ) : List ℕ := (lower (cstr (s.nodes x).name)).map UInt8.toNat

end Fs

/-- A text is in a buffer as far as there is room for it and for its end. -/
structure Truncated (cap : ℕ) (out : ℕ → UInt8) (text : List UInt8) (o : (ℕ → UInt8) × ℕ) :
    Prop where
  pos : o.2 = min text.length (cap - 1)
  bytes : window o.1 o.2 = text.take (cap - 1)
  ends : o.1 o.2 = 0
  rest : ∀ i, o.2 < i → o.1 i = out i

namespace Truncated

variable {cap : ℕ} {out : ℕ → UInt8} {text : List UInt8} {o : (ℕ → UInt8) × ℕ}

theorem nil (cap : ℕ) (out : ℕ → UInt8) : Truncated cap out [] (update out 0 0, 0) where
  pos := rfl
  bytes := by
    rw [List.take_nil]
    rfl
  ends := by
    show update out 0 0 0 = 0
    exact update_self ..
  rest _ hi := update_of_ne hi.ne' ..

theorem outCh (h : Truncated cap out text o) (c : UInt8) :
    Truncated cap out (text ++ [c]) (vfsOutCh cap o c) := by
  have hpos := h.pos
  unfold vfsOutCh
  split_ifs with hroom
  · have hall : o.2 = text.length := by omega
    refine ⟨?_, ?_, update_self .., fun i hi ↦ ?_⟩
    · rw [List.length_append, List.length_singleton]
      dsimp only
      omega
    · have hbytes := h.bytes
      rw [List.take_of_length_le (by omega)] at hbytes
      have hsame : window (update (update o.1 o.2 c) (o.2 + 1) 0) o.2 = window o.1 o.2 :=
        window_congr (fun i hi ↦ by rw [update_of_ne (by omega), update_of_ne (by omega)])
      dsimp only
      rw [window_succ, hsame, hbytes, update_of_ne (by omega), update_self,
        List.take_of_length_le (by rw [List.length_append, List.length_singleton]; omega)]
    · dsimp only at hi ⊢
      rw [update_of_ne (by omega), update_of_ne (by omega)]
      exact h.rest i (by omega)
  · refine ⟨?_, ?_, h.ends, h.rest⟩
    · rw [List.length_append, List.length_singleton]
      omega
    · rw [h.bytes, List.take_append_of_le_length (by omega)]

theorem foldl (h : Truncated cap out text o) (l : List UInt8) :
    Truncated cap out (text ++ l) (l.foldl (vfsOutCh cap) o) := by
  induction l generalizing text o with
  | nil => rwa [List.append_nil]
  | cons c l ih =>
    have hrest := ih (h.outCh c)
    rwa [List.append_assoc] at hrest

theorem putLine (h : Truncated cap out text o) (s : Fs) (x : ℕ) :
    Truncated cap out (text ++ s.line x) (s.putLine cap o x) := by
  have hname : Truncated cap out (text ++ cstr (s.nodes x).name)
      (vfsOutStr cap o (s.nodes x).name) := h.foldl _
  unfold Fs.putLine Fs.line
  dsimp only
  rw [← List.append_assoc, ← List.append_assoc]
  refine outCh ?_ 10
  split_ifs
  · exact hname.outCh slash
  · exact hname.outCh 64
  · rwa [List.append_nil]

theorem putLines (h : Truncated cap out text o) (s : Fs) (l : List ℕ) :
    Truncated cap out (text ++ (l.map s.line).flatten) (l.foldl (s.putLine cap) o) := by
  induction l generalizing text o with
  | nil => rwa [List.map_nil, List.flatten_nil, List.append_nil]
  | cons x l ih =>
    have hrest := ih (h.putLine s x)
    rwa [List.append_assoc] at hrest

end Truncated

theorem vfsNameCmp_pos (a b : List UInt8) :
    0 < vfsNameCmp a b ↔ (lower b).map UInt8.toNat < (lower a).map UInt8.toNat := by
  have hcons : ∀ (x y : UInt8) (a b : List UInt8), (lower (y :: b)).map UInt8.toNat <
      (lower (x :: a)).map UInt8.toNat ↔
      asciiLower y < asciiLower x ∨ asciiLower y = asciiLower x ∧
        (lower b).map UInt8.toNat < (lower a).map UInt8.toNat := by
    intro x y a b
    rw [lower, lower, List.map_cons, List.map_cons, List.map_cons, List.map_cons,
      List.cons_lt_cons_iff,
      UInt8.lt_iff_toNat_lt, UInt8.toNat_inj]
    rfl
  induction a, b using vfsNameCmp.induct with
  | case1 x a y b hne hlt =>
    rw [vfsNameCmp, if_pos hne, if_pos hlt, hcons]
    refine iff_of_false (by decide) ?_
    rintro (hgt | ⟨heq, -⟩)
    · exact UInt8.lt_asymm hlt hgt
    · exact hne heq.symm
  | case2 x a y b hne hnlt =>
    rw [vfsNameCmp, if_pos hne, if_neg hnlt, hcons]
    exact iff_of_true (by decide) (.inl (UInt8.lt_of_le_of_ne (UInt8.not_lt.1 hnlt) (Ne.symm hne)))
  | case3 x a y b heq ih =>
    rw [vfsNameCmp, if_neg heq, hcons, not_not.1 heq]
    refine ih.trans ⟨fun h ↦ .inr ⟨rfl, h⟩, fun h ↦ ?_⟩
    rcases h with hlt | ⟨-, h⟩
    · exact absurd hlt (UInt8.lt_irrefl _)
    · exact h
  | case4 => exact iff_of_false (by decide) (lt_irrefl _)
  | case5 x a =>
    rw [vfsNameCmp]
    exact iff_of_true (by decide) (List.nil_lt_cons _ _)
  | case6 y b =>
    rw [vfsNameCmp]
    exact iff_of_false (by decide) (List.not_lt_nil _)

namespace Fs

variable {s s' : Fs} {d : ℕ}

theorem nameAfter_compares (s : Fs) : Compares s.nameAfter s.nameKey := by
  intro x y
  rw [nameAfter, decide_eq_true_eq]
  exact vfsNameCmp_pos _ _

/-- The order of the lines: each child that has a name, by the names without regard to case,
children of equal names as in the directory. -/
structure Listed (s : Fs) (d : ℕ) (l : List ℕ) : Prop extends
    StableSort s.nameKey ((s.nodes d).children.filter (fun x ↦ cstr (s.nodes x).name ≠ [])) l where
  once : l.Nodup
  all : ∀ x, x ∈ l ↔ x ∈ (s.nodes d).children ∧ cstr (s.nodes x).name ≠ []

theorem listItems_eq (hl : s.tree.Linked) (hw : s.Within) (d : ℕ) :
    s.listItems d = (s.nodes d).children.filter (fun x ↦ cstr (s.nodes x).name ≠ []) := by
  refine List.take_of_length_le ?_
  have hsub : (s.nodes d).children ⊆ List.range s.used :=
    fun n hn ↦ List.mem_range.2 (hl.mem_used hn)
  have hle := ((hl.nodup d).subperm hsub).length_le
  rw [List.length_range] at hle
  exact (List.length_filter_le _ _).trans (hle.trans hw)

theorem window_getD (l : List ℕ) : window (fun i ↦ l.getD i 0) l.length = l := by
  refine List.ext_getElem? (fun i ↦ ?_)
  rw [getElem?_window]
  split_ifs with hi
  · rw [List.getD_eq_getElem?_getD, List.getElem?_eq_getElem hi, Option.getD_some]
  · exact (List.getElem?_eq_none (not_lt.1 hi)).symm

theorem listNode_lists (hl : s.tree.Linked) (hw : s.Within) (cap d : ℕ) (out : ℕ → UInt8) :
    ∃ l, s.Listed d l ∧
      Truncated cap out (l.map s.line).flatten (s.listNode d (update out 0 0) cap) := by
  have hsort :=
    stableSort_insertSort s.nameAfter_compares (fun i ↦ (s.listItems d).getD i 0)
      (s.listItems d).length
  rw [window_getD, listItems_eq hl hw] at hsort
  refine ⟨_, ⟨hsort, hsort.perm.nodup_iff.2 ((hl.nodup d).filter _), fun x ↦ ?_⟩, ?_⟩
  · rw [hsort.perm.mem_iff, List.mem_filter, decide_eq_true_eq]
  · unfold listNode
    rw [listItems_eq hl hw]
    exact (Truncated.nil cap out).putLines s _

theorem run_within (calls : List VfsCall) :
    (vfsInit.run calls).Fitted ∧ (vfsInit.run calls).Within := by
  have hrun : ∀ (calls : List VfsCall) (s : Fs), s.Fitted → s.Within → (s.run calls).Within := by
    intro calls
    induction calls with
    | nil => exact fun _ _ hw ↦ hw
    | cons c rest ih => exact fun s hf hw ↦ ih _ (run_fitted [c] hf) (call_within hf.linked hw c)
  have hinit : vfsInit.Within := by
    unfold Within
    decide +kernel
  exact ⟨run_fitted calls vfsInit_fitted, hrun calls vfsInit vfsInit_fitted hinit⟩

/-- In every state that calls lead to, `vfs_list_dir` lists a directory as far as there is room. -/
theorem listDir_lists (calls : List VfsCall) {path : List UInt8} (hslash : path.head? = some slash)
    (hshort : path.length < 260) (hs : (vfsInit.run calls).vfsLookup (listPath path) = (s', some d))
    (hdir : s'.isType d .dir = true) {cap : ℕ} (hcap : 1 ≤ cap) (out : ℕ → UInt8) :
    ∃ l, s'.Listed d l ∧
      Truncated cap out (l.map s'.line).flatten
        ((vfsInit.run calls).vfsListDir (some path) out cap).2 := by
  obtain ⟨hf, hw⟩ := run_within calls
  have hcall : (vfsInit.run calls).call (.lookup (listPath path)) = s' := congrArg Prod.fst hs
  have hf' : s'.Fitted := hcall ▸ run_fitted [.lookup (listPath path)] hf
  have hw' : s'.Within := hcall ▸ call_within hf.linked hw (.lookup (listPath path))
  obtain ⟨l, hl, htext⟩ := listNode_lists hf'.linked hw' cap d out
  refine ⟨l, hl, ?_⟩
  unfold vfsListDir
  rw [if_neg (by omega)]
  dsimp only [Option.getD_some]
  rw [if_neg (by rw [not_or, not_not]; exact ⟨hslash, by omega⟩), hs]
  dsimp only
  rwa [if_neg (by rw [hdir]; decide)]

/-- A listing of `/etc/` in a buffer that is too small for it. -/
theorem listDir_lists_etc : ∃ (s : Fs) (l : List ℕ), s.Listed 9 l ∧
    Truncated 12 (fun _ ↦ 0) (l.map s.line).flatten
      ((vfsInit.run []).vfsListDir (some (text "/etc/")) (fun _ ↦ 0) 12).2 := by
  obtain ⟨hlook, hdir, hslash, hshort⟩ : ((vfsInit.run []).vfsLookup (listPath (text "/etc/"))).2 =
      some 9 ∧ ((vfsInit.run []).vfsLookup (listPath (text "/etc/"))).1.isType 9 .dir = true ∧
      (text "/etc/").head? = some slash ∧ (text "/etc/").length < 260 := by decide +kernel
  generalize hr : (vfsInit.run []).vfsLookup (listPath (text "/etc/")) = r at hlook hdir
  obtain ⟨s', d⟩ := r
  obtain rfl : d = some 9 := hlook
  obtain ⟨l, hl, htext⟩ := listDir_lists [] hslash hshort hr hdir (Nat.le_add_left 1 11) (fun _ ↦ 0)
  exact ⟨s', l, hl, htext⟩

end Fs

end YabroOS.Vfs
