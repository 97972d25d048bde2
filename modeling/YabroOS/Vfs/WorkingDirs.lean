import YabroOS.Vfs.ProcessPaths

namespace YabroOS.Vfs

open Fat Function

namespace Fs

variable (s : Fs)

def chdirPath (cwd : ℕ) (path : List UInt8) : Except ℤ (List UInt8) :=
  if path.head? = some slash then .ok (path.take 127)
  else
    match s.taskCwdPath cwd 128 with
    | .error _ => .error (-34)
    | .ok base =>
      let base := if 1 < base.length then base ++ [slash] else base
      if 128 ≤ base.length + path.length then .error (-36) else .ok (base ++ path)

def chdirLookup (bootDir : List UInt8 → Bool) (abs : List UInt8) : Fs × Option ℕ :=
  match s.vfsLookup abs with
  | (s, some n) => (s, some n)
  | (s, none) =>
    if bootDir abs then
      match s.vfsEnsureDir abs with
      | (s, rc) => if rc < 0 then (s, none) else s.vfsLookup abs
    else (s, none)

def sysChdir (bootDir : List UInt8 → Bool) (cwd : ℕ) (path : Option (List UInt8)) : Fs × ℕ × ℤ :=
  match userCopyCstr path with
  | none => (s, cwd, -14)
  | some p =>
    match s.chdirPath cwd p with
    | .error e => (s, cwd, e)
    | .ok abs =>
      match s.chdirLookup bootDir abs with
      | (s, none) => (s, cwd, -2)
      | (s, some n) => if s.isType n .dir then (s, n, 0) else (s, cwd, -20)

end Fs

/-- The file system and the current directory of every task. -/
structure Cwds where
  fs : Fs
  cwd : ℕ → ℕ

/-- What changes the file system or a current directory. -/
inductive CwdOp
  | vfs (c : VfsCall)
  | initRoot
  | clone (parent child : ℕ)
  | chdir (task : ℕ) (bootDir : List UInt8 → Bool) (path : Option (List UInt8))

namespace Cwds

def init : Cwds := ⟨Fs.vfsInit, fun _ ↦ root⟩

def step (w : Cwds) : CwdOp → Cwds
  | .vfs c => { w with fs := w.fs.call c }
  | .initRoot => { w with cwd := update w.cwd 0 root }
  | .clone parent child => { w with cwd := update w.cwd child (w.cwd parent) }
  | .chdir task bootDir path =>
    match w.fs.sysChdir bootDir (w.cwd task) path with
    | (fs, cwd, _) => ⟨fs, update w.cwd task cwd⟩

def run (w : Cwds) (ops : List CwdOp) : Cwds := ops.foldl step w

/-- No root of a mount is moved in the run. -/
def Rests : Cwds → List CwdOp → Prop
  | _, [] => True
  | w, op :: rest => (∀ c, op = .vfs c → ¬ w.fs.Uproots c) ∧ Rests (w.step op) rest

end Cwds

namespace Tree

variable {t t' : Tree} {x y z p q e : ℕ} {name : List UInt8} {names names' parts : List (List UInt8)}

/-- The names on the way from the root to a node. -/
inductive Way (t : Tree) : List (List UInt8) → ℕ → Prop
  | root : Way t [] root
  | child {x p : ℕ} {names : List (List UInt8)} : Way t names p → x ∈ t.children p →
      t.mounted x = none → Plain (t.name x) → Way t (names ++ [t.name x]) x
  | mount {r x p : ℕ} {names : List (List UInt8)} : Way t names p → x ∈ t.children p →
      t.mounted x = some r → Plain (t.name x) → Way t (names ++ [t.name x]) r

theorem Way.shown (h : t.Way names x) : t.Shown x := by
  induction h with
  | root => exact .root
  | child _ hx hm hname ih => exact .child ih hx hm hname
  | mount _ hx hm hname ih => exact .mount ih hx hm hname

theorem Shown.way (h : t.Shown x) : ∃ names, t.Way names x := by
  induction h with
  | root => exact ⟨[], .root⟩
  | child _ hx hm hname ih =>
    obtain ⟨names, hway⟩ := ih
    exact ⟨_, .child hway hx hm hname⟩
  | mount _ hx hm hname ih =>
    obtain ⟨names, hway⟩ := ih
    exact ⟨_, .mount hway hx hm hname⟩

theorem Linked.shown_used (h : t.Linked) (hx : t.Shown x) : x < t.used := by
  cases hx with
  | root => exact h.root_used
  | child _ hx => exact h.mem_used hx
  | mount _ _ hm => exact (h.mounted _ _ hm).1

theorem way_mr (h : t.Way names p) (hx : x ∈ t.children p) (hname : Plain (t.name x)) :
    t.Way (names ++ [t.name x]) (t.mr x) := by
  unfold mr
  cases hm : t.mounted x with
  | none => exact .child h hx hm hname
  | some r => exact .mount h hx hm hname

theorem Way.plain (h : t.Way names x) : ∀ c ∈ names, Plain c := by
  induction h with
  | root => exact nofun
  | child _ _ _ hname ih =>
    intro c hc
    obtain hc | hc := List.mem_append.1 hc
    · exact ih c hc
    · exact List.mem_singleton.1 hc ▸ hname
  | mount _ _ _ hname ih =>
    intro c hc
    obtain hc | hc := List.mem_append.1 hc
    · exact ih c hc
    · exact List.mem_singleton.1 hc ▸ hname

theorem Way.normal (h : t.Way names x) : Normal names := fun c hc ↦
  ⟨(h.plain c hc).nonempty, (h.plain c hc).slash, (h.plain c hc).dot, (h.plain c hc).dotdot⟩

theorem Sited.goTo_way (h : t.Sited) (hway : t.Way names x) : t.goTo root names = some x := by
  have hstep : ∀ {p y : ℕ} {names : List (List UInt8)}, t.Way names p → t.goTo root names = some p →
      y ∈ t.children p → Plain (t.name y) → t.goTo root (names ++ [t.name y]) = some (t.mr y) := by
    intro p y names hp hgo hy hname
    have hpick := h.pick_exact (h.dir y p (h.child p y hy)) hy rfl
    rw [goTo_append, hgo, Option.bind_some]
    simp only [goTo, List.take_of_length_le hname.le, if_neg hname.dot, if_neg hname.dotdot,
      h.mr_visible hp.shown.visible, hpick, Option.bind_some]
  induction hway with
  | root => rfl
  | child hp hx hm hname ih =>
    rw [hstep hp ih hx hname, mr, hm]
    rfl
  | mount hp hx hm hname ih =>
    rw [hstep hp ih hx hname, mr, hm]
    rfl

theorem Sited.way_length (h : t.Sited) (hway : t.Way names x) (hway' : t.Way names' x) :
    names.length = names'.length := by
  induction hway generalizing names' with
  | root =>
    generalize hr : root = r at hway'
    cases hway' with
    | root => rfl
    | child _ hx _ _ =>
      have hp := h.child _ _ hx
      rw [← hr, h.root_parent] at hp
      cases hp
    | mount _ _ hm _ =>
      have hp := (h.mount _ _ hm).1
      rw [← hr, h.root_parent] at hp
      cases hp
  | @child x p names hp hx hm hname ih =>
    have hpar := h.child _ _ hx
    cases hway' with
    | root =>
      rw [h.root_parent] at hpar
      cases hpar
    | child hp' hx' _ _ =>
      obtain rfl := Option.some.inj (hpar.symm.trans (h.child _ _ hx'))
      rw [List.length_append, List.length_append, ih hp']
    | mount _ _ hm' _ => exact absurd hx ((h.mount _ _ hm').2.2 p)
  | @mount r x p names hp hx hm hname ih =>
    have hpar := (h.mount _ _ hm).1
    cases hway' with
    | root =>
      rw [h.root_parent] at hpar
      cases hpar
    | child _ hx' _ _ => exact absurd hx' ((h.mount _ _ hm).2.2 _)
    | mount hp' hx' hm' _ =>
      obtain rfl := Option.some.inj (hpar.symm.trans (h.mount _ _ hm').1)
      obtain rfl := Option.some.inj ((h.child _ _ hx).symm.trans (h.child _ _ hx'))
      rw [List.length_append, List.length_append, ih hp']

theorem Sited.way_of_goTo (h : t.Sited) (hn : Normal parts) (hx : t.goTo root parts = some x) :
    ∃ names, t.Way names x ∧ names.length = parts.length := by
  induction parts using List.reverseRecOn generalizing x with
  | nil =>
    cases hx
    exact ⟨[], .root, rfl⟩
  | append_singleton parts c ih =>
    have hc := hn c (by simp)
    rw [goTo_append] at hx
    obtain ⟨y, hy, hx⟩ := Option.bind_eq_some_iff.1 hx
    obtain ⟨names, hway, hlen⟩ := ih (fun d hd ↦ hn d (List.mem_append_left _ hd)) hy
    have hdot := take_ne (by decide) hc.2.2.1
    have hdotdot := take_ne (by decide) hc.2.2.2
    simp only [goTo, if_neg hdot, if_neg hdotdot, h.mr_visible hway.shown.visible] at hx
    obtain ⟨z, hz, hx⟩ := Option.bind_eq_some_iff.1 hx
    cases hx
    have hname := (plain_take ⟨hc.1, hc.2.1⟩ hdot hdotdot).of_lower (pick_low hz)
    exact ⟨_, way_mr hway (pick_mem hz).2 hname,
      by rw [List.length_append, List.length_append, hlen]; rfl⟩

theorem Shown.mono (h : t.Shown x) (hmono : ∀ p y, y ∈ t.children p →
    y ∈ t'.children p ∧ t'.mounted y = t.mounted y ∧ (Plain (t.name y) → Plain (t'.name y))) :
      t'.Shown x := by
  induction h with
  | root => exact .root
  | @child x p _ hx hm hname ih =>
    obtain ⟨hx', hm', hname'⟩ := hmono p x hx
    exact .child ih hx' (hm'.trans hm) (hname' hname)
  | @mount r x p _ hx hm hname ih =>
    obtain ⟨hx', hm', hname'⟩ := hmono p x hx
    exact .mount ih hx' (hm'.trans hm) (hname' hname)

theorem Sited.shown_move (h : t.Sited) (hp : t.Shown p) (habove : ¬ t.Above x p)
    (hname : Plain name) (hy : t.Shown y) : (t.move x p name).Shown y := by
  have hmem : ∀ {q z}, z ≠ x → z ∈ t.children q → z ∈ (t.move x p name).children q ∧
      (t.move x p name).name z = t.name z :=
    fun hzx hz ↦ ⟨h.mem_move.2 (.inr ⟨hz, hzx⟩), update_of_ne hzx _ _⟩
  have hbeside : ∀ {q}, t.Shown q → ¬ t.Above x q → (t.move x p name).Shown q := by
    intro q hq hqx
    induction hq with
    | root => exact .root
    | @child z q _ hz hm hzname ih =>
      have hzx : z ≠ x := fun hzx ↦ hqx (hzx ▸ .self)
      obtain ⟨hz', hname'⟩ := hmem hzx hz
      exact .child (ih (fun habove ↦ hqx (.child (h.child q z hz) habove))) hz' hm
        (hname'.symm ▸ hzname)
    | @mount r z q _ hz hm hzname ih =>
      have hz₁ : ¬ t.Above x z := fun habove ↦ hqx (.child (h.mount z r hm).1 habove)
      obtain ⟨hz', hname'⟩ := hmem (fun hzx ↦ hz₁ (hzx ▸ .self)) hz
      exact .mount (ih (fun habove ↦ hz₁ (.child (h.child q z hz) habove))) hz' hm
        (hname'.symm ▸ hzname)
  have hself : (t.move x p name).Shown ((t.move x p name).mr x) := by
    refine shown_mr (hbeside hp habove) (h.mem_move.2 (.inl ⟨rfl, rfl⟩)) ?_
    rw [show (t.move x p name).name x = name from update_self _ _ _]
    exact hname
  have hmr : ∀ {z}, (t.move x p name).mr z = t.mr z := rfl
  induction hy with
  | root => exact .root
  | @child y q _ hy hm hyname ih =>
    by_cases hyx : y = x
    · subst hyx
      rwa [hmr, mr, hm] at hself
    · obtain ⟨hy', hname'⟩ := hmem hyx hy
      exact .child ih hy' hm (hname'.symm ▸ hyname)
  | @mount r y q _ hy hm hyname ih =>
    by_cases hyx : y = x
    · subst hyx
      rwa [hmr, mr, hm] at hself
    · obtain ⟨hy', hname'⟩ := hmem hyx hy
      exact .mount ih hy' hm (hname'.symm ▸ hyname)

/-- A directory that a task can be in: one that has been found, or removed since. -/
structure Dwells (t : Tree) (x : ℕ) : Prop where
  used : x < t.used
  dir : t.isDir x = true
  shown : t.Shown x ∨ t.parent x = none ∧ x ≠ root

theorem Dwells.alike (h : t.Dwells x) (ha : t.Alike t') : t'.Dwells x where
  used := ha.used.symm ▸ h.used
  dir := ha.isDir.symm ▸ h.dir
  shown := by
    refine h.shown.imp (fun hx ↦ ?_) (And.imp_left fun hx ↦ (congrFun ha.parent x).trans hx)
    refine hx.mono (fun p y hy ↦ ⟨?_, congrFun ha.mounted y, fun hname ↦ hname.of_lower (ha.low y)⟩)
    rw [ha.children]
    exact hy

theorem Dwells.attach (h : t.Dwells x) (hl : t.Linked) (hp : p < t.used) (d : Bool)
    (name : List UInt8) : (t.attach p d name).Dwells x where
  used := Nat.lt_succ_of_lt h.used
  dir := (attach_isDir h.used p d name).trans h.dir
  shown := by
    refine h.shown.imp (fun hx ↦ ?_) (And.imp_left fun hx ↦ (update_of_ne h.used.ne _ _).trans hx)
    refine hx.mono (fun q y hy ↦ ⟨?_, update_of_ne (hl.mem_used hy).ne _ _, ?_⟩)
    · exact (mem_attach hp.ne).2 (.inr ⟨(hl.used y q (hl.child q y hy)).2.ne, hy⟩)
    · rw [hl.attach_name hy]
      exact id

theorem Dwells.waste (h : t.Dwells x) (hl : t.Linked) (d : Bool) (name : List UInt8) :
    (t.waste d name).Dwells x where
  used := h.used
  dir := (waste_isDir h.used d name).trans h.dir
  shown := by
    rw [hl.waste_parent]
    refine h.shown.imp_left
      (fun hx ↦ hx.mono (fun q y hy ↦ ⟨?_, update_of_ne (hl.mem_used hy).ne _ _, ?_⟩))
    · rw [hl.waste_children]
      exact hy
    · rw [show (t.waste d name).name y = t.name y from update_of_ne (hl.mem_used hy).ne _ _]
      exact id

theorem Dwells.cut (h : t.Dwells x) (hs : t.Sited) (he : e ∈ t.children p)
    (hempty : t.children e = []) (hmounted : t.mounted e = none) : (t.cut p e).Dwells x where
  used := h.used
  dir := h.dir
  shown := by
    by_cases hxe : x = e
    · subst hxe
      refine .inr ⟨update_self _ _ _, ?_⟩
      rintro rfl
      have hpar := hs.child p root he
      rw [hs.root_parent] at hpar
      cases hpar
    · refine h.shown.imp (fun hx ↦ hs.shown_cut hempty hmounted hx hxe) (And.imp_left fun hx ↦ ?_)
      exact (update_of_ne hxe _ _).trans hx

theorem Dwells.move (h : t.Dwells x) (hs : t.Sited) (hp : t.Shown p) (hy : t.parent y ≠ none)
    (habove : ¬ t.Above y p) (hname : Plain name) : (t.move y p name).Dwells x where
  used := h.used
  dir := h.dir
  shown := by
    refine h.shown.imp (fun hx ↦ hs.shown_move hp habove hname hx) (And.imp_left fun hx ↦ ?_)
    have hxy : x ≠ y := by
      rintro rfl
      exact hy hx
    exact (update_of_ne hxy _ _).trans hx

end Tree

variable {cap : ℕ} {out o : List UInt8}
    {acc acc' comps comps' names parts parts' : List (List UInt8)}

theorem writeNames_ok : writeNames cap out names = .ok o ↔
    o = out ++ names.flatMap (slash :: ·) ∧ (names = [] ∨ o.length < cap) := by
  induction names generalizing out with
  | nil => simp [writeNames, eq_comm]
  | cons name rest ih =>
    rw [writeNames, List.flatMap_cons, ← List.append_assoc]
    split_ifs with hfull
    · refine iff_of_false nofun ?_
      rintro ⟨rfl, h | h⟩
      · cases h
      · simp only [List.length_append, List.length_cons] at h
        omega
    · rw [ih]
      refine and_congr_right (fun ho ↦ ?_)
      cases rest with
      | nil =>
        rw [ho]
        simp only [List.flatMap_nil, List.append_nil, List.length_append, List.length_cons, true_or,
          false_or, true_iff]
        omega
      | cons => simp

theorem normalizeParts_append : normalizeParts acc (comps ++ comps') =
    match normalizeParts acc comps with
    | .error e => .error e
    | .ok parts => normalizeParts parts comps' := by
  induction comps generalizing acc with
  | nil => rfl
  | cons c rest ih =>
    rw [List.cons_append, normalizeParts, normalizeParts]
    split_ifs
    · rfl
    · exact ih
    · exact ih
    · rfl
    · exact ih

theorem Tree.Sited.normalizeParts_beside {t : Tree} {z : ℕ} (h : t.Sited) (rest : List (List UInt8))
    (hn : Normal acc) (hn' : Normal acc') (hz : t.goTo root acc = some z)
    (hz' : t.goTo root acc' = some z) (hparts : normalizeParts (acc ++ rest) comps = .ok parts)
    (hparts' : normalizeParts (acc' ++ rest) comps = .ok parts') :
    t.goTo root parts = t.goTo root parts' := by
  induction comps generalizing acc acc' rest z with
  | nil =>
    cases hparts
    cases hparts'
    rw [goTo_append, goTo_append, hz, hz']
  | cons c comps ih =>
    rw [normalizeParts] at hparts hparts'
    split_ifs at hparts hparts' with hlong hdot hdotdot hdepth hdepth'
    · exact ih _ hn hn' hz hz' hparts hparts'
    · obtain rfl | ⟨rest, d, rfl⟩ := List.eq_nil_or_concat' rest
      · rw [List.append_nil] at hparts hparts'
        have hup := h.goTo_dropLast hn hz
        have hup' := h.goTo_dropLast hn' hz'
        have hnil :=
          ih [] (fun d hd ↦ hn d (List.mem_of_mem_dropLast hd))
            (fun d hd ↦ hn' d (List.mem_of_mem_dropLast hd))
          hup hup'
        rw [List.append_nil, List.append_nil] at hnil
        exact hnil hparts hparts'
      · rw [← List.append_assoc, List.dropLast_concat] at hparts hparts'
        exact ih _ hn hn' hz hz' hparts hparts'
    · rw [List.append_assoc] at hparts hparts'
      exact ih _ hn hn' hz hz' hparts hparts'

namespace Fs

variable {s s' : Fs} {x y cwd cap : ℕ} {path out : List UInt8} {names parts : List (List UInt8)}

theorem Edit.dwells (h : Edit True s s') (hs : s.tree.Sited) (hx : s.tree.Dwells x) :
    s'.tree.Dwells x := by
  have hl := hs.toLinked
  cases h with
  | seen _ h => exact hx.alike h.looks.alike
  | waste name =>
    rw [tree_waste (fresh_new s name _ _)]
    exact hx.waste hl _ _
  | make p n h hn =>
    rw [tree_attach h.used hn]
    exact hx.attach hl h.used _ _
  | file path p name b h hb =>
    rw [tree_born h.used h.le]
    exact hx.attach hl h.used _ _
  | share p src name h =>
    rw [tree_share h.used h.le]
    exact hx.attach hl h.used _ _
  | unlink e p he hfile =>
    rw [tree_dropLink, tree_cut]
    obtain ⟨hempty, hmounted⟩ := hs.file_empty hfile
    exact hx.cut hs he hempty hmounted
  | rmdir e p he hdir hmounted hempty =>
    rw [tree_cut]
    exact hx.cut hs he hempty hmounted
  | move y p name hy hp hdir hle hroot hg =>
    obtain ⟨hshown, hname, hpar, habove, -⟩ := hg trivial
    rw [tree_moveNode]
    exact hx.move hs hshown hpar habove hname
  | boot x size path =>
    rw [(touched_setNode rfl).tree]
    exact hx

theorem Act.dwells (h : Act True s s') (hs : s.tree.Sited) (hx : s.tree.Dwells x) :
    s'.tree.Dwells x := by
  obtain h | h := h.edit_or_touched
  · exact h.dwells hs hx
  · rw [h.tree]
    exact hx

theorem Acts.dwells (h : Acts True s s') (hs : Sane True s) (hx : s.tree.Dwells x) :
    s'.tree.Dwells x := by
  have hboth : Sane True s' ∧ s'.tree.Dwells x := by
    induction h with
    | refl => exact ⟨hs, hx⟩
    | tail _ hact ih => exact ⟨hact.sane ih.1, hact.dwells (ih.1.sited trivial) ih.2⟩
  exact hboth.2

theorem cwdNames_way (hs : s.tree.Sited) (h : s.tree.Way names x) (k : ℕ) :
    s.cwdNames k (some x) = names.reverse.take k := by
  induction h generalizing k with
  | root =>
    cases k with
    | zero => rfl
    | succ k => rfl
  | @child x p names _ hx hm hname ih =>
    cases k with
    | zero => rfl
    | succ k =>
      have hpar : (s.nodes x).parent = some p := hs.child p x hx
      have hroot : x ≠ root := by
        rintro rfl
        exact Option.some_ne_none p (hpar.symm.trans hs.root_parent)
      have hmount : (s.nodes p).mounted ≠ some x := fun hp ↦ (hs.mount p x hp).2.2 p hx
      have hlen : (s.nodes x).name.take vfsNameMax = s.tree.name x := List.take_of_length_le hname.le
      rw [cwdNames, if_neg hroot]
      simp only [hpar, if_neg hmount, hlen, List.reverse_append, List.reverse_singleton,
        List.singleton_append,
        List.take_succ_cons, ih]
  | @mount r x p names _ hx hm hname ih =>
    cases k with
    | zero => rfl
    | succ k =>
      have hpar : (s.nodes r).parent = some x := (hs.mount x r hm).1
      have hpar' : (s.nodes x).parent = some p := hs.child p x hx
      have hroot : r ≠ root := by
        rintro rfl
        exact Option.some_ne_none x (hpar.symm.trans hs.root_parent)
      have hmount : (s.nodes x).mounted = some r := hm
      have hlen : (s.nodes x).name.take vfsNameMax = s.tree.name x := List.take_of_length_le hname.le
      rw [cwdNames, if_neg hroot]
      simp only [hpar, if_pos hmount, hpar', hlen, List.reverse_append, List.reverse_singleton,
        List.singleton_append,
        List.take_succ_cons, ih]

theorem taskCwdPath_way (hs : s.tree.Sited) (h : s.tree.Way names x) (hcap : 2 ≤ cap) :
    s.taskCwdPath x cap = .ok out ↔ out = normalPath (names.rtake 32) ∧ out.length < cap := by
  rw [taskCwdPath, if_neg (not_lt.2 hcap), cwdNames_way hs h, List.rtake_eq_reverse_take_reverse]
  generalize names.reverse.take 32 = kept
  by_cases hnil : kept = []
  · subst hnil
    constructor
    · rintro ⟨⟩
      exact ⟨rfl, hcap⟩
    · rintro ⟨rfl, -⟩
      rfl
  · have hne : kept.reverse ≠ [] := fun hrev ↦ hnil (List.reverse_eq_nil_iff.1 hrev)
    rw [if_neg hnil, writeNames_ok, List.nil_append, flatMap_slash hne]
    simp only [hne, false_or]

theorem taskCwdPath_removed (hpar : (s.nodes x).parent = none) (hroot : x ≠ root) :
    s.taskCwdPath x 128 = .ok (slash :: (s.nodes x).name.take vfsNameMax) := by
  have hnames : s.cwdNames 32 (some x) = [(s.nodes x).name.take vfsNameMax] := by
    rw [cwdNames, if_neg hroot]
    simp only [hpar]
    rfl
  have hlen : ((s.nodes x).name.take vfsNameMax).length ≤ 31 := List.length_take_le _ _
  rw [taskCwdPath, hnames, if_neg (by decide), if_neg (List.cons_ne_nil _ _),
    List.reverse_singleton, writeNames_ok]
  refine ⟨by simp, .inr ?_⟩
  rw [List.length_cons]
  omega

/-- The directory can be reached, and its path is not cut off: it has 32 names at most, or more than
fit. -/
def Near (s : Fs) (x : ℕ) : Prop :=
  ∃ names, s.tree.Way names x ∧ (names.length ≤ 32 ∨ 128 ≤ (normalPath (names.rtake 32)).length)

theorem taskCwdPath_near_iff (hs : s.tree.Sited) (hx : s.tree.Dwells x) :
    (∀ out, s.taskCwdPath x 128 = .ok out → (s.vfsLookup out).2 = some x) ↔ s.Near x := by
  have hfind : ∀ {parts}, Normal parts →
      s.tree.find (normalPath parts) = s.tree.goTo root parts := by
    intro parts hn
    have hhead : (normalPath parts).head? = some slash := rfl
    rw [Tree.find, if_pos hhead, components_normalPath hn]
  constructor
  · intro hall
    obtain hshown | ⟨hpar, hroot⟩ := hx.shown
    · obtain ⟨names, hway⟩ := hshown.way
      refine ⟨names, hway, or_iff_not_imp_right.2 (fun hfit ↦ ?_)⟩
      have hlook := hall _ ((taskCwdPath_way hs hway (by decide)).2 ⟨rfl, not_le.1 hfit⟩)
      have hn : Normal (names.rtake 32) := fun c hc ↦ hway.normal c (List.mem_of_mem_drop hc)
      rw [lookup_find hs.toNamed, hfind hn] at hlook
      obtain ⟨names', hway', hlen⟩ := hs.way_of_goTo hn hlook
      rw [hs.way_length hway hway', hlen, List.rtake, List.length_drop]
      omega
    · have hlook := hall _ (taskCwdPath_removed hpar hroot)
      rw [lookup_find hs.toNamed] at hlook
      exact absurd hpar (hs.visible_parent (hs.find_visible hlook) hroot)
  · rintro ⟨names, hway, hnear⟩ out hok
    obtain ⟨rfl, hfit⟩ := (taskCwdPath_way hs hway (by decide)).1 hok
    have hlen : names.length ≤ 32 := hnear.resolve_right (not_le.2 hfit)
    rw [List.rtake, Nat.sub_eq_zero_of_le hlen, List.drop_zero, lookup_find hs.toNamed,
      hfind hway.normal]
    exact hs.goTo_way hway

theorem chdirLookup_spec (hs : Sane True s) (bootDir : List UInt8 → Bool) (abs : List UInt8) :
    Acts True s (s.chdirLookup bootDir abs).1 ∧
      ∀ n, (s.chdirLookup bootDir abs).2 = some n →
        (s.chdirLookup bootDir abs).1.tree.find abs = some n := by
  have hlook : ∀ {s : Fs}, Sane True s → s.Seen (s.vfsLookup abs).1 ∧
      ∀ n, (s.vfsLookup abs).2 = some n → (s.vfsLookup abs).1.tree.find abs = some n := by
    intro s hs
    have hseen := lookup_seen s abs
    have hn := (hs.sited trivial).toNamed
    refine ⟨hseen, fun n hx ↦ ?_⟩
    rw [(hseen.same hn).find, ← lookup_find hn, hx]
  unfold chdirLookup
  obtain ⟨hseen, hfound⟩ := hlook hs
  generalize s.vfsLookup abs = r at hseen hfound ⊢
  obtain ⟨s₁, r⟩ := r
  have hs₁ := hseen.sane hs
  cases r with
  | some n => exact ⟨hseen.acts, hfound⟩
  | none =>
    have hmake := (ensureDir_edits hs₁ abs).acts
    obtain ⟨hseen', hfound'⟩ := hlook (hmake.sane hs₁)
    dsimp only
    split_ifs
    · exact ⟨hseen.acts.trans hmake, nofun⟩
    · exact ⟨(hseen.acts.trans hmake).trans hseen'.acts, hfound'⟩
    · exact ⟨hseen.acts, nofun⟩

theorem sysChdir_spec (hs : Sane True s) (bootDir : List UInt8 → Bool) (hcwd : s.tree.Dwells cwd)
    (path : Option (List UInt8)) :
    Acts True s (s.sysChdir bootDir cwd path).1 ∧
      (s.sysChdir bootDir cwd path).1.tree.Dwells (s.sysChdir bootDir cwd path).2.1 ∧
      ∀ p, path = some p → p.head? = some slash → (s.sysChdir bootDir cwd path).2.2 = 0 →
        (s.sysChdir bootDir cwd path).1.tree.find p = some (s.sysChdir bootDir cwd path).2.1 := by
  have habsolute : ∀ p, userCopyCstr path = some p → p.head? = some slash →
      s.chdirPath cwd p = .ok p := by
    intro p hp hhead
    obtain ⟨-, hlen⟩ := Option.filter_eq_some_iff.1 hp
    rw [chdirPath, if_pos hhead, List.take_of_length_le (of_decide_eq_true hlen).le]
  have herror : ∀ p e, s.chdirPath cwd p = .error e → e ≠ 0 := by
    rintro p e he rfl
    unfold chdirPath at he
    split_ifs at he
    split at he
    · cases he
    next base _ =>
    dsimp only at he
    generalize (if 1 < base.length then base ++ [slash] else base) = base at he
    split at he
    · cases he
    · cases he
  unfold sysChdir
  cases hp : userCopyCstr path with
  | none => exact ⟨.refl, hcwd, fun p _ _ h0 ↦ by cases h0⟩
  | some p =>
    have hpath : path = some p := (Option.filter_eq_some_iff.1 hp).1
    dsimp only
    cases habs : s.chdirPath cwd p with
    | error e => exact ⟨.refl, hcwd, fun _ _ _ h0 ↦ absurd h0 (herror p e habs)⟩
    | ok abs =>
      obtain ⟨hacts, hfound⟩ := chdirLookup_spec hs bootDir abs
      have hcwd' := hacts.dwells hs hcwd
      have hs₁ := hacts.sane hs
      dsimp only
      generalize s.chdirLookup bootDir abs = r at hacts hfound hcwd' hs₁ ⊢
      obtain ⟨s₁, n⟩ := r
      cases n with
      | none => exact ⟨hacts, hcwd', fun p _ _ h0 ↦ by cases h0⟩
      | some n =>
        have hfind := hfound n rfl
        dsimp only
        split_ifs with hdir
        · have hshown := (hs₁.sited trivial).find_shown hfind
          refine ⟨hacts, ⟨hs₁.linked.shown_used hshown, by simpa [isType, tree] using hdir,
            .inl hshown⟩, fun q hq hhead _ ↦ ?_⟩
          obtain rfl : p = q := Option.some.inj (hpath.symm.trans hq)
          obtain rfl := Except.ok.inj (habs.symm.trans (habsolute p hp hhead))
          exact hfind
        · exact ⟨hacts, hcwd', fun p _ _ h0 ↦ by cases h0⟩

theorem find_normalizeAbsPath (t : Tree) (h : normalizeAbsPath path cap = .ok out) :
    ∃ parts, normalizeParts [] (components path) = .ok parts ∧ t.find out = t.goTo root parts := by
  obtain ⟨parts, hcap, -, hparts, hout⟩ := normalizeAbsPath_ok h
  have hstack := normalizeParts_stacked (fun c ↦ mem_components) stacked_nil hparts
  obtain ⟨rfl, -⟩ := writeParts_ok [] hcap hstack.normal hout
  have hhead : (normalPath parts).head? = some slash := rfl
  rw [List.nil_append, Tree.find, if_pos hhead, components_normalPath hstack.normal]
  exact ⟨parts, hparts, rfl⟩

theorem rawPath_way (hs : s.tree.Sited) (hway : s.tree.Way names x) (hlen : names.length ≤ 32)
    (hrel : path.head? ≠ some slash) (h : s.rawPath x path = .ok out) :
    components out = names ++ components path := by
  have hn := hway.normal
  rw [rawPath, if_neg hrel] at h
  cases hbase : s.taskCwdPath x 128 with
  | error e =>
    rw [hbase] at h
    cases h
  | ok base =>
    obtain ⟨hpath, -⟩ := (taskCwdPath_way hs hway (by decide)).1 hbase
    rw [List.rtake, Nat.sub_eq_zero_of_le hlen, List.drop_zero] at hpath
    rw [hbase, hpath] at h
    dsimp only at h
    split_ifs at h with hlong
    · cases h
      rw [List.append_assoc, List.singleton_append, components_append, components_normalPath hn]
    · cases h
      obtain rfl : names = [] := by
        by_contra hne
        exact hlong (one_lt_normalPath hn hne)
      exact components_slash path

/-- Below a directory that has just been found under a path, the rest of a path leads where it leads
from there. -/
theorem resolveProcessPath_beside (hs : s.tree.Sited) (hx : s.tree.find path = some x)
    (hhead : path.head? = some slash) (hnear : s.Near x) {rest out' : List UInt8}
    (hrel : rest.head? ≠ some slash) (hok : s.resolveProcessPath x rest 128 = .ok out)
    (hok' : s.resolveProcessPath x (path ++ slash :: rest) 128 = .ok out') :
    s.tree.find out = s.tree.find out' := by
  have hraw : ∀ {path out}, s.resolveProcessPath x path 128 = .ok out →
      ∃ raw, s.rawPath x path = .ok raw ∧ normalizeAbsPath raw 128 = .ok out := by
    intro path out h
    rw [resolveProcessPath, if_neg (by decide)] at h
    cases hraw : s.rawPath x path with
    | error e =>
      rw [hraw] at h
      cases h
    | ok raw =>
      rw [hraw] at h
      exact ⟨raw, rfl, h⟩
  obtain ⟨raw, hraw₁, hnorm⟩ := hraw hok
  obtain ⟨raw', hraw₂, hnorm'⟩ := hraw hok'
  obtain ⟨names, hway, hnear⟩ := hnear
  have hlen : names.length ≤ 32 := by
    refine hnear.resolve_right (fun hlong ↦ ?_)
    rw [rawPath, if_neg hrel] at hraw₁
    cases hbase : s.taskCwdPath x 128 with
    | error e =>
      rw [hbase] at hraw₁
      cases hraw₁
    | ok base =>
      obtain ⟨rfl, hfit⟩ := (taskCwdPath_way hs hway (by decide)).1 hbase
      exact absurd hfit (not_lt.2 hlong)
  obtain ⟨parts, hparts, hfind⟩ := find_normalizeAbsPath s.tree hnorm
  obtain ⟨parts', hparts', hfind'⟩ := find_normalizeAbsPath s.tree hnorm'
  rw [hfind, hfind']
  have hstack : Stacked names := ⟨hway.normal, fun c hc ↦ (hway.plain c hc).le, hlen⟩
  rw [rawPath_way hs hway hlen hrel hraw₁, normalizeParts_append, normalizeParts_stack [] hstack]
    at hparts
  have habs : (path ++ slash :: rest).head? = some slash := by
    rw [List.head?_append, hhead]
    rfl
  rw [rawPath, if_pos habs] at hraw₂
  split_ifs at hraw₂
  cases hraw₂
  rw [components_append, normalizeParts_append] at hparts'
  split at hparts'
  · cases hparts'
  next parts₁ hparts₁ =>
  rw [Tree.find, if_pos hhead] at hx
  have hgo := hs.goTo_normalizeParts (fun c ↦ mem_components) stacked_nil rfl hx hparts₁
  have hstack₁ := normalizeParts_stacked (fun c ↦ mem_components) stacked_nil hparts₁
  have hparts : normalizeParts (names ++ []) (components rest) = .ok parts := by
    rw [List.append_nil]
    exact hparts
  have hparts' : normalizeParts (parts₁ ++ []) (components rest) = .ok parts' := by
    rw [List.append_nil]
    exact hparts'
  exact hs.normalizeParts_beside [] hstack.normal hstack₁.normal (hs.goTo_way hway) hgo
    hparts hparts'

end Fs

namespace Cwds

variable {w : Cwds} {ops : List CwdOp}

/-- What holds of the file system and the current directories after every step. -/
structure Kept (w : Cwds) : Prop where
  sane : w.fs.Sane True
  dwells : ∀ task, w.fs.tree.Dwells (w.cwd task)

theorem kept_root {s : Fs} (hs : s.Sane True) : Kept ⟨s, fun _ ↦ root⟩ where
  sane := hs
  dwells _ := ⟨hs.linked.root_used, hs.linked.root_dir, .inl .root⟩

theorem init_kept : init.Kept := kept_root Fs.vfsInit_sane

theorem Kept.step (h : w.Kept) {op : CwdOp} (hrest : ∀ c, op = .vfs c → ¬ w.fs.Uproots c) :
    (w.step op).Kept := by
  cases op with
  | vfs c =>
    have hacts : Fs.Acts True w.fs (w.fs.call c) := Fs.call_acts h.sane (fun _ ↦ hrest c rfl)
    exact ⟨hacts.sane h.sane, fun task ↦ hacts.dwells h.sane (h.dwells task)⟩
  | initRoot =>
    refine ⟨h.sane, fun task ↦ ?_⟩
    simp only [Cwds.step, update_apply]
    split_ifs
    · exact ⟨h.sane.linked.root_used, h.sane.linked.root_dir, .inl .root⟩
    · exact h.dwells task
  | clone parent child =>
    refine ⟨h.sane, fun task ↦ ?_⟩
    simp only [Cwds.step, update_apply]
    split_ifs
    · exact h.dwells parent
    · exact h.dwells task
  | chdir task bootDir path =>
    obtain ⟨hacts, hcwd, -⟩ := Fs.sysChdir_spec h.sane bootDir (h.dwells task) path
    refine ⟨hacts.sane h.sane, fun other ↦ ?_⟩
    simp only [Cwds.step, update_apply]
    split_ifs
    · exact hcwd
    · exact hacts.dwells h.sane (h.dwells other)

theorem Kept.run (h : w.Kept) (hrests : w.Rests ops) : (w.run ops).Kept := by
  induction ops generalizing w with
  | nil => exact h
  | cons op rest ih => exact ih (h.step hrests.1) hrests.2

/-- `task_cwd_path` gives a path of the current directory while there are at most 32 names on its
way, or an error if they do not fit, and then what follows a path from the root is found from the
directory too. -/
theorem taskCwdPath_exact (ops : List CwdOp) (h : init.Rests ops) (task : ℕ) :
    ((∀ out, (init.run ops).fs.taskCwdPath ((init.run ops).cwd task) 128 = .ok out →
        ((init.run ops).fs.vfsLookup out).2 = some ((init.run ops).cwd task)) ↔
      (init.run ops).fs.Near ((init.run ops).cwd task)) ∧
    ∀ bootDir path s cwd, (init.run ops).fs.sysChdir bootDir ((init.run ops).cwd task)
    (some path) = (s, cwd, 0) →
      path.head? = some slash → s.Near cwd → ∀ rest out out', rest.head? ≠ some slash →
        s.resolveProcessPath cwd rest 128 = .ok out →
          s.resolveProcessPath cwd (path ++ slash :: rest) 128 = .ok out' →
          (s.vfsLookup out).2 = (s.vfsLookup out').2 := by
  have hkept := init_kept.run h
  refine ⟨Fs.taskCwdPath_near_iff (hkept.sane.sited trivial) (hkept.dwells task), ?_⟩
  intro bootDir path s cwd hchdir hhead hnear rest out out' hrel hok hok'
  obtain ⟨hacts, -, hfind⟩ := Fs.sysChdir_spec hkept.sane bootDir (hkept.dwells task) (some path)
  rw [hchdir] at hacts hfind
  have hs := (hacts.sane hkept.sane).sited trivial
  rw [Fs.lookup_find hs.toNamed, Fs.lookup_find hs.toNamed]
  exact Fs.resolveProcessPath_beside hs (hfind path rfl hhead rfl) hhead hnear hrel hok hok'

def enterDir : List CwdOp :=
  [.vfs (.mkdir (text "/a") 0o755), .chdir 0 (fun _ ↦ false) (some (text "/a"))]

theorem enterDir_rests : init.Rests enterDir :=
  ⟨fun _ hc ↦ by cases hc; exact not_false, nofun, trivial⟩

theorem rests_append {op : CwdOp} :
    w.Rests (ops ++ [op]) ↔ w.Rests ops ∧ ∀ c, op = .vfs c → ¬ (w.run ops).fs.Uproots c := by
  induction ops generalizing w with
  | nil => exact and_comm
  | cons a rest ih => exact (and_congr_right fun _ ↦ ih).trans and_assoc.symm

theorem not_uproots (h : w.Kept) {x p : ℕ} {old new : List UInt8}
    (hx : (w.fs.vfsLookup old).2 = some x) (hp : (w.fs.nodes x).parent = some p)
    (hm : (w.fs.nodes p).mounted = none) : ¬ w.fs.Uproots (.rename old new) := by
  rintro ⟨-, y, q, hy, hq⟩
  obtain rfl : y = x := Option.some.inj (hy.symm.trans hx)
  have hpar : (w.fs.nodes y).parent = some q := ((h.sane.sited trivial).mount q y hq).1
  obtain rfl : q = p := Option.some.inj (hpar.symm.trans hp)
  exact Option.some_ne_none y (hq.symm.trans hm)

theorem moveDir_rests : init.Rests (enterDir ++ [.vfs (.rename (text "/a") (text "/tmp/b"))]) := by
  refine rests_append.2 ⟨enterDir_rests, fun c hc ↦ ?_⟩
  obtain ⟨hlook, hparent⟩ : ((init.run enterDir).fs.vfsLookup (text "/a")).2 = some 59 ∧
      ((init.run enterDir).fs.nodes 59).parent = some 0 ∧
        ((init.run enterDir).fs.nodes 0).mounted = none := by
    decide +kernel
  cases hc
  exact not_uproots (init_kept.run enterDir_rests) hlook hparent.1 hparent.2

/-- A task stays in a directory that is moved. -/
theorem taskCwdPath_exact_moved :
    init.Rests (enterDir ++ [.vfs (.rename (text "/a") (text "/tmp/b"))]) ∧
    (init.run (enterDir ++ [.vfs (.rename (text "/a") (text "/tmp/b"))])).fs.taskCwdPath 59 128 =
      .ok (text "/tmp/b") ∧
    (init.run (enterDir ++ [.vfs (.rename (text "/a") (text "/tmp/b"))])).fs.Near
      ((init.run (enterDir ++ [.vfs (.rename (text "/a") (text "/tmp/b"))])).cwd 0) := by
  obtain ⟨hcwd, hpath, hlook⟩ :
      (init.run (enterDir ++ [.vfs (.rename (text "/a") (text "/tmp/b"))])).cwd 0 = 59 ∧
      (init.run (enterDir ++ [.vfs (.rename (text "/a") (text "/tmp/b"))])).fs.taskCwdPath 59 128 =
        .ok (text "/tmp/b") ∧
      ((init.run (enterDir ++ [.vfs (.rename (text "/a") (text "/tmp/b"))])).fs.vfsLookup
        (text "/tmp/b")).2 = some 59 := by
    decide +kernel
  refine ⟨moveDir_rests, hpath, (taskCwdPath_exact _ moveDir_rests 0).1.1 (fun out hout ↦ ?_)⟩
  rw [hcwd] at hout ⊢
  obtain rfl := Except.ok.inj (hpath.symm.trans hout)
  exact hlook

/-- The path of a directory that has been removed leads nowhere. -/
theorem not_taskCwdPath_exact : ¬ ∀ (ops : List CwdOp) (task : ℕ) (out : List UInt8),
    (init.run ops).fs.taskCwdPath ((init.run ops).cwd task) 128 = .ok out →
      ((init.run ops).fs.vfsLookup out).2 = some ((init.run ops).cwd task) := by
  intro h
  obtain ⟨hpath, hlook⟩ : (init.run (enterDir ++ [.vfs (.rmdir (text "/a"))])).fs.taskCwdPath
        ((init.run (enterDir ++ [.vfs (.rmdir (text "/a"))])).cwd 0) 128 = .ok (text "/a") ∧
      ((init.run (enterDir ++ [.vfs (.rmdir (text "/a"))])).fs.vfsLookup (text "/a")).2 = none := by
        decide +kernel
  exact Option.some_ne_none _ ((h _ 0 _ hpath).symm.trans hlook)

end Cwds

end YabroOS.Vfs
