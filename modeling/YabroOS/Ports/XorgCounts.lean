import YabroOS.Ports.XorgConfig

namespace YabroOS.Ports.Xorg

open Lib Function

def quoted (name : String) : List Char := '"' :: name.toList ++ ['"']

def Kind.name : Kind → String
  | files => "Files"
  | modules => "Module"
  | flags => "ServerFlags"
  | layout => "ServerLayout"
  | other => ""

variable {chosen chosen' l head foot : Line} {body : List Line} {seen : Seen} {k : Kind}
  {b : Block Line} {blocks : List (Block Line)} {β : Type}

theorem prefix_of_matchText {p : List Char} (h : (matchText p l).isSome) :
    p.map foldCase <+: l.map foldCase := by
  induction p generalizing l with
  | nil => exact List.nil_prefix
  | cons c p ih =>
    cases l with
    | nil => cases h
    | cons d l =>
      rw [matchText] at h
      split_ifs at h with hc
      · rw [List.map_cons, List.map_cons, hc]
        exact List.cons_prefix_cons.2 ⟨rfl, ih h⟩
      · cases h

theorem not_matchesName {w n₁ n₂ : String}
    (h₁ : ¬(quoted n₁).map foldCase <+: (quoted n₂).map foldCase)
    (h₂ : ¬(quoted n₂).map foldCase <+: (quoted n₁).map foldCase) (h : matchesName w n₁ l) :
    matchesName w n₂ l = false := by
  rw [Bool.eq_false_iff]
  intro h'
  unfold matchesName at h h'
  cases hr : (word w.toList l).bind spaces with
  | none =>
    rw [hr] at h
    cases h
  | some r =>
    rw [hr, Option.bind_some] at h h'
    rcases List.prefix_or_prefix_of_prefix (prefix_of_matchText h) (prefix_of_matchText h')
      with hp | hp
    · exact h₁ hp
    · exact h₂ hp

theorem kinds_apart :
    ∀ k₁ ∈ kinds, ∀ k₂ ∈ kinds, k₁ ≠ k₂ →
      ¬(quoted k₁.name).map foldCase <+: (quoted k₂.name).map foldCase := by
  decide

theorem options_apart :
    ∀ o₁ ∈ options, ∀ o₂ ∈ options, o₁ ≠ o₂ →
      ¬(quoted o₁.name).map foldCase <+: (quoted o₂.name).map foldCase := by
  decide

theorem mem_options (o : FlagsOption) : o ∈ options := by cases o <;> decide

theorem optionOf_eq_iff (o : FlagsOption) :
    optionOf l = some o ↔ matchesName "Option" o.name l = true := by
  have hfound {o : FlagsOption} (h : optionOf l = some o) : matchesName "Option" o.name l = true :=
    List.find?_some (p := fun o : FlagsOption ↦ matchesName "Option" o.name l) h
  refine ⟨hfound, fun h ↦ ?_⟩
  cases ho : optionOf l with
  | none => exact absurd h (List.find?_eq_none.1 ho o (mem_options o))
  | some o' =>
    by_contra hne
    have hne' : o' ≠ o := fun heq ↦ hne (congrArg some heq)
    have hnot := not_matchesName (options_apart o' (mem_options o') o (mem_options o) hne')
      (options_apart o (mem_options o) o' (mem_options o') hne'.symm) (hfound ho)
    rw [h] at hnot
    cases hnot

theorem matchesName_kindOf (hk : kindOf head ∈ kinds) :
    matchesName "Section" (kindOf head).name head = true := by
  unfold kindOf at hk ⊢
  split_ifs at hk ⊢ with h₁ h₂ h₃ h₄
  · exact h₁
  · exact h₂
  · exact h₃
  · exact h₄
  · exact absurd hk (by decide)

theorem kindOf_eq_iff (hk : k ∈ kinds) :
    kindOf head = k ↔ matchesName "Section" k.name head = true := by
  constructor
  · rintro rfl
    exact matchesName_kindOf hk
  · intro h
    by_cases hmem : kindOf head ∈ kinds
    · by_contra hne
      have hnot :=
        not_matchesName (kinds_apart _ hmem k hk hne) (kinds_apart k hk _ hmem (Ne.symm hne))
          (matchesName_kindOf hmem)
      rw [h] at hnot
      cases hnot
    · unfold kindOf at hmem
      split_ifs at hmem with h₁ h₂ h₃ h₄
      · exact absurd (List.Mem.head _) hmem
      · exact absurd (by decide) hmem
      · exact absurd (by decide) hmem
      · exact absurd (by decide) hmem
      · cases k with
        | files => exact absurd h h₁
        | modules => exact absurd h h₂
        | flags => exact absurd h h₃
        | layout => exact absurd h h₄
        | other => exact absurd hk (by decide)

def plain (blocks : List (Block (Line × Bool))) : List (Block Line) :=
  blocks.map (Block.map Prod.fst)

theorem linesOf_plain (blocks : List (Block (Line × Bool))) :
    linesOf (plain blocks) = (linesOf blocks).map Prod.fst := by
  unfold linesOf plain
  rw [List.flatMap_map, List.map_flatMap]
  congr 1
  funext b
  cases b with
  | line l => rfl
  | sect head body foot =>
    simp only [Block.map, Block.lines, List.map_cons, List.map_append, List.map_nil]

theorem plain_append (b₁ b₂ : List (Block (Line × Bool))) :
    plain (b₁ ++ b₂) = plain b₁ ++ plain b₂ := List.map_append

theorem plain_emit_files (hk : kindOf head = .files) :
    plain (emit chosen seen (.sect head body foot)) =
      [.sect head (pathSettings.settled (fun _ ↦ seen .files) body) foot] := by
  rw [emit, hk]
  rfl

theorem plain_emit_modules (hk : kindOf head = .modules) :
    plain (emit chosen seen (.sect head body foot)) =
      [.sect head (evdevSettings.settled (fun _ ↦ seen .modules) body) foot] := by
  rw [emit, hk]
  rfl

theorem plain_emit_flags (hk : kindOf head = .flags) :
    plain (emit chosen seen (.sect head body foot)) =
      [.sect head (flagSettings.settled (fun _ ↦ false) body) foot] := by
  rw [emit, hk]
  rfl

theorem plain_emit_layout (hk : kindOf head = .layout) :
    plain (emit chosen seen (.sect head body foot)) =
      if seen .layout then []
        else [.sect head (identifierLine :: layoutTail chosen false body) foot] := by
  rw [emit, hk]
  dsimp only
  rw [← map_fst_layoutBody]
  split_ifs <;> rfl

theorem plain_emit_other (hk : kindOf head = .other) :
    plain (emit chosen seen (.sect head body foot)) = [.sect head body foot] := by
  rw [emit, hk]
  change [Block.sect head ((body.map (·, true)).map Prod.fst) foot] = _
  rw [map_fst_true]

theorem plain_emit_sect (chosen : Line) (seen : Seen) (head : Line) (body : List Line)
    (foot : Line) :
    plain (emit chosen seen (.sect head body foot)) = [] ∨
      ∃ body', plain (emit chosen seen (.sect head body foot)) = [.sect head body' foot] := by
  cases hk : kindOf head with
  | files => exact .inr ⟨_, plain_emit_files hk⟩
  | modules => exact .inr ⟨_, plain_emit_modules hk⟩
  | flags => exact .inr ⟨_, plain_emit_flags hk⟩
  | layout =>
    rw [plain_emit_layout hk]
    split_ifs
    · exact .inl rfl
    · exact .inr ⟨_, rfl⟩
  | other => exact .inr ⟨_, plain_emit_other hk⟩

theorem plain_added (chosen : Line) (k : Kind) :
    plain (added chosen k) = [.line [], .sect k.head (k.addedBody chosen) endSection] := by
  have hbody : ((k.addedBody chosen).map (·, false)).map Prod.fst = k.addedBody chosen := by
    rw [List.map_map]
    exact List.map_id _
  change [Block.line [],
    Block.sect k.head (((k.addedBody chosen).map (·, false)).map Prod.fst) endSection] = _
  rw [hbody]

theorem kindOf_head (hk : k ∈ kinds) : kindOf k.head = k := by
  cases k with
  | files => decide
  | modules => decide
  | flags => decide
  | layout => decide
  | other => exact absurd hk (by decide)

def IsInner (l : Line) : Prop := isSection l = false ∧ isEnd l = false

theorem isInner_modulePath : IsInner modulePath := ⟨by decide, by decide⟩

theorem isInner_loadEvdev : IsInner loadEvdev := ⟨by decide, by decide⟩

theorem isInner_replacement (o : FlagsOption) : IsInner o.replacement := by
  cases o <;> exact ⟨by decide, by decide⟩

theorem isInner_screenLine (chosen : Line) : IsInner (screenLine chosen) := ⟨rfl, rfl⟩

theorem isInner_layoutTail (hbody : ∀ l ∈ body, IsInner l)
    (hl : l ∈ identifierLine :: layoutTail chosen false body) : IsInner l := by
  rcases List.mem_cons.1 hl with rfl | hl
  · exact ⟨by decide, by decide⟩
  rcases List.mem_append.1 hl with hl | hl
  · rcases List.mem_append.1 hl with hl | hl
    · exact hbody l (List.mem_filter.1 hl).1
    · split_ifs at hl
      · exact absurd hl List.not_mem_nil
      · rw [List.mem_singleton.1 hl]
        exact isInner_screenLine chosen
  · have htail : ∀ l ∈ [keyboardLine, mouseLine, []], isSection l = false ∧ isEnd l = false := by
      decide
    exact htail l hl

theorem wellFormed_emit (hb : b.WellFormed) {b' : Block Line}
    (h : b' ∈ plain (emit chosen seen b)) : b'.WellFormed := by
  cases b with
  | line l => rwa [List.mem_singleton.1 h]
  | sect head body foot =>
    obtain ⟨hhead, hbody, hfoot⟩ := hb
    cases hk : kindOf head with
    | files =>
      rw [plain_emit_files hk] at h
      rw [List.mem_singleton.1 h]
      refine ⟨hhead, fun l hl ↦ ?_, hfoot⟩
      rcases Settings.mem_settled hl with hl | ⟨i, rfl⟩
      · exact hbody l hl
      · exact isInner_modulePath
    | modules =>
      rw [plain_emit_modules hk] at h
      rw [List.mem_singleton.1 h]
      refine ⟨hhead, fun l hl ↦ ?_, hfoot⟩
      rcases Settings.mem_settled hl with hl | ⟨i, rfl⟩
      · exact hbody l hl
      · exact isInner_loadEvdev
    | flags =>
      rw [plain_emit_flags hk] at h
      rw [List.mem_singleton.1 h]
      refine ⟨hhead, fun l hl ↦ ?_, hfoot⟩
      rcases Settings.mem_settled hl with hl | ⟨o, rfl⟩
      · exact hbody l hl
      · exact isInner_replacement o
    | layout =>
      rw [plain_emit_layout hk] at h
      split_ifs at h
      · exact absurd h List.not_mem_nil
      · rw [List.mem_singleton.1 h]
        exact ⟨hhead, fun l hl ↦ isInner_layoutTail hbody hl, hfoot⟩
    | other =>
      rw [plain_emit_other hk] at h
      rw [List.mem_singleton.1 h]
      exact ⟨hhead, hbody, hfoot⟩

theorem wellFormed_added (hk : k ∈ kinds) {b : Block Line} (hb : b ∈ plain (added chosen k)) :
    b.WellFormed := by
  rw [plain_added] at hb
  rcases List.mem_cons.1 hb with rfl | hb
  · exact (by decide : isSection [] = false)
  rw [List.mem_singleton.1 hb]
  cases k with
  | files => exact ⟨by decide, fun l hl ↦ List.mem_singleton.1 hl ▸ isInner_modulePath, by decide⟩
  | modules => exact ⟨by decide, fun l hl ↦ List.mem_singleton.1 hl ▸ isInner_loadEvdev, by decide⟩
  | flags =>
    refine ⟨by decide, fun l hl ↦ ?_, by decide⟩
    obtain ⟨o, -, rfl⟩ := List.mem_map.1 hl
    exact isInner_replacement o
  | layout =>
    refine ⟨by decide, fun l hl ↦ ?_, by decide⟩
    have hother : ∀ l ∈ [identifierLine, keyboardLine, mouseLine], isSection l = false ∧
        isEnd l = false := by decide
    rcases List.mem_cons.1 hl with rfl | hl
    · exact hother _ (.head _)
    rcases List.mem_cons.1 hl with rfl | hl
    · exact isInner_screenLine chosen
    · exact hother l (.tail _ hl)
  | other => exact absurd hk (by decide)

theorem wellFormed_rewrite (chosen : Line) (seen : Seen) (hb : ∀ b ∈ blocks, b.WellFormed) :
    ∀ b ∈ plain (rewriteBlocks chosen seen blocks), b.WellFormed := by
  induction blocks generalizing seen with
  | nil =>
    intro b h
    rw [rewriteBlocks, appendedBlocks, plain, List.map_flatMap] at h
    obtain ⟨k, hk, h⟩ := List.mem_flatMap.1 h
    split_ifs at h
    · exact absurd h List.not_mem_nil
    · exact wellFormed_added hk h
  | cons b blocks ih =>
    intro b' h
    rw [rewriteBlocks, plain_append] at h
    rcases List.mem_append.1 h with h | h
    · exact wellFormed_emit (hb b (.head _)) h
    · exact ih _ (fun b hb' ↦ hb b (.tail _ hb')) b' h

theorem kinds_flatMap (g : Kind → List β) :
    kinds.flatMap g = g .files ++ (g .modules ++ (g .flags ++ g .layout)) := by
  simp only [kinds, List.flatMap_cons, List.flatMap_nil, List.append_nil]

theorem flatMap_appended (f : Block Line → List β) (hk : k ∈ kinds) (hline : ∀ l, f (.line l) = [])
    (hother : ∀ head body foot, kindOf head ≠ k → f (.sect head body foot) = []) (seen : Seen) :
    (plain (appendedBlocks chosen seen)).flatMap f =
      if seen k then [] else f (.sect k.head (k.addedBody chosen) endSection) := by
  have hgroup (j : Kind) (hj : j ∈ kinds) : (plain (if seen j then [] else added chosen j)).flatMap
      f =
      if j = k then (if seen k then [] else f (.sect k.head (k.addedBody chosen) endSection))
      else [] := by
    by_cases hjk : j = k
    · rw [hjk, if_pos rfl]
      split_ifs
      · rfl
      · rw [plain_added, List.flatMap_cons, List.flatMap_cons, hline, List.flatMap_nil,
          List.append_nil, List.nil_append]
    · rw [if_neg hjk]
      split_ifs
      · rfl
      · rw [plain_added, List.flatMap_cons, List.flatMap_cons, hline,
          hother _ _ _ (by rwa [kindOf_head hj])]
        rfl
  rw [appendedBlocks, kinds_flatMap, plain_append, plain_append, plain_append, List.flatMap_append,
    List.flatMap_append, List.flatMap_append,
    hgroup _ (by decide), hgroup _ (by decide), hgroup _ (by decide), hgroup _ (by decide)]
  cases k with
  | other => exact absurd hk (by decide)
  | files => exact List.append_nil _
  | modules => exact List.append_nil _
  | flags => exact List.append_nil _
  | layout => rfl

theorem flatMap_rewrite (f : Block Line → List β) (T : List β → Prop) (hk : k ∈ kinds)
    (hline : ∀ l, f (.line l) = [])
    (hother : ∀ head body foot, kindOf head ≠ k → f (.sect head body foot) = [])
    (hseen : ∀ seen head body foot, kindOf head = k → seen k = true →
      (plain (emit chosen seen (.sect head body foot))).flatMap f = [])
    (hnew : ∀ seen head body foot, kindOf head = k → seen k = false →
      T ((plain (emit chosen seen (.sect head body foot))).flatMap f))
    (hadded : T (f (.sect k.head (k.addedBody chosen) endSection))) (seen : Seen) :
    (seen k = true → (plain (rewriteBlocks chosen seen blocks)).flatMap f = []) ∧
      (seen k = false → T ((plain (rewriteBlocks chosen seen blocks)).flatMap f)) := by
  induction blocks generalizing seen with
  | nil =>
    rw [rewriteBlocks, flatMap_appended f hk hline hother]
    refine ⟨fun h ↦ if_pos h, fun h ↦ ?_⟩
    rw [h, if_neg Bool.false_ne_true]
    exact hadded
  | cons b blocks ih =>
    rw [rewriteBlocks, plain_append, List.flatMap_append]
    cases b with
    | line l =>
      have hnone : (plain (emit chosen seen (.line l))).flatMap f = [] := by
        change f (.line l) ++ [] = []
        rw [hline, List.append_nil]
      rw [hnone, List.nil_append]
      exact ih seen
    | sect head body foot =>
      by_cases hkind : kindOf head = k
      · have hrest := (ih (update seen k true)).1 (update_self _ _ _)
        rw [Seen.after, hkind, hrest, List.append_nil]
        exact ⟨hseen seen head body foot hkind, hnew seen head body foot hkind⟩
      · have hnone : (plain (emit chosen seen (.sect head body foot))).flatMap f = [] := by
          rcases plain_emit_sect chosen seen head body foot with h | ⟨body', h⟩
          · rw [h]
            rfl
          · rw [h, List.flatMap_cons, hother head body' foot hkind]
            rfl
        have hrest := ih (update seen (kindOf head) true)
        rw [update_of_ne (Ne.symm hkind)] at hrest
        rw [hnone, List.nil_append, Seen.after]
        exact hrest

def modulePaths (b : Block Line) : List Line :=
  if b.isNamed "Files" then b.body.filter (matchesKey "ModulePath") else []

def evdevLoads (b : Block Line) : List Line :=
  if b.isNamed "Module" then b.body.filter (matchesName "Load" "Evdev") else []

def layouts (b : Block Line) : List (Block Line) := if b.isNamed "ServerLayout" then [b] else []

theorem pathSettings_about :
    (fun l ↦ decide (pathSettings.about l = some ())) = matchesKey "ModulePath" := by
  funext l
  cases h : matchesKey "ModulePath" l with
  | false =>
    have hnone : pathSettings.about l = none := if_neg (by rw [h]; exact Bool.false_ne_true)
    rw [hnone]
    rfl
  | true => exact decide_eq_true (if_pos h)

theorem evdevSettings_about :
    (fun l ↦ decide (evdevSettings.about l = some ())) = matchesName "Load" "Evdev" := by
  funext l
  cases h : matchesName "Load" "Evdev" l with
  | false =>
    have hnone : evdevSettings.about l = none := if_neg (by rw [h]; exact Bool.false_ne_true)
    rw [hnone]
    rfl
  | true => exact decide_eq_true (if_pos h)

theorem flagSettings_about (o : FlagsOption) :
    (fun l ↦ decide (flagSettings.about l = some o)) = matchesName "Option" o.name := by
  funext l
  rw [Bool.eq_iff_iff, decide_eq_true_eq]
  exact optionOf_eq_iff o

theorem modulePaths_sect (hk : kindOf head = .files) :
    modulePaths (.sect head body foot) = body.filter (matchesKey "ModulePath") :=
  if_pos ((kindOf_eq_iff (by decide)).1 hk)

theorem evdevLoads_sect (hk : kindOf head = .modules) :
    evdevLoads (.sect head body foot) = body.filter (matchesName "Load" "Evdev") :=
  if_pos ((kindOf_eq_iff (by decide)).1 hk)

theorem layouts_sect (hk : kindOf head = .layout) :
    layouts (.sect head body foot) = [.sect head body foot] :=
  if_pos ((kindOf_eq_iff (by decide)).1 hk)

theorem modulePaths_rewrite (chosen : Line) (blocks : List (Block Line)) :
    (plain (rewriteBlocks chosen (fun _ ↦ false) blocks)).flatMap modulePaths = [modulePath] := by
  have hfiltered (done : Bool) (body : List Line) :
      (pathSettings.settled (fun _ ↦ done) body).filter (matchesKey "ModulePath") = if done then []
        else [modulePath] := by
    rw [← pathSettings_about]
    exact Settings.filter_settled pathSettings_lawful _ body ()
  refine (flatMap_rewrite modulePaths (· = [modulePath]) (k := .files) (by decide) (fun _ ↦ rfl)
    (fun head body foot hk ↦ ?_)
    (fun seen head body foot hk hs ↦ ?_) (fun seen head body foot hk hs ↦ ?_)
    ((modulePaths_sect (kindOf_head (by decide))).trans (by exact rfl)) fun _ ↦ false).2 rfl
  · exact if_neg fun h ↦ hk ((kindOf_eq_iff (by decide)).2 h)
  · rw [plain_emit_files hk, List.flatMap_cons, modulePaths_sect hk, hfiltered, if_pos hs]
    rfl
  · rw [plain_emit_files hk, List.flatMap_cons, modulePaths_sect hk, hfiltered, hs]
    rfl

theorem evdevLoads_rewrite (chosen : Line) (blocks : List (Block Line)) :
    (plain (rewriteBlocks chosen (fun _ ↦ false) blocks)).flatMap evdevLoads = [loadEvdev] := by
  have hfiltered (done : Bool) (body : List Line) :
      (evdevSettings.settled (fun _ ↦ done) body).filter (matchesName "Load" "Evdev") =
        if done then [] else [loadEvdev] := by
    rw [← evdevSettings_about]
    exact Settings.filter_settled evdevSettings_lawful _ body ()
  refine (flatMap_rewrite evdevLoads (· = [loadEvdev]) (k := .modules) (by decide) (fun _ ↦ rfl)
    (fun head body foot hk ↦ ?_)
    (fun seen head body foot hk hs ↦ ?_) (fun seen head body foot hk hs ↦ ?_)
    ((evdevLoads_sect (kindOf_head (by decide))).trans (by exact rfl)) fun _ ↦ false).2 rfl
  · exact if_neg fun h ↦ hk ((kindOf_eq_iff (by decide)).2 h)
  · rw [plain_emit_modules hk, List.flatMap_cons, evdevLoads_sect hk, hfiltered, if_pos hs]
    rfl
  · rw [plain_emit_modules hk, List.flatMap_cons, evdevLoads_sect hk, hfiltered, hs]
    rfl

/-- A layout of one name, with a screen, the keyboard and the mouse. -/
structure IsLayout (b : Block Line) : Prop where
  identifiers : b.body.filter (matchesKey "Identifier") = [identifierLine]
  screen : ∃ l ∈ b.body, matchesKey "Screen" l
  devices : b.body.filter (matchesKey "InputDevice") = [keyboardLine, mouseLine]

theorem filter_layoutKept {key : String}
    (h : ∀ l, matchesKey key l → (matchesKey "Identifier" l || matchesKey "InputDevice" l) = true) :
    (layoutKept body).filter (matchesKey key) = [] := by
  refine List.filter_eq_nil_iff.2 fun l hl hkey ↦ ?_
  have hkept := (List.mem_filter.1 hl).2
  rw [h l hkey] at hkept
  exact Bool.false_ne_true hkept

theorem isLayout_tail (head foot : Line) (chosen : Line) (body : List Line) :
    IsLayout (.sect head (identifierLine :: layoutTail chosen false body) foot) := by
  have hscreen (key : String) (hkey : ∀ chosen, matchesKey key (screenLine chosen) = false) :
      (if false || (layoutKept body).any (matchesKey "Screen") then []
        else [screenLine chosen]).filter (matchesKey key) = [] := by
    split_ifs
    · rfl
    · exact List.filter_cons_of_neg (by rw [hkey]; exact Bool.false_ne_true)
  refine ⟨?_, ?_, ?_⟩
  · rw [Block.body, layoutTail, List.filter_cons_of_pos (by decide), List.filter_append,
      List.filter_append,
      filter_layoutKept fun l h ↦ by rw [h]; rfl, hscreen "Identifier" fun _ ↦ rfl]
    rfl
  · cases hany : (layoutKept body).any (matchesKey "Screen") with
    | true =>
      obtain ⟨l, hl, hkey⟩ := List.any_eq_true.1 hany
      refine ⟨l, .tail _ ?_, hkey⟩
      exact List.mem_append_left _ (List.mem_append_left _ hl)
    | false =>
      refine ⟨screenLine chosen, .tail _ ?_, rfl⟩
      rw [layoutTail, hany]
      exact List.mem_append_left _ (List.mem_append_right _ (.head _))
  · rw [Block.body, layoutTail, List.filter_cons_of_neg (by decide), List.filter_append,
      List.filter_append,
      filter_layoutKept fun l h ↦ by rw [h, Bool.or_true], hscreen "InputDevice" fun _ ↦ rfl]
    rfl

theorem layouts_rewrite (chosen : Line) (blocks : List (Block Line)) :
    ∃ b, (plain (rewriteBlocks chosen (fun _ ↦ false) blocks)).flatMap layouts = [b] ∧
      IsLayout b := by
  refine (flatMap_rewrite layouts (fun bs ↦ ∃ b, bs = [b] ∧ IsLayout b) (k := .layout) (by decide)
    (fun _ ↦ rfl) (fun head body foot hk ↦ ?_)
    (fun seen head body foot hk hs ↦ ?_) (fun seen head body foot hk hs ↦ ?_) ?_ fun _ ↦ false).2 rfl
  · exact if_neg fun h ↦ hk ((kindOf_eq_iff (by decide)).2 h)
  · rw [plain_emit_layout hk, if_pos hs]
    rfl
  · rw [plain_emit_layout hk, hs, if_neg Bool.false_ne_true, List.flatMap_cons, layouts_sect hk]
    exact ⟨_, rfl, isLayout_tail head foot chosen body⟩
  · exact ⟨_, layouts_sect (kindOf_head (by decide)), rfl,
      ⟨screenLine chosen, .tail _ (.head _), rfl⟩, rfl⟩

theorem options_rewrite (hb : b ∈ plain (rewriteBlocks chosen seen blocks))
    (hnamed : b.isNamed "ServerFlags") (o : FlagsOption) :
    b.body.filter (matchesName "Option" o.name) = [o.replacement] := by
  induction blocks generalizing seen with
  | nil =>
    rw [rewriteBlocks, appendedBlocks, plain, List.map_flatMap] at hb
    obtain ⟨k, hk, hb⟩ := List.mem_flatMap.1 hb
    split_ifs at hb
    · exact absurd hb List.not_mem_nil
    · have hb : b ∈ plain (added chosen k) := hb
      rw [plain_added] at hb
      rcases List.mem_cons.1 hb with rfl | hb
      · cases hnamed
      · obtain rfl := List.mem_singleton.1 hb
        obtain rfl : k = .flags := (kindOf_head hk).symm.trans ((kindOf_eq_iff (by decide)).2 hnamed)
        have hall : ∀ o ∈ options, (options.map FlagsOption.replacement).filter
            (matchesName "Option" o.name) = [o.replacement] := by decide
        exact hall o (mem_options o)
  | cons b' blocks ih =>
    rw [rewriteBlocks, plain_append] at hb
    rcases List.mem_append.1 hb with hb | hb
    · cases b' with
      | line l =>
        obtain rfl := List.mem_singleton.1 hb
        cases hnamed
      | sect head body foot =>
        have hhead : kindOf head = .flags := by
          refine (kindOf_eq_iff (by decide)).2 ?_
          rcases plain_emit_sect chosen seen head body foot with h | ⟨body', h⟩
          · rw [h] at hb
            exact absurd hb List.not_mem_nil
          · rw [h] at hb
            obtain rfl := List.mem_singleton.1 hb
            exact hnamed
        rw [plain_emit_flags hhead] at hb
        obtain rfl := List.mem_singleton.1 hb
        rw [← flagSettings_about]
        exact Settings.filter_settled flagSettings_lawful _ body o
    · exact ih hb

end YabroOS.Ports.Xorg
