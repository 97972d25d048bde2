import YabroOS.Ports.XorgCounts

namespace YabroOS.Ports.Xorg

open Lib Function

def Block.kept (seenLayout : Bool) : Block Line → List Line
  | .line l => [l]
  | .sect head body foot =>
    match kindOf head with
    | .files => head :: (body.filter (!matchesKey "ModulePath" ·) ++ [foot])
    | .modules => head :: (body.filter (!matchesName "Load" "Evdev" ·) ++ [foot])
    | .flags =>
      head :: (body.filter (fun l ↦ !options.any fun o ↦ matchesName "Option" o.name l) ++ [foot])
    | .layout => if seenLayout then [] else head :: (layoutKept body ++ [foot])
    | .other => head :: (body ++ [foot])

def keptLines (seenLayout : Bool) : List (Block Line) → List Line
  | [] => []
  | b :: blocks => b.kept seenLayout ++ keptLines (seenLayout || b.isNamed "ServerLayout") blocks

def addedLines (chosen : Line) : List Line :=
  [[], modulePath, loadEvdev, identifierLine, screenLine chosen, keyboardLine, mouseLine,
    endSection] ++ options.map FlagsOption.replacement ++
    kinds.map Kind.head

variable {chosen chosen' l head foot : Line} {body : List Line} {seen : Seen} {k : Kind}
  {b : Block Line} {blocks : List (Block Line)} {p : Line × Bool}

def marked (lines : List (Line × Bool)) : List Line := (lines.filter Prod.snd).map Prod.fst

theorem marked_append (l₁ l₂ : List (Line × Bool)) :
    marked (l₁ ++ l₂) = marked l₁ ++ marked l₂ := by
  rw [marked, List.filter_append, List.map_append]
  rfl

theorem marked_true (l : List Line) : marked (l.map (·, true)) = l := by
  rw [marked, List.filter_eq_self.2 fun p hp ↦ ?_, map_fst_true]
  obtain ⟨l, -, rfl⟩ := List.mem_map.1 hp
  rfl

theorem marked_eq_nil {lines : List (Line × Bool)} (h : ∀ p ∈ lines, p.2 = false) :
    marked lines = [] := by
  rw [marked, List.filter_eq_nil_iff.2 fun p hp ↦ by rw [h p hp]; exact Bool.false_ne_true]
  rfl

theorem marked_sect (head foot : Line) (body : List (Line × Bool)) :
    marked (linesOf [.sect (head, true) body (foot, true)]) = head :: (marked body ++ [foot]) := by
  rw [linesOf, List.flatMap_cons, List.flatMap_nil, List.append_nil, Block.lines,
    ← List.singleton_append, marked_append, marked_append]
  rfl

theorem marked_layoutBody (chosen : Line) (body : List Line) :
    marked (layoutBody chosen body) = layoutKept body := by
  have hscreen : marked (if (layoutKept body).any (matchesKey "Screen") then []
      else [(screenLine chosen, false)]) = [] := by
    split_ifs <;> rfl
  rw [layoutBody, marked_append, marked_append, hscreen, ← List.singleton_append, marked_append,
    marked_true]
  change [] ++ layoutKept body ++ [] ++ [] = _
  rw [List.append_nil, List.append_nil, List.nil_append]

theorem pathSettings_isNone :
    (fun l ↦ (pathSettings.about l).isNone) = (!matchesKey "ModulePath" ·) := by
  funext l
  change (if matchesKey "ModulePath" l = true then some () else none).isNone = _
  cases matchesKey "ModulePath" l <;> rfl

theorem evdevSettings_isNone :
    (fun l ↦ (evdevSettings.about l).isNone) = (!matchesName "Load" "Evdev" ·) := by
  funext l
  change (if matchesName "Load" "Evdev" l = true then some () else none).isNone = _
  cases matchesName "Load" "Evdev" l <;> rfl

theorem flagSettings_isNone :
    (fun l ↦ (flagSettings.about l).isNone) =
      fun l ↦ !options.any fun o ↦ matchesName "Option" o.name l := by
  funext l
  change (options.find? fun o ↦ matchesName "Option" o.name l).isNone = _
  rw [← Option.not_isSome, List.isSome_find?]

theorem marked_emit (chosen : Line) (seen : Seen) (b : Block Line) :
    marked (linesOf (emit chosen seen b)) = b.kept (seen .layout) := by
  cases b with
  | line l => rfl
  | sect head body foot =>
    rw [emit, Block.kept]
    cases hk : kindOf head with
    | files =>
      dsimp only
      rw [marked_sect, marked, Settings.settle_kept, pathSettings_isNone]
    | modules =>
      dsimp only
      rw [marked_sect, marked, Settings.settle_kept, evdevSettings_isNone]
    | flags =>
      dsimp only
      rw [marked_sect, marked, Settings.settle_kept, flagSettings_isNone]
    | layout =>
      dsimp only
      split_ifs
      · rfl
      · rw [marked_sect, marked_layoutBody]
    | other =>
      dsimp only
      rw [marked_sect, marked_true]

theorem marked_added (chosen : Line) (k : Kind) : marked (linesOf (added chosen k)) = [] := by
  refine marked_eq_nil fun p hp ↦ ?_
  rw [added, linesOf, List.flatMap_cons, List.flatMap_cons, List.flatMap_nil, List.append_nil] at hp
  rcases List.mem_append.1 hp with hp | hp
  · rw [List.mem_singleton.1 hp]
  · rcases List.mem_cons.1 hp with rfl | hp
    · rfl
    · rcases List.mem_append.1 hp with hp | hp
      · obtain ⟨l, -, rfl⟩ := List.mem_map.1 hp
        rfl
      · rw [List.mem_singleton.1 hp]

theorem after_layout (seen : Seen) (b : Block Line) :
    seen.after b .layout = (seen .layout || b.isNamed "ServerLayout") := by
  cases b with
  | line l => exact (Bool.or_false _).symm
  | sect head body foot =>
    have hnamed : kindOf head = .layout ↔ matchesName "Section" "ServerLayout" head = true :=
      kindOf_eq_iff (by decide)
    rw [Seen.after, Block.isNamed]
    by_cases hk : kindOf head = .layout
    · rw [hk, update_self, show matchesName "Section" "ServerLayout" head = true from hnamed.1 hk,
        Bool.or_true]
    · have hnot : matchesName "Section" "ServerLayout" head = false :=
        Bool.eq_false_iff.2 fun h ↦ hk (hnamed.2 h)
      rw [update_of_ne (Ne.symm hk), hnot, Bool.or_false]

theorem marked_rewrite (chosen : Line) (seen : Seen) (blocks : List (Block Line)) :
    marked (linesOf (rewriteBlocks chosen seen blocks)) = keptLines (seen .layout) blocks := by
  induction blocks generalizing seen with
  | nil =>
    have hgroup (k : Kind) : marked (linesOf (if seen k then [] else added chosen k)) = [] := by
      split_ifs
      · rfl
      · exact marked_added chosen k
    rw [rewriteBlocks, appendedBlocks, kinds_flatMap, linesOf_append, linesOf_append,
      linesOf_append, marked_append, marked_append,
      marked_append, hgroup, hgroup, hgroup, hgroup]
    rfl
  | cons b blocks ih =>
    rw [rewriteBlocks, linesOf_append, marked_append, marked_emit, ih, after_layout, keptLines]

theorem added_sect {body : List (Line × Bool)}
    (hp : p ∈ linesOf [.sect (head, true) body (foot, true)]) (h : p.2 = false) : p ∈ body := by
  rw [linesOf, List.flatMap_cons, List.flatMap_nil, List.append_nil] at hp
  rcases List.mem_cons.1 hp with rfl | hp
  · cases h
  · rcases List.mem_append.1 hp with hp | hp
    · exact hp
    · rw [List.mem_singleton.1 hp] at h
      cases h

theorem mem_addedLines_left
    (h : l ∈ [[], modulePath, loadEvdev, identifierLine, screenLine chosen, keyboardLine, mouseLine,
      endSection]) :
    l ∈ addedLines chosen := List.mem_append_left _ (List.mem_append_left _ h)

theorem replacement_mem_addedLines (o : FlagsOption) : o.replacement ∈ addedLines chosen :=
  List.mem_append_left _ (List.mem_append_right _ (List.mem_map_of_mem (mem_options o)))

theorem added_emit (hp : p ∈ linesOf (emit chosen seen b)) (h : p.2 = false) :
    p.1 ∈ addedLines chosen := by
  cases b with
  | line l =>
    rw [show p = (l, true) from List.mem_singleton.1 hp] at h
    cases h
  | sect head body foot =>
    rw [emit] at hp
    cases hk : kindOf head with
    | files =>
      rw [hk] at hp
      obtain ⟨i, hi⟩ := Settings.settle_added (added_sect hp h) h
      rw [hi]
      exact mem_addedLines_left (.tail _ (.head _))
    | modules =>
      rw [hk] at hp
      obtain ⟨i, hi⟩ := Settings.settle_added (added_sect hp h) h
      rw [hi]
      exact mem_addedLines_left (.tail _ (.tail _ (.head _)))
    | flags =>
      rw [hk] at hp
      obtain ⟨o, ho⟩ := Settings.settle_added (added_sect hp h) h
      rw [ho]
      exact replacement_mem_addedLines o
    | layout =>
      rw [hk] at hp
      dsimp only at hp
      split_ifs at hp
      · exact absurd hp List.not_mem_nil
      · have hp := added_sect hp h
        rcases List.mem_append.1 hp with hp | hp
        · rcases List.mem_append.1 hp with hp | hp
          · rcases List.mem_cons.1 hp with rfl | hp
            · exact mem_addedLines_left (.tail _ (.tail _ (.tail _ (.head _))))
            · obtain ⟨l, -, rfl⟩ := List.mem_map.1 hp
              cases h
          · split_ifs at hp
            · exact absurd hp List.not_mem_nil
            · rw [List.mem_singleton.1 hp]
              exact mem_addedLines_left (.tail _ (.tail _ (.tail _ (.tail _ (.head _)))))
        · have hlast : ∀ p ∈ [(keyboardLine, false), (mouseLine, false), (([] : Line), false)],
              p.1 = keyboardLine ∨ p.1 = mouseLine ∨ p.1 = [] := by
            decide
          rcases hlast p hp with heq | heq | heq <;> rw [heq]
          · exact mem_addedLines_left (.tail _ (.tail _ (.tail _ (.tail _ (.tail _ (.head _))))))
          · exact mem_addedLines_left
              (.tail _ (.tail _ (.tail _ (.tail _ (.tail _ (.tail _ (.head _)))))))
          · exact mem_addedLines_left (.head _)
    | other =>
      rw [hk] at hp
      obtain ⟨l, -, rfl⟩ := List.mem_map.1 (added_sect hp h)
      cases h

theorem added_rewrite (hp : p ∈ linesOf (rewriteBlocks chosen seen blocks)) (h : p.2 = false) :
    p.1 ∈ addedLines chosen := by
  induction blocks generalizing seen with
  | nil =>
    rw [rewriteBlocks, appendedBlocks, linesOf, List.flatMap_assoc] at hp
    obtain ⟨k, hk, hp⟩ := List.mem_flatMap.1 hp
    split_ifs at hp
    · exact absurd hp List.not_mem_nil
    · have hp : p ∈ linesOf (added chosen k) := hp
      have hline : p.1 ∈ linesOf (plain (added chosen k)) := by
        rw [linesOf_plain]
        exact List.mem_map_of_mem hp
      rw [plain_added, linesOf, List.flatMap_cons, List.flatMap_cons, List.flatMap_nil,
        List.append_nil] at hline
      rcases List.mem_append.1 hline with heq | hline
      · rw [List.mem_singleton.1 heq]
        exact mem_addedLines_left (.head _)
      rcases List.mem_cons.1 hline with heq | hline
      · rw [heq]
        exact List.mem_append_right _ (List.mem_map_of_mem hk)
      rcases List.mem_append.1 hline with hline | hline
      · cases k with
        | files =>
          rw [List.mem_singleton.1 hline]
          exact mem_addedLines_left (.tail _ (.head _))
        | modules =>
          rw [List.mem_singleton.1 hline]
          exact mem_addedLines_left (.tail _ (.tail _ (.head _)))
        | flags =>
          obtain ⟨o, -, heq⟩ := List.mem_map.1 hline
          rw [← heq]
          exact replacement_mem_addedLines o
        | layout =>
          refine mem_addedLines_left (.tail _ (.tail _ (.tail _ ?_)))
          exact List.mem_append_left [endSection] hline
        | other => exact absurd hk (by decide)
      · rw [List.mem_singleton.1 hline]
        exact mem_addedLines_left
          (.tail _ (.tail _ (.tail _ (.tail _ (.tail _ (.tail _ (.tail _ (.head _))))))))
  | cons b blocks ih =>
    rw [rewriteBlocks, linesOf_append] at hp
    rcases List.mem_append.1 hp with hp | hp
    · exact added_emit hp h
    · exact ih hp

def nonblank (lines : List Line) : List Line := lines.filter (· ≠ [])

theorem nonblank_append (l₁ l₂ : List Line) : nonblank (l₁ ++ l₂) = nonblank l₁ ++ nonblank l₂ :=
  List.filter_append _ _

def Fixed (chosen : Line) (seen : Seen) (b : Block Line) : Prop :=
  nonblank (linesOf (plain (emit chosen seen b))) = nonblank b.lines

def AllFixed (chosen : Line) : Seen → List (Block Line) → Prop
  | seen, [] => appendedBlocks chosen seen = []
  | seen, b :: blocks => Fixed chosen seen b ∧ AllFixed chosen (seen.after b) blocks

theorem AllFixed.rewrite (h : AllFixed chosen seen blocks) :
    nonblank (linesOf (plain (rewriteBlocks chosen seen blocks))) = nonblank (linesOf blocks) := by
  induction blocks generalizing seen with
  | nil =>
    rw [rewriteBlocks, h]
    rfl
  | cons b blocks ih =>
    have hcons : linesOf (b :: blocks) = b.lines ++ linesOf blocks := List.flatMap_cons
    rw [rewriteBlocks, plain_append, linesOf_append, nonblank_append, ih h.2, h.1, hcons,
      nonblank_append]

theorem fixed_line (chosen : Line) (seen : Seen) (l : Line) : Fixed chosen seen (.line l) := rfl

theorem nonblank_sect (head foot : Line) (body : List Line) :
    nonblank (Block.sect head body foot).lines =
      nonblank [head] ++ (nonblank body ++ nonblank [foot]) := by
  rw [Block.lines, ← List.singleton_append, nonblank_append, nonblank_append]

theorem linesOf_singleton {α : Type} (b : Block α) : linesOf [b] = b.lines := List.append_nil _

theorem fixed_files (hk : kindOf head = .files)
    (h : pathSettings.settled (fun _ ↦ seen .files) body = body) :
    Fixed chosen seen (.sect head body foot) := by
  rw [Fixed, plain_emit_files hk, h, linesOf_singleton]

theorem fixed_modules (hk : kindOf head = .modules)
    (h : evdevSettings.settled (fun _ ↦ seen .modules) body = body) :
    Fixed chosen seen (.sect head body foot) := by
  rw [Fixed, plain_emit_modules hk, h, linesOf_singleton]

theorem fixed_flags (hk : kindOf head = .flags)
    (h : flagSettings.settled (fun _ ↦ false) body = body) :
    Fixed chosen seen (.sect head body foot) := by
  rw [Fixed, plain_emit_flags hk, h, linesOf_singleton]

theorem fixed_layout (hk : kindOf head = .layout) (hs : seen .layout = false)
    (h : nonblank (layoutTail chosen false (identifierLine :: body)) = nonblank body) :
    Fixed chosen seen (.sect head (identifierLine :: body) foot) := by
  have hcons (body : List Line) : nonblank (identifierLine :: body) = [identifierLine] ++
      nonblank body := nonblank_append [identifierLine] body
  rw [Fixed, plain_emit_layout hk, hs, if_neg Bool.false_ne_true, linesOf_singleton, nonblank_sect,
    nonblank_sect, hcons, hcons, h]

theorem layoutTail_twice (chosen chosen' : Line) (body : List Line) :
    nonblank (layoutTail chosen' false (identifierLine :: layoutTail chosen false body)) =
      nonblank (layoutTail chosen false body) := by
  have happend (l₁ l₂ : List Line) : layoutKept (l₁ ++ l₂) = layoutKept l₁ ++ layoutKept l₂ :=
    List.filter_append _ _
  have hkept : layoutKept (layoutKept body) = layoutKept body := by
    rw [layoutKept, layoutKept, List.filter_filter]
    simp only [Bool.and_self]
  have hscreen : layoutKept (if false || (layoutKept body).any (matchesKey "Screen") then []
      else [screenLine chosen]) =
      if false || (layoutKept body).any (matchesKey "Screen") then [] else [screenLine chosen] := by
    split_ifs <;> rfl
  have hagain : layoutKept (identifierLine :: layoutTail chosen false body) =
      layoutKept body ++ (if false || (layoutKept body).any (matchesKey "Screen") then []
        else [screenLine chosen]) ++ [[]] := by
    have hident : layoutKept [identifierLine] = [] := by decide
    have hlast : layoutKept [keyboardLine, mouseLine, []] = [[]] := by decide
    rw [← List.singleton_append, happend, hident, List.nil_append, layoutTail, happend, happend,
      hkept, hscreen, hlast]
  have hany : (layoutKept (identifierLine :: layoutTail chosen false body)).any
      (matchesKey "Screen") = true := by
    rw [hagain, List.any_append, List.any_append]
    cases hs : (layoutKept body).any (matchesKey "Screen") with
    | true => rfl
    | false => rfl
  have hblank : nonblank [([] : Line)] = [] := rfl
  conv_lhs => rw [layoutTail, hany, Bool.or_true, if_pos rfl, List.append_nil, hagain]
  conv_rhs => rw [layoutTail]
  rw [nonblank_append, nonblank_append, nonblank_append _ [keyboardLine, mouseLine, []], hblank,
    List.append_nil]

theorem AllFixed.emit (b : Block Line) {rest : List (Block Line)}
    (hrest : AllFixed chosen' (seen.after b) rest) :
    AllFixed chosen' seen (plain (Xorg.emit chosen seen b) ++ rest) := by
  cases b with
  | line l => exact ⟨fixed_line chosen' seen l, hrest⟩
  | sect head body foot =>
    cases hk : kindOf head with
    | files =>
      rw [plain_emit_files hk]
      exact ⟨fixed_files hk (Settings.settled_settled pathSettings_lawful _ body), hrest⟩
    | modules =>
      rw [plain_emit_modules hk]
      exact ⟨fixed_modules hk (Settings.settled_settled evdevSettings_lawful _ body), hrest⟩
    | flags =>
      rw [plain_emit_flags hk]
      exact ⟨fixed_flags hk (Settings.settled_settled flagSettings_lawful _ body), hrest⟩
    | layout =>
      rw [plain_emit_layout hk]
      split_ifs with hs
      · have hsame : seen.after (.sect head body foot) = seen := by
          rw [Seen.after, hk, ← hs, update_eq_self]
        rwa [hsame] at hrest
      · exact ⟨fixed_layout hk (Bool.eq_false_iff.2 hs) (layoutTail_twice chosen chosen' body),
          hrest⟩
    | other =>
      rw [plain_emit_other hk]
      refine ⟨?_, hrest⟩
      rw [Fixed, plain_emit_other hk, linesOf_singleton]

theorem fixed_added (hk : k ∈ kinds) (hs : seen k = false) :
    Fixed chosen' seen (.sect k.head (k.addedBody chosen) endSection) := by
  have hhead := kindOf_head hk
  cases k with
  | files =>
    refine fixed_files hhead ?_
    rw [hs]
    exact (by decide : pathSettings.settled (fun _ ↦ false) [modulePath] = [modulePath])
  | modules =>
    refine fixed_modules hhead ?_
    rw [hs]
    exact (by decide : evdevSettings.settled (fun _ ↦ false) [loadEvdev] = [loadEvdev])
  | flags =>
    refine fixed_flags hhead ?_
    exact (by decide : flagSettings.settled (fun _ ↦ false)
      (options.map FlagsOption.replacement) = options.map FlagsOption.replacement)
  | layout => exact fixed_layout hhead hs rfl
  | other => exact absurd hk (by decide)

theorem AllFixed.missing (chosen : Line) (hk : k ∈ kinds) {rest : List (Block Line)}
    (h : AllFixed chosen' (update seen k true) rest) :
    AllFixed chosen' seen (plain (if seen k then [] else added chosen k) ++ rest) := by
  cases hs : seen k with
  | true =>
    rw [← hs, update_eq_self] at h
    exact h
  | false =>
    rw [if_neg Bool.false_ne_true, plain_added]
    refine ⟨fixed_line chosen' seen [], fixed_added hk hs, ?_⟩
    change AllFixed chosen' (update seen (kindOf k.head) true) rest
    rwa [kindOf_head hk]

theorem allFixed_rewrite (chosen chosen' : Line) (seen : Seen) (blocks : List (Block Line)) :
    AllFixed chosen' seen (plain (rewriteBlocks chosen seen blocks)) := by
  induction blocks generalizing seen with
  | nil =>
    have hall : AllFixed chosen'
        (update (update (update (update seen .files true) .modules true) .flags true) .layout true)
          [] := by
      rw [AllFixed, appendedBlocks, kinds_flatMap]
      rfl
    have hlayout := AllFixed.missing chosen (k := .layout) (by decide) hall
    have hflags := AllFixed.missing chosen (k := .flags) (by decide) hlayout
    have hmodules := AllFixed.missing chosen (k := .modules) (by decide) hflags
    have hfiles := AllFixed.missing chosen (k := .files) (by decide) hmodules
    rw [List.append_nil] at hfiles
    rw [rewriteBlocks, appendedBlocks, kinds_flatMap, plain_append, plain_append, plain_append]
    exact hfiles
  | cons b blocks ih =>
    rw [rewriteBlocks, plain_append]
    exact AllFixed.emit b (ih _)

def sectioned : Bool → List Line → Bool
  | inside, [] => !inside
  | false, l :: lines => sectioned (isSection l) lines
  | true, l :: lines => !isSection l && sectioned (!isEnd l) lines

theorem exists_blocks (lines : List Line) :
    (sectioned false lines → ∃ blocks, linesOf blocks = lines ∧ ∀ b ∈ blocks, b.WellFormed) ∧
      (sectioned true lines → ∃ body foot blocks, body ++ foot :: linesOf blocks = lines ∧
        (∀ l ∈ body, isSection l = false ∧ isEnd l = false) ∧ isEnd foot ∧
          ∀ b ∈ blocks, b.WellFormed) := by
  induction lines with
  | nil =>
    exact ⟨fun _ ↦ ⟨[], rfl, fun _ h ↦ absurd h List.not_mem_nil⟩,
      fun h ↦ absurd h Bool.false_ne_true⟩
  | cons l lines ih =>
    refine ⟨fun h ↦ ?_, fun h ↦ ?_⟩
    · rw [sectioned] at h
      cases hl : isSection l with
      | false =>
        rw [hl] at h
        obtain ⟨blocks, rfl, hb⟩ := ih.1 h
        refine ⟨.line l :: blocks, rfl, fun b hmem ↦ ?_⟩
        rcases List.mem_cons.1 hmem with rfl | hmem
        · exact hl
        · exact hb b hmem
      | true =>
        rw [hl] at h
        obtain ⟨body, foot, blocks, rfl, hbody, hfoot, hb⟩ := ih.2 h
        refine ⟨.sect l body foot :: blocks, ?_, fun b hmem ↦ ?_⟩
        · change l :: (body ++ [foot]) ++ linesOf blocks = _
          rw [List.cons_append, List.append_assoc]
          rfl
        · rcases List.mem_cons.1 hmem with rfl | hmem
          · exact ⟨hl, hbody, hfoot⟩
          · exact hb b hmem
    · rw [sectioned, Bool.and_eq_true, Bool.not_eq_true'] at h
      cases hl : isEnd l with
      | true =>
        rw [hl] at h
        obtain ⟨blocks, rfl, hb⟩ := ih.1 h.2
        exact ⟨[], l, blocks, rfl, fun _ hmem ↦ absurd hmem List.not_mem_nil, hl, hb⟩
      | false =>
        rw [hl] at h
        obtain ⟨body, foot, blocks, rfl, hbody, hfoot, hb⟩ := ih.2 h.2
        refine ⟨l :: body, foot, blocks, rfl, fun l' hmem ↦ ?_, hfoot, hb⟩
        rcases List.mem_cons.1 hmem with rfl | hmem
        · exact ⟨h.1, hl⟩
        · exact hbody l' hmem

/-- What the rewrite makes of the blocks of a configuration. -/
structure IsRewrite (chosen : Line) (blocks : List (Block Line)) (lines : List Line)
    (out : List (Block Line)) : Prop where
  wellFormed : ∀ b ∈ out, b.WellFormed
  layout : ∃ b, out.flatMap layouts = [b] ∧ IsLayout b
  modulePath : out.flatMap modulePaths = [modulePath]
  evdev : out.flatMap evdevLoads = [loadEvdev]
  options : ∀ b ∈ out, b.isNamed "ServerFlags" →
    ∀ o : FlagsOption, b.body.filter (matchesName "Option" o.name) = [o.replacement]
  others : ∃ p : List (Line × Bool), p.map Prod.fst = lines ∧ marked p = keptLines false blocks ∧
    ∀ l ∈ p, l.2 = false → l.1 ∈ addedLines chosen
  again : ∀ chosen', nonblank (transformLayout lines chosen') = nonblank lines

/-- A configuration whose sections are closed and not nested gets one layout of its own, its module
path and driver once and its options in each section, keeps its other lines in their order, and
changes no more when it is rewritten again. -/
theorem transformLayout_rewrites {lines : List Line} (h : sectioned false lines) (chosen : Line) :
    ∃ blocks out, linesOf blocks = lines ∧ (∀ b ∈ blocks, b.WellFormed) ∧
      linesOf out = transformLayout lines chosen ∧
      IsRewrite chosen blocks (transformLayout lines chosen) out := by
  obtain ⟨blocks, rfl, hb⟩ := (exists_blocks lines).1 h
  have hlines := transformLayout_eq hb chosen
  have hout := hlines
  rw [← linesOf_plain] at hout
  have hwell := wellFormed_rewrite chosen (fun _ ↦ false) hb
  refine ⟨blocks, plain (rewriteBlocks chosen (fun _ ↦ false) blocks), rfl, hb, hout.symm, hwell,
    layouts_rewrite chosen blocks,
    modulePaths_rewrite chosen blocks, evdevLoads_rewrite chosen blocks, fun b hmem hnamed o ↦
      options_rewrite hmem hnamed o,
    ⟨_, hlines.symm, marked_rewrite chosen _ blocks, fun p hp hmark ↦ added_rewrite hp hmark⟩,
    fun chosen' ↦ ?_⟩
  rw [hout, transformLayout_eq hwell, ← linesOf_plain]
  exact (allFixed_rewrite chosen chosen' _ blocks).rewrite

theorem transformLayout_rewrites_twoLayouts : ∃ blocks out,
    linesOf blocks = ["Section \"ServerLayout\"".toList, "EndSection".toList,
      "section \"serverlayout\"".toList, "EndSection".toList] ∧
      (∀ b ∈ blocks, b.WellFormed) ∧
      linesOf out = transformLayout ["Section \"ServerLayout\"".toList, "EndSection".toList,
        "section \"serverlayout\"".toList,
        "EndSection".toList] "Screen0".toList ∧
      IsRewrite "Screen0".toList blocks
        (transformLayout ["Section \"ServerLayout\"".toList, "EndSection".toList,
        "section \"serverlayout\"".toList, "EndSection".toList] "Screen0".toList) out :=
  transformLayout_rewrites (by decide) _

end YabroOS.Ports.Xorg
