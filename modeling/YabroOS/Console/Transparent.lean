import YabroOS.Console.Bounds

namespace YabroOS.Console

open Lib Framebuffer

namespace Tty

variable {font : Font} {fb : Framebuffer} {t t' u : Tty}

/-- Everything but when the cursor blinks and what it is drawn over. -/
structure SamePicture (t t' : Tty) : Prop where
  pixels : t.pixels = t'.pixels
  col : t.consoleCol = t'.consoleCol
  row : t.consoleRow = t'.consoleRow
  enabled : t.cursorEnabled = t'.cursorEnabled
  state : t.ansiState = t'.ansiState
  params : t.ansiParams = t'.ansiParams
  count : t.ansiParamCount = t'.ansiParamCount
  priv : t.ansiPrivate = t'.ansiPrivate
  savedCol : t.savedCol = t'.savedCol
  savedRow : t.savedRow = t'.savedRow

structure Related (t t' : Tty) : Prop where
  left : t.cursorVisible = false
  right : t'.cursorVisible = false
  same : SamePicture t t'

theorem Related.refl (h : t.cursorVisible = false) : Related t t :=
  ⟨h, h, rfl, rfl, rfl, rfl, rfl, rfl, rfl, rfl, rfl, rfl⟩

theorem Related.symm (h : Related t t') : Related t' t where
  left := h.right
  right := h.left
  same := ⟨h.same.pixels.symm, h.same.col.symm, h.same.row.symm, h.same.enabled.symm,
    h.same.state.symm,
    h.same.params.symm, h.same.count.symm, h.same.priv.symm, h.same.savedCol.symm,
    h.same.savedRow.symm⟩

def withCursor (t : Tty) (phase : Bool) (col row : ℕ) (pixels : Vector UInt32 8) : Tty :=
  { t with
    cursorPhase := phase, cursorSavedCol := col, cursorSavedRow := row
    cursorSavedPixels := pixels }

theorem related_withCursor (h : t.cursorVisible = false) (phase : Bool) (col row : ℕ)
    (pixels : Vector UInt32 8) : Related t (t.withCursor phase col row pixels) :=
  ⟨h, h, rfl, rfl, rfl, rfl, rfl, rfl, rfl, rfl, rfl, rfl⟩

theorem Related.eq_withCursor (h : Related t t') :
    t' = t.withCursor t'.cursorPhase t'.cursorSavedCol t'.cursorSavedRow t'.cursorSavedPixels := by
  obtain ⟨hv, hv', hp, hc, hr, he, hs, hps, hn, hpr, hsc, hsr⟩ := h
  cases t
  cases t'
  dsimp only at hv hv' hp hc hr he hs hps hn hpr hsc hsr
  subst hv hv' hp hc hr he hs hps hn hpr hsc hsr
  rfl

theorem Related.trans (h : Related t t') (h' : Related t' u) : Related t u := by
  rw [h'.eq_withCursor, h.eq_withCursor]
  exact ⟨h.left, h.left, rfl, rfl, rfl, rfl, rfl, rfl, rfl, rfl, rfl, rfl⟩

def Agree : Option Tty → Option Tty → Prop
  | some t, some t' => Related t t'
  | none, none => True
  | _, _ => False

theorem Agree.bind {x y : Option Tty} {f g : Tty → Option Tty} (h : Agree x y)
    (hf : ∀ t t', Related t t' → Agree (f t) (g t')) : Agree (x >>= f) (y >>= g) := by
  cases x <;> cases y
  · trivial
  · exact h.elim
  · exact h.elim
  · exact hf _ _ h

theorem agree_bind_same {α : Type} {x : Option α} {f g : α → Option Tty}
    (hf : ∀ a, Agree (f a) (g a)) : Agree (x >>= f) (x >>= g) := by
  cases x with
  | none => trivial
  | some a => exact hf a

theorem agree_withCursor (t : Tty) (phase : Bool) (col row : ℕ) (pixels : Vector UInt32 8)
    (h : t.cursorVisible = false) :
    Agree (some t) (some (t.withCursor phase col row pixels)) :=
  related_withCursor h phase col row pixels

theorem agree_ite {c : Prop} {d d' : Decidable c} {x x' y y' : Option Tty} (h₁ : c → Agree x x')
    (h₂ : ¬ c → Agree y y') : Agree (@ite _ c d x y) (@ite _ c d' x' y') := by
  by_cases hc : c
  · rw [if_pos hc, if_pos hc]
    exact h₁ hc
  · rw [if_neg hc, if_neg hc]
    exact h₂ hc

theorem agree_some_ite {c : Prop} {d d' : Decidable c} {x x' y y' : Tty}
    (h₁ : Agree (some x) (some x')) (h₂ : Agree (some y) (some y')) :
    Agree (some (@ite _ c d x y)) (some (@ite _ c d' x' y')) := by
  by_cases hc : c
  · rwa [if_pos hc, if_pos hc]
  · rwa [if_neg hc, if_neg hc]

def Blind (f : Tty → Option Tty) : Prop := ∀ t t', Related t t' → Agree (f t) (f t')

theorem blind_of {f : Tty → Option Tty}
    (h : ∀ t phase col row pixels, t.cursorVisible = false →
      Agree (f t) (f (t.withCursor phase col row pixels))) : Blind f := by
  intro t t' ht
  rw [ht.eq_withCursor]
  exact h t _ _ _ _ ht.left

theorem blind_paint (f : Pixels → Option Pixels) : Blind (paint f) :=
  blind_of fun _ _ _ _ _ h ↦ agree_bind_same fun _ ↦ agree_withCursor _ _ _ _ _ h

theorem blind_forRange {body : ℕ → Tty → Option Tty} (hbody : ∀ i, Blind (body i)) (lo hi : ℕ) :
    Blind (forRange lo hi body) := by
  intro t t' h
  rw [forRange, forRange]
  generalize List.range' lo (hi - lo) = l
  induction l generalizing t t' with
  | nil => exact h
  | cons i l ih =>
    rw [List.foldlM_cons, List.foldlM_cons]
    exact (hbody i t t' h).bind ih

theorem restore_hidden (h : t.cursorVisible = false) : ttyCursorRestore fb t = some t := by
  rw [ttyCursorRestore, if_pos (by rw [h]; rfl)]

theorem blind_setMode (cols rows : ℕ) (enable : Bool) (i : ℕ) :
    Blind (setMode font fb cols rows enable i) := by
  refine blind_of fun t phase col row pixels h ↦ agree_bind_same fun param ↦ ?_
  have hclear := blind_paint (Framebuffer.ttyClearScreen font fb cols rows) t _
    (related_withCursor h phase col row pixels)
  dsimp only
  split_ifs
  · rw [restore_hidden (by exact h), restore_hidden (by exact h)]
    exact agree_withCursor _ _ _ _ _ h
  · exact agree_withCursor _ _ _ _ _ h
  · refine hclear.bind fun a b hab ↦ ?_
    rw [hab.eq_withCursor]
    exact agree_withCursor _ _ _ _ _ hab.left
  · refine hclear.bind fun a b hab ↦ ?_
    rw [hab.eq_withCursor]
    exact agree_withCursor _ _ _ _ _ hab.left
  · exact agree_withCursor _ _ _ _ _ h

theorem blind_csiExecute (cols rows : ℕ) (finalByte : UInt8) :
    Blind (ttyCsiExecute font fb cols rows finalByte) := by
  refine blind_of fun t phase col row pixels h ↦ ?_
  have hrel := related_withCursor h phase col row pixels
  have hpaint : ∀ f, Agree (paint f t) (paint f (t.withCursor phase col row pixels)) :=
    fun f ↦ blind_paint f t _ hrel
  rw [ttyCsiExecute, ttyCsiExecute]
  refine agree_bind_same fun n ↦ ?_
  generalize Char.ofNat finalByte.toNat = final
  -- the cases are those of the final byte, and within `J` and `K` those of the first parameter
  split
  case h_9 => exact agree_bind_same fun m ↦ agree_withCursor _ _ _ _ _ h
  case h_10 => exact agree_bind_same fun m ↦ agree_withCursor _ _ _ _ _ h
  case h_11 =>
    dsimp only [withCursor] at hpaint ⊢
    split
    · exact (hpaint _).bind
        (blind_of fun t _ _ _ _ h ↦ blind_paint _ _ _ (related_withCursor h _ _ _ _))
    · exact (hpaint _).bind
        (blind_of fun t _ _ _ _ h ↦ blind_paint _ _ _ (related_withCursor h _ _ _ _))
    · exact hpaint _
    · exact hpaint _
    · exact hrel
  case h_12 =>
    dsimp only [withCursor] at hpaint ⊢
    split
    · exact hpaint _
    · exact hpaint _
    · exact hpaint _
    · exact hrel
  case h_13 => exact hpaint _
  case h_14 => exact hpaint _
  case h_15 => exact hpaint _
  case h_16 => exact hpaint _
  case h_17 => exact hpaint _
  case h_18 => exact hpaint _
  case h_19 => exact hpaint _
  case h_22 =>
    refine agree_ite (fun _ ↦ (blind_forRange (blind_setMode cols rows _) _ _ _ _ hrel).bind ?_)
      fun _ ↦ hrel
    exact blind_of fun t _ _ _ _ h ↦
      agree_some_ite (agree_withCursor _ _ _ _ _ h) (agree_withCursor _ _ _ _ _ h)
  case h_23 =>
    refine agree_ite (fun _ ↦ (blind_forRange (blind_setMode cols rows _) _ _ _ _ hrel).bind ?_)
      fun _ ↦ hrel
    exact blind_of fun t _ _ _ _ h ↦
      agree_some_ite (agree_withCursor _ _ _ _ _ h) (agree_withCursor _ _ _ _ _ h)
  all_goals exact agree_withCursor _ _ _ _ _ h

theorem blind_putcEscape (cols rows : ℕ) (ch : UInt8) :
    Blind (putcEscape font fb cols rows ch) := by
  refine blind_of fun t phase col row pixels h ↦ ?_
  rw [putcEscape, putcEscape]
  generalize Char.ofNat ch.toNat = c
  dsimp only
  split
  case h_17 => exact agree_bind_same fun _ ↦ agree_bind_same fun _ ↦ agree_withCursor _ _ _ _ _ h
  case h_18 =>
    refine (blind_paint _ _ _
      (agree_withCursor { t with ansiState := .ground } phase col row pixels h)).bind ?_
    exact blind_of fun t _ _ _ _ h ↦ agree_withCursor _ _ _ _ _ h
  case h_22 => split_ifs <;> exact agree_withCursor _ _ _ _ _ h
  all_goals exact agree_withCursor _ _ _ _ _ h

theorem blind_putcCsi (cols rows : ℕ) (ch : UInt8) : Blind (putcCsi font fb cols rows ch) := by
  refine blind_of fun t phase col row pixels h ↦ ?_
  have hcsi := @blind_csiExecute font fb cols rows ch t _ (related_withCursor h phase col row pixels)
  have hsame := agree_withCursor t phase col row pixels h
  refine agree_ite (fun _ ↦ ?_) fun _ ↦ ?_
  · have hidx : min (t.ansiParamCount - 1) 7 < 8 := by omega
    dsimp only
    rw [dif_pos hidx, dif_pos (by exact hidx)]
    exact agree_withCursor _ _ _ _ _ h
  refine agree_ite (fun _ ↦ agree_some_ite (agree_withCursor _ _ _ _ _ h) hsame) fun _ ↦ ?_
  refine agree_ite (fun _ ↦ agree_withCursor _ _ _ _ _ h) fun _ ↦ ?_
  refine agree_ite (fun _ ↦ hsame) fun _ ↦ ?_
  refine agree_ite (fun _ ↦ ?_) fun _ ↦ ?_
  · exact hcsi.bind (blind_of fun t _ _ _ _ h ↦ agree_withCursor _ _ _ _ _ h)
  · exact agree_ite (fun _ ↦ hsame) fun _ ↦ agree_withCursor _ _ _ _ _ h

theorem blind_putcGround (cols rows : ℕ) (ch : UInt8) :
    Blind (putcGround font fb cols rows ch) := by
  refine blind_of fun t phase col row pixels h ↦ ?_
  have hrel := related_withCursor h phase col row pixels
  have hsame := agree_withCursor t phase col row pixels h
  have hback :=
    related_withCursor (t := { t with consoleCol := t.consoleCol - 1 }) h phase col row pixels
  refine agree_ite (fun _ ↦ agree_withCursor _ _ _ _ _ h) fun _ ↦ ?_
  refine agree_ite (fun _ ↦ agree_withCursor _ _ _ _ _ h) fun _ ↦ ?_
  refine agree_ite (fun _ ↦ agree_withCursor _ _ _ _ _ h) fun _ ↦ ?_
  refine agree_ite (fun _ ↦ agree_bind_same fun _ ↦ agree_withCursor _ _ _ _ _ h) fun _ ↦ ?_
  refine agree_ite (fun _ ↦ agree_ite (fun _ ↦ blind_paint _ _ _ hback) fun _ ↦ hrel) fun _ ↦ ?_
  refine agree_ite (fun _ ↦ hrel) fun _ ↦ ?_
  have hnext : Blind fun t ↦ some (
      if cols ≤ t.consoleCol + 1 then { t with consoleCol := 0, consoleRow := t.consoleRow + 1 }
      else { t with consoleCol := t.consoleCol + 1 }) :=
    blind_of fun t _ _ _ _ h ↦
      agree_some_ite (agree_withCursor _ _ _ _ _ h) (agree_withCursor _ _ _ _ _ h)
  exact agree_ite (fun _ ↦ (blind_paint _ _ _ hrel).bind hnext) fun _ ↦ hsame.bind hnext

theorem blind_putcAnsi (cols rows : ℕ) (ch : UInt8) : Blind (putcAnsi font fb cols rows ch) := by
  refine blind_of fun t phase col row pixels h ↦ ?_
  have hrel := related_withCursor h phase col row pixels
  have hescape := @blind_putcEscape font fb cols rows ch t _ hrel
  have hcsi := @blind_putcCsi font fb cols rows ch t _ hrel
  have hground := @blind_putcGround font fb cols rows ch t _ hrel
  rw [putcAnsi, putcAnsi]
  dsimp only [withCursor] at hrel hescape hcsi hground ⊢
  split
  · exact hescape
  · exact hcsi
  · exact agree_withCursor _ _ _ _ _ h
  · split_ifs
    · exact agree_withCursor _ _ _ _ _ h
    · exact agree_withCursor _ _ _ _ _ h
    · exact hrel
  · split_ifs
    · exact agree_withCursor _ _ _ _ _ h
    · exact agree_withCursor _ _ _ _ _ h
    · exact hrel
  · exact hground

theorem blind_putcScroll (cols rows : ℕ) : Blind (putcScroll fb cols rows) := by
  refine blind_of fun t phase col row pixels h ↦ ?_
  have hrel := related_withCursor h phase col row pixels
  refine agree_ite (fun _ ↦ (blind_paint _ _ _ hrel).bind (blind_of fun t _ _ _ _ h ↦ ?_)) fun _ ↦
    hrel
  exact agree_bind_same fun _ ↦ agree_withCursor _ _ _ _ _ h

end Tty

def Framebuffer.cursorOffset (fb : Framebuffer) (col row y x : ℕ) : ℕ :=
  (row * cellH + (cellH - 1) + y) * fb.pitchPixels + (col * cellW + x)

theorem cursorOffset_inj {fb : Framebuffer} {col row y x x' : ℕ}
    (h : fb.cursorOffset col row y x = fb.cursorOffset col row y x') :
    x = x' := by
  rw [cursorOffset, cursorOffset] at h
  omega

def drawPixel (fb : Framebuffer) (col row y x : ℕ) :
    Pixels × Vector UInt32 8 → Option (Pixels × Vector UInt32 8)
  | (px, saved) => do
    let off := fb.cursorOffset col row y x
    let pixel ← fb.readPixel off px
    let saved ← if h : y * cellW + x < 8 then some (saved.set (y * cellW + x) pixel) else none
    let px ← fb.writePixel off 0x00FFFFFF px
    some (px, saved)

def restorePixel (fb : Framebuffer) (saved : Vector UInt32 8) (col row y x : ℕ) (px : Pixels) :
    Option Pixels := do
  let pixel ← saved[y * cellW + x]?
  fb.writePixel (fb.cursorOffset col row y x) pixel px

section Loops

variable {fb : Framebuffer} {col row n : ℕ} {px : Pixels} {s s' : Pixels × Vector UInt32 8}

theorem forRange_one {σ : Type} (body : ℕ → σ → Option σ) (s : σ) :
    forRange 0 1 body s = body 0 s := by
  rw [forRange, List.range'_one, List.foldlM_cons]
  exact bind_pure (body 0 s)

/-- The first `n` pixels are saved, and the others of the screen are as they were. -/
structure Drawn (fb : Framebuffer) (col row : ℕ) (px : Pixels) (n : ℕ)
    (s : Pixels × Vector UInt32 8) : Prop where
  inside : ∀ x < n, fb.Inside (fb.cursorOffset col row 0 x)
  rest : ∀ o, (∀ x < n, o ≠ fb.cursorOffset col row 0 x) → s.1 o = px o
  saved : ∀ x (h : x < 8), x < n → s.2[x] = px (fb.cursorOffset col row 0 x)

theorem drawPixel_eq (hn : n < 8) (hin : fb.Inside (fb.cursorOffset col row 0 n)) :
    drawPixel fb col row 0 n s = some (Function.update s.1 (fb.cursorOffset col row 0 n) 0x00FFFFFF,
      s.2.set n (s.1 (fb.cursorOffset col row 0 n))) := by
  obtain ⟨px, saved⟩ := s
  have hidx : 0 * cellW + n < 8 := by omega
  simp only [drawPixel, readPixel, writePixel, if_pos hin, dif_pos hidx, Option.bind_eq_bind,
    Option.bind_some]
  simp only [Nat.zero_mul, Nat.zero_add]

theorem inside_of_drawPixel (h : drawPixel fb col row 0 n s = some s') :
    fb.Inside (fb.cursorOffset col row 0 n) := by
  by_contra hout
  obtain ⟨px, saved⟩ := s
  rw [drawPixel, readPixel, if_neg hout] at h
  cases h

theorem Drawn.step (hs : Drawn fb col row px n s) (hn : n < 8)
    (hin : fb.Inside (fb.cursorOffset col row 0 n)) :
    Drawn fb col row px (n + 1) (Function.update s.1 (fb.cursorOffset col row 0 n) 0x00FFFFFF,
      s.2.set n (s.1 (fb.cursorOffset col row 0 n))) where
  inside x hx := by
    obtain hx | rfl := Nat.lt_succ_iff_lt_or_eq.1 hx
    · exact hs.inside x hx
    · exact hin
  rest o ho := by
    dsimp only
    rw [Function.update_of_ne (ho n (Nat.lt_succ_self n))]
    exact hs.rest o fun x hx ↦ ho x (Nat.lt_succ_of_lt hx)
  saved x h hx := by
    obtain hx | rfl := Nat.lt_succ_iff_lt_or_eq.1 hx
    · rw [Vector.getElem_set_ne _ _ (by omega)]
      exact hs.saved x h hx
    · rw [Vector.getElem_set_self]
      refine hs.rest _ fun x' hx' heq ↦ ?_
      have := cursorOffset_inj heq
      omega

theorem drawn_zero (saved : Vector UInt32 8) : Drawn fb col row px 0 (px, saved) where
  inside x hx := absurd hx (Nat.not_lt_zero x)
  rest _ _ := rfl
  saved x _ hx := absurd hx (Nat.not_lt_zero x)

theorem drawn_of_eq {saved : Vector UInt32 8}
    (h : forRange 0 1 (fun y ↦ forRange 0 cellW (drawPixel fb col row y)) (px, saved) = some s) :
    Drawn fb col row px 8 s := by
  rw [forRange_one] at h
  refine Yields.of_forRange_eq (Nat.zero_le _) (fun n _ hn s s' hs hs' ↦ ?_) (drawn_zero saved) h
  have hin := inside_of_drawPixel hs'
  rw [drawPixel_eq hn hin] at hs'
  obtain rfl := Option.some.inj hs'
  exact hs.step hn hin

theorem drawn_of_inside (saved : Vector UInt32 8)
    (hin : ∀ x < 8, fb.Inside (fb.cursorOffset col row 0 x)) :
    Yields (forRange 0 1 (fun y ↦ forRange 0 cellW (drawPixel fb col row y)) (px, saved))
    (Drawn fb col row px 8) := by
  rw [forRange_one]
  refine Yields.forRange_index (Nat.zero_le _) (fun n _ hn s hs ↦ ?_) (drawn_zero saved)
  rw [drawPixel_eq hn (hin n hn)]
  exact .ret (hs.step hn (hin n hn))

theorem restored_of_drawn (h : Drawn fb col row px 8 s) :
    forRange 0 1 (fun y ↦ forRange 0 cellW (restorePixel fb s.2 col row y)) s.1 = some px := by
  rw [forRange_one]
  -- from the pixel `n` on the cursor still stands
  have hloop : Yields (forRange 0 cellW (restorePixel fb s.2 col row 0) s.1) fun px' ↦
      ∀ o, (∀ x, cellW ≤ x → x < 8 → o ≠ fb.cursorOffset col row 0 x) → px' o = px o := by
    refine Yields.forRange_index
      (P := fun n (px' : Pixels) ↦ ∀ o, (∀ x, n ≤ x → x < 8 → o ≠ fb.cursorOffset col row 0 x) →
        px' o = px o)
      (Nat.zero_le _) (fun n _ hn px' hs ↦ ?_)
        (fun o ho ↦ h.rest o fun x hx ↦ ho x (Nat.zero_le x) hx)
    have hn : n < 8 := hn
    rw [restorePixel, Nat.zero_mul, Nat.zero_add, Vector.getElem?_eq_getElem hn, h.saved n hn hn]
    refine ⟨_, if_pos (h.inside n hn), fun o ho ↦ ?_⟩
    by_cases heq : o = fb.cursorOffset col row 0 n
    · rw [heq, Function.update_self]
    · rw [Function.update_of_ne heq]
      refine hs o fun x hx hlt ↦ ?_
      obtain hx | rfl := Nat.lt_or_eq_of_le hx
      · exact ho x hx hlt
      · exact heq
  obtain ⟨px', hpx', hsame⟩ := hloop
  rw [hpx', Option.some_inj]
  exact funext fun o ↦ hsame o fun x hx hlt ↦ absurd hlt (Nat.not_lt.2 hx)

end Loops

namespace Tty

variable {fb : Framebuffer} {t t' s : Tty}

def cursorCol (fb : Framebuffer) (t : Tty) : ℕ := min t.consoleCol (fb.width / cellW - 1)
def cursorRow (fb : Framebuffer) (t : Tty) : ℕ := min t.consoleRow (fb.height / cellH - 1)

def NoCursor (fb : Framebuffer) (t : Tty) : Prop :=
  t.cursorEnabled = false ∨ fb.width / cellW = 0 ∨ fb.height / cellH = 0 ∨
    fb.width < t.cursorCol fb * cellW + cellW ∨ fb.height < t.cursorRow fb * cellH + (cellH - 1) + 1

theorem ttyCursorDraw_of_noCursor (h : t.NoCursor fb) : ttyCursorDraw fb t = some t := by
  rw [ttyCursorDraw]
  split
  · rfl
  dsimp only
  split
  · rfl
  rename_i hen hcells
  obtain ⟨hcols, hrows⟩ := not_or.1 hcells
  rw [sub?_of_le (Nat.one_le_iff_ne_zero.2 hcols), sub?_of_le (Nat.one_le_iff_ne_zero.2 hrows)]
  refine if_pos ?_
  obtain h | h | h | h := h
  · exact absurd (by rw [h]; rfl) hen
  · exact absurd h hcols
  · exact absurd h hrows
  · exact h

theorem ttyCursorDraw_of_cursor (h : ¬ t.NoCursor fb) : ttyCursorDraw fb t =
    (forRange 0 1 (fun y ↦ forRange 0 cellW (drawPixel fb (t.cursorCol fb) (t.cursorRow fb) y))
        (t.pixels, t.cursorSavedPixels) >>=
      fun s ↦ some { t with
        pixels := s.1, cursorSavedPixels := s.2
        cursorSavedCol := t.cursorCol fb, cursorSavedRow := t.cursorRow fb, cursorVisible :=
  true }) := by
  simp only [NoCursor, not_or] at h
  obtain ⟨hen, hcols, hrows, hfit⟩ := h
  rw [ttyCursorDraw, if_neg (by simpa using hen)]
  dsimp only
  rw [if_neg (not_or.2 ⟨hcols, hrows⟩), sub?_of_le (Nat.one_le_iff_ne_zero.2 hcols),
    sub?_of_le (Nat.one_le_iff_ne_zero.2 hrows)]
  exact if_neg (not_or.2 hfit)

theorem restore_drawn {px : Pixels} {c : Pixels × Vector UInt32 8} (h : ¬ t.NoCursor fb)
    (hdrawn : Drawn fb (t.cursorCol fb) (t.cursorRow fb) px 8 c) :
    ttyCursorRestore fb { t with
      pixels := c.1, cursorSavedPixels := c.2
      cursorSavedCol := t.cursorCol fb, cursorSavedRow := t.cursorRow fb, cursorVisible := true } =
    some ({ t with pixels := px, cursorVisible := false }.withCursor t.cursorPhase (t.cursorCol fb)
      (t.cursorRow fb) c.2) := by
  simp only [NoCursor, not_or] at h
  obtain ⟨-, -, -, hfit⟩ := h
  rw [ttyCursorRestore, if_neg (by simp)]
  dsimp only
  rw [if_neg (not_or.2 hfit)]
  exact Option.bind_eq_some_iff.2 ⟨px, restored_of_drawn hdrawn, rfl⟩

def Alike (fb : Framebuffer) (t t' : Tty) : Prop :=
  ∃ u u', ttyCursorRestore fb t = some u ∧ ttyCursorRestore fb t' = some u' ∧ Related u u'

theorem draw_alike (ht : t.cursorVisible = false) (h : ttyCursorDraw fb t = some s) :
    Alike fb t s := by
  refine ⟨t, ?_⟩
  by_cases hno : t.NoCursor fb
  · rw [ttyCursorDraw_of_noCursor hno] at h
    obtain rfl := Option.some.inj h
    exact ⟨t, restore_hidden ht, restore_hidden ht, .refl ht⟩
  · rw [ttyCursorDraw_of_cursor hno] at h
    obtain ⟨c, hc, hs⟩ := Option.bind_eq_some_iff.1 h
    obtain rfl := Option.some.inj hs
    exact ⟨_, restore_hidden ht, restore_drawn hno (drawn_of_eq hc),
      ht, rfl, rfl, rfl, rfl, rfl, rfl, rfl, rfl, rfl, rfl, rfl⟩

theorem Alike.symm (h : Alike fb t t') : Alike fb t' t := by
  obtain ⟨u, u', hu, hu', hrel⟩ := h
  exact ⟨u', u, hu', hu, hrel.symm⟩

theorem Alike.trans (h : Alike fb t t') (h' : Alike fb t' s) : Alike fb t s := by
  obtain ⟨u, u', hu, hu', hrel⟩ := h
  obtain ⟨v, v', hv, hv', hrel'⟩ := h'
  rw [hu', Option.some_inj] at hv
  subst hv
  exact ⟨u, v', hu, hv', hrel.trans hrel'⟩

theorem Related.alike (h : Related t t') : Alike fb t t' :=
  ⟨t, t', restore_hidden h.left, restore_hidden h.right, h⟩

theorem draw_related (ht : Related t t') (h : ttyCursorDraw fb t = some s) :
    ∃ s', ttyCursorDraw fb t' = some s' ∧ Alike fb s s' := by
  have hdrawn : ∃ s', ttyCursorDraw fb t' = some s' := by
    rw [ht.eq_withCursor]
    by_cases hno : t.NoCursor fb
    · exact ⟨_, ttyCursorDraw_of_noCursor hno⟩
    · rw [ttyCursorDraw_of_cursor hno] at h
      obtain ⟨c, hc, -⟩ := Option.bind_eq_some_iff.1 h
      obtain ⟨c', hc', -⟩ :=
        @drawn_of_inside _ _ _ t.pixels t'.cursorSavedPixels (drawn_of_eq hc).inside
      rw [ttyCursorDraw_of_cursor (by exact hno)]
      exact ⟨_, Option.bind_eq_some_iff.2 ⟨c', hc', rfl⟩⟩
  obtain ⟨s', hs'⟩ := hdrawn
  exact ⟨s', hs', (draw_alike ht.left h).symm.trans ((ht.alike).trans (draw_alike ht.right hs'))⟩

theorem hidden_of_restore (h : ttyCursorRestore fb t = some s) : s.cursorVisible = false := by
  rw [ttyCursorRestore] at h
  split at h
  · rename_i hv
    obtain rfl := Option.some.inj h
    simpa using hv
  dsimp only at h
  split at h
  · obtain rfl := Option.some.inj h
    rfl
  · obtain ⟨px, -, hs⟩ := Option.bind_eq_some_iff.1 h
    obtain rfl := Option.some.inj hs
    rfl

theorem restore_phase (phase : Bool) (h : ttyCursorRestore fb t = some s) :
    ttyCursorRestore fb { t with cursorPhase := phase } = some { s with cursorPhase := phase } := by
  rw [ttyCursorRestore] at h ⊢
  dsimp only at h ⊢
  split at h
  · rename_i hv
    obtain rfl := Option.some.inj h
    exact if_pos hv
  rename_i hv
  rw [if_neg hv]
  split at h
  · rename_i hfit
    obtain rfl := Option.some.inj h
    exact if_pos hfit
  rename_i hfit
  rw [if_neg hfit]
  obtain ⟨px, hpx, hs⟩ := Option.bind_eq_some_iff.1 h
  obtain rfl := Option.some.inj hs
  exact Option.bind_eq_some_iff.2 ⟨px, hpx, rfl⟩

theorem related_phase (h : t.cursorVisible = false) (phase : Bool) :
    Related t { t with cursorPhase := phase } :=
  related_withCursor h phase t.cursorSavedCol t.cursorSavedRow t.cursorSavedPixels

theorem Alike.phase (h : Alike fb t t') (phase : Bool) :
    Alike fb { t with cursorPhase := phase } t' := by
  obtain ⟨u, u', hu, hu', hrel⟩ := h
  exact ⟨_, u', restore_phase phase hu, hu', (related_phase hrel.left phase).symm.trans hrel⟩

theorem Alike.restore (h : Alike fb t t') (hs : ttyCursorRestore fb t = some s) :
    Alike fb s t' := by
  obtain ⟨u, u', hu, hu', hrel⟩ := h
  rw [hs, Option.some_inj] at hu
  subst hu
  exact ⟨s, u', restore_hidden hrel.left, hu', hrel⟩

theorem suspend_alike (h : Alike fb t t') (hs : consoleFbCursorSuspend fb t = some s) :
    Alike fb s t' := by
  obtain ⟨u, hu, hs⟩ := Option.bind_eq_some_iff.1 hs
  have hv := hidden_of_restore hu
  have hsame : s = { u with cursorPhase := false } := by
    obtain rfl := Option.some.inj hs
    rw [← hv]
  rw [hsame]
  exact (h.restore hu).phase false

theorem blinkTick_alike (h : Alike fb t t') (hs : consoleFbCursorBlinkTick fb t = some s) :
    Alike fb s t' := by
  rw [consoleFbCursorBlinkTick] at hs
  split at hs
  · obtain ⟨u, hu, hs⟩ := Option.bind_eq_some_iff.1 hs
    obtain rfl := Option.some.inj hs
    exact (h.restore hu).phase false
  have hphase := h.phase !t.cursorPhase
  dsimp only at hs
  split at hs
  · split at hs
    · rename_i hv
      exact (draw_alike (by simpa using hv) hs).symm.trans hphase
    · obtain rfl := Option.some.inj hs
      exact hphase
  · exact hphase.restore hs

theorem Agree.of_left {x : Option Tty} (h : Agree (some t) x) :
    ∃ t', x = some t' ∧ Related t t' := by
  cases x with
  | none => exact h.elim
  | some t' => exact ⟨t', rfl, h⟩

theorem Blind.of_eq {f : Tty → Option Tty} (hf : Blind f) (h : Related t t') (hs : f t = some s) :
    ∃ s', f t' = some s' ∧ Related s s' := by
  have hagree := hf t t' h
  rw [hs] at hagree
  exact hagree.of_left

variable {font : Font}

theorem putcEnd_related {cols rows : ℕ} (h : Related t t') (hs : putcEnd fb cols rows t = some s) :
    ∃ s', putcEnd fb cols rows t' = some s' ∧ Alike fb s s' := by
  obtain ⟨u, hu, hs⟩ := Option.bind_eq_some_iff.1 hs
  obtain ⟨lastCol, hlast, hs⟩ := Option.bind_eq_some_iff.1 hs
  obtain ⟨u', hu', hrel⟩ := (blind_putcScroll cols rows).of_eq h hu
  have hrel' : Related { u with consoleCol := min u.consoleCol lastCol, cursorPhase := true }
      { u' with consoleCol := min u'.consoleCol lastCol, cursorPhase := true } := by
    rw [hrel.eq_withCursor]
    exact agree_withCursor _ _ _ _ _ hrel.left
  suffices hend : ∃ s', (if u'.cursorEnabled then
      ttyCursorDraw fb { u' with consoleCol := min u'.consoleCol lastCol, cursorPhase := true }
      else some { u' with consoleCol := min u'.consoleCol lastCol, cursorPhase := true }) =
        some s' ∧ Alike fb s s' by
    obtain ⟨s', hs', halike⟩ := hend
    exact ⟨s', Option.bind_eq_some_iff.2 ⟨u', hu', Option.bind_eq_some_iff.2 ⟨lastCol, hlast, hs'⟩⟩,
      halike⟩
  dsimp only at hs
  split at hs
  · rename_i hen
    rw [if_pos (hrel.same.enabled.symm.trans hen)]
    exact draw_related hrel' hs
  · rename_i hen
    rw [if_neg fun h ↦ hen (hrel.same.enabled.trans h)]
    obtain rfl := Option.some.inj hs
    exact ⟨_, rfl, hrel'.alike⟩

theorem putc_alike {ch : UInt8} (h : Alike fb t t') (hs : consoleFbPutc font fb ch t = some s) :
    ∃ s', consoleFbPutc font fb ch t' = some s' ∧ Alike fb s s' := by
  obtain ⟨u, u', hu, hu', hrel⟩ := h
  rw [consoleFbPutc, hu] at hs
  rw [consoleFbPutc, hu']
  simp only [Option.bind_eq_bind, Option.bind_some] at hs ⊢
  split at hs
  · rename_i haddr
    rw [if_pos haddr]
    obtain rfl := Option.some.inj hs
    exact ⟨u', rfl, hrel.alike⟩
  rename_i haddr
  rw [if_neg haddr]
  split at hs
  · rename_i hcells
    rw [if_pos hcells]
    obtain rfl := Option.some.inj hs
    exact ⟨u', rfl, hrel.alike⟩
  rename_i hcells
  rw [if_neg hcells]
  obtain ⟨v, hv, hs⟩ := Option.bind_eq_some_iff.1 hs
  obtain ⟨v', hv', hrel'⟩ := (blind_putcAnsi _ _ ch).of_eq hrel hv
  obtain ⟨s', hs', halike⟩ := putcEnd_related hrel' hs
  exact ⟨s', Option.bind_eq_some_iff.2 ⟨v', hv', hs'⟩, halike⟩

theorem cls_alike (h : Alike fb t t') (hs : consoleFbCls fb t = some s) :
    ∃ s', consoleFbCls fb t' = some s' ∧ Alike fb s s' := by
  obtain ⟨u, u', hu, hu', hrel⟩ := h
  rw [consoleFbCls, hu] at hs
  rw [consoleFbCls, hu']
  simp only [Option.bind_eq_bind, Option.bind_some] at hs ⊢
  split at hs
  · rename_i hempty
    rw [if_pos hempty]
    obtain rfl := Option.some.inj hs
    refine ⟨_, rfl, Related.alike ?_⟩
    rw [hrel.eq_withCursor]
    exact agree_withCursor _ _ _ _ _ hrel.left
  rename_i hempty
  rw [if_neg hempty]
  obtain ⟨v, hv, hs⟩ := Option.bind_eq_some_iff.1 hs
  obtain ⟨v', hv', hrel'⟩ := (blind_paint _).of_eq hrel hv
  have hhome : Related { v with consoleCol := 0, consoleRow := 0, cursorPhase := true }
      { v' with consoleCol := 0, consoleRow := 0, cursorPhase := true } := by
    rw [hrel'.eq_withCursor]
    exact agree_withCursor _ _ _ _ _ hrel'.left
  obtain ⟨s', hs', halike⟩ := draw_related hhome hs
  exact ⟨s', Option.bind_eq_some_iff.2 ⟨v', hv', hs'⟩, halike⟩

end Tty

def Op.writes : Op → Bool
  | .putc _ => true
  | .cls => true
  | .blinkTick => false
  | .suspend => false

namespace Tty

variable {font : Font} {fb : Framebuffer} {t t' s : Tty}

theorem step_alike {op : Op} (hop : op.writes) (h : Alike fb t t')
    (hs : t.step font fb op = some s) : ∃ s', t'.step font fb op = some s' ∧ Alike fb s s' := by
  cases op with
  | putc ch => exact putc_alike h hs
  | cls => exact cls_alike h hs
  | blinkTick => cases hop
  | suspend => cases hop

theorem step_alike_of_not_writes {op : Op} (hop : ¬ op.writes) (h : Alike fb t t')
    (hs : t.step font fb op = some s) : Alike fb s t' := by
  cases op with
  | putc ch => exact absurd rfl hop
  | cls => exact absurd rfl hop
  | blinkTick => exact blinkTick_alike h hs
  | suspend => exact suspend_alike h hs

theorem run_alike (ops : List Op) (h : Alike fb t t') (hs : t.run font fb ops = some s) :
    ∃ s', t'.run font fb (ops.filter Op.writes) = some s' ∧ Alike fb s s' := by
  rw [run] at hs
  induction ops generalizing t t' with
  | nil =>
    obtain rfl := Option.some.inj hs
    exact ⟨t', rfl, h⟩
  | cons op ops ih =>
    rw [List.foldlM_cons] at hs
    obtain ⟨u, hu, hs⟩ := Option.bind_eq_some_iff.1 hs
    by_cases hop : op.writes
    · obtain ⟨u', hu', halike⟩ := step_alike hop h hu
      obtain ⟨s', hs', halike'⟩ := ih halike hs
      rw [List.filter_cons_of_pos hop]
      exact ⟨s', by rw [run, List.foldlM_cons]; exact Option.bind_eq_some_iff.2 ⟨u', hu', hs'⟩,
        halike'⟩
    · rw [List.filter_cons_of_neg hop]
      exact ih (step_alike_of_not_writes hop h hu) hs

theorem step_yields_of_no_cells (hp : 4 * fb.width ≤ fb.pitch)
    (hcells : fb.maxCols = 0 ∨ fb.maxRows = 0) (op : Op) :
    Yields (t.step font fb op) fun _ ↦ True := by
  cases op with
  | putc ch =>
    refine (ttyCursorRestore_yields hp).bind fun u _ ↦ ?_
    split
    · exact .ret trivial
    · exact ⟨u, if_pos hcells, trivial⟩
  | cls =>
    refine (ttyCursorRestore_yields hp).bind fun u _ ↦ ?_
    split
    · exact .ret trivial
    · refine (paint_yields (clearFramebuffer_unfailing hp)).bind fun v _ ↦ ?_
      exact (ttyCursorDraw_yields hp).mono fun _ _ ↦ trivial
  | blinkTick => exact (consoleFbCursorBlinkTick_yields hp).mono fun _ _ ↦ trivial
  | suspend => exact (consoleFbCursorSuspend_yields hp).mono fun _ _ ↦ trivial

theorem run_init_yields (hp : 4 * fb.width ≤ fb.pitch) (pixels : Pixels) (ops : List Op) :
    Yields (Tty.run font fb ops (init pixels)) fun _ ↦ True := by
  by_cases hcells : 1 ≤ fb.maxCols ∧ 1 ≤ fb.maxRows
  · exact (run_yields hp ops (init_bounds pixels hcells.1 hcells.2)).mono fun _ _ ↦ trivial
  · exact .foldlM (fun op _ _ _ ↦ step_yields_of_no_cells hp (by omega) op) trivial

end Tty

/-- Whatever the console is given from boot on, the blinking cursor leaves no trace: taken off the
screen at the end, it leaves the pixels, the position and the parser as if it had never blinked. On
a screen whose lines hold its pixels no run fails. -/
theorem cursor_transparent (font : Font) (fb : Framebuffer) (pixels : Pixels) (ops : List Op) :
    (4 * fb.width ≤ fb.pitch → ∃ t, Tty.run font fb ops (Tty.init pixels) = some t) ∧
    ∀ t, Tty.run font fb ops (Tty.init pixels) = some t → ∃ t' u u',
      Tty.run font fb (ops.filter Op.writes) (Tty.init pixels) = some t' ∧
      t.ttyCursorRestore fb = some u ∧ t'.ttyCursorRestore fb = some u' ∧ u.SamePicture u' := by
  refine ⟨fun hp ↦ ?_, fun t ht ↦ ?_⟩
  · obtain ⟨t, ht, -⟩ := @Tty.run_init_yields font _ hp pixels ops
    exact ⟨t, ht⟩
  · have hinit : Tty.Alike fb (Tty.init pixels) (Tty.init pixels) := (Tty.Related.refl rfl).alike
    obtain ⟨t', ht', u, u', hu, hu', hrel⟩ := Tty.run_alike ops hinit ht
    exact ⟨t', u, u', ht', hu, hu', hrel.same⟩

/-- Two letters with the cursor blinking between them and hidden after them. -/
theorem cursor_transparent_letters : ∃ t t' u u',
    Tty.run (Vector.replicate 1536 0) ⟨0xfd000000, 640, 400, 2560⟩
      [.blinkTick, .putc 65, .blinkTick, .putc 66, .suspend] (Tty.init fun _ ↦ 0) = some t ∧
    Tty.run (Vector.replicate 1536 0) ⟨0xfd000000, 640, 400, 2560⟩ [.putc 65, .putc 66]
      (Tty.init fun _ ↦ 0) = some t' ∧
    t.ttyCursorRestore ⟨0xfd000000, 640, 400, 2560⟩ = some u ∧
    t'.ttyCursorRestore ⟨0xfd000000, 640, 400, 2560⟩ = some u' ∧
    u.SamePicture u' := by
  obtain ⟨hrun, hsame⟩ := cursor_transparent (Vector.replicate 1536 0) ⟨0xfd000000, 640, 400, 2560⟩
    (fun _ ↦ 0) [.blinkTick, .putc 65, .blinkTick, .putc 66, .suspend]
  obtain ⟨t, ht⟩ := hrun (by decide)
  obtain ⟨t', u, u', ht', hu, hu', h⟩ := hsame t ht
  exact ⟨t, t', u, u', ht, ht', hu, hu', h⟩

end YabroOS.Console
