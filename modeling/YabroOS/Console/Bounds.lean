import YabroOS.Console.Tty

namespace YabroOS.Console

open Lib Framebuffer

/-- While a control sequence is open, its parameters are within the array and within 16 bits. -/
def Tty.CsiBounds (t : Tty) : Prop :=
  t.ansiState = .csi → 1 ≤ t.ansiParamCount ∧ t.ansiParamCount ≤ 8 ∧
    ∀ (i : ℕ) (h : i < 8), t.ansiParams[i] ≤ 65535

structure Tty.Bounds (fb : Framebuffer) (t : Tty) : Prop where
  col_lt : t.consoleCol < fb.maxCols
  row_lt : t.consoleRow < fb.maxRows
  csi : t.CsiBounds

namespace Tty

/-- The two states differ at most in what is on the screen and in the cursor that is drawn on it. -/
structure SameText (t t' : Tty) : Prop where
  col : t'.consoleCol = t.consoleCol
  row : t'.consoleRow = t.consoleRow
  state : t'.ansiState = t.ansiState
  params : t'.ansiParams = t.ansiParams
  count : t'.ansiParamCount = t.ansiParamCount

variable {font : Font} {fb : Framebuffer} {t t' : Tty}

theorem SameText.refl (t : Tty) : SameText t t := ⟨rfl, rfl, rfl, rfl, rfl⟩

theorem SameText.csiBounds (h : SameText t t') (ht : t.CsiBounds) : t'.CsiBounds := by
  rw [CsiBounds, h.state, h.count, h.params]
  exact ht

theorem SameText.bounds (h : SameText t t') (ht : t.Bounds fb) : t'.Bounds fb where
  col_lt := h.col ▸ ht.col_lt
  row_lt := h.row ▸ ht.row_lt
  csi := h.csiBounds ht.csi

theorem csiBounds_of_ne (h : t.ansiState ≠ .csi) : t.CsiBounds := fun h' ↦ absurd h' h

theorem paint_yields {f : Pixels → Option Pixels} (hf : Unfailing f) :
    Yields (paint f t) (SameText t) :=
  (hf t.pixels).bind fun _ _ ↦ .ret ⟨rfl, rfl, rfl, rfl, rfl⟩

variable (hp : 4 * fb.width ≤ fb.pitch)
include hp

theorem ttyCursorRestore_yields : Yields (ttyCursorRestore fb t) (SameText t) := by
  rw [ttyCursorRestore]
  split
  · exact .ret (.refl t)
  dsimp only
  split
  · exact .ret ⟨rfl, rfl, rfl, rfl, rfl⟩
  rename_i h
  refine Yields.bind (Unfailing.forRange (fun y _ hy ↦ .forRange fun x _ hx px ↦ ?_) t.pixels)
    fun px _ ↦ ?_
  · have hidx : y * cellW + x < 8 := by
      simp only [cellW] at hx ⊢
      omega
    rw [Vector.getElem?_eq_getElem hidx]
    exact writePixel_unfailing (inside hp (by omega) (by omega)) px
  · exact .ret ⟨rfl, rfl, rfl, rfl, rfl⟩

theorem ttyCursorDraw_yields : Yields (ttyCursorDraw fb t) (SameText t) := by
  rw [ttyCursorDraw]
  split
  · exact .ret (.refl t)
  dsimp only
  split
  · exact .ret (.refl t)
  rename_i h
  obtain ⟨hcols, hrows⟩ := not_or.1 h
  rw [sub?_of_le (Nat.one_le_iff_ne_zero.2 hcols), sub?_of_le (Nat.one_le_iff_ne_zero.2 hrows)]
  simp only [Option.bind_eq_bind, Option.bind_some]
  split
  · exact .ret (.refl t)
  rename_i hfit
  refine Yields.bind (Unfailing.forRange (fun y _ hy ↦ .forRange fun x _ hx ↦ ?_) _) fun s _ ↦ ?_
  · rintro ⟨px, saved⟩
    have hin : fb.Inside ((min t.consoleRow (fb.height / cellH - 1) * cellH + (cellH - 1) + y) *
        fb.pitchPixels +
        (min t.consoleCol (fb.width / cellW - 1) * cellW + x)) := inside hp (by omega) (by omega)
    have hidx : y * cellW + x < 8 := by
      simp only [cellW] at hx ⊢
      omega
    simp only [readPixel, if_pos hin, dif_pos hidx, Option.bind_some]
    exact (writePixel_unfailing hin px).bind fun _ _ ↦ .ret trivial
  · exact .ret ⟨rfl, rfl, rfl, rfl, rfl⟩

theorem consoleFbCursorSuspend_yields : Yields (consoleFbCursorSuspend fb t) (SameText t) :=
  (ttyCursorRestore_yields hp).bind fun _ h ↦ .ret ⟨h.col, h.row, h.state, h.params, h.count⟩

theorem consoleFbCursorBlinkTick_yields : Yields (consoleFbCursorBlinkTick fb t) (SameText t) := by
  rw [consoleFbCursorBlinkTick]
  split
  · exact (ttyCursorRestore_yields hp).bind fun _ h ↦ .ret ⟨h.col, h.row, h.state, h.params, h.count⟩
  dsimp only
  split
  · split
    · exact (ttyCursorDraw_yields hp).mono fun _ h ↦ ⟨h.col, h.row, h.state, h.params, h.count⟩
    · exact .ret ⟨rfl, rfl, rfl, rfl, rfl⟩
  · exact (ttyCursorRestore_yields hp).mono fun _ h ↦ ⟨h.col, h.row, h.state, h.params, h.count⟩

omit hp in
theorem ttyParam_yields (index default : ℕ) (h : t.ansiParamCount ≤ 8) :
    Yields (ttyParam t index default) fun _ ↦ True := by
  rw [ttyParam]
  split
  · exact .ret trivial
  · rw [Vector.getElem?_eq_getElem (by omega)]
    exact .ret trivial

theorem setMode_yields (enable : Bool) {i : ℕ} (hi : i < 8) :
    Unfailing (setMode font fb fb.maxCols fb.maxRows enable i) := by
  intro t
  rw [setMode, Vector.getElem?_eq_getElem hi]
  simp only [Option.bind_eq_bind, Option.bind_some]
  split
  · split
    · exact (ttyCursorRestore_yields hp).bind fun _ _ ↦ .ret trivial
    · exact .ret trivial
  split
  · refine (paint_yields (ttyClearScreen_unfailing hp)).bind fun _ _ ↦ ?_
    split <;> exact .ret trivial
  · exact .ret trivial

theorem ttyCsiExecute_yields (finalByte : UInt8) (h : t.ansiParamCount ≤ 8) :
    Yields (ttyCsiExecute font fb fb.maxCols fb.maxRows finalByte t) fun _ ↦ True := by
  have hpaint : ∀ {f t}, Unfailing f → Yields (paint f t) fun _ ↦ True :=
    fun hf ↦ (paint_yields hf).mono fun _ _ ↦ trivial
  have hclear : ∀ {row first last}, Unfailing (ttyClearCells font fb fb.maxCols row first last) :=
    fun {_ _ _} ↦ ttyClearCells_unfailing hp _ _
  rw [ttyCsiExecute]
  refine (ttyParam_yields 0 1 h).bind fun n _ ↦ ?_
  -- the cases are those of the final byte, and within `J` and `K` those of the first parameter
  split
  case h_9 => exact (ttyParam_yields 1 1 h).bind fun _ _ ↦ .ret trivial
  case h_10 => exact (ttyParam_yields 1 1 h).bind fun _ _ ↦ .ret trivial
  case h_11 =>
    split
    · exact (hpaint hclear).bind fun _ _ ↦ hpaint (.forRange fun _ _ _ ↦ hclear)
    · exact (hpaint (.forRange fun _ _ _ ↦ hclear)).bind fun _ _ ↦ hpaint hclear
    · exact hpaint (ttyClearScreen_unfailing hp)
    · exact hpaint (ttyClearScreen_unfailing hp)
    · exact .ret trivial
  case h_12 =>
    split
    · exact hpaint hclear
    · exact hpaint hclear
    · exact hpaint hclear
    · exact .ret trivial
  case h_13 => exact hpaint hclear
  case h_14 => exact hpaint (ttyShiftRow_unfailing hp _ _)
  case h_15 => exact hpaint (ttyShiftRow_unfailing hp _ _)
  case h_16 => exact hpaint (ttyShiftLines_unfailing hp _ _)
  case h_17 => exact hpaint (ttyShiftLines_unfailing hp _ _)
  case h_18 => exact hpaint (ttyShiftLines_unfailing hp _ _)
  case h_19 => exact hpaint (ttyShiftLines_unfailing hp _ _)
  case h_22 =>
    split
    · refine Yields.bind
        (Yields.forRange (fun i _ hi t _ ↦ setMode_yields hp _ (by omega) t) trivial) ?_
      exact fun _ _ ↦ .ret trivial
    · exact .ret trivial
  case h_23 =>
    split
    · refine Yields.bind
        (Yields.forRange (fun i _ hi t _ ↦ setMode_yields hp _ (by omega) t) trivial) ?_
      exact fun _ _ ↦ .ret trivial
    · exact .ret trivial
  all_goals exact .ret trivial

theorem putcEscape_yields (ch : UInt8) (hcols : 1 ≤ fb.maxCols) (hrows : 1 ≤ fb.maxRows) :
    Yields (putcEscape font fb fb.maxCols fb.maxRows ch t) CsiBounds := by
  rw [putcEscape]
  dsimp only
  split
  case h_1 =>
    -- the sequence opens with one parameter, and all of them are zero
    refine .ret fun _ ↦ ⟨le_rfl, by simp, fun i hi ↦ ?_⟩
    simp
  case h_17 =>
    rw [sub?_of_le hcols, sub?_of_le hrows]
    exact .ret (csiBounds_of_ne (by simp))
  case h_18 =>
    refine (paint_yields (ttyClearScreen_unfailing hp)).bind fun t' h ↦ .ret (csiBounds_of_ne ?_)
    simp [h.state]
  case h_22 =>
    refine .ret (csiBounds_of_ne ?_)
    split <;> simp
  all_goals exact .ret (csiBounds_of_ne (by simp))

omit hp in
theorem CsiBounds.digit (h : t.CsiBounds) {idx param : ℕ} (hidx : idx < 8)
    (hparam : param ≤ 65535) : CsiBounds { t with ansiParams := t.ansiParams.set idx param } := by
  intro hs
  obtain ⟨h₁, h₂, hle⟩ := h hs
  refine ⟨h₁, h₂, fun i hi ↦ ?_⟩
  dsimp only
  rw [Vector.getElem_set]
  split
  · exact hparam
  · exact hle i hi

omit hp in
theorem CsiBounds.semicolon (h : t.CsiBounds) (hlt : t.ansiParamCount < 8) :
    CsiBounds { t with ansiParamCount := t.ansiParamCount + 1 } := by
  intro hs
  obtain ⟨-, -, hle⟩ := h hs
  exact ⟨Nat.le_add_left _ _, hlt, hle⟩

theorem putcCsi_yields (ch : UInt8) (h : t.CsiBounds) (hs : t.ansiState = .csi) :
    Yields (putcCsi font fb fb.maxCols fb.maxRows ch t) CsiBounds := by
  rw [putcCsi]
  split
  · have hidx : min (t.ansiParamCount - 1) 7 < 8 := by omega
    dsimp only
    rw [dif_pos hidx]
    exact .ret (h.digit hidx (min_le_right _ _))
  split
  · refine .ret ?_
    split
    · rename_i hlt
      exact h.semicolon hlt
    · exact h
  split
  · exact .ret h
  split
  · exact .ret h
  split
  · refine (ttyCsiExecute_yields hp ch (h hs).2.1).bind fun _ _ ↦ ?_
    exact .ret (csiBounds_of_ne (by simp))
  split
  · exact .ret h
  · exact .ret (csiBounds_of_ne (by simp))

theorem putcGround_yields (ch : UInt8) (h : t.Bounds fb) (hs : t.ansiState = .ground) :
    Yields (putcGround font fb fb.maxCols fb.maxRows ch t) CsiBounds := by
  have hcol := h.col_lt
  have hne : t.ansiState ≠ .csi := by simp [hs]
  rw [putcGround]
  split
  · exact .ret (csiBounds_of_ne (by simp))
  split
  · exact .ret (csiBounds_of_ne hne)
  split
  · exact .ret (csiBounds_of_ne hne)
  split
  · rw [sub?_of_le (show 1 ≤ fb.maxCols by omega)]
    exact .ret (csiBounds_of_ne hne)
  split
  · split
    · have hdraw : Unfailing (drawChar font fb 32 (t.consoleCol - 1) t.consoleRow) :=
        drawChar_unfailing hp 32 (by omega) h.row_lt
      exact (paint_yields hdraw).mono fun t' h' ↦ h'.csiBounds (csiBounds_of_ne hne)
    · exact .ret (csiBounds_of_ne hne)
  split
  · exact .ret (csiBounds_of_ne hne)
  · rw [if_pos ⟨h.row_lt, hcol⟩]
    refine (paint_yields (drawChar_unfailing hp ch hcol h.row_lt)).bind fun t' h' ↦
      .ret (csiBounds_of_ne ?_)
    dsimp only
    split <;> simp [h'.state, hs]

theorem putcAnsi_yields (ch : UInt8) (h : t.Bounds fb) :
    Yields (putcAnsi font fb fb.maxCols fb.maxRows ch t) CsiBounds := by
  have hcol := h.col_lt
  have hrow := h.row_lt
  rw [putcAnsi]
  split
  · exact putcEscape_yields hp ch (by omega) (by omega)
  · rename_i hs
    exact putcCsi_yields hp ch h.csi hs
  · exact .ret (csiBounds_of_ne (by simp))
  · rename_i hs
    split
    · exact .ret (csiBounds_of_ne (by simp))
    split
    · exact .ret (csiBounds_of_ne (by simp))
    · exact .ret (csiBounds_of_ne (by simp [hs]))
  · rename_i hs
    split
    · exact .ret (csiBounds_of_ne (by simp))
    split
    · exact .ret (csiBounds_of_ne (by simp))
    · exact .ret (csiBounds_of_ne (by simp [hs]))
  · rename_i hs
    exact putcGround_yields hp ch h hs

theorem putcScroll_yields (hrows : 1 ≤ fb.maxRows) (h : t.CsiBounds) :
    Yields (putcScroll fb fb.maxCols fb.maxRows t) fun t' ↦ t'.consoleRow < fb.maxRows ∧
      t'.CsiBounds := by
  rw [putcScroll]
  split
  · refine (paint_yields (scrollScreen_unfailing hp hrows)).bind fun t' h' ↦ ?_
    rw [sub?_of_le hrows]
    refine .ret ⟨?_, h'.csiBounds h⟩
    dsimp only
    omega
  · rename_i hlt
    exact .ret ⟨by omega, h⟩

theorem putcEnd_yields (hcols : 1 ≤ fb.maxCols) (hrows : 1 ≤ fb.maxRows) (h : t.CsiBounds) :
    Yields (putcEnd fb fb.maxCols fb.maxRows t) (Bounds fb) := by
  rw [putcEnd]
  refine (putcScroll_yields hp hrows h).bind fun t ⟨hrow, hcsi⟩ ↦ ?_
  rw [sub?_of_le hcols]
  have hb : Bounds fb
      { t with consoleCol := min t.consoleCol (fb.maxCols - 1), cursorPhase := true } := by
    refine ⟨?_, hrow, hcsi⟩
    dsimp only
    omega
  simp only [Option.bind_eq_bind, Option.bind_some]
  split
  · exact (ttyCursorDraw_yields hp).mono fun t' h' ↦ h'.bounds hb
  · exact .ret hb

theorem consoleFbPutc_yields (ch : UInt8) (h : t.Bounds fb) :
    Yields (consoleFbPutc font fb ch t) (Bounds fb) := by
  have hcols : 1 ≤ fb.maxCols := by have := h.col_lt; omega
  have hrows : 1 ≤ fb.maxRows := by have := h.row_lt; omega
  rw [consoleFbPutc]
  refine (ttyCursorRestore_yields hp).bind fun t' h' ↦ ?_
  have hb := h'.bounds h
  split
  · exact .ret hb
  dsimp only
  split
  · exact .ret hb
  · exact (putcAnsi_yields hp ch hb).bind fun _ hcsi ↦ putcEnd_yields hp hcols hrows hcsi

theorem consoleFbCls_yields (h : t.Bounds fb) : Yields (consoleFbCls fb t) (Bounds fb) := by
  have hcols := h.col_lt
  have hrows := h.row_lt
  rw [consoleFbCls]
  refine (ttyCursorRestore_yields hp).bind fun t' h' ↦ ?_
  have hcsi := h'.csiBounds h.csi
  split
  · exact .ret ⟨Nat.zero_lt_of_lt hcols, Nat.zero_lt_of_lt hrows, hcsi⟩
  · refine (paint_yields (clearFramebuffer_unfailing hp)).bind fun t₂ h₂ ↦ ?_
    refine (ttyCursorDraw_yields hp).mono fun t₃ h₃ ↦ h₃.bounds ?_
    exact ⟨Nat.zero_lt_of_lt hcols, Nat.zero_lt_of_lt hrows, h₂.csiBounds hcsi⟩

theorem step_yields (op : Op) (h : t.Bounds fb) : Yields (t.step font fb op) (Bounds fb) := by
  cases op with
  | putc ch => exact consoleFbPutc_yields hp ch h
  | cls => exact consoleFbCls_yields hp h
  | blinkTick => exact (consoleFbCursorBlinkTick_yields hp).mono fun _ h' ↦ h'.bounds h
  | suspend => exact (consoleFbCursorSuspend_yields hp).mono fun _ h' ↦ h'.bounds h

theorem run_yields (ops : List Op) (h : t.Bounds fb) : Yields (t.run font fb ops) (Bounds fb) :=
  .foldlM (fun op _ _ h ↦ step_yields hp op h) h

omit hp in
theorem init_bounds (pixels : Pixels) (hcols : 1 ≤ fb.maxCols) (hrows : 1 ≤ fb.maxRows) :
    (init pixels).Bounds fb :=
  ⟨hcols, hrows, csiBounds_of_ne (by simp [init])⟩

end Tty

/-- From boot on, whatever bytes the console is given and whenever it is cleared, blinked or
suspended: no pixel outside the screen is touched, no index or subtraction is out of range, and
between the bytes the cursor is on the screen. -/
theorem console_in_bounds (font : Font) (fb : Framebuffer) (hp : 4 * fb.width ≤ fb.pitch)
    (hcols : 1 ≤ fb.maxCols) (hrows : 1 ≤ fb.maxRows) (pixels : Pixels) (ops : List Op) :
    ∃ t, Tty.run font fb ops (Tty.init pixels) = some t ∧ t.Bounds fb :=
  Tty.run_yields hp ops (Tty.init_bounds pixels hcols hrows)

/-- A screen of 80 by 25 cells, a cursor sent far off it, and an insertion of lines. -/
theorem console_in_bounds_text_mode :
    ∃ t, Tty.run (Vector.replicate 1536 0) ⟨0xfd000000, 640, 400, 2560⟩
      ([27, 91, 57, 57, 57, 59, 57, 57, 57, 72, 27, 91, 57, 76, 65, 10].map Op.putc ++
        [.blinkTick, .cls])
      (Tty.init fun _ ↦ 0) = some t ∧ t.Bounds ⟨0xfd000000, 640, 400, 2560⟩ :=
  console_in_bounds _ _ (by decide) (by decide) (by decide) _ _

end YabroOS.Console
